import FcLang.Parser.Spoiled

/-!
# The parser inverts printing

Read from the start of a printed line, the parser stops at its end with the tree
that was written, unless fixed arrays are allowed and a parenthesis of the line
is taken for a cast to one.
-/

namespace FcLang.Parser
open Ctx
open Lexer (TokenKind bytes)

/-- A parked `>>` lies behind the current token, and no error is held outside a speculation. -/
structure State.Ready (s : State) : Prop where
  parked : ∀ k, s.halfGt = some k → s.rest.length < k
  held : s.depth = 0 → s.held = 0

/-- `parse_expr` consumes the line and returns its tree; a parked `>>` may be gone. -/
def ReadsBack (c : Ctx) (s : State) (e : Written) (K : List Tok) : Prop :=
  ∃ half, parseExpr c precAssign s = some (e.tree c.inConstExpr, { s with rest := K, halfGt := half })

section
variable {c : Ctx} {s : State} {e : Written} {K : List Tok}

theorem State.Ready.at (hs : s.Ready) (hrest : s.rest = e.toks ++ K)
    (hn : e.Names (PlainName c.genericNames)) : At c.genericNames K s (e.toks ++ []) := by
  refine ⟨by simpa using hrest, (e.balanced hn).good good_nil, fun k hk => ?_, hs.held⟩
  have := hs.parked k hk
  exact ⟨this.le, fun he => by omega⟩

end

end FcLang.Parser
