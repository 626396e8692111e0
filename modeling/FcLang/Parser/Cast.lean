import FcLang.Parser.ConstArith

/-!
# What a tentative cast reads

Behind a `(` that looks like a cast, a type is read from what may be an
expression. The expression is a name, a name under `!` and `?`, or an indexing
that reads as a fixed array; from any other the type ends before a token that
is not the `)`.
-/

namespace FcLang.Parser
open Ctx
open Lexer (TokenKind)

/-- The type that is read ends before a token other than `)`. -/
def Stops (x : Parse TypeTree) (s : State) : Prop :=
  ∃ t s', x s = some (t, s') ∧ s'.kind 0 ≠ .rparen ∧ t.StubLed

section
variable {g : List Name} {K w : List Tok} {c : Ctx} {s : State} {base : TypeTree} {t : Tok}

/-- The type under one more `!` or `?`. -/
def PostfixOp.typeOf (base : TypeTree) : PostfixOp → TypeTree
  | .bang => .result base
  | .question => .option base

/-- A name's type, under the marks that follow it. -/
def TypeTree.Named (t : TypeTree) : Prop := ∃ name, t.underMarks = .stub name []

theorem TypeTree.Named.mark {t : TypeTree} (h : t.Named) (op : PostfixOp) :
    (op.typeOf t).Named ∧ (op.typeOf t).isMarked = true := by
  cases op <;> exact ⟨h, rfl⟩

namespace Written

section
variable (hK : endsLine (peekAt K 0) = true) (hc : c.genericNames = g)
  {n : ℕ} (hex : ∀ x : Written, x.toks.length < n → Exact g K castFree x)
include hK hc hex

end
end Written
end
end FcLang.Parser
