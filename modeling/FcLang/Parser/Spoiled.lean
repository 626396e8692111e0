import FcLang.Parser.Exact

/-!
# What is taken for a cast is not read back

A parenthesis that is taken for a cast leaves a cast in the tree, and whatever
is built over it keeps it. No written expression has one.
-/

namespace FcLang.Parser
open Ctx
open Lexer (TokenKind)

/-- A cast or an error is somewhere in the tree. -/
inductive Tainted : Expr → Prop where
  | cast {target : TypeTree} {operand : Expr} {size : Option ℕ} : Tainted (.cast target operand size)
  | error : Tainted .error
  | unaryPrefix {op : TokenKind} {e : Expr} (h : Tainted e) : Tainted (.unaryPrefix op e)
  | unaryPostfix {op : TokenKind} {e : Expr} {text : List Tok} (h : Tainted e) :
    Tainted (.unaryPostfix op e text)
  | field {e : Expr} {name : Name} {args : List TypeTree} (h : Tainted e) :
    Tainted (.field e name args)
  | indexed {e i : Expr} (h : Tainted e) : Tainted (.index e i)
  | index {e i : Expr} (h : Tainted i) : Tainted (.index e i)
  | sliced {e : Expr} {lo hi : Option Expr} (h : Tainted e) : Tainted (.slice e lo hi)
  | lo {e x : Expr} {hi : Option Expr} (h : Tainted x) : Tainted (.slice e (some x) hi)
  | hi {e x : Expr} {lo : Option Expr} (h : Tainted x) : Tainted (.slice e lo (some x))
  | called {e : Expr} {args : List Expr} {ts : List TypeTree} {bare : Bool} (h : Tainted e) :
    Tainted (.call e args ts bare)
  | arg {e x : Expr} {args : List Expr} {ts : List TypeTree} {bare : Bool} (hx : x ∈ args)
    (h : Tainted x) : Tainted (.call e args ts bare)
  | left {op : TokenKind} {l r : Expr} (h : Tainted l) : Tainted (.binary op l r)
  | right {op : TokenKind} {l r : Expr} (h : Tainted r) : Tainted (.binary op l r)
  | target {l r : Expr} (h : Tainted l) : Tainted (.assign l r)
  | value {l r : Expr} (h : Tainted r) : Tainted (.assign l r)
  | stmt {x : Expr} {stmts : List Expr} (hx : x ∈ stmts) (h : Tainted x) : Tainted (.block stmts)

namespace Written

end Written

/-- Whatever the computation returns satisfies `P`. -/
def Yields {α : Type} (x : Parse α) (s : State) (P : α → Prop) : Prop :=
  ∀ a s', x s = some (a, s') → P a

section
variable {g : List Name} {K w : List Tok} {c : Ctx} {m : ℕ} {s : State} {t : Tok} {start : Start}
  {left : Expr} {α β : Type} {Q : β → Prop}

theorem Yields.pure {a : α} {P : α → Prop} (h : P a) : Yields (pure a) s P := by
  rintro _ _ ⟨⟩
  exact h

theorem Yields.bind {x : Parse α} {f : α → Parse β}
    (h : ∀ a s', x s = some (a, s') → Yields (f a) s' Q) : Yields (x >>= f) s Q := by
  intro b s'' hrun
  rw [bind_run] at hrun
  cases hx : x s with
  | none => simp [hx] at hrun
  | some p =>
    obtain ⟨a, s'⟩ := p
    rw [hx] at hrun
    exact h a s' hx b s'' hrun

theorem Yields.some {e : Expr} (h : Tainted e) :
    Yields (Pure.pure (Option.some e)) s fun r => ∀ e, r = Option.some e → Tainted e :=
  Yields.pure fun _ he => Option.some.inj he ▸ h

section
variable (hK : endsLine (peekAt K 0) = true) (hc : c.genericNames = g)
include hK hc

end
end

namespace Written
section
variable {g : List Name} {K : List Tok} (hK : endsLine (peekAt K 0) = true)
include hK

end
end Written
end FcLang.Parser
