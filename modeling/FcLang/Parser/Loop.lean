import FcLang.Parser.Total

/-!
# One turn of the operator loop

`exprLoop` either stops, at an operator that binds less tightly than it was
asked for, or reads one infix form. `Exact` says that a written expression is
read up to its end and handed to the loop as its own tree.
-/

namespace FcLang.Parser
open Ctx
open Lexer (TokenKind)

/-- The parser has read up to `w`, and nothing else happened but that a parked `>>` may be gone. -/
def Past (g : List Name) (K : List Tok) (s : State) (w : List Tok) (s' : State) : Prop :=
  (∃ half, s' = { s with rest := w ++ K, halfGt := half }) ∧ At g K s' w

/-- What the last operand of an expression is read at. -/
def Written.rightMin : Written → ℕ
  | .assign _ _ => precAssign
  | .binary op _ _ => op.prec + 1
  | .unary _ _ => precPrefix
  | _ => precPostfix + 1

/-- No parenthesis of `e` is read as a cast while fixed arrays are allowed. -/
def Exact (g : List Name) (K : List Tok) (free : Written → Prop) (e : Written) : Prop :=
  ∀ ⦃c : Ctx⦄ ⦃m : ℕ⦄ ⦃s : State⦄ ⦃w : List Tok⦄, c.genericNames = g →
    (c.allowFixedArray = true → free e) → e.Fits → e.Names (PlainName g) → m ≤ e.level →
    At g K s (e.toks ++ w) → infixPrec (peekAt (w ++ K) 0) < e.rightMin →
    ∃ s', Past g K s w s' ∧
      parseExpr c m s = exprLoop c m ⟨s.rest, s.errors⟩ (e.tree c.inConstExpr) s'

section
variable {g : List Name} {K w w' : List Tok} {s s' s'' : State} {c : Ctx} {m : ℕ}

theorem Past.refl (h : At g K s w) : Past g K s w s :=
  ⟨⟨s.halfGt, by rw [← h.rest]⟩, h⟩

theorem Past.trans (h : Past g K s w s') (h' : Past g K s' w' s'') : Past g K s w' s'' := by
  obtain ⟨⟨half, rfl⟩, _⟩ := h
  obtain ⟨⟨half', rfl⟩, ha⟩ := h'
  exact ⟨⟨half', rfl⟩, ha⟩

theorem At.past_advance {t : Tok} (h : At g K s (t :: w)) : Past g K s w s.advance :=
  ⟨⟨s.halfGt, h.advance_eq⟩, h.advance.reached⟩

theorem Past.errors (h : Past g K s w s') : s'.errors = s.errors := by
  obtain ⟨⟨half, rfl⟩, _⟩ := h
  rfl

theorem Past.rest (h : Past g K s w s') : s'.rest = w ++ K := h.2.rest

theorem advance_run {t : Tok} (h : At g K s (t :: w)) : advance s = some (t, s.advance) := by
  rw [advance, h.current]

theorem expect_run {t : Tok} {k : TokenKind} (h : At g K s (t :: w)) (hk : t.kind = k) :
    expect k s = some (t, s.advance) := by
  rw [expect_of_eq (h.kind_zero.trans hk), h.current]

/-- The operator loop stops at a weaker operator, or at what is none. -/
theorem exprLoop_stop {start : Start} {left : Expr} (hw : At g K s w)
    (hK : endsLine (peekAt K 0) = true) (hgate : gateGenericName c left = false)
    (hprec : infixPrec (peekAt (w ++ K) 0) = 0 ∨ infixPrec (peekAt (w ++ K) 0) < m) :
    exprLoop c m start left s = some (left, s) := by
  have hk : s.kind 0 = peekAt (w ++ K) 0 := by rw [State.kind, hw.rest]
  have hon := hw.kind_onLine hK
  have harrow : s.kind 0 ≠ .arrow := kind_ne hon rfl
  rw [exprLoop, bind_run, get_run, Option.bind_some]
  simp only [harrow, and_false, if_false, hgate, Bool.false_eq_true, false_and]
  rw [if_pos (by rw [hk]; exact hprec), pure_run]

/-- The operator loop reads an operator that binds tightly enough. -/
theorem exprLoop_step {start : Start} {left : Expr} {t : Tok} (hw : At g K s (t :: w))
    (hgate : gateGenericName c left = false) (hop : infixPrec t.kind ≠ 0)
    (hm : m ≤ infixPrec t.kind) :
    exprLoop c m start left s = (parseInfix c start left t.kind s.advance).bind
      fun p => exprLoop c m start p.1 p.2 := by
  have hk := hw.kind_zero
  have harrow : t.kind ≠ .arrow := by
    rintro he
    have := hw.good.1.kind
    rw [he] at this
    simp [inLine] at this
  rw [exprLoop, bind_run, get_run, Option.bind_some]
  simp only [hk, harrow, and_false, if_false, hgate, Bool.false_eq_true, false_and]
  rw [if_neg (by simp only [precNone]; omega), bind_run, advance_run hw, Option.bind_some, bind_run]

namespace Written

theorem gate_tree (e : Written) (hn : e.Names (PlainName c.genericNames)) (b : Bool) :
    gateGenericName c (e.tree b) = false := by
  induction e with
  | ident name => simpa [tree, gateGenericName] using hn.1
  | lit l => cases l <;> rfl
  | paren e ih => exact ih hn
  | field e name ih => simpa [tree, gateGenericName] using hn.2.1
  | suffixed op e ih => cases op <;> rfl
  | unary op e ih => rfl
  | index e i _ _ => rfl
  | slice e lo hi _ _ _ => rfl
  | call e args _ _ => rfl
  | binary op l r _ _ => rfl
  | assign l r _ _ => rfl

theorem BinaryOp.prec_bounds (op : BinaryOp) : precLor ≤ op.prec ∧ op.prec ≤ precMul := by
  cases op <;> decide

theorem level_bounds (e : Written) : precAssign ≤ e.level ∧ e.level ≤ precPostfix := by
  cases e with
  | binary op l r =>
    have := BinaryOp.prec_bounds op
    simp only [level, precLor, precMul, precAssign, precPostfix] at *
    omega
  | _ => simp [level]

/-- What binds as tightly as its place requires leaves the next operator alone. -/
theorem lt_rightMin {e : Written} {p : ℕ} (h : p ≤ e.level) (hp : precAssign < p) :
    p ≤ e.rightMin ∧ (p ≤ precMul → p < e.rightMin) := by
  cases e <;> simp only [level, rightMin, precAssign, precMul, precPrefix, precPostfix] at * <;> omega

end Written

/-- A written expression up to an operator that its place does not admit. -/
theorem Exact.run {free : Written → Prop} {e : Written} (he : Exact g K free e)
    (hK : endsLine (peekAt K 0) = true) (hc : c.genericNames = g)
    (hfree : c.allowFixedArray = true → free e) (hf : e.Fits) (hn : e.Names (PlainName g))
    (hm : m ≤ e.level) (h : At g K s (e.toks ++ w))
    (hnext : infixPrec (peekAt (w ++ K) 0) < e.rightMin)
    (hstop : infixPrec (peekAt (w ++ K) 0) = 0 ∨ infixPrec (peekAt (w ++ K) 0) < m) :
    ∃ s', Past g K s w s' ∧ parseExpr c m s = some (e.tree c.inConstExpr, s') := by
  obtain ⟨s', hpast, hrun⟩ := he hc hfree hf hn hm h hnext
  refine ⟨s', hpast, ?_⟩
  rw [hrun]
  exact exprLoop_stop hpast.2 hK (e.gate_tree (hc ▸ hn) _) hstop

/-- A written expression before a delimiter. -/
theorem Exact.delimited {free : Written → Prop} {e : Written} {t : Tok} (he : Exact g K free e)
    (hK : endsLine (peekAt K 0) = true) (hc : c.genericNames = g)
    (hfree : c.allowFixedArray = true → free e) (hf : e.Fits) (hn : e.Names (PlainName g))
    (hm : m ≤ precAssign) (h : At g K s (e.toks ++ t :: w)) (ht : infixPrec t.kind = 0) :
    ∃ s', Past g K s (t :: w) s' ∧ parseExpr c m s = some (e.tree c.inConstExpr, s') := by
  refine he.run hK hc hfree hf hn (hm.trans e.level_bounds.1) h ?_ (Or.inl ?_)
  · rw [List.cons_append, peekAt_cons_zero, ht]
    cases e <;> simp [Written.rightMin]
  · rw [List.cons_append, peekAt_cons_zero, ht]

end
end FcLang.Parser
