import FcLang.Const.Fold

/-!
# What folding computes

Folding keeps the value of every tree, so a literal it yields is the value the
tree has when it runs. It yields one exactly when no division in the tree, in an
operand that would be skipped either, has a zero divisor, and it reports exactly
the innermost divisions that have one.
-/

namespace FcLang.Const
open Codegen (IntTy Ty)
variable {s s' ty : Ty}

namespace Expr

/-- No division by zero anywhere in the tree, skipped operands included, no
parameter and no cast that is left to the C compiler. -/
def hostEvaluable : {ty : Ty} → Expr ty → Bool
  | _, .ident _ init => init.hostEvaluable
  | _, .typeVarRef _ => false
  | _, .unaryPrefix _ e => e.hostEvaluable
  | _, .binary op l r => l.hostEvaluable && r.hostEvaluable && !(op.divides && r.eval == some 0)
  | _, .cast (.int _) e => e.hostEvaluable
  | _, .cast .bool _ => false
  | _, _ => true

/-- The divisions of the tree by zero, skipped operands included. A constant's
divisions belong to its own declaration. -/
def zeroDivisions : {ty : Ty} → Expr ty → List Loc
  | _, .unaryPrefix _ e => e.zeroDivisions.map (.operand :: ·)
  | _, .binary op l r =>
    let inner := l.zeroDivisions.map (.left :: ·) ++ r.zeroDivisions.map (.right :: ·)
    if l.hostEvaluable && r.hostEvaluable && op.divides && r.eval == some 0 then [] :: inner
    else inner
  | _, .cast _ e => e.zeroDivisions.map (.operand :: ·)
  | _, _ => []

theorem isSome_eval_of_hostEvaluable (e : Expr ty) (h : e.hostEvaluable = true) :
    ∃ z, e.eval = some z := by
  induction e with
  | intLit t value inRange => exact ⟨_, rfl⟩
  | boolLit value => exact ⟨_, rfl⟩
  | charLit value => exact ⟨_, rfl⟩
  | ident name init ih => exact ih h
  | typeVarRef name => cases h
  | unaryPrefix op e ih =>
    obtain ⟨z, hz⟩ := ih h
    exact ⟨op.apply z, by rw [eval_unaryPrefix, hz]; rfl⟩
  | binary op l r ihl ihr =>
    simp only [hostEvaluable, Bool.and_eq_true, Bool.not_eq_true', Bool.and_eq_false_iff] at h
    obtain ⟨⟨hl, hr⟩, hdiv⟩ := h
    obtain ⟨x, hx⟩ := ihl hl
    obtain ⟨y, hy⟩ := ihr hr
    have hsome : op.apply x y ≠ none := by
      rw [Ne, BinOp.apply_eq_none]
      rintro ⟨hop, rfl⟩
      rw [hop, hy] at hdiv
      simp at hdiv
    obtain ⟨z, hz⟩ := Option.ne_none_iff_exists'.mp hsome
    simp only [eval, hx, hy, Option.bind_eq_bind, Option.bind_some]
    split
    · exact ⟨x, rfl⟩
    · exact ⟨z, hz⟩
  | cast target e ih =>
    cases target with
    | int t =>
      obtain ⟨z, hz⟩ := ih h
      exact ⟨_, by rw [eval_cast, hz]; rfl⟩
    | bool => cases h

/-- With values for both operands, the order of evaluation does not matter. -/
theorem eval_binary (op : BinOp s s' ty) {l : Expr s} {r : Expr s'} {x y : ℤ}
    (hx : l.eval = some x) (hy : r.eval = some y) : (binary op l r).eval = op.apply x y := by
  simp only [eval, hx, hy, Option.bind_eq_bind, Option.bind_some]
  split
  · rename_i h
    exact (op.apply_of_decides (l.eval_fits hx) y h).symm
  · rfl

end Expr

namespace Folding

theorem eval_unary {op : UnOp s ty} {f : Folding s} {e : Expr s} {e' : Expr ty}
    (he : ∀ e₁, f.result = some e₁ → e₁.eval = e.eval) (h : (f.unary op).result = some e') :
    e'.eval = (Expr.unaryPrefix op e).eval := by
  obtain ⟨e₁, he₁, rfl⟩ := Option.map_eq_some_iff.mp h
  rw [Expr.eval_unaryPrefix, ← he e₁ he₁]
  cases ha : constReadScalar e₁ with
  | none =>
    rw [tryEvalUnary_notEvaluable op ha]
    rfl
  | some a =>
    obtain ⟨z, hz, -⟩ := isSome_constReadScalar e₁ ha
    rw [tryEvalUnary_eq op ha hz, eval_constMake (op.apply_fits z), hz]
    rfl

theorem eval_cast {target : CastTo s ty} {f : Folding s} {e : Expr s} {e' : Expr ty}
    (he : ∀ e₁, f.result = some e₁ → e₁.eval = e.eval) (h : (f.cast target).result = some e') :
    e'.eval = (Expr.cast target e).eval := by
  obtain ⟨e₁, he₁, rfl⟩ := Option.map_eq_some_iff.mp h
  rw [Expr.eval_cast, ← he e₁ he₁]
  cases ha : constReadScalar e₁ with
  | none =>
    rw [tryEvalCast_notEvaluable target ha]
    rfl
  | some a =>
    obtain ⟨z, hz, -⟩ := isSome_constReadScalar e₁ ha
    cases target with
    | bool =>
      rw [tryEvalCast_bool]
      rfl
    | int t =>
      rw [tryEvalCast_eq ha hz, eval_constMake (t.int_fits_wrap z), hz]
      rfl

theorem eval_binary {op : BinOp s s' ty} {f : Folding s} {g : Folding s'} {l : Expr s} {r : Expr s'}
    {e' : Expr ty} (hl : ∀ l₁, f.result = some l₁ → l₁.eval = l.eval)
    (hr : ∀ r₁, g.result = some r₁ → r₁.eval = r.eval) (h : (f.binary op g).result = some e') :
    e'.eval = (Expr.binary op l r).eval := by
  unfold binary at h
  split at h
  · rename_i l₁ r₁ hl₁ hr₁
    have hkept : (Expr.binary op l₁ r₁).eval = (Expr.binary op l r).eval := by
      rw [Expr.eval, Expr.eval, hl l₁ hl₁, hr r₁ hr₁]
    rw [← hkept]
    split at h
    · rename_i v hv
      cases h
      cases ha : constReadScalar l₁ with
      | none => cases (tryEvalBinary_notEvaluable op (.inl ha)).symm.trans hv
      | some a =>
        cases hb : constReadScalar r₁ with
        | none => cases (tryEvalBinary_notEvaluable op (.inr hb)).symm.trans hv
        | some b =>
          obtain ⟨x, hx, -⟩ := isSome_constReadScalar l₁ ha
          obtain ⟨y, hy, -⟩ := isSome_constReadScalar r₁ hb
          rw [tryEvalBinary_eq op ha hx hb hy] at hv
          rw [Expr.eval_binary op hx hy]
          cases hz : op.apply x y with
          | none => rw [hz] at hv; cases hv
          | some z =>
            rw [hz] at hv
            cases hv
            exact eval_constMake (op.apply_fits (l₁.eval_fits hx) (r₁.eval_fits hy) hz)
    · cases h
      rfl
    · cases h
      rfl
  · cases h

end Folding

/-- Folding keeps the value, of the trees it leaves standing too. -/
theorem constFoldExpr_eval (e : Expr ty) {e' : Expr ty} (h : (constFoldExpr e).result = some e') :
    e'.eval = e.eval := by
  induction e with
  | intLit t value inRange =>
    cases h
    rfl
  | boolLit value =>
    cases h
    rfl
  | charLit value =>
    cases h
    rfl
  | ident name init ih => exact ih (Option.filter_eq_some_iff.mp h).1
  | typeVarRef name => cases h
  | unaryPrefix op e ih => exact Folding.eval_unary (fun _ h => ih h) h
  | binary op l r ihl ihr => exact Folding.eval_binary (fun _ h => ihl h) (fun _ h => ihr h) h
  | cast target e ih => exact Folding.eval_cast (fun _ h => ih h) h

/-- The literal that folding yields, if it yields one. -/
def Folding.literal (f : Folding ty) : Option (BitVec 64) :=
  f.result.bind constReadScalar

namespace Folding

theorem literal_eq_some {f : Folding ty} {e : Expr ty} {a : BitVec 64}
    (he : ∀ e₁, f.result = some e₁ → e₁.eval = e.eval) (h : f.literal = some a) :
    ∃ e₁ z, f.result = some e₁ ∧ constReadScalar e₁ = some a ∧ e₁.eval = some z ∧
      e.eval = some z ∧ a = word z := by
  obtain ⟨e₁, he₁, ha⟩ := Option.bind_eq_some_iff.mp h
  obtain ⟨z, hz, rfl⟩ := isSome_constReadScalar e₁ ha
  exact ⟨e₁, z, he₁, ha, hz, (he e₁ he₁).symm.trans hz, rfl⟩

theorem constReadScalar_eq_none {f : Folding ty} {e : Expr ty} (h : f.literal = none)
    (he : f.result = some e) : constReadScalar e = none := by
  simpa only [literal, he, Option.bind_some] using h

theorem literal_unary {op : UnOp s ty} {f : Folding s} {e : Expr s}
    (he : ∀ e₁, f.result = some e₁ → e₁.eval = e.eval) :
    (f.unary op).literal = f.literal.bind fun _ => e.eval.map fun z => word (op.apply z) := by
  cases ha : f.literal with
  | some a =>
    obtain ⟨e₁, z, he₁, ha₁, hz, hze, -⟩ := literal_eq_some he ha
    simp only [unary, literal, he₁, Option.map_some, tryEvalUnary_eq op ha₁ hz, Option.bind_some,
      constReadScalar_constMake (op.apply_fits z), hze]
  | none =>
    cases he₁ : f.result with
    | none => simp only [unary, literal, he₁, Option.map_none, Option.bind_none]
    | some e₁ =>
      simp only [unary, literal, he₁, Option.map_some, Option.bind_some, Option.bind_none,
        tryEvalUnary_notEvaluable op (constReadScalar_eq_none ha he₁), constReadScalar_unaryPrefix]

theorem literal_cast {t : IntTy} {f : Folding s} {e : Expr s}
    (he : ∀ e₁, f.result = some e₁ → e₁.eval = e.eval) :
    (f.cast (.int t)).literal = f.literal.bind fun _ => e.eval.map fun z => word (t.wrap z) := by
  cases ha : f.literal with
  | some a =>
    obtain ⟨e₁, z, he₁, ha₁, hz, hze, -⟩ := literal_eq_some he ha
    simp only [cast, literal, he₁, Option.map_some, tryEvalCast_eq ha₁ hz, Option.bind_some,
      constReadScalar_constMake (t.int_fits_wrap z), hze]
  | none =>
    cases he₁ : f.result with
    | none => simp only [cast, literal, he₁, Option.map_none, Option.bind_none]
    | some e₁ =>
      simp only [cast, literal, he₁, Option.map_some, Option.bind_some, Option.bind_none,
        tryEvalCast_notEvaluable _ (constReadScalar_eq_none ha he₁), constReadScalar_cast]

theorem literal_cast_bool (f : Folding .bool) : (f.cast .bool).literal = none := by
  cases he : f.result with
  | none => simp only [cast, literal, he, Option.map_none, Option.bind_none]
  | some e =>
    simp only [cast, literal, he, Option.map_some, Option.bind_some, tryEvalCast_bool,
      constReadScalar_cast]

/-- With two literals for operands a node becomes a literal or reports. -/
theorem binary_of_literals (op : BinOp s s' ty) {f : Folding s} {g : Folding s'} {l : Expr s}
    {r : Expr s'} {a b : BitVec 64} (hl : ∀ l₁, f.result = some l₁ → l₁.eval = l.eval)
    (hr : ∀ r₁, g.result = some r₁ → r₁.eval = r.eval)
    (ha : f.literal = some a) (hb : g.literal = some b) :
    ∃ x y, l.eval = some x ∧ r.eval = some y ∧
      (f.binary op g).literal = (op.apply x y).map word ∧
      (f.binary op g).reports =
        if op.apply x y = none then
          [] :: (f.reports.map (.left :: ·) ++ g.reports.map (.right :: ·))
        else f.reports.map (.left :: ·) ++ g.reports.map (.right :: ·) := by
  obtain ⟨l₁, x, hl₁, ha₁, hx, hlx, -⟩ := literal_eq_some hl ha
  obtain ⟨r₁, y, hr₁, hb₁, hy, hry, -⟩ := literal_eq_some hr hb
  refine ⟨x, y, hlx, hry, ?_⟩
  simp only [binary, literal, hl₁, hr₁, tryEvalBinary_eq op ha₁ hx hb₁ hy]
  cases hz : op.apply x y with
  | none => exact ⟨constReadScalar_binary op l₁ r₁, (if_pos rfl).symm⟩
  | some z =>
    have hfits := op.apply_fits (l₁.eval_fits hx) (r₁.eval_fits hy) hz
    exact ⟨constReadScalar_constMake hfits, (if_neg (Option.some_ne_none z)).symm⟩

theorem binary_of_not_literal {op : BinOp s s' ty} {f : Folding s} {g : Folding s'}
    (h : f.literal = none ∨ g.literal = none) :
    (f.binary op g).literal = none ∧
      (f.binary op g).reports = f.reports.map (.left :: ·) ++ g.reports.map (.right :: ·) := by
  cases hl₁ : f.result with
  | none => simp [binary, literal, hl₁]
  | some l₁ =>
    cases hr₁ : g.result with
    | none => simp [binary, literal, hl₁, hr₁]
    | some r₁ =>
      have hkept : tryEvalBinary op l₁ r₁ = .notEvaluable :=
        tryEvalBinary_notEvaluable op (h.imp (constReadScalar_eq_none · hl₁)
          (constReadScalar_eq_none · hr₁))
      simp only [binary, literal, hl₁, hr₁, hkept, Option.bind_some, constReadScalar_binary,
        and_self]

end Folding

/-- Folding yields a literal exactly when the tree is host-evaluable, and then
its value. -/
theorem constFoldExpr_literal (e : Expr ty) :
    (constFoldExpr e).literal = if e.hostEvaluable then e.eval.map word else none := by
  induction e with
  | intLit t value inRange =>
    exact congrArg some (constMaskExtend_of_fits inRange)
  | boolLit value => exact congrArg some (word_truth value)
  | charLit value => exact congrArg some (BitVec.ofInt_natCast _ _).symm
  | ident name init ih =>
    change _ = if init.hostEvaluable then init.eval.map word else none
    rw [← ih, constFoldExpr, Folding.literal, Folding.literal]
    cases (constFoldExpr init).result with
    | none => rfl
    | some v =>
      cases ha : constReadScalar v with
      | none =>
        rw [Option.bind_some, ha, Option.filter_some]
        split
        · exact ha
        · rfl
      | some a =>
        rw [Option.filter_some, if_pos (isConstExpr_of_literal ha)]
  | typeVarRef name => rfl
  | unaryPrefix op e ih =>
    rw [constFoldExpr, Folding.literal_unary (fun _ h => constFoldExpr_eval e h), ih,
      Expr.hostEvaluable, Expr.eval_unaryPrefix]
    split
    · cases e.eval <;> rfl
    · rfl
  | binary op l r ihl ihr =>
    have hl : ∀ l₁, (constFoldExpr l).result = some l₁ → l₁.eval = l.eval :=
      fun _ h => constFoldExpr_eval l h
    have hr : ∀ r₁, (constFoldExpr r).result = some r₁ → r₁.eval = r.eval :=
      fun _ h => constFoldExpr_eval r h
    by_cases hboth : l.hostEvaluable = true ∧ r.hostEvaluable = true
    · obtain ⟨x, hx⟩ := l.isSome_eval_of_hostEvaluable hboth.1
      obtain ⟨y, hy⟩ := r.isSome_eval_of_hostEvaluable hboth.2
      rw [if_pos hboth.1, hx] at ihl
      rw [if_pos hboth.2, hy] at ihr
      obtain ⟨x', y', hx', hy', hlit, -⟩ := Folding.binary_of_literals op hl hr ihl ihr
      cases hx.symm.trans hx'
      cases hy.symm.trans hy'
      rw [constFoldExpr, hlit, Expr.eval_binary op hx hy, Expr.hostEvaluable, hboth.1, hboth.2, hy]
      by_cases hzero : op.apply x y = none
      · rw [hzero, Option.map_none, ite_self]
      · have hdiv : (op.divides && (some y == some 0)) = false := by
          rw [BinOp.apply_eq_none] at hzero
          simpa using hzero
        rw [hdiv]
        rfl
    · have hnone : (constFoldExpr l).literal = none ∨ (constFoldExpr r).literal = none := by
        rw [ihl, ihr]
        exact (not_and_or.mp hboth).imp (fun h => if_neg h) (fun h => if_neg h)
      have hhost : (Expr.binary op l r).hostEvaluable = false := by
        simp only [Expr.hostEvaluable, Bool.and_eq_false_iff]
        simp only [not_and_or, Bool.not_eq_true] at hboth
        exact .inl hboth
      rw [constFoldExpr, (Folding.binary_of_not_literal hnone).1, hhost]
      rfl
  | cast target e ih =>
    cases target with
    | bool => exact Folding.literal_cast_bool _
    | int t =>
      rw [constFoldExpr, Folding.literal_cast (fun _ h => constFoldExpr_eval e h), ih,
        Expr.hostEvaluable, Expr.eval_cast]
      split
      · cases e.eval <;> rfl
      · rfl

/-- What folding reports are the divisions by zero, skipped operands included. -/
theorem constFoldExpr_reports (e : Expr ty) : (constFoldExpr e).reports = e.zeroDivisions := by
  induction e with
  | intLit t value inRange => rfl
  | boolLit value => rfl
  | charLit value => rfl
  | ident name init ih => rfl
  | typeVarRef name => rfl
  | unaryPrefix op e ih => exact congrArg _ ih
  | binary op l r ihl ihr =>
    rw [constFoldExpr, Expr.zeroDivisions, ← ihl, ← ihr]
    by_cases hboth : l.hostEvaluable = true ∧ r.hostEvaluable = true
    · obtain ⟨x, hx⟩ := l.isSome_eval_of_hostEvaluable hboth.1
      obtain ⟨y, hy⟩ := r.isSome_eval_of_hostEvaluable hboth.2
      have ha : (constFoldExpr l).literal = some (word x) := by
        rw [constFoldExpr_literal, if_pos hboth.1, hx]
        rfl
      have hb : (constFoldExpr r).literal = some (word y) := by
        rw [constFoldExpr_literal, if_pos hboth.2, hy]
        rfl
      obtain ⟨x', y', hx', hy', -, hrep⟩ := Folding.binary_of_literals op
        (fun _ h => constFoldExpr_eval l h) (fun _ h => constFoldExpr_eval r h) ha hb
      cases hx.symm.trans hx'
      cases hy.symm.trans hy'
      rw [hrep, hboth.1, hboth.2, hy]
      simp only [BinOp.apply_eq_none, Bool.true_and, Bool.and_eq_true, beq_iff_eq,
        Option.some.injEq]
    · have hnone : (constFoldExpr l).literal = none ∨ (constFoldExpr r).literal = none := by
        rw [constFoldExpr_literal, constFoldExpr_literal]
        exact (not_and_or.mp hboth).imp (fun h => if_neg h) (fun h => if_neg h)
      have hcond : (l.hostEvaluable && r.hostEvaluable && op.divides && r.eval == some 0) =
          false := by
        rw [Bool.and_assoc, Bool.and_eq_false_iff]
        left
        rw [← Bool.not_eq_true, Bool.and_eq_true]
        exact hboth
      rw [(Folding.binary_of_not_literal hnone).2, hcond]
      rfl
  | cast target e ih => exact congrArg _ ih

end FcLang.Const
