import FcLang.Const.Typed

/-!
# Compile-time evaluation and run time

A literal that folding yields is the run-time value, and the typed evaluation of
an instance agrees with folding its bound values. Both evaluators visit every
operand of `&&` and `||`. So they report a division by zero that never runs
exactly where one lies in an operand that short-circuiting skips.
-/

namespace FcLang.Const
open Types (Bindings)
open Codegen (IntTy Ty)
variable {s s' ty : Ty}

namespace Expr

/-- The left operand decides, and the right one does not run. -/
def skips (op : BinOp s s' ty) (l : Expr s) : Bool :=
  l.eval.any op.decides

/-- The divisions evaluation comes to, all but those it skips. -/
def reaches : {ty : Ty} → Expr ty → List Loc
  | _, .unaryPrefix _ e => e.reaches.map (.operand :: ·)
  | _, .binary op l r =>
    let inner := l.reaches.map (.left :: ·) ++
      if skips op l then [] else r.reaches.map (.right :: ·)
    if op.divides then [] :: inner else inner
  | _, .cast _ e => e.reaches.map (.operand :: ·)
  | _, _ => []

/-- No operand that short-circuiting skips holds a division by zero. -/
def SkipsNoZeroDivision : {ty : Ty} → Expr ty → Prop
  | _, .unaryPrefix _ e => e.SkipsNoZeroDivision
  | _, .binary op l r => l.SkipsNoZeroDivision ∧
      if skips op l then r.zeroDivisions = [] else r.SkipsNoZeroDivision
  | _, .cast _ e => e.SkipsNoZeroDivision
  | _, _ => True

/-- The value of a literal node. -/
def literalValue : {ty : Ty} → Expr ty → Option ℤ
  | _, .intLit _ value _ => some value
  | _, .boolLit value => some (if value then 1 else 0)
  | _, .charLit value => some value.toNat
  | _, _ => none

theorem eval_of_literalValue {e : Expr ty} {z : ℤ} (h : e.literalValue = some z) :
    e.eval = some z := by
  cases e with
  | intLit t value inRange => exact h
  | boolLit value => exact h
  | charLit value => exact h
  | ident _ _ => simp [literalValue] at h
  | typeVarRef _ => simp [literalValue] at h
  | unaryPrefix _ _ => simp [literalValue] at h
  | binary _ _ _ => simp [literalValue] at h
  | cast _ _ => simp [literalValue] at h

theorem mem_map_cons {d d' : Dir} {p : Loc} {ps : List Loc} :
    d' :: p ∈ ps.map (d :: ·) ↔ d' = d ∧ p ∈ ps := by
  simp only [List.mem_map, List.cons.injEq]
  constructor
  · rintro ⟨q, hq, rfl, rfl⟩
    exact ⟨rfl, hq⟩
  · rintro ⟨rfl, hp⟩
    exact ⟨p, hp, rfl, rfl⟩

theorem map_subset_map_iff (d : Dir) {ps qs : List Loc} :
    ps.map (d :: ·) ⊆ qs.map (d :: ·) ↔ ps ⊆ qs :=
  ⟨fun h _ hp => (mem_map_cons.mp (h (mem_map_cons.mpr ⟨rfl, hp⟩))).2, List.map_subset _⟩

theorem left_mem_zeroDivisions {op : BinOp s s' ty} {l : Expr s} {r : Expr s'} {p : Loc} :
    .left :: p ∈ (binary op l r).zeroDivisions ↔ p ∈ l.zeroDivisions := by
  rw [zeroDivisions]
  split <;> simp [mem_map_cons]

theorem right_mem_zeroDivisions {op : BinOp s s' ty} {l : Expr s} {r : Expr s'} {p : Loc} :
    .right :: p ∈ (binary op l r).zeroDivisions ↔ p ∈ r.zeroDivisions := by
  rw [zeroDivisions]
  split <;> simp [mem_map_cons]

theorem operand_notMem_zeroDivisions {op : BinOp s s' ty} {l : Expr s} {r : Expr s'} {p : Loc} :
    .operand :: p ∉ (binary op l r).zeroDivisions := by
  rw [zeroDivisions]
  split <;> simp [mem_map_cons]

theorem nil_mem_zeroDivisions {op : BinOp s s' ty} {l : Expr s} {r : Expr s'} :
    [] ∈ (binary op l r).zeroDivisions ↔ l.hostEvaluable = true ∧ r.hostEvaluable = true ∧
      op.divides = true ∧ r.eval = some 0 := by
  rw [zeroDivisions]
  split
  · rename_i h
    simpa [and_assoc] using h
  · rename_i h
    simpa [and_assoc] using h

theorem left_mem_reaches {op : BinOp s s' ty} {l : Expr s} {r : Expr s'} {p : Loc} :
    .left :: p ∈ (binary op l r).reaches ↔ p ∈ l.reaches := by
  rw [reaches]
  split <;> split <;> simp [mem_map_cons]

theorem right_mem_reaches {op : BinOp s s' ty} {l : Expr s} {r : Expr s'} {p : Loc} :
    .right :: p ∈ (binary op l r).reaches ↔ skips op l = false ∧ p ∈ r.reaches := by
  rw [reaches]
  cases skips op l <;> split <;> simp [mem_map_cons]

theorem nil_mem_reaches {op : BinOp s s' ty} {l : Expr s} {r : Expr s'} (h : op.divides = true) :
    [] ∈ (binary op l r).reaches := by
  rw [reaches, if_pos h]
  exact List.mem_cons_self

/-- Every division by zero is reached exactly when none is skipped. -/
theorem zeroDivisions_subset_reaches (e : Expr ty) :
    e.zeroDivisions ⊆ e.reaches ↔ e.SkipsNoZeroDivision := by
  induction e with
  | intLit t value inRange => exact iff_of_true (List.nil_subset _) trivial
  | boolLit value => exact iff_of_true (List.nil_subset _) trivial
  | charLit value => exact iff_of_true (List.nil_subset _) trivial
  | ident name init => exact iff_of_true (List.nil_subset _) trivial
  | typeVarRef name => exact iff_of_true (List.nil_subset _) trivial
  | unaryPrefix op e ih => exact (map_subset_map_iff _).trans ih
  | binary op l r ihl ihr =>
    rw [SkipsNoZeroDivision, ← ihl, ← ihr]
    constructor
    · intro h
      refine ⟨fun p hp => left_mem_reaches.mp (h (left_mem_zeroDivisions.mpr hp)), ?_⟩
      have hright : ∀ p ∈ r.zeroDivisions, skips op l = false ∧ p ∈ r.reaches := fun p hp =>
        right_mem_reaches.mp (h (right_mem_zeroDivisions.mpr hp))
      split
      · rename_i hskip
        refine List.eq_nil_iff_forall_not_mem.mpr fun p hp => ?_
        exact Bool.false_ne_true ((hright p hp).1.symm.trans hskip)
      · exact fun p hp => (hright p hp).2
    · rintro ⟨hl, hr⟩ p hp
      cases p with
      | nil => exact nil_mem_reaches (nil_mem_zeroDivisions.mp hp).2.2.1
      | cons d p =>
        cases d with
        | operand => exact absurd hp operand_notMem_zeroDivisions
        | left => exact left_mem_reaches.mpr (hl (left_mem_zeroDivisions.mp hp))
        | right =>
          have hp := right_mem_zeroDivisions.mp hp
          split at hr
          · rw [hr] at hp
            cases hp
          · rename_i hskip
            exact right_mem_reaches.mpr ⟨Bool.eq_false_iff.mpr hskip, hr hp⟩
  | cast target e ih => exact (map_subset_map_iff _).trans ih

/-- A division by zero that is reached stops the evaluation. -/
theorem eval_eq_none_of_reaches (e : Expr ty) {p : Loc} (hz : p ∈ e.zeroDivisions)
    (hr : p ∈ e.reaches) : e.eval = none := by
  induction e generalizing p with
  | intLit t value inRange => cases hz
  | boolLit value => cases hz
  | charLit value => cases hz
  | ident name init => cases hz
  | typeVarRef name => cases hz
  | unaryPrefix op e ih =>
    obtain ⟨q, hq, rfl⟩ := List.mem_map.mp hz
    rw [eval_unaryPrefix, ih hq (mem_map_cons.mp hr).2]
    rfl
  | binary op l r ihl ihr =>
    cases p with
    | nil =>
      obtain ⟨hl, -, hdiv, hzero⟩ := nil_mem_zeroDivisions.mp hz
      obtain ⟨x, hx⟩ := l.isSome_eval_of_hostEvaluable hl
      rw [eval_binary op hx hzero, BinOp.apply_eq_none]
      exact ⟨hdiv, rfl⟩
    | cons d p =>
      cases d with
      | operand => exact absurd hz operand_notMem_zeroDivisions
      | left =>
        rw [eval, ihl (left_mem_zeroDivisions.mp hz) (left_mem_reaches.mp hr)]
        rfl
      | right =>
        obtain ⟨hskip, hr⟩ := right_mem_reaches.mp hr
        have hnone := ihr (right_mem_zeroDivisions.mp hz) hr
        cases hx : l.eval with
        | none => simp only [eval, hx, Option.bind_eq_bind, Option.bind_none]
        | some x =>
          have hdecides : ¬op.decides x = true := by
            rw [skips, hx, Option.any_some] at hskip
            exact Bool.eq_false_iff.mp hskip
          simp only [eval, hx, hnone, Option.bind_eq_bind, Option.bind_some, Option.bind_none,
            if_neg hdecides]
  | cast target e ih =>
    obtain ⟨q, hq, rfl⟩ := List.mem_map.mp hz
    rw [eval_cast, ih hq (mem_map_cons.mp hr).2]
    rfl

end Expr

/-- What is reported while a tree with parameters is normalized and evaluated. -/
def typedReports (σ : Bindings) (e : Expr ty) : List Loc :=
  let n := normalizeConstTree e
  n.reports ++ match n.result with
    | some n => (constEvalTyped σ n).reports
    | none => []

/-- Compile-time evaluation of `e` under bindings `σ` agrees with running `e` with
the bound values in place. -/
structure AgreesWithRunTime (σ : Bindings) (e : Expr ty) : Prop where
  folds : ∀ v z, (constFoldExpr (e.subst σ)).result = some v → v.literalValue = some z →
    (e.subst σ).eval = some z
  evaluates : ∀ n, (normalizeConstTree e).result = some n →
    (constEvalTyped σ n).value? = (constFoldExpr (e.subst σ)).literal
  foldReports : ∀ p ∈ (constFoldExpr (e.subst σ)).reports,
    p ∈ (e.subst σ).reaches ∧ (e.subst σ).eval = none
  typedReports : ∀ p ∈ typedReports σ e, p ∈ (e.subst σ).reaches ∧ (e.subst σ).eval = none

theorem foldConstLeaf_reports (e : Expr ty) : (foldConstLeaf e).reports = e.zeroDivisions :=
  constFoldExpr_reports e

theorem normalizeConstTree_reports (σ : Bindings) (e : Expr ty) :
    (normalizeConstTree e).reports ⊆ (e.subst σ).zeroDivisions := by
  have leaf : ∀ {ty : Ty} (e : Expr ty), ¬exprRefsConstParam e = true →
      (foldConstLeaf e).reports ⊆ (e.subst σ).zeroDivisions := fun e h => by
    rw [subst_of_not_refs σ e (Bool.eq_false_iff.mpr h), foldConstLeaf_reports]
    exact List.Subset.refl _
  induction e with
  | intLit t value inRange => exact leaf _ Bool.false_ne_true
  | boolLit value => exact leaf _ Bool.false_ne_true
  | charLit value => exact leaf _ Bool.false_ne_true
  | ident name init => exact leaf _ Bool.false_ne_true
  | typeVarRef name => exact List.nil_subset _
  | unaryPrefix op e ih =>
    rw [normalizeConstTree]
    split
    · exact List.map_subset _ ih
    · rename_i h
      exact leaf _ h
  | binary op l r ihl ihr =>
    rw [normalizeConstTree]
    split
    · refine List.append_subset.mpr ⟨?_, ?_⟩
      · exact fun p hp => Judges.left_subset op _ _ (List.map_subset _ ihl hp)
      · exact fun p hp => Judges.right_subset op _ _ (List.map_subset _ ihr hp)
    · rename_i h
      exact leaf _ h
  | cast target e ih =>
    cases target with
    | int t =>
      rw [normalizeConstTree]
      split
      · exact List.map_subset _ ih
      · rename_i h
        exact leaf _ h
    | bool =>
      rw [normalizeConstTree]
      split
      · exact List.nil_subset _
      · rename_i h
        exact leaf _ h

theorem typedReports_subset (σ : Bindings) (e : Expr ty) :
    typedReports σ e ⊆ (e.subst σ).zeroDivisions := by
  refine List.append_subset.mpr ⟨normalizeConstTree_reports σ e, ?_⟩
  split
  · rename_i n hn
    exact (judges_normalized σ e hn).reports
  · exact List.nil_subset _

theorem agreesWithRunTime_iff (σ : Bindings) (e : Expr ty) :
    AgreesWithRunTime σ e ↔ (e.subst σ).SkipsNoZeroDivision := by
  rw [← Expr.zeroDivisions_subset_reaches]
  constructor
  · intro h p hp
    rw [← constFoldExpr_reports] at hp
    exact (h.foldReports p hp).1
  · intro h
    have reached : ∀ p ∈ (e.subst σ).zeroDivisions,
        p ∈ (e.subst σ).reaches ∧ (e.subst σ).eval = none := fun p hp =>
      ⟨h hp, Expr.eval_eq_none_of_reaches _ hp (h hp)⟩
    refine ⟨fun v z hv hz => ?_, fun n hn => (judges_normalized σ e hn).value, ?_, ?_⟩
    · rw [← constFoldExpr_eval _ hv]
      exact Expr.eval_of_literalValue hz
    · rw [constFoldExpr_reports]
      exact reached
    · exact fun p hp => reached p (typedReports_subset σ e hp)

/-- `false && 1 / 0 == 0`. -/
def guardedDivision : Expr .bool :=
  .binary (.logic .ampamp) (.boolLit false)
    (.binary (.compare .eqeq)
      (.binary (.arith .slash) (.intLit .int32 1 (by decide)) (.intLit .int32 0 (by decide)))
      (.intLit .int32 0 (by decide)))

/-- It is false when it runs, and folding it reports a division by zero. -/
theorem guardedDivision_reported : guardedDivision.eval = some 0 ∧
    (constFoldExpr guardedDivision).reports = [[.right, .left]] ∧
    ¬AgreesWithRunTime [] guardedDivision := by
  have heval : guardedDivision.eval = some 0 := rfl
  have hreports : (constFoldExpr guardedDivision).reports = [[.right, .left]] := by
    rw [constFoldExpr_reports]
    rfl
  refine ⟨heval, hreports, fun h => ?_⟩
  have hnone := (h.foldReports [.right, .left] (by
    change _ ∈ (constFoldExpr guardedDivision).reports
    rw [hreports]
    exact List.mem_cons_self)).2
  cases heval.symm.trans hnone

end FcLang.Const
