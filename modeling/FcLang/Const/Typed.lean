import FcLang.Const.FoldExact

/-!
# Typed evaluation under bindings

A static_assert in a generic body is normalized once, which folds every part
without a parameter to a literal, and evaluated for each instance under the
instance's bindings, every node at its own type.
-/

namespace FcLang.Const
open Types (ConstBinary Bindings ConstOutcome constMaskExtend constUnaryOp constBinaryOp
  constParamValue)
open Codegen (IntTy Ty)
variable {s s' ty : Ty}

def exprRefsConstParam : {ty : Ty} → Expr ty → Bool
  | _, .typeVarRef _ => true
  | _, .unaryPrefix _ e => exprRefsConstParam e
  | _, .binary _ l r => exprRefsConstParam l || exprRefsConstParam r
  | _, .cast _ e => exprRefsConstParam e
  | _, _ => false

/-- A part without a parameter must fold to an int or bool literal, without a report. -/
def foldConstLeaf (e : Expr ty) : Folding ty :=
  let folded := constFoldExpr e
  let literal := folded.result.filter fun
    | .intLit _ _ _ | .boolLit _ => folded.reports.isEmpty
    | _ => false
  ⟨literal, folded.reports⟩

/-- `normalize_const_tree` for a const generic argument. -/
def normalizeConstTree : {ty : Ty} → Expr ty → Folding ty
  | _, .typeVarRef name => ⟨some (.typeVarRef name), []⟩
  | _, .unaryPrefix op e =>
    if exprRefsConstParam e then
      let n := normalizeConstTree e
      ⟨n.result.map (.unaryPrefix op), n.reports.map (.operand :: ·)⟩
    else foldConstLeaf (.unaryPrefix op e)
  | _, .binary op l r =>
    if exprRefsConstParam l || exprRefsConstParam r then
      let nl := normalizeConstTree l
      let nr := normalizeConstTree r
      ⟨do return .binary op (← nl.result) (← nr.result),
        nl.reports.map (.left :: ·) ++ nr.reports.map (.right :: ·)⟩
    else foldConstLeaf (.binary op l r)
  | _, .cast (.int t) e =>
    if exprRefsConstParam e then
      let n := normalizeConstTree e
      ⟨n.result.map (.cast (.int t)), n.reports.map (.operand :: ·)⟩
    else foldConstLeaf (.cast (.int t) e)
  | _, .cast .bool e =>
    if exprRefsConstParam e then ⟨none, []⟩ else foldConstLeaf (.cast .bool e)
  | _, e => foldConstLeaf e

/-- The tree as the evaluator in 64 bits sees it, for the nodes a size may have. -/
def Expr.erase : {ty : Ty} → Expr ty → Option Types.ConstExpr
  | _, .intLit _ value _ => some (.intLit (word value))
  | _, .boolLit value => some (.boolLit value)
  | _, .typeVarRef name => some (.typeVarRef name)
  | _, .unaryPrefix op e => e.erase.map (.unaryPrefix op.token)
  | _, .binary op l r => do return .binary op.token (← l.erase) (← r.erase)
  | _, .cast (.int t) e => e.erase.map (.cast t.prim)
  | _, _ => none

inductive TypedError where
  | boundToType
  | doesNotFit
  | divisionByZero
  | moduloByZero
  | castTarget
  | notAllowed
  deriving DecidableEq, Repr

def TypedError.message : TypedError → String
  | .boundToType => "generic parameter used as a constant is bound to a type"
  | .doesNotFit =>
    "const parameter does not fit i32 in expression position (a const parameter is an i32 " ++
      "where it is read as a value; a value this large is usable only in a type or size position)"
  | .divisionByZero => "division by zero in const-generic expression"
  | .moduloByZero => "modulo by zero in const-generic expression"
  | .castTarget =>
    "cast in a const-generic expression must target a fixed-width integer type"
  | .notAllowed => "expression not allowed in a const-generic argument"

/-- The value, or no value yet because a parameter is symbolic, or the first
failure and its place. -/
inductive TypedOutcome where
  | value (v : BitVec 64)
  | symbolic
  | failed (err : TypedError) (loc : Loc)
  deriving DecidableEq, Repr

namespace TypedOutcome

def andThen (o : TypedOutcome) (f : BitVec 64 → TypedOutcome) : TypedOutcome :=
  match o with
  | .value v => f v
  | o => o

def under (d : Dir) : TypedOutcome → TypedOutcome
  | .failed err loc => .failed err (d :: loc)
  | o => o

def value? : TypedOutcome → Option (BitVec 64)
  | .value v => some v
  | _ => none

/-- Where a division by zero was reported. -/
def reports : TypedOutcome → List Loc
  | .failed .divisionByZero loc | .failed .moduloByZero loc => [loc]
  | _ => []

end TypedOutcome

/-- `const_eval_width` in a typed evaluation. -/
def constEvalWidth : Ty → ℕ × Bool
  | .bool => (64, true)
  | .int t => (t.bits, t.signed)

/-- `const_expr_eval` with `typed` set. -/
def constEvalTyped (σ : Bindings) : {ty : Ty} → Expr ty → TypedOutcome
  | _, .intLit _ value _ => .value (word value)
  | _, .boolLit value => .value (if value then 1 else 0)
  | _, .typeVarRef name =>
    match constParamValue name σ with
    | .value v =>
      let (w, sg) := constEvalWidth (.int .int32)
      if constMaskExtend v w sg = v then .value v else .failed .doesNotFit []
    | .symbolic => .symbolic
    | .failed _ => .failed .boundToType []
  | ty, .unaryPrefix op e => ((constEvalTyped σ e).under .operand).andThen fun v =>
    let (w, sg) := constEvalWidth ty
    .value (constUnaryOp op.token v w sg)
  | ty, .binary (s := s) op l r => ((constEvalTyped σ l).under .left).andThen fun lv =>
    ((constEvalTyped σ r).under .right).andThen fun rv =>
      let (w, sg) := constEvalWidth (if op.token.yieldsBool then s else ty)
      match constBinaryOp op.token lv rv w sg with
      | some v => .value v
      | none => .failed (if op.token = .slash then .divisionByZero else .moduloByZero) []
  | _, .cast (.int t) e => ((constEvalTyped σ e).under .operand).andThen fun v =>
    .value (constMaskExtend v t.bits t.signed)
  | _, .cast .bool e => ((constEvalTyped σ e).under .operand).andThen fun _ =>
    .failed .castTarget []
  | _, _ => .failed .notAllowed []

namespace TypedOutcome

theorem value?_under (o : TypedOutcome) (d : Dir) : (o.under d).value? = o.value? := by
  cases o <;> rfl

theorem reports_under (o : TypedOutcome) (d : Dir) :
    (o.under d).reports = o.reports.map (d :: ·) := by
  cases o with
  | failed err loc => cases err <;> rfl
  | _ => rfl

theorem value?_andThen (o : TypedOutcome) (f : BitVec 64 → TypedOutcome) :
    (o.andThen f).value? = o.value?.bind fun v => (f v).value? := by
  cases o <;> rfl

theorem mem_reports_andThen {o : TypedOutcome} {f : BitVec 64 → TypedOutcome} {p : Loc}
    (h : p ∈ (o.andThen f).reports) : p ∈ o.reports ∨ ∃ v, o = .value v ∧ p ∈ (f v).reports := by
  cases o with
  | value v => exact .inr ⟨v, rfl, h⟩
  | symbolic => exact .inl h
  | failed err loc => exact .inl h

end TypedOutcome

theorem UnOp.evaluatedAt_typed (op : UnOp s ty) :
    op.EvaluatedAt (constEvalWidth ty).1 (constEvalWidth ty).2 := by
  cases op with
  | minus _ => exact ⟨rfl, rfl⟩
  | tilde => exact ⟨rfl, rfl⟩
  | bang => trivial

theorem BinOp.evaluatedAt_typed (op : BinOp s s' ty) :
    op.EvaluatedAt (constEvalWidth (if op.token.yieldsBool then s else ty)).1
      (constEvalWidth (if op.token.yieldsBool then s else ty)).2 := by
  cases op with
  | arith op => cases op <;> exact ⟨rfl, rfl⟩
  | shift op => cases op <;> exact ⟨rfl, rfl⟩
  | compare op => cases op <;> exact ⟨rfl, rfl⟩
  | equal op h => trivial
  | logic op => trivial

/-- A bound value is an i32 exactly when extending its low half gives it back. -/
theorem constMaskExtend_eq_self {t : IntTy} (hs : t.signed = true) (v : BitVec 64) :
    constMaskExtend v t.bits t.signed = v ↔ t.Fits v.toInt := by
  have hv : word v.toInt = v := BitVec.ofInt_toInt
  have h64 : ∀ {z}, t.Fits z → (Ty.int .int64).Fits z := fun hz =>
    Format.Fits.mono (g := IntTy.int64.format) hz hs (bits_le t)
  have hself : (Ty.int .int64).Fits v.toInt :=
    (Format.fits_signed (f := IntTy.int64.format) rfl).mpr ⟨v.le_toInt, v.toInt_lt⟩
  constructor
  · intro h
    rw [← hv, constMaskExtend_word, word_inj (h64 (t.fits_wrap _)) hself] at h
    exact h ▸ t.fits_wrap _
  · intro h
    rw [← hv, constMaskExtend_of_fits h]

/-- What the typed evaluation `o` of a normalized tree owes to the tree `e` it came from. -/
structure Judges (o : TypedOutcome) (e : Expr ty) : Prop where
  value : o.value? = (constFoldExpr e).literal
  reports : ∀ p ∈ o.reports, p ∈ e.zeroDivisions

namespace Judges
variable {o o' : TypedOutcome}

theorem eval_of_value {e : Expr ty} {v : BitVec 64} (h : Judges o e) (hv : o.value? = some v) :
    e.hostEvaluable = true ∧ ∃ z, e.eval = some z ∧ v = word z := by
  rw [h.value, constFoldExpr_literal] at hv
  split at hv
  · obtain ⟨z, hz, rfl⟩ := Option.map_eq_some_iff.mp hv
    exact ⟨‹_›, z, hz, rfl⟩
  · cases hv

theorem unary {op : UnOp s ty} {e : Expr s} (h : Judges o e) :
    Judges ((o.under .operand).andThen fun v =>
      .value (constUnaryOp op.token v (constEvalWidth ty).1 (constEvalWidth ty).2))
      (.unaryPrefix op e) := by
  constructor
  · rw [TypedOutcome.value?_andThen, TypedOutcome.value?_under, constFoldExpr,
      Folding.literal_unary (fun _ h => constFoldExpr_eval e h), ← h.value]
    cases hv : o.value? with
    | none => rfl
    | some v =>
      obtain ⟨-, z, hz, rfl⟩ := h.eval_of_value hv
      rw [hz]
      exact congrArg some (constUnaryOp_word op.evaluatedAt_typed (e.eval_fits hz))
  · intro p hp
    obtain hp | ⟨v, -, hp⟩ := TypedOutcome.mem_reports_andThen hp
    · rw [TypedOutcome.reports_under] at hp
      exact List.map_subset _ h.reports hp
    · cases hp

theorem cast {t : IntTy} {e : Expr s} (h : Judges o e) :
    Judges ((o.under .operand).andThen fun v => .value (constMaskExtend v t.bits t.signed))
      (.cast (.int t) e) := by
  constructor
  · rw [TypedOutcome.value?_andThen, TypedOutcome.value?_under, constFoldExpr,
      Folding.literal_cast (fun _ h => constFoldExpr_eval e h), ← h.value]
    cases hv : o.value? with
    | none => rfl
    | some v =>
      obtain ⟨-, z, hz, rfl⟩ := h.eval_of_value hv
      rw [hz]
      exact congrArg some (constMaskExtend_word t z)
  · intro p hp
    obtain hp | ⟨v, -, hp⟩ := TypedOutcome.mem_reports_andThen hp
    · rw [TypedOutcome.reports_under] at hp
      exact List.map_subset _ h.reports hp
    · cases hp

theorem left_subset (op : BinOp s s' ty) (l : Expr s) (r : Expr s') :
    l.zeroDivisions.map (.left :: ·) ⊆ (Expr.binary op l r).zeroDivisions := by
  intro p hp
  rw [Expr.zeroDivisions]
  split
  · exact List.mem_cons_of_mem _ (List.mem_append_left _ hp)
  · exact List.mem_append_left _ hp

theorem right_subset (op : BinOp s s' ty) (l : Expr s) (r : Expr s') :
    r.zeroDivisions.map (.right :: ·) ⊆ (Expr.binary op l r).zeroDivisions := by
  intro p hp
  rw [Expr.zeroDivisions]
  split
  · exact List.mem_cons_of_mem _ (List.mem_append_right _ hp)
  · exact List.mem_append_right _ hp

/-- What the typed evaluation does with the values of two operands. -/
def applyTyped (op : BinOp s s' ty) (lv rv : BitVec 64) : TypedOutcome :=
  match constBinaryOp op.token lv rv
      (constEvalWidth (if op.token.yieldsBool then s else ty)).1
      (constEvalWidth (if op.token.yieldsBool then s else ty)).2 with
  | some v => .value v
  | none => .failed (if op.token = .slash then .divisionByZero else .moduloByZero) []

theorem applyTyped_word (op : BinOp s s' ty) {x y : ℤ} (hx : s.Fits x) (hy : s'.Fits y) :
    (applyTyped op (word x) (word y)).value? = (op.apply x y).map word ∧
      (applyTyped op (word x) (word y)).reports = if op.apply x y = none then [[]] else [] := by
  rw [applyTyped, constBinaryOp_word op.evaluatedAt_typed hx hy]
  cases op.apply x y with
  | some z => exact ⟨rfl, rfl⟩
  | none =>
    simp only [Option.map_none]
    split <;> exact ⟨rfl, rfl⟩

theorem binary {op : BinOp s s' ty} {l : Expr s} {r : Expr s'} (hl : Judges o l)
    (hr : Judges o' r) :
    Judges ((o.under .left).andThen fun lv => (o'.under .right).andThen fun rv =>
      applyTyped op lv rv) (.binary op l r) := by
  have hfl : ∀ l₁, (constFoldExpr l).result = some l₁ → l₁.eval = l.eval :=
    fun _ h => constFoldExpr_eval l h
  have hfr : ∀ r₁, (constFoldExpr r).result = some r₁ → r₁.eval = r.eval :=
    fun _ h => constFoldExpr_eval r h
  constructor
  · simp only [TypedOutcome.value?_andThen, TypedOutcome.value?_under, hl.value, hr.value]
    rw [constFoldExpr]
    cases ha : (constFoldExpr l).literal with
    | none => exact (Folding.binary_of_not_literal (.inl ha)).1.symm
    | some a =>
      cases hb : (constFoldExpr r).literal with
      | none => exact (Folding.binary_of_not_literal (.inr hb)).1.symm
      | some b =>
        obtain ⟨-, x, hx, rfl⟩ := hl.eval_of_value (hl.value.trans ha)
        obtain ⟨-, y, hy, rfl⟩ := hr.eval_of_value (hr.value.trans hb)
        obtain ⟨x', y', hx', hy', hlit, -⟩ :=
          Folding.binary_of_literals op hfl hfr ha hb
        cases hx.symm.trans hx'
        cases hy.symm.trans hy'
        rw [hlit]
        exact (applyTyped_word op (l.eval_fits hx) (r.eval_fits hy)).1
  · intro p hp
    obtain hp | ⟨lv, hlv, hp⟩ := TypedOutcome.mem_reports_andThen hp
    · rw [TypedOutcome.reports_under] at hp
      exact left_subset op l r (List.map_subset _ hl.reports hp)
    obtain hp | ⟨rv, hrv, hp⟩ := TypedOutcome.mem_reports_andThen hp
    · rw [TypedOutcome.reports_under] at hp
      exact right_subset op l r (List.map_subset _ hr.reports hp)
    obtain ⟨hlh, x, hx, rfl⟩ := hl.eval_of_value
      ((o.value?_under .left).symm.trans (congrArg TypedOutcome.value? hlv))
    obtain ⟨hrh, y, hy, rfl⟩ := hr.eval_of_value
      ((o'.value?_under .right).symm.trans (congrArg TypedOutcome.value? hrv))
    rw [(applyTyped_word op (l.eval_fits hx) (r.eval_fits hy)).2] at hp
    split at hp
    · rename_i hz
      obtain ⟨hdiv, rfl⟩ := (op.apply_eq_none x y).mp hz
      rw [List.mem_singleton.mp hp, Expr.zeroDivisions, hlh, hrh, hdiv, hy]
      exact List.mem_cons_self
    · cases hp

/-- A part that folded to a literal. -/
theorem of_literal {e e' : Expr ty} {σ : Bindings} (h : (foldConstLeaf e).result = some e') :
    Judges (constEvalTyped σ e') e := by
  obtain ⟨he', hlit⟩ := Option.filter_eq_some_iff.mp h
  constructor
  · rw [Folding.literal, he', Option.bind_some]
    cases e' with
    | intLit t value inRange =>
      exact congrArg some (constMaskExtend_of_fits inRange).symm
    | boolLit value => rfl
    | charLit _ => cases hlit
    | ident _ _ => cases hlit
    | typeVarRef _ => cases hlit
    | unaryPrefix _ _ => cases hlit
    | binary _ _ _ => cases hlit
    | cast _ _ => cases hlit
  · intro p hp
    cases e' with
    | intLit t value inRange => cases hp
    | boolLit value => cases hp
    | charLit _ => cases hlit
    | ident _ _ => cases hlit
    | typeVarRef _ => cases hlit
    | unaryPrefix _ _ => cases hlit
    | binary _ _ _ => cases hlit
    | cast _ _ => cases hlit

end Judges

theorem subst_of_not_refs (σ : Bindings) (e : Expr ty) (h : exprRefsConstParam e = false) :
    e.subst σ = e := by
  induction e with
  | intLit t value inRange => rfl
  | boolLit value => rfl
  | charLit value => rfl
  | ident name init => rfl
  | typeVarRef name => cases h
  | unaryPrefix op e ih => exact congrArg _ (ih h)
  | binary op l r ihl ihr =>
    rw [exprRefsConstParam, Bool.or_eq_false_iff] at h
    rw [Expr.subst, ihl h.1, ihr h.2]
  | cast target e ih => exact congrArg _ (ih h)

theorem judges_typeVarRef (σ : Bindings) (name : String) :
    Judges (constEvalTyped σ (.typeVarRef name)) ((Expr.typeVarRef name).subst σ) := by
  rw [Expr.subst, Expr.boundTo, constEvalTyped]
  cases constParamValue name σ with
  | symbolic => exact ⟨rfl, fun p hp => nomatch hp⟩
  | failed err => exact ⟨rfl, fun p hp => nomatch hp⟩
  | value v =>
    have hfits : constMaskExtend v (constEvalWidth (.int .int32)).1
        (constEvalWidth (.int .int32)).2 = v ↔ IntTy.int32.Fits v.toInt :=
      constMaskExtend_eq_self (t := .int32) rfl v
    by_cases hv : IntTy.int32.Fits v.toInt
    · simp only [dif_pos hv, Option.getD_some]
      rw [if_pos (hfits.mpr hv)]
      refine ⟨congrArg some ?_, fun p hp => nomatch hp⟩
      rw [constMaskExtend_of_fits hv]
      exact BitVec.ofInt_toInt.symm
    · simp only [dif_neg hv, Option.getD_none]
      rw [if_neg (hfits.not.mpr hv)]
      exact ⟨rfl, fun p hp => nomatch hp⟩

/-- A normalized tree is worth under bindings what its tree is worth with the
bound values in place. -/
theorem judges_normalized (σ : Bindings) (e : Expr ty) {n : Expr ty}
    (h : (normalizeConstTree e).result = some n) : Judges (constEvalTyped σ n) (e.subst σ) := by
  induction e with
  | intLit t value inRange => exact Judges.of_literal h
  | boolLit value => exact Judges.of_literal h
  | charLit value => exact Judges.of_literal h
  | ident name init => exact Judges.of_literal h
  | typeVarRef name =>
    cases h
    exact judges_typeVarRef σ name
  | unaryPrefix op e ih =>
    rw [normalizeConstTree] at h
    split at h
    · obtain ⟨n', hn', rfl⟩ := Option.map_eq_some_iff.mp h
      exact (ih hn').unary
    · rename_i href
      rw [subst_of_not_refs σ (.unaryPrefix op e) (Bool.eq_false_iff.mpr href)]
      exact Judges.of_literal h
  | binary op l r ihl ihr =>
    rw [normalizeConstTree] at h
    split at h
    · obtain ⟨nl, hnl, h⟩ := Option.bind_eq_some_iff.mp h
      obtain ⟨nr, hnr, h⟩ := Option.bind_eq_some_iff.mp h
      cases h
      exact (ihl hnl).binary (ihr hnr)
    · rename_i href
      rw [subst_of_not_refs σ (.binary op l r) (Bool.eq_false_iff.mpr href)]
      exact Judges.of_literal h
  | cast target e ih =>
    cases target with
    | int t =>
      rw [normalizeConstTree] at h
      split at h
      · obtain ⟨n', hn', rfl⟩ := Option.map_eq_some_iff.mp h
        exact (ih hn').cast
      · rename_i href
        rw [subst_of_not_refs σ (.cast (.int t) e) (Bool.eq_false_iff.mpr href)]
        exact Judges.of_literal h
    | bool =>
      rw [normalizeConstTree] at h
      split at h
      · cases h
      · rename_i href
        rw [subst_of_not_refs σ (.cast .bool e) (Bool.eq_false_iff.mpr href)]
        exact Judges.of_literal h

end FcLang.Const
