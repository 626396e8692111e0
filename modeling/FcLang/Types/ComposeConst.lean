import FcLang.Types.Instantiate
import Mathlib.Data.Set.Basic

/-!
# Const expressions under two substitutions

A first substitution folds the const expressions that it decides and splices its
own expressions into the others, and a second one gives every const parameter
left an integer. `composed` is the one binding that does both. It finds the value
that the two find, unless an expression that the first splices in fails.
-/

namespace FcLang.Types

/-- A const argument or an array size over the const parameters `K`. -/
def Ty.IsConst (K : Set String) : Ty → Prop
  | .constInt _ => True
  | .typeVar name => name ∈ K
  | .constExpr e => ∀ n ∈ e.vars, n ∈ K
  | _ => False

/-- The const values of the type are over `K`, and a symbolic size has no count beside it. -/
def Ty.Kinded (K : Set String) (t : Ty) : Prop :=
  ∀ p ∈ t.consts, p.2 = .null ∨ p.1 = 0 ∧ p.2.IsConst K

/-- The second substitution gives every const parameter its integer. -/
def Concrete (K' : Set String) (c : Bindings) : Prop :=
  ∀ k ∈ K', ∃ v, c.lookup k = some (.constInt v)

section Eval
variable {K K' : Set String} {s c : Bindings}

/-- The types of `s` under `c`. -/
def composed (c s : Bindings) : Bindings :=
  s.map fun b => (b.1, instantiate c b.2)

theorem lookup_composed (n : String) :
    (composed c s).lookup n = (s.lookup n).map (instantiate c) := by
  induction s with
  | nil => rfl
  | cons b s ih =>
    rw [composed, List.map_cons, List.lookup_cons, List.lookup_cons]
    cases n == b.1 with
    | true => rfl
    | false => exact ih

/-- The variables of a const expression are bound to const values. -/
def Covers (K' : Set String) (s : Bindings) (ns : List String) : Prop :=
  ∀ n ∈ ns, ∃ u, s.lookup n = some u ∧ u.IsConst K'

theorem constExprEval_decided (hc : Concrete K' c) {e : ConstExpr} (he : ∀ n ∈ e.vars, n ∈ K') :
    constExprEval c e ≠ .symbolic := by
  induction e with
  | intLit v => exact ConstOutcome.noConfusion
  | boolLit b => exact ConstOutcome.noConfusion
  | typeVarRef name =>
    obtain ⟨v, hv⟩ := hc name (he name List.mem_cons_self)
    rw [constExprEval, constParamValue, hv]
    exact ConstOutcome.noConfusion
  | unaryPrefix op e ih =>
    have h := ih he
    rw [constExprEval]
    cases heq : constExprEval c e <;> simp_all [ConstOutcome.andThen]
  | cast target e ih =>
    have h := ih he
    rw [constExprEval]
    cases heq : constExprEval c e <;> simp_all [ConstOutcome.andThen]
    split <;> simp
  | binary op l r hl hr =>
    have h1 := hl fun n hn => he n (List.mem_append_left _ hn)
    have h2 := hr fun n hn => he n (List.mem_append_right _ hn)
    rw [constExprEval]
    cases heq : constExprEval c l <;> cases heq' : constExprEval c r <;>
      simp_all [ConstOutcome.andThen]
    split <;> simp

/-- What the first substitution has evaluated stays as it is. -/
theorem constExprEval_composed {e : ConstExpr} (he : Covers K' s e.vars)
    (h : constExprEval s e ≠ .symbolic) :
    constExprEval (composed c s) e = constExprEval s e := by
  induction e with
  | intLit v => rfl
  | boolLit b => rfl
  | typeVarRef name =>
    obtain ⟨u, hu, hconst⟩ := he name List.mem_cons_self
    rw [constExprEval, constParamValue, hu] at h
    rw [constExprEval, constExprEval, constParamValue, constParamValue, lookup_composed, hu]
    cases u with
    | constInt v => rfl
    | typeVar k => exact absurd rfl h
    | constExpr f => exact absurd rfl h
    | _ => exact hconst.elim
  | unaryPrefix op e ih =>
    rw [constExprEval] at h ⊢
    rw [ih he fun heq => h (by rw [heq]; rfl)]
    rfl
  | cast target e ih =>
    rw [constExprEval] at h ⊢
    rw [ih he fun heq => h (by rw [heq]; rfl)]
    rfl
  | binary op l r hl hr =>
    rw [constExprEval] at h ⊢
    rw [constExprEval, hl (fun n hn => he n (List.mem_append_left _ hn))
      fun heq => h (by rw [heq]; rfl)]
    cases heq : constExprEval s l with
    | value v =>
      rw [hr fun n hn => he n (List.mem_append_right _ hn)]
      intro heq'
      rw [heq, heq'] at h
      exact h rfl
    | symbolic => rfl
    | failed err => rfl

/-- Every variable of the expression that the first substitution leaves is in `K'`. -/
theorem vars_constExprSubst {e : ConstExpr} (he : Covers K' s e.vars) :
    ∀ k ∈ (constExprSubst s e).vars, k ∈ K' := by
  induction e with
  | intLit v => intro k hk; cases hk
  | boolLit b => intro k hk; cases hk
  | typeVarRef name =>
    obtain ⟨u, hu, hconst⟩ := he name List.mem_cons_self
    rw [constExprSubst, hu]
    intro k hk
    cases u with
    | constInt v => cases hk
    | typeVar k' =>
      rw [ConstExpr.vars, List.mem_singleton] at hk
      exact hk ▸ hconst
    | constExpr f => exact hconst k hk
    | _ => exact hconst.elim
  | unaryPrefix op e ih => exact ih he
  | cast target e ih => exact ih he
  | binary op l r hl hr =>
    intro k hk
    rcases List.mem_append.mp hk with hk | hk
    · exact hl (fun n hn => he n (List.mem_append_left _ hn)) k hk
    · exact hr (fun n hn => he n (List.mem_append_right _ hn)) k hk

/-- A type that `s` gives to one of these variables fails under `c`. -/
def Spliced (c s : Bindings) (ns : List String) : Prop :=
  ∃ n ∈ ns, ∃ u, s.lookup n = some u ∧ Fails c u

theorem spliced_append {ns ns' : List String} :
    Spliced c s (ns ++ ns') ↔ Spliced c s ns ∨ Spliced c s ns' := by
  simp only [Spliced, List.mem_append, or_and_right, exists_or]

theorem spliced_all {ts : List Ty} : Spliced c s (varsAll ts) ↔ ∃ t ∈ ts, Spliced c s t.vars := by
  simp only [Spliced, mem_varsAll]
  constructor
  · rintro ⟨n, ⟨t, ht, hn⟩, hf⟩
    exact ⟨t, ht, n, hn, hf⟩
  · rintro ⟨t, ht, n, hn, hf⟩
    exact ⟨n, ⟨t, ht, hn⟩, hf⟩

theorem constExprEval_subst (hc : Concrete K' c) {e : ConstExpr} (he : Covers K' s e.vars)
    (hq : ¬ Spliced c s e.vars) :
    constExprEval c (constExprSubst s e) = constExprEval (composed c s) e := by
  induction e with
  | intLit v => rfl
  | boolLit b => rfl
  | typeVarRef name =>
    obtain ⟨u, hu, hconst⟩ := he name List.mem_cons_self
    have hquiet := fun hf => hq ⟨name, List.mem_cons_self, u, hu, hf⟩
    rw [constExprSubst, hu]
    rw [constExprEval, constParamValue, lookup_composed, hu]
    cases u with
    | constInt v => rfl
    | typeVar k =>
      obtain ⟨v, hv⟩ := hc k hconst
      simp [constExprEval, constParamValue, hv]
    | constExpr f =>
      rw [fails_constExpr, constTypeEval] at hquiet
      have hdec := constExprEval_decided hc hconst
      rw [Option.map_some, instantiate_constExpr, instantiateConst]
      cases heq : constExprEval c f with
      | value v => rfl
      | symbolic => exact absurd heq hdec
      | failed err => exact absurd (by rw [heq]; rfl) hquiet
    | _ => exact hconst.elim
  | unaryPrefix op e ih => rw [constExprSubst, constExprEval, constExprEval, ih he hq]
  | cast target e ih => rw [constExprSubst, constExprEval, constExprEval, ih he hq]
  | binary op l r hl hr =>
    rw [ConstExpr.vars, spliced_append, not_or] at hq
    rw [constExprSubst, constExprEval, constExprEval,
      hl (fun n hn => he n (List.mem_append_left _ hn)) hq.1,
      hr (fun n hn => he n (List.mem_append_right _ hn)) hq.2]

theorem ConstOutcome.andThen_eq_value {o : ConstOutcome} {f : BitVec 64 → ConstOutcome}
    {v : BitVec 64} (h : o.andThen f = .value v) : ∃ w, o = .value w ∧ f w = .value v := by
  cases o with
  | value w => exact ⟨w, rfl, h⟩
  | symbolic => cases h
  | failed err => cases h

/-- An expression that has a value reads integers only. -/
theorem not_spliced_of_value {e : ConstExpr} {v : BitVec 64} (hv : constExprEval s e = .value v) :
    ¬ Spliced c s e.vars := by
  induction e generalizing v with
  | intLit w => exact fun h => absurd h.choose_spec.1 List.not_mem_nil
  | boolLit b => exact fun h => absurd h.choose_spec.1 List.not_mem_nil
  | typeVarRef name =>
    rintro ⟨n, hn, u, hu, hf⟩
    rw [ConstExpr.vars, List.mem_singleton] at hn
    subst hn
    rw [constExprEval, constParamValue, hu] at hv
    cases u with
    | constInt w => exact not_fails_of_consts rfl hf
    | _ => cases hv
  | unaryPrefix op e ih =>
    obtain ⟨w, hw, -⟩ := ConstOutcome.andThen_eq_value hv
    exact ih hw
  | cast target e ih =>
    obtain ⟨w, hw, -⟩ := ConstOutcome.andThen_eq_value hv
    exact ih hw
  | binary op l r hl hr =>
    obtain ⟨w, hw, hrest⟩ := ConstOutcome.andThen_eq_value hv
    obtain ⟨w', hw', -⟩ := ConstOutcome.andThen_eq_value hrest
    rw [ConstExpr.vars, spliced_append]
    exact not_or.mpr ⟨hl hw, hr hw'⟩

/-- An expression fails as soon as one that is spliced into it does. -/
theorem constExprEval_spliced (hc : Concrete K' c) {e : ConstExpr} (he : Covers K' s e.vars)
    (hsp : Spliced c s e.vars) :
    (constExprEval c (constExprSubst s e)).isFailed = true := by
  induction e with
  | intLit v => exact absurd hsp.choose_spec.1 List.not_mem_nil
  | boolLit b => exact absurd hsp.choose_spec.1 List.not_mem_nil
  | typeVarRef name =>
    obtain ⟨n, hn, u, hu, hf⟩ := hsp
    obtain ⟨u', hu', hconst⟩ := he n hn
    obtain rfl : u = u' := Option.some.inj (hu.symm.trans hu')
    rw [ConstExpr.vars, List.mem_singleton] at hn
    subst hn
    rw [constExprSubst, hu]
    cases u with
    | constInt v => exact absurd hf (not_fails_of_consts rfl)
    | typeVar k => exact absurd hf (not_fails_of_consts rfl)
    | constExpr f => exact fails_constExpr.mp hf
    | _ => exact hconst.elim
  | unaryPrefix op e ih =>
    have h := ih he hsp
    rw [constExprSubst, constExprEval]
    cases heq : constExprEval c (constExprSubst s e) <;>
      simp_all [ConstOutcome.isFailed, ConstOutcome.andThen]
  | cast target e ih =>
    have h := ih he hsp
    rw [constExprSubst, constExprEval]
    cases heq : constExprEval c (constExprSubst s e) <;>
      simp_all [ConstOutcome.isFailed, ConstOutcome.andThen]
  | binary op l r hl hr =>
    have hcl : Covers K' s l.vars := fun n hn => he n (List.mem_append_left _ hn)
    have hcr : Covers K' s r.vars := fun n hn => he n (List.mem_append_right _ hn)
    have hdec := constExprEval_decided hc (vars_constExprSubst hcl)
    rw [constExprSubst, constExprEval]
    rcases spliced_append.mp hsp with hsp | hsp
    · have h := hl hcl hsp
      cases heq : constExprEval c (constExprSubst s l) <;>
        simp_all [ConstOutcome.isFailed, ConstOutcome.andThen]
    · have h := hr hcr hsp
      cases heq : constExprEval c (constExprSubst s l) <;>
        cases heq' : constExprEval c (constExprSubst s r) <;>
        simp_all [ConstOutcome.isFailed, ConstOutcome.andThen]

end Eval

section Consts
variable {K K' : Set String} {s c σ : Bindings} {ref elem : Ty} {size : BitVec 64}

/-- A const value as an expression. -/
def Ty.expr : Ty → ConstExpr
  | .constInt v => .intLit v
  | .typeVar name => .typeVarRef name
  | .constExpr e => e
  | _ => .boolLit false

theorem constTypeEval_expr (h : ref.IsConst K) : constTypeEval ref σ = constExprEval σ ref.expr := by
  cases ref <;> first | rfl | exact h.elim

theorem expr_vars (h : ref.IsConst K) : ref.expr.vars = ref.vars := by
  cases ref <;> first | rfl | exact h.elim

theorem vars_of_isConst (h : ref.IsConst K) : ∀ n ∈ ref.vars, n ∈ K := by
  cases ref with
  | constInt v => exact fun n hn => absurd hn List.not_mem_nil
  | typeVar name => exact fun n hn => List.mem_singleton.mp hn ▸ h
  | constExpr e => exact h
  | _ => exact h.elim

/-- What a symbolic const value becomes: its expression with the bindings put in. -/
theorem instantiateLeaf_symbolic (h : ref.IsConst K) (he : Covers K' s ref.vars)
    (hsym : constTypeEval ref s = .symbolic) :
    (instantiateLeaf s ref).IsConst K' ∧
      (instantiateLeaf s ref).expr = constExprSubst s ref.expr := by
  cases ref with
  | constInt v => cases hsym
  | typeVar name =>
    obtain ⟨u, hu, hconst⟩ := he name List.mem_cons_self
    rw [instantiateLeaf, hu, Ty.expr, constExprSubst, hu]
    refine ⟨hconst, ?_⟩
    cases u <;> first | rfl | exact hconst.elim
  | constExpr e =>
    rw [constTypeEval] at hsym
    rw [instantiateLeaf, instantiateConst, hsym]
    exact ⟨vars_constExprSubst he, rfl⟩
  | _ => exact h.elim

theorem instantiateSize_value (h : ref.IsConst K) {v : BitVec 64}
    (hv : constTypeEval ref σ = .value v) :
    instantiateSize σ elem size ref = .fixedArray elem v .null := by
  rw [instantiateSize.eq_2 _ _ _ _ fun hnull => by subst hnull; exact h, hv]

theorem instantiateSize_symbolic (h : ref.IsConst K) (he : Covers K' s ref.vars)
    (hsym : constTypeEval ref s = .symbolic) :
    instantiateSize s elem size ref = .fixedArray elem 0 (instantiateLeaf s ref) := by
  have hleaf := (instantiateLeaf_symbolic h he hsym).1
  rw [instantiateSize.eq_2 _ _ _ _ fun hnull => by subst hnull; exact h, hsym]
  generalize instantiateLeaf s ref = leaf at hleaf ⊢
  cases leaf <;> first | rfl | exact hleaf.elim

/-- The second substitution finds in a symbolic const value what the one binding finds. -/
theorem constTypeEval_twice (hc : Concrete K' c) (h : ref.IsConst K) (he : Covers K' s ref.vars)
    (hq : ¬ Spliced c s ref.vars) (hsym : constTypeEval ref s = .symbolic) :
    constTypeEval (instantiateLeaf s ref) c = constTypeEval ref (composed c s) := by
  obtain ⟨hleaf, hexpr⟩ := instantiateLeaf_symbolic h he hsym
  rw [constTypeEval_expr hleaf, hexpr, constTypeEval_expr h]
  rw [← expr_vars h] at he hq
  exact constExprEval_subst hc he hq

theorem constTypeEval_composed (h : ref.IsConst K) (he : Covers K' s ref.vars)
    (hdec : constTypeEval ref s ≠ .symbolic) :
    constTypeEval ref (composed c s) = constTypeEval ref s := by
  rw [constTypeEval_expr h] at hdec ⊢
  rw [constTypeEval_expr h]
  exact constExprEval_composed (expr_vars h ▸ he) hdec

theorem constTypeEval_decided (hc : Concrete K' c) (h : ref.IsConst K') :
    constTypeEval ref c ≠ .symbolic := by
  rw [constTypeEval_expr h]
  exact constExprEval_decided hc fun n hn => vars_of_isConst h n (expr_vars h ▸ hn)

/-- A const value after both substitutions: its value, or the failure of one of them. -/
theorem value_of_not_failed {o : ConstOutcome} (hsym : o ≠ .symbolic) (hf : ¬ o.isFailed = true) :
    ∃ v, o = .value v := by
  cases o with
  | value v => exact ⟨v, rfl⟩
  | symbolic => exact absurd rfl hsym
  | failed err => exact absurd rfl hf

theorem instantiateSize_composed (hc : Concrete K' c) (h : ref.IsConst K)
    (he : Covers K' s ref.vars) (hq : ¬ Spliced c s ref.vars)
    (h1 : ¬ (constTypeEval ref s).isFailed = true)
    (h2 : ¬ (constTypeEval ref (composed c s)).isFailed = true) :
    instantiate c (instantiateSize s elem size ref) =
      instantiateSize (composed c s) (instantiate c elem) size ref := by
  by_cases hsym : constTypeEval ref s = .symbolic
  · have hleaf := (instantiateLeaf_symbolic h he hsym).1
    have htwice := constTypeEval_twice hc h he hq hsym
    obtain ⟨v, hv⟩ := value_of_not_failed (htwice ▸ constTypeEval_decided hc hleaf) h2
    rw [instantiateSize_symbolic h he hsym, instantiate,
      instantiateSize_value hleaf (htwice.trans hv), instantiateSize_value h hv]
  · obtain ⟨v, hv⟩ := value_of_not_failed hsym h1
    have hcomp := constTypeEval_composed (c := c) h he hsym
    rw [instantiateSize_value h hv, instantiateSize_value h (hcomp.trans hv)]
    rfl

theorem instantiateConst_composed (hc : Concrete K' c) {e : ConstExpr}
    (h : (Ty.constExpr e).IsConst K) (he : Covers K' s e.vars) (hq : ¬ Spliced c s e.vars)
    (h1 : ¬ (constTypeEval (.constExpr e) s).isFailed = true)
    (h2 : ¬ (constTypeEval (.constExpr e) (composed c s)).isFailed = true) :
    instantiate c (instantiateConst s e) = instantiateConst (composed c s) e := by
  by_cases hsym : constTypeEval (.constExpr e) s = .symbolic
  · have hleaf := (instantiateLeaf_symbolic h he hsym).1
    have htwice := constTypeEval_twice hc h he hq hsym
    obtain ⟨v, hv⟩ := value_of_not_failed (htwice ▸ constTypeEval_decided hc hleaf) h2
    have hv' := htwice.trans hv
    rw [constTypeEval] at hsym hv
    rw [instantiateLeaf, instantiateConst, hsym, constTypeEval] at hv'
    rw [instantiateConst, hsym, instantiate_constExpr, instantiateConst, hv', instantiateConst, hv]
  · obtain ⟨v, hv⟩ := value_of_not_failed hsym h1
    have hcomp := (constTypeEval_composed (c := c) h he hsym).trans hv
    rw [constTypeEval] at hv hcomp
    rw [instantiateConst, hv, instantiateConst, hcomp]
    rfl

/-- A symbolic const value fails under `c` where the one binding of both fails. -/
theorem isFailed_twice (hc : Concrete K' c) (h : ref.IsConst K) (he : Covers K' s ref.vars)
    (hsym : constTypeEval ref s = .symbolic) :
    (constTypeEval (instantiateLeaf s ref) c).isFailed = true ↔
      Spliced c s ref.vars ∨ (constTypeEval ref (composed c s)).isFailed = true := by
  obtain ⟨hleaf, hexpr⟩ := instantiateLeaf_symbolic h he hsym
  by_cases hsp : Spliced c s ref.vars
  · rw [constTypeEval_expr hleaf, hexpr]
    rw [← expr_vars h] at he hsp
    exact iff_of_true (constExprEval_spliced hc he hsp) (.inl (expr_vars h ▸ hsp))
  · rw [constTypeEval_twice hc h he hsp hsym]
    exact (or_iff_right hsp).symm

theorem quiet_of_value (h : ref.IsConst K) (he : Covers K' s ref.vars) {v : BitVec 64}
    (hv : constTypeEval ref s = .value v) :
    ¬ (Spliced c s ref.vars ∨ (constTypeEval ref (composed c s)).isFailed = true) := by
  have hdec : constTypeEval ref s ≠ .symbolic := by rw [hv]; exact ConstOutcome.noConfusion
  rw [constTypeEval_composed h he hdec, hv, not_or]
  rw [constTypeEval_expr h] at hv
  exact ⟨expr_vars h ▸ not_spliced_of_value hv, Bool.noConfusion⟩

end Consts

end FcLang.Types
