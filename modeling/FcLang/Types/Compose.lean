import FcLang.Types.ComposeConst

/-!
# Types under two substitutions

The two substitutions fail where one binding of both fails or where a type that
the first puts in fails under the second, and without a failure they give the
same type.
-/

namespace FcLang.Types

section Types
variable {K K' : Set String} {s c : Bindings}

/-- The variables of the type are bound, and its const parameters to const values. -/
structure Meets (K K' : Set String) (s : Bindings) (t : Ty) : Prop where
  kinded : t.Kinded K
  bound : ∀ n ∈ t.vars, ∃ u, s.lookup n = some u
  const : ∀ n ∈ K, ∀ u, s.lookup n = some u → u.IsConst K'

/-- `u` stands inside `t`. -/
structure Part (u t : Ty) : Prop where
  consts : u.consts ⊆ t.consts
  vars : u.vars ⊆ t.vars

theorem Part.of_mem {u t : Ty} {ts : List Ty} (hu : u ∈ ts) (hc : constsAll ts ⊆ t.consts)
    (hv : varsAll ts ⊆ t.vars) : Part u t where
  consts _ hp := hc (mem_constsAll.mpr ⟨u, hu, hp⟩)
  vars _ hn := hv (mem_varsAll.mpr ⟨u, hu, hn⟩)

theorem Meets.of_part {t u : Ty} (h : Meets K K' s t) (hu : Part u t) : Meets K K' s u where
  kinded p hp := h.kinded p (hu.consts hp)
  bound n hn := h.bound n (hu.vars hn)
  const := h.const

theorem Meets.covers {t ref : Ty} (h : Meets K K' s t) (href : ref.IsConst K)
    (hv : ref.vars ⊆ t.vars) : Covers K' s ref.vars := by
  intro n hn
  obtain ⟨u, hu⟩ := h.bound n (hv hn)
  exact ⟨u, hu, h.const n (vars_of_isConst href n hn) u hu⟩

theorem Meets.size {elem sizeRef : Ty} {size : BitVec 64}
    (h : Meets K K' s (.fixedArray elem size sizeRef)) (hnull : sizeRef ≠ .null) :
    sizeRef.IsConst K ∧ Covers K' s sizeRef.vars := by
  have hp := h.kinded (size, sizeRef) (List.mem_append_right _ List.mem_cons_self)
  have hconst := (hp.resolve_left hnull).2
  exact ⟨hconst, h.covers hconst (List.subset_append_right _ _)⟩

theorem Meets.expr {e : ConstExpr} (h : Meets K K' s (.constExpr e)) :
    (Ty.constExpr e).IsConst K ∧ Covers K' s e.vars := by
  have hconst := ((h.kinded (0, .constExpr e) List.mem_cons_self).resolve_left Ty.noConfusion).2
  exact ⟨hconst, h.covers hconst fun _ hn => hn⟩

section Parts
variable {elem ret u : Ty} {params fields typeArgs : List Ty} {size : BitVec 64} {sizeRef : Ty}
  {name : String} {template : Option String} {flag : Bool}

theorem part_elem : Part elem (.fixedArray elem size sizeRef) :=
  ⟨List.subset_append_left _ _, List.subset_append_left _ _⟩

theorem part_ret : Part ret (.func params ret flag) :=
  ⟨List.subset_append_right _ _, List.subset_append_right _ _⟩

theorem part_param (hu : u ∈ params) : Part u (.func params ret flag) :=
  .of_mem hu (List.subset_append_left _ _) (List.subset_append_left _ _)

theorem part_field (hu : u ∈ fields) : Part u (.struct name template flag fields typeArgs) :=
  .of_mem hu (List.subset_append_left _ _) (List.subset_append_left _ _)

theorem part_structArg (hu : u ∈ typeArgs) : Part u (.struct name template flag fields typeArgs) :=
  .of_mem hu (List.subset_append_right _ _) (List.subset_append_right _ _)

theorem part_variant (hu : u ∈ fields) : Part u (.union name template fields typeArgs) :=
  .of_mem hu (List.subset_append_left _ _) (List.subset_append_left _ _)

theorem part_unionArg (hu : u ∈ typeArgs) : Part u (.union name template fields typeArgs) :=
  .of_mem hu (List.subset_append_right _ _) (List.subset_append_right _ _)

theorem part_stubArg (hu : u ∈ typeArgs) : Part u (.stub name template typeArgs) :=
  .of_mem hu (List.Subset.refl _) (List.Subset.refl _)

end Parts

/-- Under `c`, the substituted type fails where one binding of both fails. -/
def FailsAlike (s c : Bindings) (t : Ty) : Prop :=
  Fails c (instantiate s t) ↔ Spliced c s t.vars ∨ Fails (composed c s) t

theorem failsAlike_all {ts : List Ty} (h : ∀ t ∈ ts, FailsAlike s c t) :
    (∃ t ∈ ts.map (instantiate s), Fails c t) ↔
      Spliced c s (varsAll ts) ∨ ∃ t ∈ ts, Fails (composed c s) t := by
  rw [spliced_all, ← exists_or]
  simp only [List.mem_map, exists_exists_and_eq_and, ← and_or_left]
  exact exists_congr fun t => and_congr_right (h t)

theorem fails_size {elem ref : Ty} {size : BitVec 64} (hc : Concrete K' c)
    (h : ref.IsConst K) (he : Covers K' s ref.vars) (hf : ¬ (constTypeEval ref s).isFailed = true) :
    Fails c (instantiateSize s elem size ref) ↔ Fails c elem ∨
      Spliced c s ref.vars ∨ (constTypeEval ref (composed c s)).isFailed = true := by
  by_cases hsym : constTypeEval ref s = .symbolic
  · rw [instantiateSize_symbolic h he hsym, fails_fixedArray, isFailed_twice hc h he hsym]
  · obtain ⟨v, hv⟩ := value_of_not_failed hsym hf
    rw [instantiateSize_value h hv, fails_fixedArray, or_iff_left (quiet_of_value h he hv)]
    exact or_iff_left Bool.noConfusion

theorem fails_const {e : ConstExpr} (hc : Concrete K' c) (h : (Ty.constExpr e).IsConst K)
    (he : Covers K' s e.vars) (hf : ¬ (constTypeEval (.constExpr e) s).isFailed = true) :
    Fails c (instantiateConst s e) ↔
      Spliced c s e.vars ∨ (constTypeEval (.constExpr e) (composed c s)).isFailed = true := by
  by_cases hsym : constTypeEval (.constExpr e) s = .symbolic
  · have htwice := isFailed_twice hc h he hsym
    rw [constTypeEval] at hsym
    rw [instantiateLeaf, instantiateConst, hsym] at htwice
    rw [instantiateConst, hsym, fails_constExpr]
    exact htwice
  · obtain ⟨v, hv⟩ := value_of_not_failed hsym hf
    have hquiet := quiet_of_value (c := c) h he hv
    rw [constTypeEval] at hv
    rw [instantiateConst, hv]
    exact iff_of_false (not_fails_of_consts rfl) hquiet

theorem failsAlike_leaf {t : Ty} (hv : t.vars = []) (hc : t.consts = [])
    (hi : (instantiate s t).consts = []) : FailsAlike s c t := by
  refine iff_of_false (not_fails_of_consts hi) (not_or.mpr ⟨?_, not_fails_of_consts hc⟩)
  rw [hv]
  exact fun h => absurd h.choose_spec.1 List.not_mem_nil

theorem fails_twice (hc : Concrete K' c) {t : Ty} (h : Meets K K' s t) (hf : ¬ Fails s t) : FailsAlike s c t := by
  induction t with
  | func params ret isVariadic hparams hret =>
    rw [fails_func, not_or, not_exists] at hf
    have h1 := failsAlike_all fun u hu => hparams u hu (h.of_part (part_param hu))
      fun hfail => hf.1 u ⟨hu, hfail⟩
    have h2 := hret (h.of_part part_ret) hf.2
    rw [FailsAlike] at h2 ⊢
    rw [instantiate_func, fails_func, fails_func, h1, h2, Ty.vars, spliced_append]
    exact or_or_or_comm
  | struct name template isTuple fields typeArgs hfields hargs =>
    rw [fails_struct, not_or, not_exists, not_exists] at hf
    have h1 := failsAlike_all fun u hu => hfields u hu (h.of_part (part_field hu))
      fun hfail => hf.1 u ⟨hu, hfail⟩
    have h2 := failsAlike_all fun u hu => hargs u hu (h.of_part (part_structArg hu))
      fun hfail => hf.2 u ⟨hu, hfail⟩
    rw [FailsAlike, instantiate_struct, fails_struct, fails_struct, h1, h2, Ty.vars,
      spliced_append]
    exact or_or_or_comm
  | union name template variants typeArgs hvariants hargs =>
    rw [fails_union, not_or, not_exists, not_exists] at hf
    have h1 := failsAlike_all fun u hu => hvariants u hu (h.of_part (part_variant hu))
      fun hfail => hf.1 u ⟨hu, hfail⟩
    have h2 := failsAlike_all fun u hu => hargs u hu (h.of_part (part_unionArg hu))
      fun hfail => hf.2 u ⟨hu, hfail⟩
    rw [FailsAlike, instantiate_union, fails_union, fails_union, h1, h2, Ty.vars, spliced_append]
    exact or_or_or_comm
  | stub name baseName typeArgs hargs =>
    rw [fails_stub, not_exists] at hf
    rw [FailsAlike, instantiate_stub, fails_stub, fails_stub, Ty.vars]
    exact failsAlike_all fun u hu => hargs u hu (h.of_part (part_stubArg hu))
      fun hfail => hf u ⟨hu, hfail⟩
  | pointer isConst t ih => exact ih (h.of_part ⟨fun _ hp => hp, fun _ hn => hn⟩) hf
  | slice isConst t ih => exact ih (h.of_part ⟨fun _ hp => hp, fun _ hn => hn⟩) hf
  | option t ih => exact ih (h.of_part ⟨fun _ hp => hp, fun _ hn => hn⟩) hf
  | result t ih => exact ih (h.of_part ⟨fun _ hp => hp, fun _ hn => hn⟩) hf
  | fixedArray elem size sizeRef helem =>
    rw [fails_fixedArray, not_or] at hf
    have he := helem (h.of_part part_elem) hf.1
    rw [FailsAlike] at he ⊢
    rw [instantiate, fails_fixedArray, Ty.vars, spliced_append]
    by_cases hnull : sizeRef = .null
    · subst hnull
      rw [instantiateSize, fails_fixedArray, he]
      simp [constTypeEval, ConstOutcome.isFailed, Ty.vars, Spliced]
    · obtain ⟨href, hcov⟩ := h.size hnull
      rw [fails_size hc href hcov hf.2, he]
      exact or_or_or_comm
  | constExpr e =>
    rw [fails_constExpr] at hf
    rw [FailsAlike, instantiate_constExpr, fails_constExpr]
    exact fails_const hc h.expr.1 h.expr.2 hf
  | typeVar name =>
    obtain ⟨u, hu⟩ := h.bound name List.mem_cons_self
    rw [FailsAlike, instantiate_typeVar, hu, Option.getD_some]
    rw [or_iff_left (not_fails_of_consts rfl)]
    simp [Spliced, Ty.vars, hu]
  | _ => exact failsAlike_leaf rfl rfl rfl

theorem map_composed {ts : List Ty}
    (h : ∀ t ∈ ts, instantiate c (instantiate s t) = instantiate (composed c s) t) :
    (ts.map (instantiate s)).map (instantiate c) = ts.map (instantiate (composed c s)) := by
  rw [List.map_map]
  exact List.map_congr_left h

/-- Without an error, the second substitution completes the first as one binding of both does. -/
theorem instantiate_twice (hc : Concrete K' c) {t : Ty} (h : Meets K K' s t) (hf : ¬ Fails s t)
    (hq : ¬ Spliced c s t.vars) (hf' : ¬ Fails (composed c s) t) :
    instantiate c (instantiate s t) = instantiate (composed c s) t := by
  induction t with
  | func params ret isVariadic hparams hret =>
    rw [fails_func, not_or, not_exists] at hf hf'
    rw [Ty.vars, spliced_append, not_or, spliced_all, not_exists] at hq
    simp only [instantiate_func]
    rw [map_composed fun u hu => hparams u hu (h.of_part (part_param hu))
        (fun hfail => hf.1 u ⟨hu, hfail⟩) (fun hsp => hq.1 u ⟨hu, hsp⟩)
        fun hfail => hf'.1 u ⟨hu, hfail⟩,
      hret (h.of_part part_ret) hf.2 hq.2 hf'.2]
  | struct name template isTuple fields typeArgs hfields hargs =>
    rw [fails_struct, not_or, not_exists, not_exists] at hf hf'
    rw [Ty.vars, spliced_append, not_or, spliced_all, spliced_all, not_exists, not_exists] at hq
    simp only [instantiate_struct]
    rw [map_composed fun u hu => hfields u hu (h.of_part (part_field hu))
        (fun hfail => hf.1 u ⟨hu, hfail⟩) (fun hsp => hq.1 u ⟨hu, hsp⟩)
        fun hfail => hf'.1 u ⟨hu, hfail⟩,
      map_composed fun u hu => hargs u hu (h.of_part (part_structArg hu))
        (fun hfail => hf.2 u ⟨hu, hfail⟩) (fun hsp => hq.2 u ⟨hu, hsp⟩)
        fun hfail => hf'.2 u ⟨hu, hfail⟩]
  | union name template variants typeArgs hvariants hargs =>
    rw [fails_union, not_or, not_exists, not_exists] at hf hf'
    rw [Ty.vars, spliced_append, not_or, spliced_all, spliced_all, not_exists, not_exists] at hq
    simp only [instantiate_union]
    rw [map_composed fun u hu => hvariants u hu (h.of_part (part_variant hu))
        (fun hfail => hf.1 u ⟨hu, hfail⟩) (fun hsp => hq.1 u ⟨hu, hsp⟩)
        fun hfail => hf'.1 u ⟨hu, hfail⟩,
      map_composed fun u hu => hargs u hu (h.of_part (part_unionArg hu))
        (fun hfail => hf.2 u ⟨hu, hfail⟩) (fun hsp => hq.2 u ⟨hu, hsp⟩)
        fun hfail => hf'.2 u ⟨hu, hfail⟩]
  | stub name baseName typeArgs hargs =>
    rw [fails_stub, not_exists] at hf hf'
    rw [Ty.vars, spliced_all, not_exists] at hq
    simp only [instantiate_stub]
    rw [map_composed fun u hu => hargs u hu (h.of_part (part_stubArg hu))
        (fun hfail => hf u ⟨hu, hfail⟩) (fun hsp => hq u ⟨hu, hsp⟩)
        fun hfail => hf' u ⟨hu, hfail⟩]
  | pointer isConst t ih =>
    exact congrArg (Ty.pointer isConst) (ih (h.of_part ⟨fun _ hp => hp, fun _ hn => hn⟩) hf hq hf')
  | slice isConst t ih =>
    exact congrArg (Ty.slice isConst) (ih (h.of_part ⟨fun _ hp => hp, fun _ hn => hn⟩) hf hq hf')
  | option t ih =>
    exact congrArg Ty.option (ih (h.of_part ⟨fun _ hp => hp, fun _ hn => hn⟩) hf hq hf')
  | result t ih =>
    exact congrArg Ty.result (ih (h.of_part ⟨fun _ hp => hp, fun _ hn => hn⟩) hf hq hf')
  | fixedArray elem size sizeRef helem =>
    rw [fails_fixedArray, not_or] at hf hf'
    rw [Ty.vars, spliced_append, not_or] at hq
    have he := helem (h.of_part part_elem) hf.1 hq.1 hf'.1
    by_cases hnull : sizeRef = .null
    · subst hnull
      exact congrArg (Ty.fixedArray · size .null) he
    · obtain ⟨href, hcov⟩ := h.size hnull
      rw [instantiate, instantiateSize_composed hc href hcov hq.2 hf.2 hf'.2, he]
      rfl
  | constExpr e =>
    rw [fails_constExpr] at hf hf'
    exact instantiateConst_composed hc h.expr.1 h.expr.2 hq hf hf'
  | typeVar name =>
    obtain ⟨u, hu⟩ := h.bound name List.mem_cons_self
    rw [instantiate_typeVar, instantiate_typeVar, lookup_composed, hu]
    rfl
  | _ => rfl

end Types
end FcLang.Types
