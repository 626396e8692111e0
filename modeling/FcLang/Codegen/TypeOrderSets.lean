import FcLang.Codegen.TypeOrder

/-!
# The collected types

`type_ident_eq` compares spellings. The sets that `collect_types_in_type` fills
have no two types of one spelling, and with a type all that is in it; a
function type comes after the function types in it.
-/

namespace FcLang.Codegen.TypeOrder
open Relation

mutual

/-- The type without what its C name leaves out. -/
def spell (bare : Bool) : CType → CType
  | .scalar n => .scalar n
  | .anyPtr c => .anyPtr (!bare && c)
  | .pointer c t => .pointer (!bare && c) (spell false t)
  | .slice t => .slice (spell true t)
  | .option t => .option (spell false t)
  | .result t => .result (spell false t)
  | .func ps r v => .func (spellAll ps) (spell false r) v
  | .named n => .named n

def spellAll : List CType → List CType
  | [] => []
  | t :: ts => spell false t :: spellAll ts

end

mutual

theorem typeIdentEq_iff : ∀ (bare : Bool) (t u : CType),
    typeIdentEq bare t u = true ↔ spell bare t = spell bare u
  | bare, .scalar n, u => by cases u <;> simp [typeIdentEq, spell]
  | bare, .anyPtr c, u => by
    cases u <;> simp [typeIdentEq, spell]
    cases bare <;> simp
  | bare, .pointer c t, u => by
    cases u <;> simp [typeIdentEq, spell, typeIdentEq_iff false t]
    cases bare <;> simp
  | bare, .slice t, u => by cases u <;> simp [typeIdentEq, spell, typeIdentEq_iff true t]
  | bare, .option t, u => by cases u <;> simp [typeIdentEq, spell, typeIdentEq_iff false t]
  | bare, .result t, u => by cases u <;> simp [typeIdentEq, spell, typeIdentEq_iff false t]
  | bare, .func ps r v, u => by
    cases u <;> simp [typeIdentEq, spell, typeIdentEq_iff false r, typeIdentEqAll_iff ps]
    tauto
  | bare, .named n, u => by cases u <;> simp [typeIdentEq, spell]

theorem typeIdentEqAll_iff : ∀ ts us : List CType,
    typeIdentEqAll ts us = true ↔ spellAll ts = spellAll us
  | [], us => by cases us <;> simp [typeIdentEqAll, spellAll]
  | t :: ts, us => by
    cases us <;> simp [typeIdentEqAll, spellAll, typeIdentEq_iff false t, typeIdentEqAll_iff ts]

end

theorem typeIdentEq_refl (t : CType) : typeIdentEq false t t = true :=
  (typeIdentEq_iff _ _ _).mpr rfl

theorem typeIdentEq_trans {t u v : CType} (h : typeIdentEq false t u = true)
    (h' : typeIdentEq false u v = true) : typeIdentEq false t v = true := by
  rw [typeIdentEq_iff] at *
  exact h.trans h'

theorem typeIdentEq_symm {t u : CType} (h : typeIdentEq false t u = true) :
    typeIdentEq false u t = true := by
  rw [typeIdentEq_iff] at *
  exact h.symm

/-- A split of a list with one more element is there or before. -/
theorem split_concat {α : Type} {xs pre post : List α} {x u : α}
    (h : xs ++ [x] = pre ++ u :: post) : (pre = xs ∧ u = x) ∨ ∃ post', xs = pre ++ u :: post' := by
  rcases List.eq_nil_or_concat post with rfl | ⟨post', w, rfl⟩
  · obtain ⟨hpre, hu⟩ := List.append_inj' h rfl
    exact .inl ⟨hpre.symm, (List.singleton_inj.mp hu).symm⟩
  · rw [List.concat_eq_append, ← List.cons_append, ← List.append_assoc] at h
    exact .inr ⟨post', (List.append_inj' h rfl).1⟩

/-- A type of the set has this C name. -/
def InSet (ts : List CType) (t : CType) : Prop := ∃ u ∈ ts, typeIdentEq false u t = true

theorem InSet.mono {ts us : List CType} {t : CType} (h : InSet ts t) (hs : ts ⊆ us) : InSet us t :=
  h.imp fun _ hu => ⟨hs hu.1, hu.2⟩

theorem typesetAdd_spec (ts : List CType) (t : CType) :
    (typesetAdd ts t = ts ∧ InSet ts t) ∨ (typesetAdd ts t = ts ++ [t] ∧ ¬InSet ts t) := by
  unfold typesetAdd
  split
  · rename_i h
    exact .inl ⟨rfl, by simpa [InSet] using h⟩
  · rename_i h
    exact .inr ⟨rfl, by simpa [InSet] using h⟩

theorem typesetAdd_extends (ts : List CType) (t : CType) : ts <+: typesetAdd ts t := by
  rcases typesetAdd_spec ts t with ⟨h, -⟩ | ⟨h, -⟩
  · rw [h]
  · rw [h]
    exact List.prefix_append ts [t]

theorem inSet_typesetAdd (ts : List CType) (t : CType) : InSet (typesetAdd ts t) t := by
  rcases typesetAdd_spec ts t with ⟨h, hin⟩ | ⟨h, -⟩
  · rwa [h]
  · rw [h]
    exact ⟨t, by simp, typeIdentEq_refl t⟩

theorem forall_typesetAdd {P : CType → Prop} {ts : List CType} {t : CType} (h : ∀ u ∈ ts, P u)
    (ht : P t) : ∀ u ∈ typesetAdd ts t, P u := by
  rcases typesetAdd_spec ts t with ⟨heq, -⟩ | ⟨heq, -⟩
  · rwa [heq]
  · rw [heq]
    intro u hu
    rcases List.mem_append.mp hu with hu | hu
    · exact h u hu
    · rwa [List.mem_singleton.mp hu]

/-- No two types of the set have one C name. -/
def Apart (ts : List CType) : Prop := ts.Pairwise fun t u => typeIdentEq false t u = false

theorem apart_typesetAdd {ts : List CType} (h : Apart ts) (t : CType) :
    Apart (typesetAdd ts t) := by
  rcases typesetAdd_spec ts t with ⟨heq, -⟩ | ⟨heq, hnot⟩
  · rwa [heq]
  · rw [heq, Apart, List.pairwise_append]
    refine ⟨h, List.pairwise_singleton _ _, fun u hu v hv => ?_⟩
    rw [List.mem_singleton.mp hv, Bool.eq_false_iff]
    exact fun he => hnot ⟨u, hu, he⟩

mutual

/-- The type and all types in it. -/
def CType.parts : CType → List CType
  | .scalar n => [.scalar n]
  | .anyPtr c => [.anyPtr c]
  | .named n => [.named n]
  | .pointer c t => .pointer c t :: t.parts
  | .slice t => .slice t :: t.parts
  | .option t => .option t :: t.parts
  | .result t => .result t :: t.parts
  | .func ps r v => .func ps r v :: (partsAll ps ++ r.parts)

def partsAll : List CType → List CType
  | [] => []
  | t :: ts => t.parts ++ partsAll ts

end

theorem CType.self_mem_parts (t : CType) : t ∈ t.parts := by cases t <;> simp [parts]

theorem mem_partsAll {p : CType} {ts : List CType} : p ∈ partsAll ts ↔ ∃ t ∈ ts, p ∈ t.parts := by
  induction ts with
  | nil => simp [partsAll]
  | cons t ts ih => simp [partsAll, ih]

section
variable {known : String → Prop}

mutual

theorem CType.parts_trans : ∀ (t : CType) {p q : CType}, p ∈ t.parts → q ∈ p.parts → q ∈ t.parts
  | .scalar n, p, q, hp, hq | .anyPtr n, p, q, hp, hq | .named n, p, q, hp, hq => by
    rw [CType.parts, List.mem_singleton] at hp
    rwa [hp] at hq
  | .pointer c t, p, q, hp, hq => by
    rw [CType.parts] at hp ⊢
    rcases List.mem_cons.mp hp with rfl | hp
    · rwa [CType.parts] at hq
    · exact List.mem_cons_of_mem _ (CType.parts_trans t hp hq)
  | .slice t, p, q, hp, hq | .option t, p, q, hp, hq | .result t, p, q, hp, hq => by
    rw [CType.parts] at hp ⊢
    rcases List.mem_cons.mp hp with rfl | hp
    · rwa [CType.parts] at hq
    · exact List.mem_cons_of_mem _ (CType.parts_trans t hp hq)
  | .func ps r v, p, q, hp, hq => by
    rw [CType.parts] at hp ⊢
    rcases List.mem_cons.mp hp with rfl | hp
    · rwa [CType.parts] at hq
    · refine List.mem_cons_of_mem _ (List.mem_append.mpr ?_)
      exact (List.mem_append.mp hp).imp (fun hp => partsAll_trans ps hp hq)
        fun hp => CType.parts_trans r hp hq

theorem partsAll_trans : ∀ (ts : List CType) {p q : CType}, p ∈ partsAll ts → q ∈ p.parts →
    q ∈ partsAll ts
  | [], p, q, hp, _ => by simp [partsAll] at hp
  | t :: ts, p, q, hp, hq => by
    rw [partsAll, List.mem_append] at hp ⊢
    exact hp.imp (fun hp => CType.parts_trans t hp hq) fun hp => partsAll_trans ts hp hq

end

/-- The set that the type belongs in has it; a struct or union is known. -/
def TypeSets.Has (known : String → Prop) (s : TypeSets) : CType → Prop
  | .slice t => InSet s.slices (.slice t)
  | .option t => isNullSentinel (.option t) = true ∨ InSet s.options (.option t)
  | .result t => InSet s.results (.result t)
  | .func ps r v => InSet s.fns (.func ps r v)
  | .named n => known n
  | .scalar _ | .anyPtr _ | .pointer _ _ => True

/-- The sets have the type and all that is in it. -/
def TypeSets.Covers (known : String → Prop) (s : TypeSets) (t : CType) : Prop :=
  ∀ p ∈ t.parts, s.Has known p

/-- The sets have grown. -/
structure TypeSets.Le (s s' : TypeSets) : Prop where
  slices : s.slices ⊆ s'.slices
  options : s.options ⊆ s'.options
  results : s.results ⊆ s'.results
  fns : s.fns <+: s'.fns

theorem TypeSets.Le.refl (s : TypeSets) : s.Le s :=
  ⟨List.Subset.refl _, List.Subset.refl _, List.Subset.refl _, List.prefix_refl _⟩

theorem TypeSets.Le.trans {s s' s'' : TypeSets} (h : s.Le s') (h' : s'.Le s'') : s.Le s'' :=
  ⟨fun _ ht => h'.slices (h.slices ht), fun _ ht => h'.options (h.options ht),
    fun _ ht => h'.results (h.results ht), h.fns.trans h'.fns⟩

theorem TypeSets.Has.mono {s s' : TypeSets} {t : CType} (h : s.Has known t) (hle : s.Le s') :
    s'.Has known t := by
  cases t with
  | slice t => exact InSet.mono h hle.slices
  | option t => exact Or.imp_right (fun hin => InSet.mono hin hle.options) h
  | result t => exact InSet.mono h hle.results
  | func ps r v => exact InSet.mono h hle.fns.subset
  | _ => trivial

theorem TypeSets.Covers.mono {s s' : TypeSets} {t : CType} (h : s.Covers known t) (hle : s.Le s') :
    s'.Covers known t := fun p hp => (h p hp).mono hle

/-- What holds of the sets at every time: their types are of their kind, what is
in them is collected too, and a function type comes after those in it. -/
structure TypeSets.Closed (known : String → Prop) (s : TypeSets) : Prop where
  slices : ∀ t ∈ s.slices, ∃ e, t = .slice e ∧ s.Covers known e
  options : ∀ t ∈ s.options, ∃ i, t = .option i ∧ isNullSentinel t = false ∧ s.Covers known i
  results : ∀ t ∈ s.results, ∃ i, t = .result i ∧ s.Covers known i
  fns : ∀ pre t post, s.fns = pre ++ t :: post → ∃ ps r v, t = .func ps r v ∧
    ∀ p ∈ r :: ps, ({ s with fns := pre } : TypeSets).Covers known p
  apartSlices : Apart s.slices
  apartOptions : Apart s.options
  apartResults : Apart s.results
  apartFns : Apart s.fns

theorem closed_nil (known : String → Prop) : (⟨[], [], [], []⟩ : TypeSets).Closed known where
  slices := by simp
  options := by simp
  results := by simp
  fns pre t post heq := by simp at heq
  apartSlices := List.Pairwise.nil
  apartOptions := List.Pairwise.nil
  apartResults := List.Pairwise.nil
  apartFns := List.Pairwise.nil

theorem TypeSets.covers_cons {s : TypeSets} {t : CType} {ps : List CType} (ht : s.Has known t)
    (hparts : t.parts = t :: ps) (hps : ∀ p ∈ ps, s.Has known p) : s.Covers known t := by
  intro p hp
  rw [hparts] at hp
  rcases List.mem_cons.mp hp with rfl | hp
  · exact ht
  · exact hps p hp

/-- Collecting a type, and all that is in it first, keeps the sets closed. -/
structure Collected (known : String → Prop) (s : TypeSets) (t : CType) (s' : TypeSets) : Prop where
  le : s.Le s'
  closed : s'.Closed known
  covers : s'.Covers known t

theorem collected_atom {s : TypeSets} {t : CType} (hs : s.Closed known) (ht : s.Has known t)
    (hparts : t.parts = [t]) : Collected known s t s :=
  ⟨.refl s, hs, TypeSets.covers_cons ht hparts (by simp)⟩

theorem TypeSets.Closed.slices_mono {s s' : TypeSets} (hs : s.Closed known) (hle : s.Le s') :
    ∀ t ∈ s.slices, ∃ e, t = .slice e ∧ s'.Covers known e :=
  fun t ht => (hs.slices t ht).imp fun _ h => ⟨h.1, h.2.mono hle⟩

theorem TypeSets.Closed.options_mono {s s' : TypeSets} (hs : s.Closed known) (hle : s.Le s') :
    ∀ t ∈ s.options, ∃ i, t = .option i ∧ isNullSentinel t = false ∧ s'.Covers known i :=
  fun t ht => (hs.options t ht).imp fun _ h => ⟨h.1, h.2.1, h.2.2.mono hle⟩

theorem TypeSets.Closed.results_mono {s s' : TypeSets} (hs : s.Closed known) (hle : s.Le s') :
    ∀ t ∈ s.results, ∃ i, t = .result i ∧ s'.Covers known i :=
  fun t ht => (hs.results t ht).imp fun _ h => ⟨h.1, h.2.mono hle⟩

theorem TypeSets.Closed.fns_mono {s s' : TypeSets} (hs : s.Closed known) (hle : s.Le s') :
    ∀ pre t post, s.fns = pre ++ t :: post → ∃ ps r v, t = .func ps r v ∧
      ∀ p ∈ r :: ps, ({ s' with fns := pre } : TypeSets).Covers known p := by
  intro pre t post heq
  obtain ⟨ps, r, v, ht, hin⟩ := hs.fns pre t post heq
  exact ⟨ps, r, v, ht, fun p hp => (hin p hp).mono
    ⟨hle.slices, hle.options, hle.results, List.prefix_refl pre⟩⟩

theorem TypeSets.Closed.addSlice {s : TypeSets} {t : CType} (hs : s.Closed known)
    (ht : s.Covers known t) :
    Collected known s (.slice t) { s with slices := typesetAdd s.slices (.slice t) } := by
  have hle : s.Le { s with slices := typesetAdd s.slices (.slice t) } :=
    ⟨(typesetAdd_extends _ _).subset, List.Subset.refl _, List.Subset.refl _, List.prefix_refl _⟩
  refine ⟨hle, ⟨?_, hs.options_mono hle, hs.results_mono hle, hs.fns_mono hle,
    apart_typesetAdd hs.apartSlices _, hs.apartOptions, hs.apartResults, hs.apartFns⟩, ?_⟩
  · exact forall_typesetAdd (hs.slices_mono hle) ⟨t, rfl, ht.mono hle⟩
  · exact TypeSets.covers_cons (inSet_typesetAdd _ _) (by rw [CType.parts]) (ht.mono hle)

theorem TypeSets.Closed.addOption {s : TypeSets} {t : CType} (hs : s.Closed known)
    (ht : s.Covers known t) (hn : isNullSentinel (.option t) = false) :
    Collected known s (.option t) { s with options := typesetAdd s.options (.option t) } := by
  have hle : s.Le { s with options := typesetAdd s.options (.option t) } :=
    ⟨List.Subset.refl _, (typesetAdd_extends _ _).subset, List.Subset.refl _, List.prefix_refl _⟩
  refine ⟨hle, ⟨hs.slices_mono hle, ?_, hs.results_mono hle, hs.fns_mono hle, hs.apartSlices,
    apart_typesetAdd hs.apartOptions _, hs.apartResults, hs.apartFns⟩, ?_⟩
  · exact forall_typesetAdd (hs.options_mono hle) ⟨t, rfl, hn, ht.mono hle⟩
  · exact TypeSets.covers_cons (.inr (inSet_typesetAdd _ _)) (by rw [CType.parts]) (ht.mono hle)

theorem TypeSets.Closed.addResult {s : TypeSets} {t : CType} (hs : s.Closed known)
    (ht : s.Covers known t) :
    Collected known s (.result t) { s with results := typesetAdd s.results (.result t) } := by
  have hle : s.Le { s with results := typesetAdd s.results (.result t) } :=
    ⟨List.Subset.refl _, List.Subset.refl _, (typesetAdd_extends _ _).subset, List.prefix_refl _⟩
  refine ⟨hle, ⟨hs.slices_mono hle, hs.options_mono hle, ?_, hs.fns_mono hle, hs.apartSlices,
    hs.apartOptions, apart_typesetAdd hs.apartResults _, hs.apartFns⟩, ?_⟩
  · exact forall_typesetAdd (hs.results_mono hle) ⟨t, rfl, ht.mono hle⟩
  · exact TypeSets.covers_cons (inSet_typesetAdd _ _) (by rw [CType.parts]) (ht.mono hle)

theorem TypeSets.Closed.addFn {s : TypeSets} (ps : List CType) {r : CType} (v : Bool)
    (hs : s.Closed known) (hps : ∀ p ∈ r :: ps, s.Covers known p) :
    Collected known s (.func ps r v) { s with fns := typesetAdd s.fns (.func ps r v) } := by
  have hle : s.Le { s with fns := typesetAdd s.fns (.func ps r v) } :=
    ⟨List.Subset.refl _, List.Subset.refl _, List.Subset.refl _, typesetAdd_extends _ _⟩
  refine ⟨hle, ⟨hs.slices_mono hle, hs.options_mono hle, hs.results_mono hle, ?_, hs.apartSlices,
    hs.apartOptions, hs.apartResults, apart_typesetAdd hs.apartFns _⟩, ?_⟩
  · intro pre u post heq
    rcases typesetAdd_spec s.fns (.func ps r v) with ⟨hadd, -⟩ | ⟨hadd, -⟩
    · exact hs.fns pre u post (hadd.symm.trans heq)
    · rcases split_concat (hadd.symm.trans heq) with ⟨rfl, rfl⟩ | ⟨post', hfns⟩
      · exact ⟨ps, r, v, rfl, hps⟩
      · exact hs.fns pre u post' hfns
  · refine TypeSets.covers_cons (inSet_typesetAdd _ _) (by rw [CType.parts]) fun p hp => ?_
    rw [List.mem_append, mem_partsAll] at hp
    rcases hp with ⟨q, hq, hp⟩ | hp
    · exact ((hps q (List.mem_cons_of_mem r hq)).mono hle) p hp
    · exact ((hps r List.mem_cons_self).mono hle) p hp

mutual

theorem collectTypesInType_collected : ∀ (t : CType) {s : TypeSets}, s.Closed known →
    (∀ n, .named n ∈ t.parts → known n) → Collected known s t (collectTypesInType t s)
  | .scalar n, s, hs, hk => by
    rw [collectTypesInType]
    exact collected_atom hs trivial (by rw [CType.parts])
  | .anyPtr c, s, hs, hk => by
    rw [collectTypesInType]
    exact collected_atom hs trivial (by rw [CType.parts])
  | .named n, s, hs, hk => by
    rw [collectTypesInType]
    exact collected_atom hs (hk n (by simp [CType.parts])) (by rw [CType.parts])
  | .pointer c t, s, hs, hk => by
    rw [collectTypesInType]
    obtain ⟨hle, hclosed, hcov⟩ := collectTypesInType_collected t hs
      fun n hn => hk n (by simp [CType.parts, hn])
    exact ⟨hle, hclosed, TypeSets.covers_cons trivial (by rw [CType.parts]) hcov⟩
  | .slice t, s, hs, hk => by
    rw [collectTypesInType]
    obtain ⟨hle, hclosed, hcov⟩ := collectTypesInType_collected t hs
      fun n hn => hk n (by simp [CType.parts, hn])
    obtain ⟨hle', hclosed', hcov'⟩ := hclosed.addSlice hcov
    exact ⟨hle.trans hle', hclosed', hcov'⟩
  | .option t, s, hs, hk => by
    rw [collectTypesInType]
    obtain ⟨hle, hclosed, hcov⟩ := collectTypesInType_collected t hs
      fun n hn => hk n (by simp [CType.parts, hn])
    split
    · rename_i hn
      exact ⟨hle, hclosed, TypeSets.covers_cons (.inl hn) (by rw [CType.parts]) hcov⟩
    · rename_i hn
      obtain ⟨hle', hclosed', hcov'⟩ := hclosed.addOption hcov (by simpa using hn)
      exact ⟨hle.trans hle', hclosed', hcov'⟩
  | .result t, s, hs, hk => by
    rw [collectTypesInType]
    obtain ⟨hle, hclosed, hcov⟩ := collectTypesInType_collected t hs
      fun n hn => hk n (by simp [CType.parts, hn])
    obtain ⟨hle', hclosed', hcov'⟩ := hclosed.addResult hcov
    exact ⟨hle.trans hle', hclosed', hcov'⟩
  | .func ps r v, s, hs, hk => by
    rw [collectTypesInType]
    obtain ⟨hle, hclosed, hcov⟩ := collectTypesInTypes_collected ps hs
      fun n hn => hk n (by simp [CType.parts, hn])
    obtain ⟨hle', hclosed', hcov'⟩ := collectTypesInType_collected r hclosed
      fun n hn => hk n (by simp [CType.parts, hn])
    obtain ⟨hle'', hclosed'', hcov''⟩ := hclosed'.addFn ps v fun p hp => by
      rcases List.mem_cons.mp hp with rfl | hp
      · exact hcov'
      · exact (hcov p hp).mono hle'
    exact ⟨(hle.trans hle').trans hle'', hclosed'', hcov''⟩

theorem collectTypesInTypes_collected : ∀ (ts : List CType) {s : TypeSets}, s.Closed known →
    (∀ n, .named n ∈ partsAll ts → known n) →
    s.Le (collectTypesInTypes ts s) ∧ (collectTypesInTypes ts s).Closed known ∧
      ∀ t ∈ ts, (collectTypesInTypes ts s).Covers known t
  | [], s, hs, hk => by
    rw [collectTypesInTypes]
    exact ⟨.refl s, hs, by simp⟩
  | t :: ts, s, hs, hk => by
    rw [collectTypesInTypes]
    obtain ⟨hle, hclosed, hcov⟩ := collectTypesInType_collected t hs
      fun n hn => hk n (by simp [partsAll, hn])
    obtain ⟨hle', hclosed', hall⟩ := collectTypesInTypes_collected ts hclosed
      fun n hn => hk n (by simp [partsAll, hn])
    refine ⟨hle.trans hle', hclosed', fun u hu => ?_⟩
    rcases List.mem_cons.mp hu with rfl | hu
    · exact hcov.mono hle'
    · exact hall u hu

end

end

end FcLang.Codegen.TypeOrder
