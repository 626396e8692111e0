import FcLang.Codegen.TypeOrderSets

/-!
# The C names of the collected types

`type_ident_eq` compares types without their C names. What it takes for one type
has one name, but two types can have one name as well: a slice of pointers to a
struct `node` and a slice of a struct `node_ptr`.
-/

namespace FcLang.Codegen.TypeOrder

theorem isStrType_spell (t : CType) :
    isStrType (.slice (spell true t)) = isStrType (.slice t) := by
  cases t <;> rfl

theorem spellAll_isEmpty (ts : List CType) : (spellAll ts).isEmpty = ts.isEmpty := by
  cases ts <;> rfl

mutual

theorem typeIdent_spell : ∀ (bare : Bool) (t : CType),
    typeIdent bare (spell bare t) = typeIdent bare t
  | bare, .scalar n => rfl
  | bare, .anyPtr c => by cases bare <;> rfl
  | bare, .pointer c t => by
    rw [spell, typeIdent, typeIdent, typeIdent_spell false t]
    cases bare <;> rfl
  | bare, .slice t => by
    rw [spell, typeIdent, typeIdent, isStrType_spell, typeIdent_spell true t]
  | bare, .option t | bare, .result t => by
    rw [spell, typeIdent, typeIdent, typeIdent_spell false t]
  | bare, .func ps r v => by
    rw [spell, typeIdent, typeIdent, spellAll_isEmpty, typeIdents_spellAll ps,
      typeIdent_spell false r]
  | bare, .named n => rfl

theorem typeIdents_spellAll : ∀ ts : List CType, typeIdents (spellAll ts) = typeIdents ts
  | [] => rfl
  | t :: ts => by
    rw [spellAll, typeIdents, typeIdents, typeIdent_spell false t, typeIdents_spellAll ts]

end

section
variable {t u : CType}

/-- What is one type for the collector has one C name. -/
theorem typeIdent_congr (h : typeIdentEq false t u = true) :
    typeIdent false t = typeIdent false u := by
  rw [typeIdentEq_iff] at h
  rw [← typeIdent_spell false t, h, typeIdent_spell]

theorem tag_spell (t : CType) : (spell false t).tag = t.tag := by
  have hident := typeIdent_spell false t
  cases t with
  | slice e => exact congrArg (fun n => some (n ++ "_s")) hident
  | func ps r v => rfl
  | _ => exact congrArg some hident

theorem tag_congr (h : typeIdentEq false t u = true) : t.tag = u.tag := by
  rw [typeIdentEq_iff] at h
  rw [← tag_spell t, h, tag_spell]

end

/-- A type that has a typedef of its own. -/
def CType.isWrapper : CType → Bool
  | slice t => !isStrType (.slice t)
  | option t => !isNullSentinel (.option t)
  | result _ | func _ _ _ => true
  | scalar _ | anyPtr _ | pointer _ _ | named _ => false

/-- The structs, unions and wrappers that the declarations are for. -/
def declaredTypes (items : List Item) : List CType :=
  ((sudefs items).filter fun d => !d.isExtern).map (fun d => .named d.name) ++
    (partsAll (items.flatMap Item.types)).filter CType.isWrapper

/-- No two of these types have one typedef or one tag in C, unless they are one type. -/
def OneNameEach (items : List Item) : Prop :=
  ∀ t ∈ declaredTypes items, ∀ u ∈ declaredTypes items,
    typeIdent false t = typeIdent false u ∨ (∃ n, t.tag = some n ∧ u.tag = some n) →
      typeIdentEq false t u = true

def TypeSets.all (s : TypeSets) : List CType := s.slices ++ s.options ++ s.results ++ s.fns

theorem mem_typesetAdd {ts : List CType} {t u : CType} (h : u ∈ typesetAdd ts t) :
    u ∈ ts ∨ u = t := by
  rcases typesetAdd_spec ts t with ⟨heq, -⟩ | ⟨heq, -⟩
  · exact .inl (heq ▸ h)
  · rw [heq] at h
    exact (List.mem_append.mp h).imp_right List.mem_singleton.mp

theorem mem_all_of_add (s : TypeSets) {s' : TypeSets} {t p : CType} (h : p ∈ s'.all)
    (hslices : p ∈ s'.slices → p ∈ s.slices ∨ p = t)
    (hoptions : p ∈ s'.options → p ∈ s.options ∨ p = t)
    (hresults : p ∈ s'.results → p ∈ s.results ∨ p = t)
    (hfns : p ∈ s'.fns → p ∈ s.fns ∨ p = t) : p ∈ s.all ∨ p = t := by
  simp only [TypeSets.all, List.mem_append] at h ⊢
  rcases h with ((h | h) | h) | h
  · exact (hslices h).imp_left fun h => .inl (.inl (.inl h))
  · exact (hoptions h).imp_left fun h => .inl (.inl (.inr h))
  · exact (hresults h).imp_left fun h => .inl (.inr h)
  · exact (hfns h).imp_left .inr

theorem mem_parts_of {t u p : CType} (hparts : u.parts = u :: t.parts) :
    (p ∈ t.parts → p ∈ u.parts) ∧ (p = u → p ∈ u.parts) := by
  rw [hparts]
  exact ⟨List.mem_cons_of_mem u, fun h => h ▸ List.mem_cons_self⟩

mutual

/-- Only types that occur are collected. -/
theorem mem_collectTypesInType : ∀ (t : CType) {s : TypeSets} {p : CType},
    p ∈ (collectTypesInType t s).all → p ∈ s.all ∨ p ∈ t.parts
  | .scalar _, s, p, h | .anyPtr _, s, p, h | .named _, s, p, h => by
    rw [collectTypesInType] at h
    exact .inl h
  | .pointer c t, s, p, h => by
    rw [collectTypesInType] at h
    exact (mem_collectTypesInType t h).imp_right (mem_parts_of (by rw [CType.parts])).1
  | .slice t, s, p, h => by
    rw [collectTypesInType] at h
    obtain ⟨hin, hself⟩ := mem_parts_of (t := t) (p := p) (u := .slice t) (by rw [CType.parts])
    rcases mem_all_of_add (collectTypesInType t s) h mem_typesetAdd .inl .inl .inl with h | h
    · exact (mem_collectTypesInType t h).imp_right hin
    · exact .inr (hself h)
  | .option t, s, p, h => by
    rw [collectTypesInType] at h
    obtain ⟨hin, hself⟩ := mem_parts_of (t := t) (p := p) (u := .option t) (by rw [CType.parts])
    split at h
    · exact (mem_collectTypesInType t h).imp_right hin
    · rcases mem_all_of_add (collectTypesInType t s) h .inl mem_typesetAdd .inl .inl with h | h
      · exact (mem_collectTypesInType t h).imp_right hin
      · exact .inr (hself h)
  | .result t, s, p, h => by
    rw [collectTypesInType] at h
    obtain ⟨hin, hself⟩ := mem_parts_of (t := t) (p := p) (u := .result t) (by rw [CType.parts])
    rcases mem_all_of_add (collectTypesInType t s) h .inl .inl mem_typesetAdd .inl with h | h
    · exact (mem_collectTypesInType t h).imp_right hin
    · exact .inr (hself h)
  | .func ps r v, s, p, h => by
    rw [collectTypesInType] at h
    rw [CType.parts, List.mem_cons, List.mem_append]
    rcases mem_all_of_add (collectTypesInType r (collectTypesInTypes ps s)) h .inl .inl .inl
        mem_typesetAdd with h | h
    · rcases mem_collectTypesInType r h with h | h
      · exact (mem_collectTypesInTypes ps h).imp_right fun h => .inr (.inl h)
      · exact .inr (.inr (.inr h))
    · exact .inr (.inl h)

theorem mem_collectTypesInTypes : ∀ (ts : List CType) {s : TypeSets} {p : CType},
    p ∈ (collectTypesInTypes ts s).all → p ∈ s.all ∨ p ∈ partsAll ts
  | [], s, p, h => by
    rw [collectTypesInTypes] at h
    exact .inl h
  | t :: ts, s, p, h => by
    rw [collectTypesInTypes] at h
    rw [partsAll, List.mem_append]
    rcases mem_collectTypesInTypes ts h with h | h
    · exact (mem_collectTypesInType t h).imp_right .inl
    · exact .inr (.inr h)

end

/-- The type that it declares or defines. -/
def CDecl.type : CDecl → CType
  | forward n | suBody n _ => .named n
  | forwardWrapper t | fnTypedef t | body t => t

theorem typedefName_eq {a : CDecl} {n : String} (h : a.typedefName = some n) :
    typeIdent false a.type = n := by
  cases a with
  | forward m => exact Option.some.inj h
  | forwardWrapper t => exact Option.some.inj h
  | fnTypedef t => exact Option.some.inj h
  | body t => cases h
  | suBody m ms => cases h

theorem definedTag_eq {a : CDecl} {n : String} (h : a.definedTag = some n) :
    a.type.tag = some n := by
  cases a with
  | body t => exact h
  | suBody m ms => exact h
  | _ => cases h

theorem names_of_clash {a b : CDecl} (h : a.Clashes b) :
    typeIdent false a.type = typeIdent false b.type ∨
      ∃ n, a.type.tag = some n ∧ b.type.tag = some n := by
  rcases h with ⟨n, ha, hb⟩ | ⟨n, ha, hb⟩
  · exact .inl ((typedefName_eq ha).trans (typedefName_eq hb).symm)
  · exact .inr ⟨n, definedTag_eq ha, definedTag_eq hb⟩

/-- Where the declaration comes from. -/
def CDecl.Origin (defs : List SuDef) (sets : TypeSets) : CDecl → Prop
  | forward n | suBody n _ => ∃ d ∈ defs, d.isExtern = false ∧ d.name = n
  | forwardWrapper t | body t =>
    t ∈ sets.options ∨ t ∈ sets.results ∨ t ∈ sets.slices ∧ isStrType t = false
  | fnTypedef t => t ∈ sets.fns

section
variable {items : List Item} {known : String → Prop} {a b : CDecl}

theorem TypeSets.Closed.fn_of_mem {sets : TypeSets} (hs : sets.Closed known) {t : CType}
    (ht : t ∈ sets.fns) : ∃ ps r v, t = .func ps r v := by
  obtain ⟨pre, post, heq⟩ := List.append_of_mem ht
  obtain ⟨ps, r, v, rfl, -⟩ := hs.fns pre t post heq
  exact ⟨ps, r, v, rfl⟩

theorem collectTypes_subset (items : List Item) {p : CType} (h : p ∈ (collectTypes items).all) :
    p ∈ partsAll (items.flatMap Item.types) :=
  (mem_collectTypesInTypes _ h).resolve_left (by simp [TypeSets.all])

/-- A declaration is for one of the declared types. -/
theorem declared_of_origin (hs : (collectTypes items).Closed known)
    (h : a.Origin (sudefs items) (collectTypes items)) : a.type ∈ declaredTypes items := by
  have hwrapper : ∀ t, t ∈ (collectTypes items).all → t.isWrapper = true →
      t ∈ declaredTypes items := fun t ht hw =>
    List.mem_append_right _ (List.mem_filter.mpr ⟨collectTypes_subset items ht, hw⟩)
  have hset : ∀ t, t ∈ (collectTypes items).options ∨ t ∈ (collectTypes items).results ∨
      t ∈ (collectTypes items).slices ∧ isStrType t = false → t ∈ declaredTypes items := by
    rintro t (ht | ht | ⟨ht, hstr⟩)
    · obtain ⟨i, rfl, hn, -⟩ := hs.options t ht
      exact hwrapper _ (by simp [TypeSets.all, ht]) (by simp [CType.isWrapper, hn])
    · obtain ⟨i, rfl, -⟩ := hs.results t ht
      exact hwrapper _ (by simp [TypeSets.all, ht]) rfl
    · obtain ⟨i, rfl, -⟩ := hs.slices t ht
      exact hwrapper _ (by simp [TypeSets.all, ht]) (by simp [CType.isWrapper, hstr])
  have hnamed : ∀ n, (∃ d ∈ sudefs items, d.isExtern = false ∧ d.name = n) →
      CType.named n ∈ declaredTypes items := by
    rintro n ⟨d, hd, he, rfl⟩
    exact List.mem_append_left _ (List.mem_map.mpr ⟨d, List.mem_filter.mpr ⟨hd, by simp [he]⟩, rfl⟩)
  cases a with
  | forward n => exact hnamed n h
  | suBody n ms => exact hnamed n h
  | forwardWrapper t => exact hset t h
  | body t => exact hset t h
  | fnTypedef t =>
    have ht : t ∈ (collectTypes items).fns := h
    obtain ⟨ps, r, v, rfl⟩ := hs.fn_of_mem ht
    exact hwrapper _ (List.mem_append_right _ ht) rfl

/-- Which of the declarations a type has. -/
def CType.head : CType → ℕ
  | slice _ | option _ | result _ => 1
  | func _ _ _ => 2
  | named _ => 3
  | scalar _ | anyPtr _ | pointer _ _ => 0

theorem head_congr {t u : CType} (h : typeIdentEq false t u = true) : t.head = u.head := by
  cases t <;> cases u <;> first | rfl | cases h

def CDecl.head : CDecl → ℕ
  | forward _ | suBody _ _ => 3
  | forwardWrapper _ | body _ => 1
  | fnTypedef _ => 2

theorem head_of_origin {defs : List SuDef} {sets : TypeSets} (hs : sets.Closed known)
    (h : a.Origin defs sets) : a.type.head = a.head := by
  have hset : ∀ t, t ∈ sets.options ∨ t ∈ sets.results ∨
      t ∈ sets.slices ∧ isStrType t = false → t.head = 1 := by
    rintro t (ht | ht | ⟨ht, -⟩)
    · obtain ⟨i, rfl, -⟩ := hs.options t ht
      rfl
    · obtain ⟨i, rfl, -⟩ := hs.results t ht
      rfl
    · obtain ⟨i, rfl, -⟩ := hs.slices t ht
      rfl
  cases a with
  | forward n => rfl
  | suBody n ms => rfl
  | forwardWrapper t => exact hset t h
  | body t => exact hset t h
  | fnTypedef t =>
    obtain ⟨ps, r, v, rfl⟩ := hs.fn_of_mem h
    rfl

/-- Two declarations of one C name are for one type only if they are two of one kind. -/
theorem same_of_clash {defs : List SuDef} {sets : TypeSets} (hs : sets.Closed known)
    (ha : a.Origin defs sets) (hb : b.Origin defs sets) (hc : a.Clashes b)
    (heq : typeIdentEq false a.type b.type = true) : a.same b = true := by
  have hhead : a.head = b.head :=
    ((head_of_origin hs ha).symm.trans (head_congr heq)).trans (head_of_origin hs hb)
  cases a <;> cases b <;>
    first
    | exact heq
    | cases hhead; done
    | simp [CDecl.Clashes, CDecl.typedefName, CDecl.definedTag] at hc

end

end FcLang.Codegen.TypeOrder
