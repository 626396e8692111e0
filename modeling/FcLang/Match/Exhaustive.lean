import FcLang.Match.Ctors
import FcLang.Match.Flatten

/-!
# Exhaustiveness of a match

Each or-free pattern of an arm becomes a row of one column, and the search for a
witness runs over the rows of the arms without a guard. A row matches the values
that its pattern matches, so the report is exact: a match passes when its arms
cover the subject type, and a witness describes values that they leave out.
Only where the or-patterns of an arm expand to more than 1024 patterns is a
match refused that may well be exhaustive.
-/

namespace FcLang.Match
open FcLang.PatternMatrix
open FcLang.Types (Prim)

def optionInner : Option Ty → Option Ty
  | some (.option inner) => some inner
  | _ => none

def resultInner : Option Ty → Option Ty
  | some (.result inner) => some inner
  | _ => none

def variantPayload (name : String) : Option Ty → Option Ty
  | some (.union first rest) => ((first :: rest).lookup name).join
  | _ => none

def structFields : Option Ty → List (String × Ty)
  | some (.struct _ fields) => fields
  | _ => []

mutual
/-- `pat_to_matpat`: the type is none where the source passes a null pointer. -/
def patToMatpat : Pat → Option Ty → MatPat Ctor
  | .wildcard, _ | .binding _, _ => .wild
  | .boolLit value, _ => .ctor (if value then .tru else .fls) []
  | .some p, t => .ctor .some [patToMatpat p (optionInner t)]
  | .none, _ => .ctor .none []
  | .ok p, t => .ctor .ok [innerMatpat p (resultInner t)]
  | .err p, _ => .ctor .err [patToMatpat p (some (.prim .int32))]
  | .variant name none, _ => .ctor (.variant name) []
  | .variant name (some p), t => .ctor (.variant name) [patToMatpat p (variantPayload name t)]
  | .struct fs, t =>
    .ctor .struct
      (fillFields (structFields t) fs (List.replicate (structFields t).length .wild))
  | .intLit value .., _ => .ctor (.intLit value) []
  | .charLit value, _ => .ctor (.charLit value) []
  | .stringLit value, _ => .ctor (.stringLit value) []
  | .or .., _ => .wild
  | .tuple ps, t => .ctor .struct (tupleElems ps (structFields t))

def innerMatpat : Option Pat → Option Ty → MatPat Ctor
  | none, _ => .wild
  | some p, t => patToMatpat p t

/-- Each field pattern goes to the position of its field. -/
def fillFields (fields : List (String × Ty)) :
    List (String × Pat) → List (MatPat Ctor) → List (MatPat Ctor)
  | [], sub => sub
  | (name, p) :: fs, sub =>
    fillFields fields fs
      (sub.set ((fields.map Prod.fst).idxOf name) (patToMatpat p (fields.lookup name)))

def tupleElems : List Pat → List (String × Ty) → List (MatPat Ctor)
  | [], fields => List.replicate fields.length .wild
  | _ :: _, [] => []
  | p :: ps, (_, t) :: fields => patToMatpat p (some t) :: tupleElems ps fields
end

structure Arm where
  pattern : Pat
  guarded : Bool

inductive Report where
  | tooManyCombinations
  | nonExhaustive (witness : Row Ctor)

/-- `check_match_pattern` on every arm. -/
def checkArms (subjType : Ty) (arms : List Arm) : Option (List Arm) :=
  arms.mapM fun arm =>
    (checkMatchPattern false arm.pattern subjType).map fun p => { arm with pattern := p }

def armRows (subjType : Ty) (arms : List Arm) : Option (Matrix Ctor) := do
  let flats ← (arms.filter (!·.guarded)).mapM fun arm => flattenOrPattern arm.pattern
  some (flats.flatten.map fun p => [patToMatpat p (some subjType)])

/-- None when no error is reported. -/
def checkMatchExhaustiveness (subjType : Ty) (arms : List Arm) : Option Report :=
  match armRows subjType arms with
  | none => some .tooManyCombinations
  | some rows => (findWitness signature rows [subjType]).map .nonExhaustive

section Translation
variable {α β : Type} {R : MatPat Ctor → β → Prop} {sub : List (MatPat Ctor)} {bs : List β}

/-- Setting a position that was a wildcard asks one thing more. -/
theorem forall₂_set (hwild : ∀ b, R .wild b) {i : ℕ} (hi : sub[i]? = some .wild)
    (m : MatPat Ctor) :
    List.Forall₂ R (sub.set i m) bs ↔ List.Forall₂ R sub bs ∧ ∃ b, bs[i]? = some b ∧ R m b := by
  induction sub generalizing i bs with
  | nil => cases hi
  | cons p sub ih =>
    cases bs with
    | nil => cases i <;> simp
    | cons b bs =>
      cases i with
      | zero =>
        obtain rfl : p = .wild := by simpa using hi
        simp [hwild, and_comm]
      | succ i =>
        have hset : List.Forall₂ R (sub.set i m) bs ↔ _ := ih (by simpa using hi)
        simp [hset, and_assoc]

/-- A filled row holds when the row before it does and every field pattern holds
at the position of its field. -/
theorem forall₂_fillFields (hwild : ∀ b, R .wild b) (fields : List (String × Ty))
    {fs : List (String × Pat)} (once : (fs.map Prod.fst).Nodup)
    (hmem : ∀ f ∈ fs, f.1 ∈ fields.map Prod.fst)
    (hsub : ∀ f ∈ fs, sub[(fields.map Prod.fst).idxOf f.1]? = some .wild) :
    List.Forall₂ R (fillFields fields fs sub) bs ↔ List.Forall₂ R sub bs ∧
      ∀ f ∈ fs, ∃ b, bs[(fields.map Prod.fst).idxOf f.1]? = some b ∧
        R (patToMatpat f.2 (fields.lookup f.1)) b := by
  induction fs generalizing sub with
  | nil => simp [fillFields]
  | cons f fs ih =>
    obtain ⟨name, p⟩ := f
    obtain ⟨hname, once⟩ := List.nodup_cons.mp once
    obtain ⟨hf, hmem⟩ := List.forall_mem_cons.mp hmem
    obtain ⟨hi, hsub⟩ := List.forall_mem_cons.mp hsub
    have hrest : ∀ f ∈ fs, (sub.set ((fields.map Prod.fst).idxOf name)
        (patToMatpat p (fields.lookup name)))[(fields.map Prod.fst).idxOf f.1]? = some .wild := by
      intro f hf'
      have hne : (fields.map Prod.fst).idxOf name ≠ (fields.map Prod.fst).idxOf f.1 := by
        rw [Ne, List.idxOf_inj hf]
        intro h
        exact hname (List.mem_map.mpr ⟨f, hf', h.symm⟩)
      rw [List.getElem?_set_ne hne]
      exact hsub f hf'
    rw [fillFields, ih once hmem hrest, forall₂_set hwild hi, List.forall_mem_cons, and_assoc]

theorem lookup_eq_getElem? (l : List (String × α)) (name : String) :
    l.lookup name = (l.map Prod.snd)[(l.map Prod.fst).idxOf name]? := by
  induction l with
  | nil => simp
  | cons f l ih =>
    obtain ⟨name', a⟩ := f
    rw [List.lookup_cons, List.map_cons, List.map_cons, List.idxOf_cons]
    by_cases h : name = name'
    · simp [h]
    · have hb : (name == name') = false := by simp [h]
      have hb' : (name' == name) = false := by simp [Ne.symm h]
      simp [hb, hb', ih]

theorem fieldsMatch_iff {fs : List (String × Pat)} {vs : List (String × Val)} :
    fieldsMatch fs vs = true ↔ ∀ f ∈ fs, ∃ v, vs.lookup f.1 = some v ∧ f.2.matches v = true := by
  induction fs with
  | nil => simp [fieldsMatch]
  | cons f fs ih =>
    obtain ⟨name, p⟩ := f
    rw [fieldsMatch, Bool.and_eq_true, ih, List.forall_mem_cons]
    refine and_congr_left fun _ => ?_
    cases vs.lookup name <;> simp

/-- A pattern and its row at type `t`. -/
def Translates (p : Pat) (t : Ty) : Prop :=
  PatOk signature (patToMatpat p (some t)) t ∧
    ∀ v, HasTy true v t → (Matches signature (patToMatpat p (some t)) v ↔ p.matches v = true)

theorem matches_ctor_iff {c : Ctor} {sub : List (MatPat Ctor)} {v : Val} :
    Matches signature (.ctor c sub) v ↔
      builds c v ∧ List.Forall₂ (Matches signature) sub v.parts := by
  constructor
  · intro h
    cases h with
    | ctor head parts => exact ⟨head, parts⟩
  · exact fun h => .ctor h.1 h.2

theorem lookup_hasTy {vs : List (String × Val)} {fields : List (String × Ty)} {name : String}
    {v : Val} {t : Ty} (names : vs.map Prod.fst = fields.map Prod.fst)
    (vals : List.Forall₂ (HasTy true) (vs.map Prod.snd) (fields.map Prod.snd))
    (hv : vs.lookup name = some v) (ht : fields.lookup name = some t) : HasTy true v t := by
  rw [lookup_eq_getElem?, names] at hv
  rw [lookup_eq_getElem?] at ht
  obtain ⟨hi, rfl⟩ := List.getElem?_eq_some_iff.mp hv
  obtain ⟨hj, rfl⟩ := List.getElem?_eq_some_iff.mp ht
  exact vals.get hi hj

theorem translates_each {fs : List (String × Pat)} {fields : List (String × Ty)} {types : List Ty}
    (lookups : fs.map (fun f => fields.lookup f.1) = types.map some)
    (h : List.Forall₂ Translates (fs.map Prod.snd) types) :
    ∀ f ∈ fs, ∃ t, fields.lookup f.1 = some t ∧ Translates f.2 t := by
  induction fs generalizing types with
  | nil => simp
  | cons f fs ih =>
    cases h with
    | cons hf hfs =>
      obtain ⟨hl, hls⟩ := List.cons.inj lookups
      exact List.forall_mem_cons.mpr ⟨⟨_, hl, hf⟩, ih hls hfs⟩

theorem translates_struct {isTuple : Bool} {fs : List (String × Pat)}
    {fields : List (String × Ty)} {types : List Ty} (once : (fs.map Prod.fst).Nodup)
    (lookups : fs.map (fun f => fields.lookup f.1) = types.map some)
    (h : List.Forall₂ Translates (fs.map Prod.snd) types) :
    Translates (.struct fs) (.struct isTuple fields) := by
  have each := translates_each lookups h
  have hmem : ∀ f ∈ fs, f.1 ∈ fields.map Prod.fst := by
    intro f hf
    obtain ⟨t, hl, -⟩ := each f hf
    exact lookup_isSome_iff.mp (by rw [hl]; rfl)
  have hsub : ∀ f ∈ fs, (List.replicate fields.length (MatPat.wild : MatPat Ctor))[
      (fields.map Prod.fst).idxOf f.1]? = some .wild := by
    intro f hf
    have := List.idxOf_lt_length_of_mem (hmem f hf)
    rw [List.getElem?_replicate, if_pos (by simpa using this)]
  constructor
  · have hwilds : RowOk signature (fields.map Prod.snd) (List.replicate fields.length .wild) := by
      simpa only [List.length_map] using patOk_wilds (S := signature) (fields.map Prod.snd)
    refine .ctor (fun cs hcs => ?_) ((forall₂_fillFields (fun _ => .wild) fields once hmem hsub).mpr
      ⟨hwilds, fun f hf => ?_⟩)
    · cases hcs
      exact List.mem_singleton_self _
    · obtain ⟨t, hl, ht⟩ := each f hf
      exact ⟨t, by rw [← hl, lookup_eq_getElem?]; rfl, hl ▸ ht.1⟩
  · intro v hv
    obtain ⟨vs, rfl, names, vals⟩ := hv.struct_inv
    have hlen : fields.length = (vs.map Prod.snd).length := by
      rw [vals.length_eq, List.length_map]
    have hwilds : RowMatches signature (List.replicate fields.length .wild) (vs.map Prod.snd) :=
      matches_wilds hlen
    rw [patToMatpat, matches_ctor_iff, Pat.matches, fieldsMatch_iff]
    refine (and_iff_right rfl).trans
      ((forall₂_fillFields (fun _ => .wild) fields once hmem hsub).trans
      ((and_iff_right hwilds).trans (forall₂_congr fun f hf => exists_congr fun w => ?_)))
    obtain ⟨t, hl, ht⟩ := each f hf
    rw [← names, hl, show (Val.struct vs).parts = vs.map Prod.snd from rfl, ← lookup_eq_getElem?]
    exact and_congr_right fun hw => ht.2 w (lookup_hasTy names vals hw hl)

theorem translates_tuple {isTuple : Bool} {ps : List Pat} {fields : List (String × Ty)}
    (h : List.Forall₂ Translates ps (fields.map Prod.snd)) :
    Translates (.tuple ps) (.struct isTuple fields) := by
  constructor
  · refine .ctor (fun cs hcs => ?_) ?_
    · cases hcs
      exact List.mem_singleton_self _
    · change List.Forall₂ (PatOk signature) (tupleElems ps fields) (fields.map Prod.snd)
      induction fields generalizing ps with
      | nil =>
        cases h
        exact .nil
      | cons f fields ih =>
        cases h with
        | cons hp hps => exact .cons hp.1 (ih hps)
  · intro v hv
    obtain ⟨vs, rfl, -, vals⟩ := hv.struct_inv
    rw [patToMatpat, matches_ctor_iff, Pat.matches]
    refine (and_iff_right rfl).trans ?_
    change List.Forall₂ (Matches signature) (tupleElems ps fields) (vs.map Prod.snd) ↔ _
    clear hv
    induction fields generalizing ps vs with
    | nil =>
      cases h
      cases vs with
      | nil => simp [tupleElems, elemsMatch]
      | cons v vs => cases vals
    | cons f fields ih =>
      cases h with
      | cons hp hps =>
        cases vs with
        | nil => cases vals
        | cons v vs =>
          cases vals with
          | cons hv hvs =>
            simp only [tupleElems, List.map_cons, List.forall₂_cons, elemsMatch, Bool.and_eq_true,
              hp.2 _ hv, ih hps _ hvs]

section Constructors
variable {p : Pat} {t inner : Ty} {c : Ctor} {m : MatPat Ctor} {q : Val → Bool}

/-- A constructor without arguments. -/
theorem translates_bare (hp : patToMatpat p (some t) = .ctor c [])
    (hmem : ∀ cs, typeCtorsList t = some cs → c ∈ cs) (hargs : ctorSubTypes c t = [])
    (hval : ∀ v, HasTy true v t → (builds c v ∧ v.parts = [] ∧ p.matches v = true) ∨
      (¬builds c v ∧ p.matches v = false)) : Translates p t := by
  constructor
  · rw [hp]
    exact .ctor hmem (by rw [show signature.args c t = [] from hargs]; exact .nil)
  · intro v hv
    rw [hp, matches_ctor_iff, List.forall₂_nil_left_iff]
    obtain ⟨hc, hparts, hm⟩ | ⟨hc, hm⟩ := hval v hv
    · simp [hc, hparts, hm]
    · simp [hc, hm]

/-- A constructor around one pattern. -/
theorem translates_around (hp : patToMatpat p (some t) = .ctor c [m])
    (hmem : ∀ cs, typeCtorsList t = some cs → c ∈ cs) (hargs : ctorSubTypes c t = [inner])
    (hm : PatOk signature m inner)
    (hq : ∀ w, HasTy true w inner → (Matches signature m w ↔ q w = true))
    (hval : ∀ v, HasTy true v t →
      (∃ w, builds c v ∧ v.parts = [w] ∧ HasTy true w inner ∧ p.matches v = q w) ∨
        (¬builds c v ∧ p.matches v = false)) : Translates p t := by
  constructor
  · rw [hp]
    exact .ctor hmem (by rw [show signature.args c t = [inner] from hargs]; exact .cons hm .nil)
  · intro v hv
    rw [hp, matches_ctor_iff]
    obtain ⟨w, hc, hparts, hw, hmatch⟩ | ⟨hc, hmatch⟩ := hval v hv
    · rw [hparts, hmatch, and_iff_right hc, List.forall₂_cons, and_iff_left List.Forall₂.nil, hq w hw]
    · simp [hc, hmatch]

theorem translates_lit (u : Val) (hu : u.parts = []) (hp : patToMatpat p (some t) = .ctor c [])
    (ht : typeCtorsList t = none) (hargs : ctorSubTypes c t = [])
    (hb : ∀ v, builds c v ↔ v = u) (hm : ∀ v, p.matches v = true ↔ v = u) : Translates p t := by
  refine translates_bare hp (fun cs hcs => nomatch ht.symm.trans hcs) hargs fun v _ => ?_
  by_cases hv : v = u
  · exact .inl ⟨(hb v).mpr hv, hv ▸ hu, (hm v).mpr hv⟩
  · exact .inr ⟨mt (hb v).mp hv, Bool.eq_false_iff.mpr (mt (hm v).mp hv)⟩

theorem typeCtorsList_integer {kind : Prim} (h : isInteger kind = true) :
    typeCtorsList (.prim kind) = none := by
  cases kind <;> first | rfl | cases h

theorem translates_ok {p : Option Pat} (hm : PatOk signature (innerMatpat p (some inner)) inner)
    (hq : ∀ w, HasTy true w inner →
      (Matches signature (innerMatpat p (some inner)) w ↔ q w = true))
    (hp : ∀ w, payloadMatches p (some w) = q w) : Translates (.ok p) (.result inner) := by
  refine translates_around rfl (c := .ok) (fun cs hcs => ?_) rfl hm hq fun v hv => ?_
  · cases hcs
    simp
  · obtain ⟨w, rfl, hw⟩ | ⟨code, rfl, -, -⟩ := hv.result_inv
    · exact .inl ⟨w, rfl, rfl, hw, hp w⟩
    · exact .inr ⟨nofun, rfl⟩

/-- A value of a type with variants either has the payload of the variant or is
another variant. -/
theorem variant_or_other {name : String} {payload : Option Ty} {v : Val}
    (hl : t.variants.lookup name = some payload) (hv : HasTy true v t) :
    (∃ name' w, v = .variant name' w ∧ name ≠ name') ∨
      ∃ w, v = .variant name w ∧ Option.Rel (HasTy true) w payload := by
  obtain ⟨name', payload', w, rfl, hl', hw⟩ := hv.variant_inv hl
  by_cases hname : name = name'
  · subst hname
    cases hl.symm.trans hl'
    exact .inr ⟨w, rfl, hw⟩
  · exact .inl ⟨name', w, rfl, hname⟩

theorem translates_variant_bare {name : String} (hl : t.variants.lookup name = some none) :
    Translates (.variant name none) t := by
  refine translates_bare rfl (fun cs hcs => ctors_of_variant hcs hl) (ctorSubTypes_variant hl)
    fun v hv => ?_
  obtain ⟨name', w, rfl, hne⟩ | ⟨w, rfl, hw⟩ := variant_or_other hl hv
  · exact .inr ⟨by simp [builds, ctorOf, hne.symm], by simp [Pat.matches, hne]⟩
  · cases hw
    exact .inl ⟨rfl, rfl, by simp [Pat.matches, payloadMatches]⟩

theorem translates_variant {name : String} {p : Pat}
    (hl : t.variants.lookup name = some (some inner)) (hp : Translates p inner) :
    Translates (.variant name (some p)) t := by
  have hpat : variantPayload name (some t) = some inner := by
    cases t with
    | union first rest => exact congrArg Option.join hl
    | enum first rest => cases lookup_bare hl
    | _ => cases hl
  refine translates_around (by rw [patToMatpat, hpat]) (fun cs hcs => ctors_of_variant hcs hl)
    (ctorSubTypes_variant hl) hp.1 hp.2 fun v hv => ?_
  obtain ⟨name', w, rfl, hne⟩ | ⟨w, rfl, hw⟩ := variant_or_other hl hv
  · exact .inr ⟨by simp [builds, ctorOf, hne.symm], by simp [Pat.matches, hne]⟩
  · cases hw with
    | some hw => exact .inl ⟨_, rfl, rfl, hw, by simp [Pat.matches, payloadMatches]⟩

end Constructors

mutual
theorem typed_translates : (p : Pat) → ∀ {t}, Typed true p t → p.orFree = true → Translates p t
  | .wildcard, t, _, _ => ⟨.wild, fun _ _ => ⟨fun _ => rfl, fun _ => .wild⟩⟩
  | .binding _, t, _, _ => ⟨.wild, fun _ _ => ⟨fun _ => rfl, fun _ => .wild⟩⟩
  | .intLit value litType oor neg, t, ht, _ => by
    cases ht with
    | intLit h _ =>
      refine translates_lit (.int value) rfl rfl (typeCtorsList_integer h) rfl
        (fun _ => Iff.rfl) fun v => ?_
      cases v <;> simp [Pat.matches, eq_comm]
  | .charLit value, t, ht, _ => by
    cases ht
    refine translates_lit (.int value.toUInt64) rfl rfl rfl rfl (fun _ => Iff.rfl) fun v => ?_
    cases v <;> simp [Pat.matches, eq_comm]
  | .boolLit value, t, ht, _ => by
    cases ht
    refine translates_bare rfl (fun cs hcs => ?_) (by cases value <;> rfl) fun v hv => ?_
    · cases hcs
      cases value <;> simp
    · obtain ⟨b, rfl⟩ := hv.bool_inv
      cases value <;> cases b <;> simp [builds, ctorOf, Val.parts, Pat.matches]
  | .stringLit value, t, ht, _ => by
    cases ht
    refine translates_lit (.str value) rfl rfl rfl rfl (fun _ => Iff.rfl) fun v => ?_
    cases v <;> simp [Pat.matches, eq_comm]
  | .none, t, ht, _ => by
    cases ht
    refine translates_bare rfl (fun cs hcs => ?_) rfl fun v hv => ?_
    · cases hcs
      simp
    · obtain rfl | ⟨w, rfl, -⟩ := hv.option_inv
      · exact .inl ⟨rfl, rfl, rfl⟩
      · exact .inr ⟨nofun, rfl⟩
  | .some p, t, ht, hf => by
    cases ht with
    | some ht =>
      obtain ⟨hok, hm⟩ := typed_translates p ht hf
      refine translates_around rfl (c := .some) (fun cs hcs => ?_) rfl hok hm fun v hv => ?_
      · cases hcs
        simp
      · obtain rfl | ⟨w, rfl, hw⟩ := hv.option_inv
        · exact .inr ⟨nofun, rfl⟩
        · exact .inl ⟨w, rfl, rfl, hw, rfl⟩
  | .ok none, t, ht, _ => by
    cases ht with
    | @okBare inner =>
      exact translates_ok (p := none) (q := fun _ => true) .wild (fun _ _ => ⟨fun _ => rfl, fun _ => .wild⟩)
        fun _ => rfl
  | .ok (some p), t, ht, hf => by
    cases ht with
    | ok ht =>
      obtain ⟨hok, hm⟩ := typed_translates p ht hf
      exact translates_ok hok hm fun _ => rfl
  | .err p, t, ht, hf => by
    cases ht with
    | err ht =>
      obtain ⟨hok, hm⟩ := typed_translates p ht hf
      refine translates_around rfl (c := .err) (fun cs hcs => ?_) rfl hok hm fun v hv => ?_
      · cases hcs
        simp
      · obtain ⟨w, rfl, -⟩ | ⟨code, rfl, hcode, -⟩ := hv.result_inv
        · exact .inr ⟨nofun, rfl⟩
        · exact .inl ⟨code, rfl, rfl, hcode, rfl⟩
  | .variant name none, t, ht, _ => by
    cases ht with
    | bare hl => exact translates_variant_bare hl
  | .variant name (some p), t, ht, hf => by
    cases ht with
    | payload hl ht => exact translates_variant hl (typed_translates p ht hf)
  | .struct fs, t, ht, hf => by
    cases ht with
    | struct names lookups typed =>
      exact translates_struct (names rfl) lookups (fields_translate fs typed hf)
  | .tuple ps, t, ht, hf => by
    cases ht with
    | tuple typed => exact translates_tuple (elems_translate ps typed hf)
  | .or _ _, t, _, hf => nomatch hf

theorem fields_translate : (fs : List (String × Pat)) → ∀ {types},
    List.Forall₂ (Typed true) (fs.map Prod.snd) types → fieldsOrFree fs = true →
    List.Forall₂ Translates (fs.map Prod.snd) types
  | [], _, ht, _ => by
    cases ht
    exact .nil
  | (_, p) :: fs, _, ht, hf => by
    obtain ⟨hp, hfs⟩ := Bool.and_eq_true_iff.mp hf
    cases ht with
    | cons htp hts => exact .cons (typed_translates p htp hp) (fields_translate fs hts hfs)

theorem elems_translate : (ps : List Pat) → ∀ {types}, List.Forall₂ (Typed true) ps types →
    allOrFree ps = true → List.Forall₂ Translates ps types
  | [], _, ht, _ => by
    cases ht
    exact .nil
  | p :: ps, _, ht, hf => by
    obtain ⟨hp, hps⟩ := Bool.and_eq_true_iff.mp hf
    cases ht with
    | cons htp hts => exact .cons (typed_translates p htp hp) (elems_translate ps hts hps)
end

end Translation

section Exactness
variable {t : Ty} {arms checked : List Arm} {rows : Matrix Ctor}

/-- Some arm without a guard matches the value. -/
def Covers (arms : List Arm) (v : Val) : Prop :=
  ∃ arm ∈ arms, arm.guarded = false ∧ arm.pattern.matches v = true

theorem mapM_eq_some_iff {α β : Type} {f : α → Option β} {l : List α} {l' : List β} :
    l.mapM f = some l' ↔ List.Forall₂ (fun a b => f a = some b) l l' := by
  induction l generalizing l' with
  | nil => simp [eq_comm]
  | cons a l ih =>
    rw [List.mapM_cons]
    cases hfa : f a with
    | none => cases l' <;> simp [hfa]
    | some b =>
      cases hl : l.mapM f with
      | none => cases l' <;> simp [← ih, hl]
      | some bs => cases l' <;> simp [← ih, hl, hfa]

theorem mapM_eq_none_iff {α β : Type} {f : α → Option β} {l : List α} :
    l.mapM f = none ↔ ∃ a ∈ l, f a = none := by
  induction l with
  | nil => simp
  | cons a l ih =>
    rw [List.mapM_cons]
    cases hfa : f a with
    | none => simp [hfa]
    | some b => cases hl : l.mapM f <;> simp [← ih, hl, hfa]

theorem checkArms_typed {once : Bool} (hcheck : checkArms t arms = some checked)
    (hf : once = true → ∀ arm ∈ arms, arm.pattern.fieldsOnce = true) :
    ∀ arm ∈ checked, Typed once arm.pattern t := by
  have h := mapM_eq_some_iff.mp hcheck
  clear hcheck
  induction h with
  | nil => simp
  | cons harm _ ih =>
    obtain ⟨p, hp, rfl⟩ := Option.map_eq_some_iff.mp harm
    exact List.forall_mem_cons.mpr ⟨checkMatchPattern_typed _ _ _ _ hp fun h => hf h _ (by simp),
      ih fun h arm hmem => hf h arm (List.mem_cons_of_mem _ hmem)⟩

theorem armRows_eq_none_iff :
    armRows t arms = none ↔
      ∃ arm ∈ arms, arm.guarded = false ∧ maxOrExpansion < arm.pattern.expansion := by
  simp only [armRows, Option.bind_eq_bind, Option.bind_eq_none_iff, reduceCtorEq, imp_false,
    ← Option.eq_none_iff_forall_ne_some, mapM_eq_none_iff, List.mem_filter, Bool.not_eq_true',
    flattenOrPattern_eq_none_iff, and_assoc]

/-- The or-free patterns of the arms, in one list. -/
theorem flatten_covers (htyped : ∀ arm ∈ arms, Typed true arm.pattern t) {flats : List (List Pat)}
    (hflats : List.Forall₂ (fun arm qs => flattenOrPattern arm.pattern = some qs) arms flats) :
    (∀ q ∈ flats.flatten, Translates q t) ∧
      ∀ v, (∃ q ∈ flats.flatten, q.matches v = true) ↔ ∃ arm ∈ arms, arm.pattern.matches v = true := by
  induction hflats with
  | nil => simp
  | cons hqs _ ih =>
    obtain ⟨ht, htyped⟩ := List.forall_mem_cons.mp htyped
    obtain ⟨hq, hm⟩ := flattenOrPattern_spec _ ht hqs
    obtain ⟨ihq, ihm⟩ := ih htyped
    constructor
    · intro q hmem
      obtain hmem | hmem := List.mem_append.mp hmem
      · exact typed_translates q (hq q hmem).1 (hq q hmem).2
      · exact ihq q hmem
    · intro v
      simp only [List.flatten_cons, List.mem_append, or_and_right, exists_or, ihm v, ← hm v,
        List.exists_mem_cons_iff]

theorem covers_iff {v : Val} :
    Covers arms v ↔ ∃ arm ∈ arms.filter (!·.guarded), arm.pattern.matches v = true := by
  simp only [Covers, List.mem_filter, Bool.not_eq_true', and_assoc]

/-- A row of the matrix for each or-free pattern. -/
theorem armRows_spec (htyped : ∀ arm ∈ arms, Typed true arm.pattern t)
    (hrows : armRows t arms = some rows) :
    (∀ row ∈ rows, RowOk signature [t] row) ∧
      ∀ v, HasTy true v t → ((∃ row ∈ rows, RowMatches signature row [v]) ↔ Covers arms v) := by
  obtain ⟨flats, hflats, h⟩ := Option.bind_eq_some_iff.mp hrows
  cases h
  obtain ⟨hq, hm⟩ := flatten_covers (fun arm h => htyped arm (List.mem_filter.mp h).1)
    (mapM_eq_some_iff.mp hflats)
  constructor
  · intro row hrow
    obtain ⟨q, hmem, rfl⟩ := List.mem_map.mp hrow
    exact .cons (hq q hmem).1 .nil
  · intro v hv
    rw [covers_iff, ← hm v]
    simp only [List.mem_map, exists_exists_and_eq_and, RowMatches, List.forall₂_cons,
      List.Forall₂.nil, and_true]
    exact exists_congr fun q => and_congr_right fun hmem => (hq q hmem).2 v hv

/-- What the search says of the rows of the arms it says of the arms. -/
theorem arms_answers (htyped : ∀ arm ∈ checked, Typed true arm.pattern t)
    (hrows : armRows t checked = some rows) :
    match findWitness signature rows [t] with
    | none => ∀ v, HasTy true v t → Covers checked v
    | some w => ∃ v, HasTy true v t ∧ RowMatches signature w [v] ∧ ¬Covers checked v := by
  obtain ⟨hok, hmatch⟩ := armRows_spec htyped hrows
  have hanswers := findWitness_answers signature rows [t] hok
  cases hw : findWitness signature rows [t] with
  | none =>
    rw [hw] at hanswers
    intro v hv
    exact (hmatch v hv).mp (hanswers [v] (.cons hv .nil))
  | some w =>
    rw [hw] at hanswers
    obtain ⟨-, vs, hvs, hm, hno⟩ := hanswers
    obtain ⟨v, _, hv, hnil, rfl⟩ := List.forall₂_cons_right_iff.mp hvs
    cases hnil
    refine ⟨v, hv, hm, ?_⟩
    rw [← hmatch v hv]
    rintro ⟨row, hrow, h⟩
    exact hno row hrow h

theorem covers_of_exhaustive (htyped : ∀ arm ∈ checked, Typed true arm.pattern t)
    (h : checkMatchExhaustiveness t checked = none) : ∀ v, HasTy true v t → Covers checked v := by
  unfold checkMatchExhaustiveness at h
  cases hrows : armRows t checked with
  | none =>
    rw [hrows] at h
    cases h
  | some rows =>
    rw [hrows] at h
    have hanswers := arms_answers htyped hrows
    rw [Option.map_eq_none_iff.mp h] at hanswers
    exact hanswers

/-- Exhaustiveness is exact up to the limit on or-patterns. -/
theorem checkMatchExhaustiveness_exact (hcheck : checkArms t arms = some checked)
    (once : ∀ arm ∈ arms, arm.pattern.fieldsOnce = true) :
    (checkMatchExhaustiveness t checked = none ↔
      (∀ arm ∈ checked, arm.guarded = false → arm.pattern.expansion ≤ maxOrExpansion) ∧
        ∀ v, HasTy true v t → Covers checked v) ∧
    ∀ w, checkMatchExhaustiveness t checked = some (.nonExhaustive w) →
      ∃ v, HasTy true v t ∧ RowMatches signature w [v] ∧ ¬Covers checked v := by
  have htyped : ∀ arm ∈ checked, Typed true arm.pattern t := checkArms_typed hcheck fun _ => once
  unfold checkMatchExhaustiveness
  cases hrows : armRows t checked with
  | none =>
    obtain ⟨arm, hmem, hguard, hmax⟩ := armRows_eq_none_iff.mp hrows
    refine ⟨iff_of_false nofun fun h => ?_, fun w h => nomatch h⟩
    exact absurd (h.1 arm hmem hguard) (not_le.mpr hmax)
  | some rows =>
    have hanswers := arms_answers htyped hrows
    have hfew : ∀ arm ∈ checked, arm.guarded = false → arm.pattern.expansion ≤ maxOrExpansion := by
      intro arm hmem hguard
      by_contra hmax
      rw [armRows_eq_none_iff.mpr ⟨arm, hmem, hguard, not_le.mp hmax⟩] at hrows
      cases hrows
    dsimp only
    cases hw : findWitness signature rows [t] with
    | none =>
      rw [hw] at hanswers
      exact ⟨iff_of_true rfl ⟨hfew, hanswers⟩, fun w h => nomatch h⟩
    | some w =>
      rw [hw] at hanswers
      obtain ⟨v, hv, hm, hnot⟩ := hanswers
      refine ⟨iff_of_false nofun fun h => hnot (h.2 v hv), fun w' h => ?_⟩
      cases h
      exact ⟨v, hv, hm, hnot⟩

theorem checkMatchExhaustiveness_exact_option :
    let t : Ty := .option (.prim .bool)
    let arms : List Arm := [⟨.some (.boolLit true), false⟩, ⟨.none, false⟩]
    (checkMatchExhaustiveness t arms = none ↔
      (∀ arm ∈ arms, arm.guarded = false → arm.pattern.expansion ≤ maxOrExpansion) ∧
        ∀ v, HasTy true v t → Covers arms v) ∧
    ∀ w, checkMatchExhaustiveness t arms = some (.nonExhaustive w) →
      ∃ v, HasTy true v t ∧ RowMatches signature w [v] ∧ ¬Covers arms v :=
  checkMatchExhaustiveness_exact
    (show checkArms (.option (.prim .bool)) [⟨.some (.boolLit true), false⟩, ⟨.none, false⟩] =
      some [⟨.some (.boolLit true), false⟩, ⟨.none, false⟩] from rfl) (by decide)

def eitherBool : Pat := .or (.boolLit true) [.boolLit false]

theorem eitherBools_match (vs : List (String × Val)) (n : ℕ)
    (h : List.Forall₂ (HasTy true) (vs.map Prod.snd) (List.replicate n (.prim .bool))) :
    elemsMatch (List.replicate n eitherBool) vs = true := by
  induction n generalizing vs with
  | zero =>
    cases vs with
    | nil => rfl
    | cons v vs => cases h
  | succ n ih =>
    cases vs with
    | nil => cases h
    | cons v vs =>
      obtain ⟨name, v⟩ := v
      cases h with
      | cons hv hvs =>
        refine Bool.and_eq_true_iff.mpr ⟨?_, ih vs hvs⟩
        obtain ⟨b, rfl⟩ := hv.bool_inv
        cases b <;> rfl

def boolTuple : Ty := .struct true ((List.range 11).map fun i => (toString i, .prim .bool))

def eitherBoolArms : List Arm := [⟨.tuple (List.replicate 11 eitherBool), false⟩]

/-- Eleven positions with two alternatives each are 2048 patterns. -/
theorem exhaustive_match_refused :
    ¬∀ (t : Ty) (arms checked : List Arm), checkArms t arms = some checked →
      (checkMatchExhaustiveness t checked = none ↔ ∀ v, HasTy true v t → Covers checked v) := by
  intro h
  have hrefused : checkMatchExhaustiveness boolTuple eitherBoolArms =
      some .tooManyCombinations := rfl
  have hcovered : ∀ v, HasTy true v boolTuple → Covers eitherBoolArms v := by
    intro v hv
    refine ⟨_, List.mem_singleton_self _, rfl, ?_⟩
    obtain ⟨vs, rfl, -, vals⟩ := hv.struct_inv
    exact eitherBools_match vs 11 vals
  have hexact := (h boolTuple eitherBoolArms eitherBoolArms rfl).mpr hcovered
  rw [hrefused] at hexact
  cases hexact

end Exactness

end FcLang.Match
