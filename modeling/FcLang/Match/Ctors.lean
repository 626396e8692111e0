import FcLang.Lib.PatternMatrix
import FcLang.Match.Pattern

/-!
# Constructors of the subject types

The constructors that `type_ctors_list` lists, the types of their arguments, and
the values they build. Together they are a signature for the search for a
witness.
-/

namespace FcLang.Match
open FcLang.PatternMatrix (Signature)

inductive Ctor where
  | tru | fls
  | some | none
  | ok | err
  | variant (name : String)
  | struct
  | intLit (value : UInt64)
  | charLit (value : UInt8)
  | stringLit (value : List UInt8)
deriving DecidableEq

def ctorEq (a b : Ctor) : Bool := decide (a = b)

def typeCtorsList : Ty → Option (List Ctor)
  | .prim .bool => some [.tru, .fls]
  | .option _ => some [.some, .none]
  | .result _ => some [.ok, .err]
  | .union first rest => some ((first :: rest).map fun v => .variant v.1)
  | .enum first rest => some ((first :: rest).map .variant)
  | .struct .. => some [.struct]
  | _ => none

def ctorSubTypes : Ctor → Ty → List Ty
  | .some, .option inner => [inner]
  | .ok, .result inner => [inner]
  | .err, _ => [.prim .int32]
  | .variant name, .union first rest => ((first :: rest).lookup name).join.toList
  | .struct, .struct _ fields => fields.map Prod.snd
  | _, _ => []

/-- Literals aside, the constructor a value is built with. -/
def ctorOf : Val → Option Ctor
  | .bool b => if b then some .tru else some .fls
  | .some _ => some .some
  | .none => some .none
  | .ok _ => some .ok
  | .err _ => some .err
  | .variant name _ => some (.variant name)
  | .struct _ => some .struct
  | _ => none

def builds : Ctor → Val → Prop
  | .intLit value, v => v = .int value
  | .charLit value, v => v = .int value.toUInt64
  | .stringLit value, v => v = .str value
  | c, v => ctorOf v = some c

def Val.parts : Val → List Val
  | .some v | .ok v | .err v => [v]
  | .variant _ payload => payload.toList
  | .struct fields => fields.map Prod.snd
  | _ => []

mutual
def Ty.size : Ty → ℕ
  | .option inner | .result inner => inner.size + 1
  | .union (_, payload) rest => payloadSize payload + payloadSizes rest + 1
  | .struct _ fields => fieldSizes fields + 1
  | _ => 1

def payloadSize : Option Ty → ℕ
  | none => 0
  | some t => t.size

def payloadSizes : List (String × Option Ty) → ℕ
  | [] => 0
  | (_, payload) :: rest => payloadSize payload + payloadSizes rest

def fieldSizes : List (String × Ty) → ℕ
  | [] => 0
  | (_, t) :: fields => t.size + fieldSizes fields
end

theorem Ty.size_pos (t : Ty) : 0 < t.size := by
  cases t <;> simp [Ty.size]

theorem fieldSizes_eq (fields : List (String × Ty)) :
    fieldSizes fields = ((fields.map Prod.snd).map Ty.size).sum := by
  induction fields with
  | nil => rfl
  | cons f fields ih => simp [fieldSizes, ih]

theorem size_lookup_le {variants : List (String × Option Ty)} {name : String} {payload : Ty}
    (h : variants.lookup name = some (some payload)) : payload.size ≤ payloadSizes variants := by
  induction variants with
  | nil => cases h
  | cons v variants ih =>
    obtain ⟨name', p⟩ := v
    rw [List.lookup_cons] at h
    rw [payloadSizes]
    split at h
    · cases h
      exact Nat.le_add_right ..
    · exact le_trans (ih h) (Nat.le_add_left ..)

theorem lookup_isSome_iff {l : List (String × α)} {name : String} :
    (l.lookup name).isSome = true ↔ name ∈ l.map Prod.fst := by
  induction l with
  | nil => simp
  | cons f l ih =>
    obtain ⟨name', a⟩ := f
    rw [List.lookup_cons]
    by_cases h : name = name'
    · simp [h]
    · have hb : (name == name') = false := by simp [h]
      simp [hb, h, ih]

section Laws
variable {t : Ty} {cs : List Ctor} {c d : Ctor} {v : Val} {vs : List Val} {name : String}
  {payload : Option Ty}

theorem mem_ctors_variant (hcs : typeCtorsList t = some cs) :
    .variant name ∈ cs ↔ name ∈ t.variants.map Prod.fst := by
  cases t with
  | prim kind =>
    cases kind <;> cases hcs
    simp [Ty.variants]
  | union first rest =>
    cases hcs
    simp [Ty.variants, eq_comm]
  | enum first rest =>
    cases hcs
    simp [Ty.variants, eq_comm]
  | _ =>
    cases hcs
    all_goals simp [Ty.variants]

/-- A listed constructor is no literal. -/
theorem builds_iff_of_mem (hcs : typeCtorsList t = some cs) (hc : c ∈ cs) :
    builds c v ↔ ctorOf v = some c := by
  cases c with
  | intLit value =>
    cases t with
    | prim kind => cases kind <;> cases hcs; simp at hc
    | _ => cases hcs; all_goals simp at hc
  | charLit value =>
    cases t with
    | prim kind => cases kind <;> cases hcs; simp at hc
    | _ => cases hcs; all_goals simp at hc
  | stringLit value =>
    cases t with
    | prim kind => cases kind <;> cases hcs; simp at hc
    | _ => cases hcs; all_goals simp at hc
  | _ => rfl

theorem ctorSubTypes_variant (h : t.variants.lookup name = some payload) :
    ctorSubTypes (.variant name) t = payload.toList := by
  cases t with
  | union first rest => simp only [ctorSubTypes, show (first :: rest).lookup name = _ from h, Option.join_some]
  | enum first rest =>
    rw [lookup_bare h]
    rfl
  | _ => cases h

theorem typeCtorsList_eq_none_iff : typeCtorsList t = none ↔ t.isLeaf = true := by
  cases t with
  | prim kind => cases kind <;> simp [typeCtorsList, Ty.isLeaf]
  | _ => simp [typeCtorsList, Ty.isLeaf]

theorem ctors_of_variant (hcs : typeCtorsList t = some cs)
    (h : t.variants.lookup name = some payload) : .variant name ∈ cs :=
  (mem_ctors_variant hcs).mpr (lookup_isSome_iff.mp (by rw [h]; rfl))

theorem ctor_listed (hcs : typeCtorsList t = some cs) (hv : HasTy true v t) :
    ∃ c ∈ cs, ctorOf v = some c := by
  cases hv with
  | @bool b =>
    cases hcs
    cases b
    · exact ⟨.fls, by simp, rfl⟩
    · exact ⟨.tru, by simp, rfl⟩
  | @int bits kind h _ =>
    have hleaf : (Ty.prim kind).isLeaf = true := by cases kind <;> first | rfl | cases h
    rw [typeCtorsList_eq_none_iff.mpr hleaf] at hcs
    cases hcs
  | str => cases hcs
  | other h _ =>
    rw [typeCtorsList_eq_none_iff.mpr h] at hcs
    cases hcs
  | some h =>
    cases hcs
    exact ⟨.some, by simp, rfl⟩
  | none =>
    cases hcs
    exact ⟨.none, by simp, rfl⟩
  | ok h =>
    cases hcs
    exact ⟨.ok, by simp, rfl⟩
  | err h _ =>
    cases hcs
    exact ⟨.err, by simp, rfl⟩
  | bare h => exact ⟨_, ctors_of_variant hcs h, rfl⟩
  | payload h hv => exact ⟨_, ctors_of_variant hcs h, rfl⟩
  | struct names vals =>
    cases hcs
    exact ⟨.struct, by simp, rfl⟩

theorem parts_hasTy (hv : HasTy true v t) (hc : ctorOf v = some c) :
    List.Forall₂ (HasTy true) v.parts (ctorSubTypes c t) := by
  cases hv with
  | @bool b =>
    cases b <;> cases hc <;> exact .nil
  | int h _ => cases hc
  | str => cases hc
  | other h _ => cases hc
  | some h =>
    cases hc
    exact .cons h .nil
  | none =>
    cases hc
    exact .nil
  | ok h =>
    cases hc
    exact .cons h .nil
  | err h _ =>
    cases hc
    exact .cons h .nil
  | bare h =>
    cases hc
    rw [ctorSubTypes_variant h]
    exact .nil
  | payload h hv =>
    cases hc
    rw [ctorSubTypes_variant h]
    exact .cons hv .nil
  | struct names vals =>
    cases hc
    exact vals

theorem ctorSubTypes_size (hcs : typeCtorsList t = some cs) (hc : c ∈ cs) :
    ((ctorSubTypes c t).map Ty.size).sum < t.size := by
  cases t with
  | prim kind =>
    cases kind <;> cases hcs
    simp only [List.mem_cons, List.not_mem_nil, or_false] at hc
    obtain rfl | rfl := hc <;> simp [ctorSubTypes, Ty.size]
  | option inner =>
    cases hcs
    simp only [List.mem_cons, List.not_mem_nil, or_false] at hc
    obtain rfl | rfl := hc <;> simp [ctorSubTypes, Ty.size]
  | result inner =>
    cases hcs
    simp only [List.mem_cons, List.not_mem_nil, or_false] at hc
    have := inner.size_pos
    obtain rfl | rfl := hc <;> simp [ctorSubTypes, Ty.size, this]
  | union first rest =>
    cases hcs
    obtain ⟨v, -, rfl⟩ := List.mem_map.mp hc
    have hsize : (Ty.union first rest).size = payloadSizes (first :: rest) + 1 := rfl
    simp only [ctorSubTypes]
    cases hl : (first :: rest).lookup v.1 with
    | none => simp [hsize]
    | some payload =>
      cases payload with
      | none => simp [hsize]
      | some payload => simpa [hsize] using Nat.lt_succ_of_le (size_lookup_le hl)
  | enum first rest =>
    cases hcs
    obtain ⟨name, -, rfl⟩ := List.mem_map.mp hc
    exact Ty.size_pos _
  | struct isTuple fields =>
    cases hcs
    obtain rfl := List.mem_singleton.mp hc
    have hsize : (Ty.struct isTuple fields).size = fieldSizes fields + 1 := rfl
    simp only [ctorSubTypes, hsize, fieldSizes_eq, Nat.lt_succ_self]
  | _ => cases hcs

/-- Values with the names of some fields. -/
theorem zip_hasTy (isTuple : Bool) {fields : List (String × Ty)}
    (h : List.Forall₂ (HasTy true) vs (fields.map Prod.snd)) :
    HasTy true (.struct ((fields.map Prod.fst).zip vs)) (.struct isTuple fields) ∧
      (Val.struct ((fields.map Prod.fst).zip vs)).parts = vs := by
  have hlen : (fields.map Prod.fst).length = vs.length := by simp [h.length_eq]
  have hfst := List.map_fst_zip (Nat.le_of_eq hlen)
  have hsnd := List.map_snd_zip (Nat.le_of_eq hlen.symm)
  exact ⟨.struct hfst (by rw [hsnd]; exact h), hsnd⟩

theorem build_variant (hcs : typeCtorsList t = some cs) (hc : .variant name ∈ cs)
    (hvs : List.Forall₂ (HasTy true) vs (ctorSubTypes (.variant name) t)) :
    ∃ v, HasTy true v t ∧ ctorOf v = some (.variant name) ∧ v.parts = vs := by
  obtain ⟨payload, hl⟩ := Option.isSome_iff_exists.mp
    (lookup_isSome_iff.mpr ((mem_ctors_variant hcs).mp hc))
  rw [ctorSubTypes_variant hl] at hvs
  cases payload with
  | none =>
    cases hvs
    exact ⟨.variant name none, .bare hl, rfl, rfl⟩
  | some payload =>
    cases hvs with
    | cons hv hnil =>
      cases hnil
      exact ⟨.variant name (some _), .payload hl hv, rfl, rfl⟩

/-- Each listed constructor builds a value from any arguments of its types. -/
theorem build_hasTy (hcs : typeCtorsList t = some cs) (hc : c ∈ cs)
    (hvs : List.Forall₂ (HasTy true) vs (ctorSubTypes c t)) :
    ∃ v, HasTy true v t ∧ ctorOf v = some c ∧ v.parts = vs := by
  cases t with
  | prim kind =>
    cases kind <;> cases hcs
    simp only [List.mem_cons, List.not_mem_nil, or_false] at hc
    obtain rfl | rfl := hc
    · cases hvs
      exact ⟨.bool true, .bool, rfl, rfl⟩
    · cases hvs
      exact ⟨.bool false, .bool, rfl, rfl⟩
  | option inner =>
    cases hcs
    simp only [List.mem_cons, List.not_mem_nil, or_false] at hc
    obtain rfl | rfl := hc
    · obtain ⟨v, _, hv, hnil, rfl⟩ := List.forall₂_cons_right_iff.mp hvs
      cases hnil
      exact ⟨.some v, .some hv, rfl, rfl⟩
    · cases hvs
      exact ⟨.none, .none, rfl, rfl⟩
  | result inner =>
    cases hcs
    simp only [List.mem_cons, List.not_mem_nil, or_false] at hc
    obtain rfl | rfl := hc
    · obtain ⟨v, _, hv, hnil, rfl⟩ := List.forall₂_cons_right_iff.mp hvs
      cases hnil
      exact ⟨.ok v, .ok hv, rfl, rfl⟩
    · obtain ⟨v, _, hv, hnil, rfl⟩ := List.forall₂_cons_right_iff.mp hvs
      cases hnil
      exact ⟨.err v, .err hv (.inl rfl), rfl, rfl⟩
  | union first rest =>
    have hcs' := hcs
    cases hcs
    obtain ⟨v, -, rfl⟩ := List.mem_map.mp hc
    exact build_variant hcs' hc hvs
  | enum first rest =>
    have hcs' := hcs
    cases hcs
    obtain ⟨name, -, rfl⟩ := List.mem_map.mp hc
    exact build_variant hcs' hc hvs
  | struct isTuple fields =>
    cases hcs
    obtain rfl := List.mem_singleton.mp hc
    obtain ⟨hv, hparts⟩ := zip_hasTy isTuple hvs
    exact ⟨_, hv, rfl, hparts⟩
  | _ => cases hcs

end Laws

mutual
theorem hasTy_inhabited : (t : Ty) → ∃ v, HasTy true v t
  | .prim kind => by
    by_cases h : kind = .bool
    · exact h ▸ ⟨.bool true, .bool⟩
    · exact ⟨.other 0, .other (by simpa [Ty.isLeaf] using h) (.inl rfl)⟩
  | .str => ⟨.other 0, .other rfl (.inl rfl)⟩
  | .pointer => ⟨.other 0, .other rfl (.inl rfl)⟩
  | .other => ⟨.other 0, .other rfl (.inl rfl)⟩
  | .option inner => ⟨.none, .none⟩
  | .result inner => by
    obtain ⟨v, hv⟩ := hasTy_inhabited inner
    exact ⟨.ok v, .ok hv⟩
  | .union (name, none) rest => ⟨.variant name none, .bare (by simp [Ty.variants])⟩
  | .union (name, some payload) rest => by
    obtain ⟨v, hv⟩ := hasTy_inhabited payload
    exact ⟨.variant name (some v), .payload (by simp [Ty.variants]) hv⟩
  | .enum first rest => ⟨.variant first none, .bare (by simp [Ty.variants])⟩
  | .struct isTuple fields => by
    obtain ⟨vs, hvs⟩ := fields_inhabited fields
    exact ⟨_, (zip_hasTy isTuple hvs).1⟩

theorem fields_inhabited : (fields : List (String × Ty)) →
    ∃ vs, List.Forall₂ (HasTy true) vs (fields.map Prod.snd)
  | [] => ⟨[], .nil⟩
  | (_, t) :: fields => by
    obtain ⟨v, hv⟩ := hasTy_inhabited t
    obtain ⟨vs, hvs⟩ := fields_inhabited fields
    exact ⟨v :: vs, .cons hv hvs⟩
end

/-- The signature of the subject types. -/
def signature : Signature Ty Ctor Val where
  ctors := typeCtorsList
  args := ctorSubTypes
  same := ctorEq
  size := Ty.size
  HasTy := HasTy true
  Is := builds
  parts := fun _ => Val.parts
  size_pos := Ty.size_pos
  size_args := ctorSubTypes_size
  same_iff := fun _ _ _ => decide_eq_true_iff
  covered := by
    intro t cs v hcs hv
    obtain ⟨c, hc, his⟩ := ctor_listed hcs hv
    exact ⟨c, hc, (builds_iff_of_mem hcs hc).mpr his⟩
  distinct := by
    intro t cs c d v hcs hc hd _ hcv hdv
    rw [builds_iff_of_mem hcs hc] at hcv
    rw [builds_iff_of_mem hcs hd] at hdv
    exact Option.some.inj (hcv.symm.trans hdv)
  parts_hasTy := fun hcs hc hv his => parts_hasTy hv ((builds_iff_of_mem hcs hc).mp his)
  build := by
    intro t cs c vs hcs hc hvs
    obtain ⟨v, hv, his, hparts⟩ := build_hasTy hcs hc hvs
    exact ⟨v, hv, (builds_iff_of_mem hcs hc).mpr his, hparts⟩
  fresh := by
    intro t ht ds
    refine ⟨.other 0, .other (typeCtorsList_eq_none_iff.mp ht) (.inl rfl), fun d _ h => ?_⟩
    cases d <;> cases h
  inhabited := hasTy_inhabited

end FcLang.Match
