import Mathlib.Algebra.Order.BigOperators.GroupWithZero.List
import Mathlib.Algebra.Order.Ring.Nat
import FcLang.Match.Pattern

/-!
# Or-patterns flattened

A pattern with or-patterns inside stands for the or-free patterns of their
cartesian product. The product is cut off at 1024 patterns.
-/

namespace FcLang.Match
variable {α : Type*}

def maxOrExpansion : Nat := 1024

/-- Every choice of one element from each list, the last one varying fastest. -/
def combos : List (List α) → List (List α)
  | [] => [[]]
  | l :: ls => l.flatMap fun a => (combos ls).map (a :: ·)

def productCount (counts : List Nat) : Option Nat :=
  counts.foldlM (fun total count =>
    let total := total * count
    if maxOrExpansion < total then none else some total) 1

def flattenProduct (alts : List (List Pat)) : Option (List (List Pat)) :=
  (productCount (alts.map List.length)).map fun _ => combos alts

mutual
/-- None when there are too many combinations. -/
def flattenOrPattern : Pat → Option (List Pat)
  | .or p ps => do
    let first ← flattenOrPattern p
    let rest ← flattenAlts ps
    if maxOrExpansion < (first ++ rest).length then none else some (first ++ rest)
  | .some p => (flattenOrPattern p).map (·.map .some)
  | .ok (some p) => (flattenOrPattern p).map (·.map fun q => .ok (some q))
  | .err p => (flattenOrPattern p).map (·.map .err)
  | .variant name (some p) => (flattenOrPattern p).map (·.map fun q => .variant name (some q))
  | .struct fs => do
    let alts ← flattenFields fs
    let products ← flattenProduct alts
    some (products.map fun qs => .struct ((fs.map Prod.fst).zip qs))
  | .tuple ps => do
    let alts ← flattenEach ps
    let products ← flattenProduct alts
    some (products.map .tuple)
  | p => some [p]

def flattenAlts : List Pat → Option (List Pat)
  | [] => some []
  | p :: ps => do
    let first ← flattenOrPattern p
    let rest ← flattenAlts ps
    some (first ++ rest)

def flattenEach : List Pat → Option (List (List Pat))
  | [] => some []
  | p :: ps => do
    let first ← flattenOrPattern p
    let rest ← flattenEach ps
    some (first :: rest)

def flattenFields : List (String × Pat) → Option (List (List Pat))
  | [] => some []
  | (_, p) :: fs => do
    let first ← flattenOrPattern p
    let rest ← flattenFields fs
    some (first :: rest)
end

mutual
def Pat.orFree : Pat → Bool
  | .or .. => false
  | .some p | .err p | .ok (.some p) | .variant _ (.some p) => p.orFree
  | .struct fs => fieldsOrFree fs
  | .tuple ps => allOrFree ps
  | _ => true

def fieldsOrFree : List (String × Pat) → Bool
  | [] => true
  | (_, p) :: fs => p.orFree && fieldsOrFree fs

def allOrFree : List Pat → Bool
  | [] => true
  | p :: ps => p.orFree && allOrFree ps
end

mutual
/-- The number of or-free patterns that a pattern stands for. -/
def Pat.expansion : Pat → ℕ
  | .or p ps => p.expansion + altsExpansion ps
  | .some p | .err p | .ok (some p) | .variant _ (some p) => p.expansion
  | .struct fs => fieldsExpansion fs
  | .tuple ps => elemsExpansion ps
  | _ => 1

def altsExpansion : List Pat → ℕ
  | [] => 0
  | p :: ps => p.expansion + altsExpansion ps

def elemsExpansion : List Pat → ℕ
  | [] => 1
  | p :: ps => p.expansion * elemsExpansion ps

def fieldsExpansion : List (String × Pat) → ℕ
  | [] => 1
  | (_, p) :: fs => p.expansion * fieldsExpansion fs
end

theorem allOrFree_iff {ps : List Pat} : allOrFree ps = true ↔ ∀ p ∈ ps, p.orFree = true := by
  induction ps with
  | nil => simp [allOrFree]
  | cons p ps ih => simp [allOrFree, ih]

theorem fieldsOrFree_iff {fs : List (String × Pat)} :
    fieldsOrFree fs = true ↔ ∀ p ∈ fs.map Prod.snd, p.orFree = true := by
  induction fs with
  | nil => simp [fieldsOrFree]
  | cons f fs ih =>
    obtain ⟨name, p⟩ := f
    simp [fieldsOrFree, ih]

theorem mem_combos {ls : List (List α)} {s : List α} :
    s ∈ combos ls ↔ List.Forall₂ (· ∈ ·) s ls := by
  induction ls generalizing s with
  | nil => simp [combos]
  | cons l ls ih =>
    simp only [combos, List.mem_flatMap, List.mem_map]
    constructor
    · rintro ⟨a, ha, s, hs, rfl⟩
      exact .cons ha (ih.mp hs)
    · intro h
      cases h with
      | cons ha hs => exact ⟨_, ha, _, ih.mpr hs, rfl⟩

theorem flattenProduct_eq {alts products : List (List Pat)}
    (h : flattenProduct alts = some products) : products = combos alts := by
  obtain ⟨_, -, rfl⟩ := Option.map_eq_some_iff.mp h
  rfl

/-- The patterns `qs` stand for `p` at type `t`. -/
def StandFor (qs : List Pat) (p : Pat) (t : Ty) : Prop :=
  (∀ q ∈ qs, Typed true q t ∧ q.orFree = true) ∧
    ∀ v, p.matches v = true ↔ ∃ q ∈ qs, q.matches v = true

theorem standFor_self {p : Pat} {t : Ty} (h : Typed true p t) (hf : p.orFree = true) :
    StandFor [p] p t := by
  simp [StandFor, h, hf]

/-- A constructor around a pattern goes around those that stand for it. -/
theorem StandFor.map {qs : List Pat} {p : Pat} {t t' : Ty} {f : Pat → Pat} (h : StandFor qs p t)
    (hty : ∀ q, Typed true q t → Typed true (f q) t') (hfree : ∀ q, (f q).orFree = q.orFree)
    (hmatch : ∀ v, (∀ q, (f q).matches v = false) ∨ ∃ w, ∀ q, (f q).matches v = q.matches w) :
    StandFor (qs.map f) (f p) t' := by
  obtain ⟨hqs, hm⟩ := h
  constructor
  · intro _ hq
    obtain ⟨q, hmem, rfl⟩ := List.mem_map.mp hq
    exact ⟨hty q (hqs q hmem).1, (hfree q).trans (hqs q hmem).2⟩
  · intro v
    obtain hv | ⟨w, hw⟩ := hmatch v
    · simp [hv]
    · simp [hw, hm w]

/-- Lists of patterns that stand for the patterns of a list, one each. -/
inductive StandForEach : List (List Pat) → List Pat → List Ty → Prop where
  | nil : StandForEach [] [] []
  | cons {qs : List Pat} {p : Pat} {t : Ty} {alts : List (List Pat)} {ps : List Pat}
    {types : List Ty} (h : StandFor qs p t) (hs : StandForEach alts ps types) :
    StandForEach (qs :: alts) (p :: ps) (t :: types)

theorem StandForEach.typed {alts : List (List Pat)} {ps : List Pat} {types : List Ty}
    (h : StandForEach alts ps types) {qs : List Pat} (hqs : qs ∈ combos alts) :
    List.Forall₂ (Typed true) qs types ∧ ∀ q ∈ qs, q.orFree = true := by
  rw [mem_combos] at hqs
  induction h generalizing qs with
  | nil =>
    cases hqs
    exact ⟨.nil, by simp⟩
  | cons h hs ih =>
    cases hqs with
    | cons hq hqs =>
      obtain ⟨ht, hf⟩ := ih hqs
      exact ⟨.cons (h.1 _ hq).1 ht, List.forall_mem_cons.mpr ⟨(h.1 _ hq).2, hf⟩⟩

theorem StandForEach.elemsMatch {alts : List (List Pat)} {ps : List Pat} {types : List Ty}
    (h : StandForEach alts ps types) (vs : List (String × Val)) :
    elemsMatch ps vs = true ↔ ∃ qs ∈ combos alts, Match.elemsMatch qs vs = true := by
  induction h generalizing vs with
  | nil => simp [combos]
  | @cons qs p t alts ps types h hs ih =>
    cases vs with
    | nil => simp [Match.elemsMatch, mem_combos, List.forall₂_cons_right_iff]
    | cons v vs =>
      simp only [Match.elemsMatch, Bool.and_eq_true, h.2, ih]
      constructor
      · rintro ⟨⟨q, hq, hm⟩, qs, hqs, hms⟩
        exact ⟨q :: qs, mem_combos.mpr (.cons hq (mem_combos.mp hqs)),
          Bool.and_eq_true_iff.mpr ⟨hm, hms⟩⟩
      · rintro ⟨qs, hqs, hm⟩
        cases mem_combos.mp hqs with
        | cons hq hqs =>
          obtain ⟨hm, hms⟩ := Bool.and_eq_true_iff.mp hm
          exact ⟨⟨_, hq, hm⟩, _, mem_combos.mpr hqs, hms⟩

theorem fieldsMatch_cons (name : String) (p : Pat) (fs : List (String × Pat))
    (vs : List (String × Val)) :
    fieldsMatch ((name, p) :: fs) vs = ((vs.lookup name).any p.matches && fieldsMatch fs vs) := by
  rw [fieldsMatch]
  cases vs.lookup name <;> rfl

theorem StandForEach.fieldsMatch {alts : List (List Pat)} {fs : List (String × Pat)}
    {types : List Ty} (h : StandForEach alts (fs.map Prod.snd) types) (vs : List (String × Val)) :
    fieldsMatch fs vs = true ↔
      ∃ qs ∈ combos alts, Match.fieldsMatch ((fs.map Prod.fst).zip qs) vs = true := by
  induction fs generalizing alts types with
  | nil =>
    cases h
    simp [combos, Match.fieldsMatch]
  | cons f fs ih =>
    obtain ⟨name, p⟩ := f
    cases h with
    | @cons alt _ _ alts _ _ h hs =>
      have field : (vs.lookup name).any p.matches = true ↔
          ∃ q ∈ alt, (vs.lookup name).any q.matches = true := by
        cases vs.lookup name with
        | none => simp
        | some v => exact h.2 v
      rw [fieldsMatch_cons, Bool.and_eq_true, ih hs]
      refine (and_congr field Iff.rfl).trans ⟨?_, ?_⟩
      · rintro ⟨⟨q, hq, hm⟩, qs, hqs, hms⟩
        refine ⟨q :: qs, mem_combos.mpr (.cons hq (mem_combos.mp hqs)), ?_⟩
        exact (fieldsMatch_cons name q _ vs).trans (Bool.and_eq_true_iff.mpr ⟨hm, hms⟩)
      · rintro ⟨qs, hqs, hm⟩
        cases mem_combos.mp hqs with
        | cons hq hqs =>
          have hm := (fieldsMatch_cons name _ _ vs).symm.trans hm
          obtain ⟨hm, hms⟩ := Bool.and_eq_true_iff.mp hm
          exact ⟨⟨_, hq, hm⟩, _, mem_combos.mpr hqs, hms⟩

theorem standFor_tuple {alts : List (List Pat)} {ps : List Pat} {fields : List (String × Ty)}
    (h : StandForEach alts ps (fields.map Prod.snd)) :
    StandFor ((combos alts).map .tuple) (.tuple ps) (.struct true fields) := by
  constructor
  · intro _ hq
    obtain ⟨qs, hqs, rfl⟩ := List.mem_map.mp hq
    obtain ⟨ht, hf⟩ := h.typed hqs
    exact ⟨.tuple ht, allOrFree_iff.mpr hf⟩
  · intro v
    cases v with
    | struct vs => simp [Pat.matches, h.elemsMatch]
    | _ => simp [Pat.matches]

theorem standFor_struct {alts : List (List Pat)} {fs : List (String × Pat)}
    {fields : List (String × Ty)} {types : List Ty} (once : (fs.map Prod.fst).Nodup)
    (lookups : fs.map (fun f => fields.lookup f.1) = types.map some)
    (h : StandForEach alts (fs.map Prod.snd) types) :
    StandFor ((combos alts).map fun qs => .struct ((fs.map Prod.fst).zip qs)) (.struct fs)
      (.struct false fields) := by
  have hlen : types.length = fs.length := by
    have := congrArg List.length lookups
    simpa using this.symm
  constructor
  · intro _ hq
    obtain ⟨qs, hqs, rfl⟩ := List.mem_map.mp hq
    obtain ⟨ht, hf⟩ := h.typed hqs
    have hqlen : (fs.map Prod.fst).length = qs.length := by
      rw [ht.length_eq, hlen, List.length_map]
    have hfst : ((fs.map Prod.fst).zip qs).map Prod.fst = fs.map Prod.fst :=
      List.map_fst_zip (Nat.le_of_eq hqlen)
    have hsnd : ((fs.map Prod.fst).zip qs).map Prod.snd = qs :=
      List.map_snd_zip (Nat.le_of_eq hqlen.symm)
    have hlookups : ((fs.map Prod.fst).zip qs).map (fun f => fields.lookup f.1) =
        types.map some := by
      calc ((fs.map Prod.fst).zip qs).map (fun f => fields.lookup f.1)
          = (((fs.map Prod.fst).zip qs).map Prod.fst).map (fun n => fields.lookup n) := by
            rw [List.map_map]
            rfl
        _ = fs.map (fun f => fields.lookup f.1) := by
            rw [hfst, List.map_map]
            rfl
        _ = types.map some := lookups
    constructor
    · exact .struct (fun _ => by rw [hfst]; exact once) hlookups (by rw [hsnd]; exact ht)
    · rw [Pat.orFree, fieldsOrFree_iff, hsnd]
      exact hf
  · intro v
    cases v with
    | struct vs => simp [Pat.matches, h.fieldsMatch]
    | _ => simp [Pat.matches]

mutual
theorem flattenOrPattern_spec : (p : Pat) → ∀ {t qs}, Typed true p t → flattenOrPattern p = some qs →
    StandFor qs p t
  | .wildcard, t, qs, ht, h => by
    cases h
    exact standFor_self ht rfl
  | .binding name, t, qs, ht, h => by
    cases h
    exact standFor_self ht rfl
  | .intLit value litType oor neg, t, qs, ht, h => by
    cases h
    exact standFor_self ht rfl
  | .charLit value, t, qs, ht, h => by
    cases h
    exact standFor_self ht rfl
  | .boolLit value, t, qs, ht, h => by
    cases h
    exact standFor_self ht rfl
  | .stringLit value, t, qs, ht, h => by
    cases h
    exact standFor_self ht rfl
  | .none, t, qs, ht, h => by
    cases h
    exact standFor_self ht rfl
  | .ok none, t, qs, ht, h => by
    cases h
    exact standFor_self ht rfl
  | .variant name none, t, qs, ht, h => by
    cases h
    exact standFor_self ht rfl
  | .some p, t, qs, ht, h => by
    obtain ⟨qs, hqs, rfl⟩ := Option.map_eq_some_iff.mp h
    cases ht with
    | some ht =>
      apply (flattenOrPattern_spec p ht hqs).map (f := .some) (fun q => .some) (fun _ => rfl)
      intro v
      cases v with
      | some w => exact .inr ⟨w, fun _ => rfl⟩
      | _ => exact .inl fun _ => rfl
  | .ok (some p), t, qs, ht, h => by
    obtain ⟨qs, hqs, rfl⟩ := Option.map_eq_some_iff.mp h
    cases ht with
    | ok ht =>
      apply (flattenOrPattern_spec p ht hqs).map (f := fun q => .ok (some q)) (fun q => .ok)
        (fun _ => rfl)
      intro v
      cases v with
      | ok w => exact .inr ⟨w, fun _ => rfl⟩
      | _ => exact .inl fun _ => rfl
  | .err p, t, qs, ht, h => by
    obtain ⟨qs, hqs, rfl⟩ := Option.map_eq_some_iff.mp h
    cases ht with
    | err ht =>
      apply (flattenOrPattern_spec p ht hqs).map (f := .err) (fun q => .err) (fun _ => rfl)
      intro v
      cases v with
      | err w => exact .inr ⟨w, fun _ => rfl⟩
      | _ => exact .inl fun _ => rfl
  | .variant name (some p), t, qs, ht, h => by
    obtain ⟨qs, hqs, rfl⟩ := Option.map_eq_some_iff.mp h
    cases ht with
    | payload hl ht =>
      apply (flattenOrPattern_spec p ht hqs).map (f := fun q => .variant name (some q))
        (fun q => .payload hl) (fun _ => rfl)
      intro v
      cases v with
      | variant name' w =>
        cases w with
        | none => exact .inl fun _ => by simp [Pat.matches, payloadMatches]
        | some w =>
          by_cases hn : name = name'
          · exact .inr ⟨w, fun _ => by simp [Pat.matches, payloadMatches, hn]⟩
          · exact .inl fun _ => by simp [Pat.matches, hn]
      | _ => exact .inl fun _ => rfl
  | .struct fs, t, qs, ht, h => by
    obtain ⟨alts, halts, h⟩ := Option.bind_eq_some_iff.mp h
    obtain ⟨products, hprod, h⟩ := Option.bind_eq_some_iff.mp h
    cases h
    obtain rfl := flattenProduct_eq hprod
    cases ht with
    | struct names lookups typed =>
      exact standFor_struct (names rfl) lookups (flattenFields_spec fs typed halts)
  | .tuple ps, t, qs, ht, h => by
    obtain ⟨alts, halts, h⟩ := Option.bind_eq_some_iff.mp h
    obtain ⟨products, hprod, h⟩ := Option.bind_eq_some_iff.mp h
    cases h
    obtain rfl := flattenProduct_eq hprod
    cases ht with
    | tuple typed => exact standFor_tuple (flattenEach_spec ps typed halts)
  | .or p ps, t, qs, ht, h => by
    obtain ⟨first, hfirst, h⟩ := Option.bind_eq_some_iff.mp h
    obtain ⟨rest, hrest, h⟩ := Option.bind_eq_some_iff.mp h
    split at h <;> cases h
    cases ht with
    | or ht hts =>
      obtain ⟨hq, hm⟩ := flattenOrPattern_spec p ht hfirst
      obtain ⟨hqs, hms⟩ := flattenAlts_spec ps hts hrest
      constructor
      · intro q hmem
        obtain hmem | hmem := List.mem_append.mp hmem
        · exact hq q hmem
        · exact hqs q hmem
      · intro v
        simp only [Pat.matches, Bool.or_eq_true, hm, hms, List.mem_append, or_and_right, exists_or]

theorem flattenAlts_spec : (ps : List Pat) → ∀ {t qs}, (∀ p ∈ ps, Typed true p t) →
    flattenAlts ps = some qs →
    (∀ q ∈ qs, Typed true q t ∧ q.orFree = true) ∧
      ∀ v, someMatches ps v = true ↔ ∃ q ∈ qs, q.matches v = true
  | [], t, qs, ht, h => by
    cases h
    simp [someMatches]
  | p :: ps, t, qs, ht, h => by
    obtain ⟨first, hfirst, h⟩ := Option.bind_eq_some_iff.mp h
    obtain ⟨rest, hrest, h⟩ := Option.bind_eq_some_iff.mp h
    cases h
    obtain ⟨hp, hps⟩ := List.forall_mem_cons.mp ht
    obtain ⟨hq, hm⟩ := flattenOrPattern_spec p hp hfirst
    obtain ⟨hqs, hms⟩ := flattenAlts_spec ps hps hrest
    constructor
    · intro q hmem
      obtain hmem | hmem := List.mem_append.mp hmem
      · exact hq q hmem
      · exact hqs q hmem
    · intro v
      simp only [someMatches, Bool.or_eq_true, hm, hms, List.mem_append, or_and_right, exists_or]

theorem flattenEach_spec : (ps : List Pat) → ∀ {types alts}, List.Forall₂ (Typed true) ps types →
    flattenEach ps = some alts → StandForEach alts ps types
  | [], types, alts, ht, h => by
    cases h
    cases ht
    exact .nil
  | p :: ps, types, alts, ht, h => by
    obtain ⟨first, hfirst, h⟩ := Option.bind_eq_some_iff.mp h
    obtain ⟨rest, hrest, h⟩ := Option.bind_eq_some_iff.mp h
    cases h
    cases ht with
    | cons hp hps =>
      exact .cons (flattenOrPattern_spec p hp hfirst) (flattenEach_spec ps hps hrest)

theorem flattenFields_spec : (fs : List (String × Pat)) → ∀ {types alts},
    List.Forall₂ (Typed true) (fs.map Prod.snd) types → flattenFields fs = some alts →
    StandForEach alts (fs.map Prod.snd) types
  | [], types, alts, ht, h => by
    cases h
    cases ht
    exact .nil
  | (name, p) :: fs, types, alts, ht, h => by
    obtain ⟨first, hfirst, h⟩ := Option.bind_eq_some_iff.mp h
    obtain ⟨rest, hrest, h⟩ := Option.bind_eq_some_iff.mp h
    cases h
    cases ht with
    | cons hp hps =>
      exact .cons (flattenOrPattern_spec p hp hfirst) (flattenFields_spec fs hps hrest)
end

section Counting

theorem one_le_maxOrExpansion : 1 ≤ maxOrExpansion := by
  decide

/-- A result with a property, or none because `n` patterns are too many. -/
structure Counted {β : Type} (o : Option β) (P : β → Prop) (n : ℕ) : Prop where
  too_many : o = none → maxOrExpansion < n
  holds : ∀ b, o = some b → P b

theorem Counted.bind {β γ : Type} {o : Option β} {f : β → Option γ} {P : β → Prop}
    {Q : γ → Prop} {n m : ℕ} (h : Counted o P n) (hle : n ≤ m)
    (hf : ∀ b, P b → Counted (f b) Q m) : Counted (o.bind f) Q m := by
  cases o with
  | none => exact ⟨fun _ => Nat.lt_of_lt_of_le (h.too_many rfl) hle, fun _ => nofun⟩
  | some b => exact hf b (h.holds b rfl)

theorem Counted.some {β : Type} {P : β → Prop} {b : β} {n : ℕ} (h : P b) :
    Counted (some b) P n := by
  refine ⟨nofun, fun c hc => ?_⟩
  cases hc
  exact h

theorem Counted.map {β γ : Type} {o : Option β} {f : β → γ} {P : β → Prop} {Q : γ → Prop} {n : ℕ}
    (h : Counted o P n) (hf : ∀ b, P b → Q (f b)) : Counted (o.map f) Q n := by
  rw [Option.map_eq_bind]
  exact h.bind le_rfl fun b hb => .some (hf b hb)

mutual
theorem expansion_pos : (p : Pat) → 0 < p.expansion
  | .wildcard | .binding _ | .intLit .. | .charLit _ | .boolLit _ | .stringLit _ | .none
  | .ok none | .variant _ none => Nat.one_pos
  | .some p | .err p | .ok (some p) | .variant _ (some p) => expansion_pos p
  | .struct fs => fieldsExpansion_pos fs
  | .tuple ps => elemsExpansion_pos ps
  | .or p _ => Nat.lt_of_lt_of_le (expansion_pos p) (Nat.le_add_right ..)

theorem fieldsExpansion_pos : (fs : List (String × Pat)) → 0 < fieldsExpansion fs
  | [] => Nat.one_pos
  | (_, p) :: fs => Nat.mul_pos (expansion_pos p) (fieldsExpansion_pos fs)

theorem elemsExpansion_pos : (ps : List Pat) → 0 < elemsExpansion ps
  | [] => Nat.one_pos
  | p :: ps => Nat.mul_pos (expansion_pos p) (elemsExpansion_pos ps)
end

theorem length_combos (ls : List (List α)) : (combos ls).length = (ls.map List.length).prod := by
  induction ls with
  | nil => rfl
  | cons l ls ih => simp [combos, ih]

/-- No factor is zero, so a product that is too large early stays so. -/
theorem productCount_counted {counts : List ℕ} (hpos : ∀ c ∈ counts, 0 < c) :
    Counted (productCount counts) (fun _ => counts.prod ≤ maxOrExpansion) counts.prod := by
  suffices h : ∀ total ≤ maxOrExpansion, Counted (counts.foldlM (fun total count =>
        if maxOrExpansion < total * count then none else some (total * count)) total)
      (fun _ => total * counts.prod ≤ maxOrExpansion) (total * counts.prod) by
    simpa [productCount] using h 1 (by decide)
  induction counts with
  | nil =>
    intro total hle
    exact .some (by simpa using hle)
  | cons c counts ih =>
    intro total hle
    obtain ⟨hc, hpos⟩ := List.forall_mem_cons.mp hpos
    rw [List.foldlM_cons, List.prod_cons, ← Nat.mul_assoc]
    by_cases hmax : maxOrExpansion < total * c
    · rw [if_pos hmax]
      have := Nat.le_mul_of_pos_right (total * c) (List.prod_pos hpos)
      exact ⟨fun _ => lt_of_lt_of_le hmax this, fun _ => nofun⟩
    · rw [if_neg hmax]
      exact ih hpos (total * c) (not_lt.mp hmax)

/-- Lists of patterns with `n` choices between them. -/
def Choices (n : ℕ) (alts : List (List Pat)) : Prop :=
  (alts.map List.length).prod = n ∧ ∀ l ∈ alts, 0 < l.length

theorem flattenProduct_counted {alts : List (List Pat)} {n : ℕ} (h : Choices n alts) :
    Counted (flattenProduct alts) (fun ps => ps.length = n ∧ n ≤ maxOrExpansion) n := by
  obtain ⟨rfl, hpos⟩ := h
  exact (productCount_counted (by simpa using hpos)).map fun _ hle => ⟨length_combos alts, hle⟩

theorem choices_cons {first : List Pat} {alts : List (List Pat)} {m n : ℕ} (hpos : 0 < m)
    (hfirst : first.length = m) (h : Choices n alts) : Choices (m * n) (first :: alts) := by
  subst hfirst
  exact ⟨by rw [List.map_cons, List.prod_cons, h.1], List.forall_mem_cons.mpr ⟨hpos, h.2⟩⟩

mutual
theorem flattenOrPattern_counted : (p : Pat) → Counted (flattenOrPattern p)
    (fun qs => qs.length = p.expansion ∧ p.expansion ≤ maxOrExpansion) p.expansion
  | .wildcard | .binding _ | .intLit .. | .charLit _ | .boolLit _ | .stringLit _ | .none
  | .ok none | .variant _ none => .some ⟨rfl, one_le_maxOrExpansion⟩
  | .some p | .err p | .ok (some p) | .variant _ (some p) =>
    (flattenOrPattern_counted p).map fun qs h => ⟨(List.length_map _).trans h.1, h.2⟩
  | .struct fs =>
    (flattenFields_counted fs).bind le_rfl fun alts h =>
      (flattenProduct_counted h).bind le_rfl fun products h =>
        .some ⟨(List.length_map _).trans h.1, h.2⟩
  | .tuple ps =>
    (flattenEach_counted ps).bind le_rfl fun alts h =>
      (flattenProduct_counted h).bind le_rfl fun products h =>
        .some ⟨(List.length_map _).trans h.1, h.2⟩
  | .or p ps =>
    (flattenOrPattern_counted p).bind (Nat.le_add_right ..) fun first hfirst =>
      (flattenAlts_counted ps).bind (Nat.le_add_left ..) fun rest hrest => by
        have hlen : (first ++ rest).length = (Pat.or p ps).expansion := by
          rw [List.length_append, hfirst.1, hrest]
          rfl
        by_cases hmax : maxOrExpansion < (first ++ rest).length
        · rw [if_pos hmax]
          exact ⟨fun _ => hlen ▸ hmax, fun _ => nofun⟩
        · rw [if_neg hmax]
          exact .some ⟨hlen, hlen ▸ not_lt.mp hmax⟩

theorem flattenAlts_counted : (ps : List Pat) → Counted (flattenAlts ps)
    (fun qs => qs.length = altsExpansion ps) (altsExpansion ps)
  | [] => .some rfl
  | p :: ps =>
    (flattenOrPattern_counted p).bind (Nat.le_add_right ..) fun first hfirst =>
      (flattenAlts_counted ps).bind (Nat.le_add_left ..) fun rest hrest =>
        .some (by rw [List.length_append, hfirst.1, hrest]; rfl)

theorem flattenEach_counted : (ps : List Pat) → Counted (flattenEach ps)
    (Choices (elemsExpansion ps)) (elemsExpansion ps)
  | [] => .some ⟨rfl, nofun⟩
  | p :: ps =>
    (flattenOrPattern_counted p).bind (Nat.le_mul_of_pos_right _ (elemsExpansion_pos ps))
      fun _ hfirst =>
        (flattenEach_counted ps).bind (Nat.le_mul_of_pos_left _ (expansion_pos p))
          fun _ hrest => .some (choices_cons (expansion_pos p) hfirst.1 hrest)

theorem flattenFields_counted : (fs : List (String × Pat)) → Counted (flattenFields fs)
    (Choices (fieldsExpansion fs)) (fieldsExpansion fs)
  | [] => .some ⟨rfl, nofun⟩
  | (_, p) :: fs =>
    (flattenOrPattern_counted p).bind (Nat.le_mul_of_pos_right _ (fieldsExpansion_pos fs))
      fun _ hfirst =>
        (flattenFields_counted fs).bind (Nat.le_mul_of_pos_left _ (expansion_pos p))
          fun _ hrest => .some (choices_cons (expansion_pos p) hfirst.1 hrest)
end

theorem flattenOrPattern_eq_none_iff {p : Pat} :
    flattenOrPattern p = none ↔ maxOrExpansion < p.expansion := by
  have h := flattenOrPattern_counted p
  constructor
  · exact h.too_many
  · intro hmax
    cases hf : flattenOrPattern p with
    | none => rfl
    | some qs => exact absurd (h.holds qs hf).2 (not_le.mpr hmax)

end Counting

end FcLang.Match
