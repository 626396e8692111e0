import FcLang.Data.HashDict

/-!
# hash_dict as a probe table

Each bucket array is a probe table. A search ends within one round unless the
table has neither an empty bucket nor the key, and a loop that searches is
decided by what it does at the bucket that ends the search.
-/

namespace FcLang.Data
open Probe Exec

variable {κ β : Type}

def HdEntry.slot (e : HdEntry κ β) : Slot κ β :=
  match e.state with
  | .empty => .empty
  | .occupied => .live e.key e.value
  | .deleted => .dead

def Eqv (eq : κ → κ → Bool) (x y : κ) : Prop := eq x y = true

/-- `eq` is an equivalence and `hash` respects it. -/
structure LawfulHash (hash : κ → ℤ) (eq : κ → κ → Bool) : Prop where
  equiv : Equivalence (Eqv eq)
  congr : ∀ {x y}, Eqv eq x y → hash x = hash y

theorem LawfulHash.of_decEq [DecidableEq κ] (hash : κ → ℤ) :
    LawfulHash hash fun x y => decide (x = y) := by
  have heqv : ∀ x y : κ, Eqv (fun x y => decide (x = y)) x y ↔ x = y := fun x y => decide_eq_true_iff
  refine ⟨⟨fun x => (heqv x x).mpr rfl, fun {x y} h => ?_, fun {x y z} h h' => ?_⟩, fun {x y} h => ?_⟩
  · exact (heqv y x).mpr ((heqv x y).mp h).symm
  · exact (heqv x z).mpr (((heqv x y).mp h).trans ((heqv y z).mp h'))
  · rw [(heqv x y).mp h]

def home (hash : κ → ℤ) (cap : ℕ) (key : κ) : ℕ := (hash key % cap).toNat

theorem home_lt {cap : ℕ} (hcap : 0 < cap) (hash : κ → ℤ) (key : κ) : home hash cap key < cap := by
  have h0 : 0 ≤ hash key % cap := Int.emod_nonneg _ (by omega)
  have h1 : hash key % cap < cap := Int.emod_lt_of_pos _ (by omega)
  rw [home]
  omega

theorem slot_eq_empty {e : HdEntry κ β} : e.slot = .empty ↔ e.state = .empty := by
  cases h : e.state <;> simp [HdEntry.slot, h]

theorem slot_eq_live {e : HdEntry κ β} {k : κ} {v : β} :
    e.slot = .live k v ↔ e.state = .occupied ∧ e.key = k ∧ e.value = v := by
  cases h : e.state <;> simp [HdEntry.slot, h]

theorem stops_slot {eq : κ → κ → Bool} {e : HdEntry κ β} {key : κ} :
    Stops (Eqv eq) key e.slot ↔ e.state = .empty ∨ e.state = .occupied ∧ eq e.key key = true := by
  cases h : e.state <;> simp [HdEntry.slot, h, Stops, Eqv]

namespace HashDict

def slots (d : HashDict κ β) : List (Slot κ β) := d.buckets.map HdEntry.slot

@[simp] theorem length_slots (d : HashDict κ β) : d.slots.length = d.buckets.length :=
  List.length_map _

theorem slots_getElem? (d : HashDict κ β) (i : ℕ) :
    d.slots[i]? = d.buckets[i]?.map HdEntry.slot := List.getElem?_map

theorem slots_eq_some {d : HashDict κ β} {i : ℕ} {s : Slot κ β} :
    d.slots[i]? = some s ↔ ∃ e, d.buckets[i]? = some e ∧ e.slot = s := by
  rw [slots_getElem?, Option.map_eq_some_iff]

theorem slots_set (d : HashDict κ β) (i : ℕ) (e : HdEntry κ β) (n : ℤ) :
    slots { d with buckets := d.buckets.set i e, len := n } = d.slots.set i e.slot :=
  List.map_set

theorem homeIdx_eq {cap : ℕ} (hcap : 0 < cap) (h : ℤ) : homeIdx h cap = h % cap := by
  have h0 : 0 ≤ h % cap := Int.emod_nonneg _ (by omega)
  have h1 : h % cap < cap := Int.emod_lt_of_pos _ (by omega)
  have hmod : h.tmod cap = h % cap - ((if 0 ≤ h ∨ (cap : ℤ) ∣ h then 0 else cap : ℕ) : ℤ) :=
    Int.tmod_eq_emod
  simp only [homeIdx, hmod]
  by_cases hneg : 0 ≤ h ∨ (cap : ℤ) ∣ h
  · rw [if_pos hneg, Nat.cast_zero, sub_zero, if_neg (by omega)]
  · rw [if_neg hneg, if_pos (by omega), sub_add_cancel]

theorem homeIdx_hash {cap : ℕ} (hcap : 0 < cap) (hash : κ → ℤ) (key : κ) :
    homeIdx (hash key) cap = (path cap (home hash cap key) 0 : ℕ) := by
  have h0 : 0 ≤ hash key % cap := Int.emod_nonneg _ (by omega)
  rw [homeIdx_eq hcap, path_zero (home_lt hcap hash key), home, Int.toNat_of_nonneg h0]

theorem nextIdx_eq (cap h o : ℕ) :
    ((path cap h o : ℕ) + 1 : ℤ).tmod cap = (path cap h (o + 1) : ℕ) := by
  rw [Int.tmod_eq_emod_of_nonneg (by omega), path_succ]
  push_cast
  rfl

/-- The table invariant: keys are found on their probe paths and `len` counts the entries. -/
structure Inv (hash : κ → ℤ) (eq : κ → κ → Bool) (d : HashDict κ β) : Prop where
  hash_eq : d.hash = hash
  eq_eq : d.eq = eq
  cap : 4 ≤ d.buckets.length
  probed : WellProbed (Eqv eq) (home hash d.buckets.length) d.slots
  len : d.len = (lives d.slots).length

section Search
variable {hash : κ → ℤ} {eq : κ → κ → Bool} {d : HashDict κ β} {key : κ} {o : ℕ}

/-- The bucket `o` steps after the home of `key`. -/
def probe (hash : κ → ℤ) (d : HashDict κ β) (key : κ) (o : ℕ) : ℕ :=
  path d.buckets.length (home hash d.buckets.length key) o

def SearchEnds (hash : κ → ℤ) (eq : κ → κ → Bool) (d : HashDict κ β) (key : κ) (o : ℕ) : Prop :=
  FirstStop (Stops (Eqv eq) key) d.slots (home hash d.buckets.length key) o

theorem probe_lt (hcap : 0 < d.buckets.length) : probe hash d key o < d.buckets.length :=
  path_lt hcap _ _

theorem exists_bucket (hash : κ → ℤ) (key : κ) (o : ℕ) (hcap : 0 < d.buckets.length) :
    ∃ e, d.buckets[probe hash d key o]? = some e :=
  ⟨_, List.getElem?_eq_getElem (probe_lt hcap)⟩

/-- How a search for a key goes: it ends on an empty bucket, it ends on the key, or it goes on
for ever. -/
theorem search (hash : κ → ℤ) (eq : κ → κ → Bool) (d : HashDict κ β) (key : κ) :
    (∃ o < d.buckets.length, SearchEnds hash eq d key o ∧
      ∃ e, d.buckets[probe hash d key o]? = some e ∧ e.state = .empty) ∨
    (∃ o < d.buckets.length, SearchEnds hash eq d key o ∧
      ∃ e, d.buckets[probe hash d key o]? = some e ∧ e.state = .occupied ∧ eq e.key key = true) ∨
    ∀ e ∈ d.buckets, e.state ≠ .empty ∧ ¬(e.state = .occupied ∧ eq e.key key = true) := by
  rcases firstStop_or_none (Stops (Eqv eq) key) d.slots (home hash d.buckets.length key) with
    ⟨o, ho, hfirst⟩ | hnone
  · rw [length_slots] at ho
    obtain ⟨s, hs, hstop⟩ := hfirst.1
    rw [length_slots] at hs
    obtain ⟨e, he, rfl⟩ := slots_eq_some.mp hs
    rcases stops_slot.mp hstop with hempty | hhit
    · exact .inl ⟨o, ho, hfirst, e, he, hempty⟩
    · exact .inr (.inl ⟨o, ho, hfirst, e, he, hhit⟩)
  · refine .inr (.inr fun e he => ?_)
    have hstop := hnone e.slot (List.mem_map_of_mem he)
    rw [stops_slot] at hstop
    exact not_or.mp hstop

/-- A search goes on at every bucket before the one it ends on. -/
theorem SearchEnds.passes (h : SearchEnds hash eq d key o) (hcap : 0 < d.buckets.length) {o' : ℕ}
    (ho' : o' < o) : ∃ e, d.buckets[probe hash d key o']? = some e ∧ e.state ≠ .empty ∧
      ¬(e.state = .occupied ∧ eq e.key key = true) := by
  obtain ⟨e, he⟩ := exists_bucket hash key o' hcap
  refine ⟨e, he, not_or.mp fun hstop => ?_⟩
  refine h.2 o' ho' e.slot ?_ (stops_slot.mpr hstop)
  rw [length_slots]
  exact slots_eq_some.mpr ⟨e, he, rfl⟩

theorem SearchEnds.no_empty (h : SearchEnds hash eq d key o) {o' : ℕ} (ho' : o' < o) :
    d.slots[probe hash d key o']? ≠ some .empty := by
  intro hs
  refine h.2 o' ho' .empty ?_ trivial
  rw [length_slots]
  exact hs

theorem SearchEnds.not_maps (h : SearchEnds hash eq d key o) (hl : LawfulHash hash eq)
    (hd : Inv hash eq d) (ho : o < d.buckets.length) {e : HdEntry κ β}
    (he : d.buckets[probe hash d key o]? = some e) (hempty : e.state = .empty) (v : β) :
    ¬Maps (Eqv eq) d.slots key v := by
  have hhome : ∀ {x y}, Eqv eq x y →
      home hash d.buckets.length x = home hash d.buckets.length y := fun hxy => by
    simp only [home, hl.congr hxy]
  refine not_maps_of_firstStop_empty hd.probed hhome (by simpa using ho) h ?_ v
  rw [length_slots]
  exact slots_eq_some.mpr ⟨e, he, slot_eq_empty.mpr hempty⟩

theorem maps_of_hit {p : ℕ} {e : HdEntry κ β} (he : d.buckets[p]? = some e)
    (hocc : e.state = .occupied) (heq : eq e.key key = true) :
    Maps (Eqv eq) d.slots key e.value :=
  ⟨p, e.key, slots_eq_some.mpr ⟨e, he, slot_eq_live.mpr ⟨hocc, rfl, rfl⟩⟩, heq⟩

theorem empties_eq_zero (h : ∀ e ∈ d.buckets, e.state ≠ .empty) : empties d.slots = 0 := by
  by_contra hpos
  obtain ⟨e, he, hslot⟩ := List.mem_map.mp (empties_pos.mp (Nat.pos_of_ne_zero hpos))
  exact h e he (slot_eq_empty.mp hslot)

/-- A probing loop ends with `Q` if both ways of ending a search give `Q`; it may be cut off only
where no bucket is empty. -/
theorem searchLoop_within (hash : κ → ℤ) (eq : κ → κ → Bool) (key : κ) {σ ρ : Type} {body : σ → Exec (σ ⊕ ρ)} {Q : ρ → Prop} (st : ℕ → σ)
    (hcap : 0 < d.buckets.length)
    (hnext : ∀ o e, d.buckets[probe hash d key o]? = some e → e.state ≠ .empty →
      ¬(e.state = .occupied ∧ eq e.key key = true) → body (st o) = .ret (.inl (st (o + 1))))
    (hempty : ∀ o < d.buckets.length, SearchEnds hash eq d key o →
      ∀ e, d.buckets[probe hash d key o]? = some e → e.state = .empty →
        ∃ r, body (st o) = .ret (.inr r) ∧ Q r)
    (hhit : ∀ o < d.buckets.length, SearchEnds hash eq d key o →
      ∀ e, d.buckets[probe hash d key o]? = some e → e.state = .occupied → eq e.key key = true →
        ∃ r, body (st o) = .ret (.inr r) ∧ Q r) (fuel : ℕ) :
    Within (0 < empties d.slots ∧ d.buckets.length ≤ fuel) Q (loop body fuel (st 0)) := by
  have hends : ∀ o < d.buckets.length, SearchEnds hash eq d key o →
      (∃ r, body (st o) = .ret (.inr r) ∧ Q r) →
      Within (0 < empties d.slots ∧ d.buckets.length ≤ fuel) Q (loop body fuel (st 0)) := by
    rintro o ho hend ⟨r, hr, hQ⟩
    refine (loop_walk st (fun o' ho' => ?_) hr hQ fuel).mono (fun h => by omega) fun _ h => h
    obtain ⟨e, he, hne, hmiss⟩ := hend.passes hcap ho'
    exact hnext o' e he hne hmiss
  rcases search hash eq d key with
    ⟨o, ho, hend, e, he, hstate⟩ | ⟨o, ho, hend, e, he, hocc, heq⟩ | hnone
  · exact hends o ho hend (hempty o ho hend e he hstate)
  · exact hends o ho hend (hhit o ho hend e he hocc heq)
  · refine .inr ⟨fun h => ?_, loop_diverges (fun s => ∃ o, s = st o) ?_ ⟨0, rfl⟩ fuel⟩
    · rw [empties_eq_zero fun e he => (hnone e he).1] at h
      omega
    · rintro _ ⟨o, rfl⟩
      obtain ⟨e, he⟩ := exists_bucket hash key o hcap
      obtain ⟨hne, hmiss⟩ := hnone e (List.mem_of_getElem? he)
      exact ⟨_, hnext o e he hne hmiss, o + 1, rfl⟩

end Search

end HashDict
end FcLang.Data
