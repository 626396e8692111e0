import FcLang.Data.HashDictCalls

/-!
# Rehashing

A rehash moves every entry to a table of twice the capacity, and leaves enough
empty buckets for the insertion that caused it.
-/

namespace FcLang.Data.HashDict
open Probe Exec
variable {κ β : Type}

section Rehash
variable {hash : κ → ℤ} {eq : κ → κ → Bool} {d : HashDict κ β}

/-- The table that `rehash` fills has taken over the entries of `old`, and has no tombstone. -/
structure Rehashing (hash : κ → ℤ) (eq : κ → κ → Bool) (newCap : ℕ) (old : List (Slot κ β))
    (d : HashDict κ β) : Prop where
  hash_eq : d.hash = hash
  eq_eq : d.eq = eq
  cap : d.buckets.length = newCap
  probed : WellProbed (Eqv eq) (home hash newCap) d.slots
  entries : (lives d.slots).Perm (lives old)
  len : d.len = (lives d.slots).length
  room : empties d.slots + (lives d.slots).length = newCap

theorem rehashBody_eq {entry b : HdEntry κ β} {p : ℕ} (hb : d.buckets[p]? = some b) (newCap : ℤ) :
    rehashBody entry newCap d p = if b.state = .empty then
        .ret (.inr { d with
          buckets := d.buckets.set p ⟨entry.key, entry.value, .occupied⟩, len := d.len + 1 })
      else .ret (.inl (((p : ℕ) + 1 : ℤ).tmod newCap)) := by
  obtain ⟨hlt, -⟩ := List.getElem?_eq_some_iff.mp hb
  simp only [rehashBody, Slice.get_of_some hb, Slice.set_natCast hlt, ret_bind]

theorem Rehashing.insert (hl : LawfulHash hash eq) {newCap : ℕ} {old : List (Slot κ β)}
    (hd : Rehashing hash eq newCap old d) {entry : HdEntry κ β} {o : ℕ} (ho : o < newCap)
    (hslot : d.slots[probe hash d entry.key o]? = some .empty)
    (hbefore : ∀ o' < o, d.slots[probe hash d entry.key o']? ≠ some .empty)
    (hnew : ∀ v, ¬Maps (Eqv eq) old entry.key v) :
    Rehashing hash eq newCap (old ++ [.live entry.key entry.value]) { d with
      buckets := d.buckets.set (probe hash d entry.key o) ⟨entry.key, entry.value, .occupied⟩,
      len := d.len + 1 } := by
  obtain ⟨hhash, heq, rfl, hprobed, hentries, hlen, hroom⟩ := hd
  have hslots : ∀ n, slots { d with
      buckets := d.buckets.set (probe hash d entry.key o) ⟨entry.key, entry.value, .occupied⟩,
      len := n } = d.slots.set (probe hash d entry.key o) (.live entry.key entry.value) :=
    fun n => slots_set d _ _ n
  have hlives := lives_set_perm hslot rfl entry.key entry.value
  have hsum := hlives.length_eq
  rw [List.length_cons] at hsum
  refine ⟨hhash, heq, List.length_set, ?_, ?_, ?_, ?_⟩ <;> rw [hslots]
  · have hput := hprobed.put hl.equiv (k := entry.key) (v := entry.value) (o := o)
      (by simpa using ho)
    simp only [length_slots] at hput
    refine hput hbefore fun j k' v' hj hk' => ?_
    obtain ⟨k'', hmem, hk''⟩ := maps_iff_lives.mp ⟨j, k', hj, hk'⟩
    exact absurd (maps_iff_lives.mpr ⟨k'', hentries.mem_iff.mp hmem, hk''⟩) (hnew v')
  · have hold : lives (old ++ [.live entry.key entry.value]) =
        lives old ++ [(entry.key, entry.value)] := by
      simp [lives, Slot.entry]
    rw [hold]
    exact hlives.trans ((hentries.cons _).trans (List.perm_append_singleton _ _).symm)
  · rw [hsum, hlen]
    push_cast
    rfl
  · have hcount := empties_set hslot (.live entry.key entry.value)
    simp only [Slot.isEmpty, Bool.toNat_true, Bool.toNat_false] at hcount
    rw [hsum]
    omega

/-- Taking over one entry. -/
theorem rehash_entry (hl : LawfulHash hash eq) {newCap : ℕ} {old : List (Slot κ β)}
    (hd : Rehashing hash eq newCap old d) (hroom : (lives d.slots).length < newCap)
    {entry : HdEntry κ β} (hnew : ∀ v, ¬Maps (Eqv eq) old entry.key v) (fuel : ℕ) :
    Within (newCap ≤ fuel)
      (Rehashing hash eq newCap (old ++ [.live entry.key entry.value]))
      (loop (rehashBody entry newCap d) fuel (homeIdx (hash entry.key) newCap)) := by
  obtain rfl := hd.cap
  have hcap : 0 < d.buckets.length := by omega
  have hempties : 0 < empties d.slots := by have := hd.room; omega
  rw [homeIdx_hash hcap]
  rcases firstStop_or_none (· = Slot.empty) d.slots (home hash d.buckets.length entry.key) with
    ⟨o, ho, hfirst⟩ | hnone
  · rw [length_slots] at ho
    obtain ⟨hslot, hbefore⟩ : d.slots[probe hash d entry.key o]? = some .empty ∧
        ∀ o' < o, d.slots[probe hash d entry.key o']? ≠ some .empty := by
      simp only [FirstStop, length_slots, exists_eq_right] at hfirst
      exact ⟨hfirst.1, fun o' ho' h => hfirst.2 o' ho' _ h rfl⟩
    obtain ⟨b, hb, hempty⟩ := slots_eq_some.mp hslot
    refine (loop_walk (fun o => ((probe hash d entry.key o : ℕ) : ℤ)) (n := o)
      (fun o' ho' => ?_) ((rehashBody_eq hb _).trans (if_pos (slot_eq_empty.mp hempty)))
      (hd.insert hl ho hslot hbefore hnew) fuel).mono (fun h => by omega) fun _ h => h
    obtain ⟨b', hb'⟩ := exists_bucket hash entry.key o' hcap
    have hne : b'.state ≠ .empty := fun hstate =>
      hbefore o' ho' (slots_eq_some.mpr ⟨b', hb', slot_eq_empty.mpr hstate⟩)
    rw [rehashBody_eq hb', if_neg hne, probe, nextIdx_eq, probe]
  · exact absurd (empties_pos.mp hempties) fun hmem => hnone _ hmem rfl

/-- The buckets before an occupied one hold no equivalent key. -/
theorem not_maps_before (hd : Inv hash eq d) {done rest : List (HdEntry κ β)} {entry : HdEntry κ β}
    (hsplit : d.buckets = done ++ entry :: rest) (hocc : entry.state = .occupied) (v : β) :
    ¬Maps (Eqv eq) (done.map HdEntry.slot) entry.key v := by
  rintro ⟨j, k', hj, hk'⟩
  have hlt : j < done.length := by
    simpa using (List.getElem?_eq_some_iff.mp hj).1
  have hslots : d.slots = done.map HdEntry.slot ++ entry.slot :: rest.map HdEntry.slot := by
    simp [slots, hsplit]
  have hj' : d.slots[j]? = some (.live k' v) := by
    rw [hslots, List.getElem?_append_left (by simpa using hlt), hj]
  have hentry : d.slots[done.length]? = some (.live entry.key entry.value) := by
    rw [hslots, List.getElem?_append_right (by simp)]
    simpa using slot_eq_live.mpr ⟨hocc, rfl, rfl⟩
  exact hlt.ne (hd.probed.unique j done.length k' v _ _ hj' hentry hk')

section Alloc
variable [Inhabited κ] [Inhabited β]

/-- A dictionary with a fresh bucket array. -/
def fresh (hash : κ → ℤ) (eq : κ → κ → Bool) (n : ℕ) : HashDict κ β :=
  { buckets := allocBuckets n, len := 0, hash := hash, eq := eq }

theorem slots_fresh (n : ℕ) :
    (fresh hash eq n : HashDict κ β).slots = List.replicate n .empty := by
  simp [fresh, slots, allocBuckets, HdEntry.slot]

theorem lives_fresh (n : ℕ) : lives (fresh hash eq n : HashDict κ β).slots = [] := by
  simp [slots_fresh, lives, Slot.entry]

/-- A fresh bucket array holds nothing. -/
theorem rehashing_fresh (n : ℕ) :
    Rehashing hash eq n [] (fresh hash eq n : HashDict κ β) := by
  have hnot : ∀ {i : ℕ} {s : Slot κ β}, (List.replicate n Slot.empty)[i]? = some s →
      s = .empty := fun {i s} h => List.eq_of_mem_replicate (List.mem_of_getElem? h)
  refine ⟨rfl, rfl, by simp [fresh, allocBuckets], ?_, ?_, ?_, ?_⟩
  · rw [slots_fresh]
    refine ⟨fun o _ k v h => ?_, fun i j k v k' v' h => ?_⟩
    · cases hnot h
    · cases hnot h
  · rw [lives_fresh]
    exact .refl _
  · rw [lives_fresh]
    rfl
  · rw [lives_fresh, slots_fresh]
    simp [empties, List.countP_replicate, Slot.isEmpty]

/-- What a rehash leaves behind. -/
theorem rehash_within (hl : LawfulHash hash eq) (hd : Inv hash eq d) (fuel : ℕ) :
    Within (d.buckets.length * 2 ≤ fuel)
      (Rehashing hash eq (d.buckets.length * 2) d.slots) (rehash fuel d) := by
  obtain ⟨rfl, rfl⟩ : d.hash = hash ∧ d.eq = eq := ⟨hd.hash_eq, hd.eq_eq⟩
  have hcast : ((d.buckets.length * 2 : ℕ) : ℤ) = (d.buckets.length : ℤ) * 2 := by push_cast; rfl
  simp only [rehash, ← hcast]
  refine Slice.forRange_get_within
    (fun done d' => Rehashing d.hash d.eq (d.buckets.length * 2) (done.map HdEntry.slot) d')
    (rehashing_fresh _) fun done entry rest d' hsplit hd' => ?_
  simp only [List.map_append, List.map_cons, List.map_nil, hd'.hash_eq]
  split_ifs with hocc
  · rw [slot_eq_live.mpr ⟨hocc, rfl, rfl⟩]
    refine rehash_entry hl hd' ?_ (not_maps_before hd hsplit hocc) fuel
    have hle : (lives (done.map HdEntry.slot)).length ≤ (done.map HdEntry.slot).length :=
      List.length_filterMap_le _ _
    have hlen : d.buckets.length = done.length + (rest.length + 1) := by simp [hsplit]
    rw [List.length_map] at hle
    rw [hd'.entries.length_eq]
    omega
  · have hnone : entry.slot.entry = none := by
      cases h : entry.state <;> simp_all [HdEntry.slot, Slot.entry]
    have hsame : lives (done.map HdEntry.slot ++ [entry.slot]) = lives (done.map HdEntry.slot) := by
      simp [lives, hnone]
    exact .ret ⟨hd'.hash_eq, hd'.eq_eq, hd'.cap, hd'.probed, by rw [hsame]; exact hd'.entries,
      hd'.len, hd'.room⟩

/-- The dictionaries that `make` and `makeWithCapacity` create. -/
def Made (hash : κ → ℤ) (eq : κ → κ → Bool) (d : HashDict κ β) : Prop :=
  d = make hash eq ∨ ∃ cap, d = makeWithCapacity cap hash eq

theorem Made.eq_fresh (h : Made hash eq d) : ∃ n, 4 ≤ n ∧ d = fresh hash eq n := by
  rcases h with rfl | ⟨cap, rfl⟩
  · exact ⟨16, by omega, rfl⟩
  · by_cases hcap : cap < 4
    · exact ⟨4, le_rfl, by rw [makeWithCapacity, if_pos hcap]; rfl⟩
    · obtain ⟨n, rfl⟩ := Int.eq_ofNat_of_zero_le (by omega : 0 ≤ cap)
      exact ⟨n, by omega, by rw [makeWithCapacity, if_neg hcap]; rfl⟩

end Alloc
end Rehash

section Put
variable {hash : κ → ℤ} {eq : κ → κ → Bool} {d : HashDict κ β}

theorem Rehashing.inv {newCap : ℕ} {old : List (Slot κ β)} (h : Rehashing hash eq newCap old d)
    (hcap : 4 ≤ newCap) : Inv hash eq d :=
  ⟨h.hash_eq, h.eq_eq, by rw [h.cap]; exact hcap, by rw [h.cap]; exact h.probed, h.len⟩

theorem Rehashing.maps {newCap : ℕ} {d' : HashDict κ β}
    (h : Rehashing hash eq newCap d.slots d') (x : κ) (v : β) :
    Maps (Eqv eq) d'.slots x v ↔ Maps (Eqv eq) d.slots x v := by
  simp only [maps_iff_lives, h.entries.mem_iff]

/-- The effect of `put`: a rehash leaves room for the new entry. -/
theorem put_within [Inhabited κ] [Inhabited β] (hl : LawfulHash hash eq) (hd : Inv hash eq d)
    (key : κ) (value : β) (fuel : ℕ) :
    Within (0 < empties d.slots ∧ d.buckets.length * 2 ≤ fuel)
      (fun d' => Inv hash eq d' ∧
        (∀ x v, Maps (Eqv eq) d'.slots x v ↔
          Eqv eq key x ∧ v = value ∨ ¬Eqv eq key x ∧ Maps (Eqv eq) d.slots x v) ∧
        (0 < empties d.slots → (0 < empties d'.slots ↔ d.overloaded ∨
          (∃ v, Maps (Eqv eq) d.slots key v) ∨ ReusesTombstone d key ∨ 2 ≤ empties d.slots)))
      (put fuel d key value) := by
  rw [put]
  split_ifs with hload
  · refine ((rehash_within hl hd fuel).mono (fun h => h.2) fun _ h => h).bind fun d₁ h₁ => ?_
    have hcap := hd.cap
    have hlives : (lives d.slots).length ≤ d.buckets.length := by
      have hle := empties_add_lives_le d.slots
      rw [length_slots] at hle
      omega
    have hroom : 2 ≤ empties d₁.slots := by
      have hsum := h₁.room
      rw [h₁.entries.length_eq] at hsum
      omega
    refine (putProbe_within hl (h₁.inv (by omega)) key value fuel).mono (fun h => ?_) fun d' h' => ?_
    · rw [h₁.cap]
      exact ⟨by omega, h.2⟩
    · refine ⟨h'.inv, fun x v => ?_, fun _ => ⟨fun _ => .inl hload, fun _ => ?_⟩⟩
      · rw [h'.maps, h₁.maps]
      · exact (h'.empties (by omega)).mpr (.inr (.inr hroom))
  · refine (putProbe_within hl hd key value fuel).mono (fun h => ⟨h.1, by omega⟩) fun d' h' => ?_
    refine ⟨h'.inv, h'.maps, fun hpos => ?_⟩
    rw [h'.empties hpos]
    simp only [hload, false_or]

end Put

end FcLang.Data.HashDict
