import FcLang.Data.HashDictProbe

/-!
# Lookups, removals and insertions without a rehash

What one probing loop does to the entries of the table and to its number of
empty buckets: a lookup nothing, a removal and an insertion one slot.
-/

namespace FcLang.Data.HashDict
open Probe Exec
variable {κ β : Type}

theorem Inv.cap_pos {hash : κ → ℤ} {eq : κ → κ → Bool} {d : HashDict κ β} (hd : Inv hash eq d) :
    0 < d.buckets.length := by
  have := hd.cap
  omega

section Calls
variable {hash : κ → ℤ} {eq : κ → κ → Bool} {d : HashDict κ β}

theorem tryGetBody_eq {key : κ} {p : ℕ} {e : HdEntry κ β} (he : d.buckets[p]? = some e) (cap : ℤ) :
    tryGetBody d key cap p = if e.state = .empty then .ret (.inr none)
      else if e.state = .occupied ∧ d.eq e.key key then .ret (.inr (some e.value))
      else .ret (.inl (((p : ℕ) + 1 : ℤ).tmod cap)) := by
  simp only [tryGetBody, Slice.get_of_some he, ret_bind]

/-- A lookup answers with the entry's value, if the table has an empty bucket at all. -/
theorem tryGet_within (hl : LawfulHash hash eq) (hd : Inv hash eq d) (key : κ) (fuel : ℕ) :
    Within (0 < empties d.slots ∧ d.buckets.length ≤ fuel)
      (fun r => ∀ v, r = some v ↔ Maps (Eqv eq) d.slots key v) (tryGet fuel d key) := by
  obtain ⟨rfl, rfl⟩ : d.hash = hash ∧ d.eq = eq := ⟨hd.hash_eq, hd.eq_eq⟩
  rw [tryGet, homeIdx_hash hd.cap_pos]
  refine searchLoop_within d.hash d.eq key (fun o => ((probe d.hash d key o : ℕ) : ℤ)) hd.cap_pos
    ?_ ?_ ?_ fuel
  · intro o e he hne hmiss
    rw [tryGetBody_eq he, if_neg hne, if_neg hmiss, probe, nextIdx_eq, probe]
  · intro o ho hend e he hempty
    refine ⟨none, by rw [tryGetBody_eq he, if_pos hempty], fun v => ?_⟩
    simpa using hend.not_maps hl hd ho he hempty v
  · intro o ho hend e he hocc heq
    have hne : e.state ≠ .empty := by rw [hocc]; decide
    refine ⟨some e.value, by rw [tryGetBody_eq he, if_neg hne, if_pos ⟨hocc, heq⟩], fun v => ?_⟩
    have hmaps := maps_of_hit he hocc heq
    refine ⟨fun h => ?_, fun h => ?_⟩
    · cases h
      exact hmaps
    · rw [hmaps.unique hl.equiv hd.probed h]

/-- What a removal leaves behind. -/
structure Removed (hash : κ → ℤ) (eq : κ → κ → Bool) (d : HashDict κ β) (key : κ)
    (r : Option β × HashDict κ β) : Prop where
  inv : Inv hash eq r.2
  found : ∀ v, r.1 = some v ↔ Maps (Eqv eq) d.slots key v
  maps : ∀ x v, Maps (Eqv eq) r.2.slots x v ↔ ¬Eqv eq key x ∧ Maps (Eqv eq) d.slots x v
  empties : empties r.2.slots = empties d.slots

theorem tryRemoveBody_eq {key : κ} {p : ℕ} {e : HdEntry κ β} (he : d.buckets[p]? = some e)
    (cap : ℤ) :
    tryRemoveBody d key cap p = if e.state = .empty then .ret (.inr (none, d))
      else if e.state = .occupied ∧ d.eq e.key key then
        .ret (.inr (some e.value, { d with
          buckets := d.buckets.set p { e with state := .deleted }, len := d.len - 1 }))
      else .ret (.inl (((p : ℕ) + 1 : ℤ).tmod cap)) := by
  obtain ⟨hlt, -⟩ := List.getElem?_eq_some_iff.mp he
  simp only [tryRemoveBody, Slice.get_of_some he, Slice.set_natCast hlt, ret_bind]

/-- Turning the bucket of a key into a tombstone removes the key. -/
theorem removed_of_hit (hl : LawfulHash hash eq) (hd : Inv hash eq d) {key : κ} {p : ℕ}
    {e : HdEntry κ β} (he : d.buckets[p]? = some e) (hocc : e.state = .occupied)
    (heq : eq e.key key = true) :
    Removed hash eq d key (some e.value, { d with
      buckets := d.buckets.set p { e with state := .deleted }, len := d.len - 1 }) := by
  obtain ⟨hlt, -⟩ := List.getElem?_eq_some_iff.mp he
  have hslot : d.slots[p]? = some (.live e.key e.value) :=
    slots_eq_some.mpr ⟨e, he, slot_eq_live.mpr ⟨hocc, rfl, rfl⟩⟩
  have hslots : ∀ n, slots { d with
      buckets := d.buckets.set p { e with state := .deleted }, len := n } =
        d.slots.set p .dead := fun n => slots_set d p _ n
  have hmaps := maps_of_hit he hocc heq
  refine ⟨⟨hd.hash_eq, hd.eq_eq, by simpa using hd.cap, ?_, ?_⟩, ?_, ?_, ?_⟩
  · rw [hslots]
    simpa using hd.probed.kill p (by simpa using hlt)
  · have hcount := length_lives_set hslot .dead
    have hlen := hd.len
    simp only [Slot.isLive, Bool.toNat_true, Bool.toNat_false, Nat.add_zero] at hcount
    rw [hslots]
    push_cast [← hcount] at hlen
    simp only
    omega
  · intro v
    refine ⟨fun h => ?_, fun h => ?_⟩
    · cases h
      exact hmaps
    · rw [hmaps.unique hl.equiv hd.probed h]
  · intro x v
    rw [hslots, maps_kill hl.equiv hd.probed hslot]
    have hcongr : Eqv eq e.key x ↔ Eqv eq key x :=
      ⟨fun h => hl.equiv.trans (hl.equiv.symm heq) h, fun h => hl.equiv.trans heq h⟩
    rw [hcongr]
  · have hcount := empties_set hslot .dead
    rw [hslots]
    simpa [Slot.isEmpty] using hcount

theorem tryRemove_within (hl : LawfulHash hash eq) (hd : Inv hash eq d) (key : κ) (fuel : ℕ) :
    Within (0 < empties d.slots ∧ d.buckets.length ≤ fuel) (Removed hash eq d key)
      (tryRemove fuel d key) := by
  obtain ⟨rfl, rfl⟩ : d.hash = hash ∧ d.eq = eq := ⟨hd.hash_eq, hd.eq_eq⟩
  rw [tryRemove, homeIdx_hash hd.cap_pos]
  refine searchLoop_within d.hash d.eq key (fun o => ((probe d.hash d key o : ℕ) : ℤ)) hd.cap_pos
    ?_ ?_ ?_ fuel
  · intro o e he hne hmiss
    rw [tryRemoveBody_eq he, if_neg hne, if_neg hmiss, probe, nextIdx_eq, probe]
  · intro o ho hend e he hempty
    refine ⟨(none, d), by rw [tryRemoveBody_eq he, if_pos hempty], hd, fun v => ?_, fun x v => ?_,
      rfl⟩
    · simpa using hend.not_maps hl hd ho he hempty v
    · refine ⟨fun h => ⟨fun hx => ?_, h⟩, fun h => h.2⟩
      exact hend.not_maps hl hd ho he hempty v ((Maps.congr hl.equiv hx).mpr h)
  · intro o ho hend e he hocc heq
    have hne : e.state ≠ .empty := by rw [hocc]; decide
    exact ⟨_, by rw [tryRemoveBody_eq he, if_neg hne, if_pos ⟨hocc, heq⟩],
      removed_of_hit hl hd he hocc heq⟩

/-- The bucket that `put` remembers after `o` steps. -/
def firstDel (hash : κ → ℤ) (d : HashDict κ β) (key : κ) : ℕ → ℤ
  | 0 => -1
  | o + 1 =>
    if (∃ e, d.buckets[probe hash d key o]? = some e ∧ e.state = .deleted) ∧
        firstDel hash d key o < 0 then probe hash d key o
    else firstDel hash d key o

theorem firstDel_cases (hash : κ → ℤ) (d : HashDict κ β) (key : κ) (o : ℕ) :
    (firstDel hash d key o = -1 ∧
      ∀ o' < o, ∀ e, d.buckets[probe hash d key o']? = some e → e.state ≠ .deleted) ∨
    ∃ o₁ < o, firstDel hash d key o = probe hash d key o₁ ∧
      ∃ e, d.buckets[probe hash d key o₁]? = some e ∧ e.state = .deleted := by
  induction o with
  | zero => exact .inl ⟨rfl, fun o' ho' => absurd ho' (Nat.not_lt_zero o')⟩
  | succ o ih =>
    rw [firstDel]
    split_ifs with hdel
    · exact .inr ⟨o, Nat.lt_succ_self o, rfl, hdel.1⟩
    · rcases ih with ⟨hneg, hnone⟩ | ⟨o₁, ho₁, hat, he⟩
      · refine .inl ⟨hneg, fun o' ho' e he hstate => ?_⟩
        rcases Nat.lt_succ_iff_lt_or_eq.mp ho' with hlt | rfl
        · exact hnone o' hlt e he hstate
        · exact hdel ⟨⟨e, he, hstate⟩, by omega⟩
      · exact .inr ⟨o₁, Nat.lt_succ_of_lt ho₁, hat, he⟩

/-- The probe of `key` meets a tombstone before its first empty bucket. -/
def ReusesTombstone (d : HashDict κ β) (key : κ) : Prop :=
  ∃ o, (∃ e, d.buckets[probe d.hash d key o]? = some e ∧ e.state = .deleted) ∧
    ∀ o' < o, ∀ e, d.buckets[probe d.hash d key o']? = some e → e.state ≠ .empty

/-- What storing a value under a key leaves behind. -/
structure Stored (hash : κ → ℤ) (eq : κ → κ → Bool) (d : HashDict κ β) (key : κ) (value : β)
    (d' : HashDict κ β) : Prop where
  inv : Inv hash eq d'
  maps : ∀ x v, Maps (Eqv eq) d'.slots x v ↔
    Eqv eq key x ∧ v = value ∨ ¬Eqv eq key x ∧ Maps (Eqv eq) d.slots x v
  empties : 0 < empties d.slots → (0 < empties d'.slots ↔
    (∃ v, Maps (Eqv eq) d.slots key v) ∨ ReusesTombstone d key ∨ 2 ≤ empties d.slots)

theorem putBody_eq {key : κ} {value : β} {p : ℕ} {e : HdEntry κ β} (he : d.buckets[p]? = some e)
    (cap fd : ℤ) :
    putBody d key value cap (p, fd) =
      if e.state = .empty then do
        let buckets ← Slice.set d.buckets (if 0 ≤ fd then fd else p) ⟨key, value, .occupied⟩
        .ret (.inr { d with buckets := buckets, len := d.len + 1 })
      else if e.state = .occupied ∧ d.eq e.key key then
        .ret (.inr { d with buckets := d.buckets.set p { e with value := value } })
      else .ret (.inl (((p : ℕ) + 1 : ℤ).tmod cap,
        if e.state = .deleted ∧ fd < 0 then (p : ℤ) else fd)) := by
  obtain ⟨hlt, -⟩ := List.getElem?_eq_some_iff.mp he
  simp only [putBody, Slice.get_of_some he, Slice.set_natCast hlt, ret_bind]

/-- Storing a new key in a bucket that is not occupied, on the probe path up to its end. -/
theorem stored_of_vacant (hl : LawfulHash hash eq) (hd : Inv hash eq d) {key : κ} {o o₁ : ℕ}
    (ho : o < d.buckets.length) (hend : SearchEnds hash eq d key o) {e e₁ : HdEntry κ β}
    (he : d.buckets[probe hash d key o]? = some e) (hempty : e.state = .empty) (ho₁ : o₁ ≤ o)
    (he₁ : d.buckets[probe hash d key o₁]? = some e₁) (hfree : e₁.state ≠ .occupied)
    (hreuse : ReusesTombstone d key ↔ e₁.state = .deleted) (value : β) :
    Stored hash eq d key value { d with
      buckets := d.buckets.set (probe hash d key o₁) ⟨key, value, .occupied⟩,
      len := d.len + 1 } := by
  have hp : probe hash d key o₁ < d.slots.length := by simpa using probe_lt hd.cap_pos
  have hslot : d.slots[probe hash d key o₁]? = some e₁.slot := slots_eq_some.mpr ⟨e₁, he₁, rfl⟩
  have hslots : ∀ n, slots { d with
      buckets := d.buckets.set (probe hash d key o₁) ⟨key, value, .occupied⟩, len := n } =
        d.slots.set (probe hash d key o₁) (.live key value) := fun n => slots_set d _ _ n
  have hnot := hend.not_maps hl hd ho he hempty
  have hother : ∀ j k' v', d.slots[j]? = some (Slot.live k' v') → Eqv eq k' key →
      j = probe hash d key o₁ := fun j k' v' hj hk' => absurd ⟨j, k', hj, hk'⟩ (hnot v')
  have hown : ∀ k' v', d.slots[probe hash d key o₁]? = some (Slot.live k' v') → Eqv eq k' key :=
    fun k' v' hj => absurd (slot_eq_live.mp (Option.some.inj (hslot.symm.trans hj))).1 hfree
  refine ⟨⟨hd.hash_eq, hd.eq_eq, by simpa using hd.cap, ?_, ?_⟩, fun x v => ?_, fun hpos => ?_⟩
  · rw [hslots]
    simp only [List.length_set]
    have hput := hd.probed.put hl.equiv (k := key) (v := value) (o := o₁) (by simp; omega)
    simp only [length_slots] at hput
    exact hput (fun o' ho' => hend.no_empty (by omega)) hother
  · have hlive : e₁.slot.isLive = false := by
      cases h : e₁.state <;> simp_all [HdEntry.slot, Slot.isLive]
    have hcount : (lives (d.slots.set (probe hash d key o₁) (.live key value))).length =
        (lives d.slots).length + 1 := by
      have h := length_lives_set hslot (.live key value)
      rw [hlive] at h
      exact h
    rw [hslots, hcount, hd.len]
    push_cast
    rfl
  · rw [hslots, maps_put hl.equiv hp hother hown]
  · have hcount := empties_set hslot (.live key value)
    rw [hslots, hreuse]
    have hmaps : ¬∃ v, Maps (Eqv eq) d.slots key v := not_exists.mpr hnot
    cases hstate : e₁.state with
    | empty =>
      simp only [HdEntry.slot, hstate, Slot.isEmpty, Bool.toNat_true, Bool.toNat_false] at hcount
      simp only [hmaps, false_or, reduceCtorEq]
      omega
    | occupied => exact absurd hstate hfree
    | deleted =>
      simp only [HdEntry.slot, hstate, Slot.isEmpty, Bool.toNat_false] at hcount
      simp only [true_or, or_true, iff_true]
      omega

/-- Overwriting the value of a key that is present. -/
theorem stored_of_hit (hl : LawfulHash hash eq) (hd : Inv hash eq d) {key : κ} {o : ℕ}
    (ho : o < d.buckets.length) (hend : SearchEnds hash eq d key o) {e : HdEntry κ β}
    (he : d.buckets[probe hash d key o]? = some e) (hocc : e.state = .occupied)
    (heq : eq e.key key = true) (value : β) :
    Stored hash eq d key value { d with
      buckets := d.buckets.set (probe hash d key o) { e with value := value } } := by
  have hp : probe hash d key o < d.slots.length := by simpa using probe_lt hd.cap_pos
  have hslot : d.slots[probe hash d key o]? = some (.live e.key e.value) :=
    slots_eq_some.mpr ⟨e, he, slot_eq_live.mpr ⟨hocc, rfl, rfl⟩⟩
  have hnew : HdEntry.slot { e with value := value } = .live e.key value :=
    slot_eq_live.mpr ⟨hocc, rfl, rfl⟩
  have hslots : slots { d with
      buckets := d.buckets.set (probe hash d key o) { e with value := value } } =
        d.slots.set (probe hash d key o) (.live e.key value) := by
    rw [← hnew]
    exact slots_set d _ _ d.len
  have hhome : home hash d.buckets.length e.key = home hash d.buckets.length key := by
    simp only [home, hl.congr heq]
  have hother : ∀ j k' v', d.slots[j]? = some (Slot.live k' v') → Eqv eq k' e.key →
      j = probe hash d key o := fun j k' v' hj hk' => hd.probed.unique _ _ _ _ _ _ hj hslot hk'
  have hown : ∀ k' v', d.slots[probe hash d key o]? = some (Slot.live k' v') →
      Eqv eq k' e.key := by
    intro k' v' hj
    obtain ⟨rfl, -⟩ : e.key = k' ∧ e.value = v' := by simpa using hslot.symm.trans hj
    exact hl.equiv.refl _
  have hcongr : ∀ x, Eqv eq e.key x ↔ Eqv eq key x := fun x =>
    ⟨fun h => hl.equiv.trans (hl.equiv.symm heq) h, fun h => hl.equiv.trans heq h⟩
  refine ⟨⟨hd.hash_eq, hd.eq_eq, by simpa using hd.cap, ?_, ?_⟩, fun x v => ?_, fun hpos => ?_⟩
  · rw [hslots]
    simp only [List.length_set]
    have hput := hd.probed.put hl.equiv (k := e.key) (v := value) (o := o) (by simpa using ho)
    simp only [length_slots, hhome] at hput
    exact hput (fun o' ho' => hend.no_empty ho') hother
  · have hcount := length_lives_set hslot (.live e.key value)
    rw [hslots, hd.len]
    simpa [Slot.isLive] using hcount.symm
  · rw [hslots, maps_put hl.equiv hp hother hown, hcongr]
  · have hcount := empties_set hslot (.live e.key value)
    simp only [Slot.isEmpty, Bool.toNat_false, Nat.add_zero] at hcount
    rw [hslots, hcount]
    exact ⟨fun _ => .inl ⟨_, maps_of_hit he hocc heq⟩, fun _ => hpos⟩

theorem putProbe_within (hl : LawfulHash hash eq) (hd : Inv hash eq d) (key : κ) (value : β)
    (fuel : ℕ) :
    Within (0 < empties d.slots ∧ d.buckets.length ≤ fuel) (Stored hash eq d key value)
      (putProbe fuel d key value) := by
  obtain ⟨rfl, rfl⟩ : d.hash = hash ∧ d.eq = eq := ⟨hd.hash_eq, hd.eq_eq⟩
  rw [putProbe, homeIdx_hash hd.cap_pos]
  refine searchLoop_within d.hash d.eq key
    (fun o => (((probe d.hash d key o : ℕ) : ℤ), firstDel d.hash d key o)) hd.cap_pos
    ?_ ?_ ?_ fuel
  · intro o e he hne hmiss
    have hdel : (∃ e', d.buckets[probe d.hash d key o]? = some e' ∧ e'.state = .deleted) ↔
        e.state = .deleted := by
      simp only [he, Option.some.injEq, exists_eq_left']
    rw [putBody_eq he, if_neg hne, if_neg hmiss, firstDel]
    simp only [hdel]
    simp only [probe, nextIdx_eq]
  · intro o ho hend e he hempty
    rcases firstDel_cases d.hash d key o with ⟨hneg, hnone⟩ | ⟨o₁, ho₁, hat, e₁, he₁, hdel⟩
    · refine ⟨_, ?_, stored_of_vacant hl hd ho hend he hempty le_rfl he (by rw [hempty]; decide)
        ⟨?_, fun h => ?_⟩ value⟩
      · rw [putBody_eq he, if_pos hempty, hneg, if_neg (by decide),
          Slice.set_natCast (probe_lt hd.cap_pos), ret_bind]
      · rintro ⟨o₂, ⟨e₂, he₂, hdel⟩, hbefore⟩
        rcases lt_trichotomy o₂ o with hlt | rfl | hgt
        · exact absurd hdel (hnone o₂ hlt e₂ he₂)
        · rw [he] at he₂
          cases he₂
          exact hdel
        · exact absurd hempty (hbefore o hgt e he)
      · rw [hempty] at h
        cases h
    · refine ⟨_, ?_, stored_of_vacant hl hd ho hend he hempty ho₁.le he₁ (by rw [hdel]; decide)
        ⟨fun _ => hdel, fun _ => ⟨o₁, ⟨e₁, he₁, hdel⟩, fun o' ho' e' he' => ?_⟩⟩ value⟩
      · rw [putBody_eq he, if_pos hempty, hat, if_pos (by omega),
          Slice.set_natCast (probe_lt hd.cap_pos), ret_bind]
      · obtain ⟨e'', he'', hne, -⟩ := hend.passes hd.cap_pos (ho'.trans ho₁)
        rw [he'] at he''
        cases he''
        exact hne
  · intro o ho hend e he hocc heq
    have hne : e.state ≠ .empty := by rw [hocc]; decide
    exact ⟨_, by rw [putBody_eq he, if_neg hne, if_pos ⟨hocc, heq⟩],
      stored_of_hit hl hd ho hend he hocc heq value⟩

end Calls

end FcLang.Data.HashDict
