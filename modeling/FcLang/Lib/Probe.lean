import FcLang.Lib.Slice

/-!
# Open addressing with linear probing

A table is a cyclic list of slots. A key is looked for from its home position
on, one slot after the other, up to the first empty slot; deleted slots are
passed over. The invariant is that no empty slot lies between the home of a
live key and its slot, and that no two live keys are equivalent.
-/

namespace FcLang.Probe
variable {κ β : Type*}

inductive Slot (κ β : Type*) where
  | empty
  | live (key : κ) (value : β)
  | dead

/-- The position `o` steps after `h` in a cycle of `cap` positions. -/
def path (cap h o : ℕ) : ℕ := (h + o) % cap

theorem path_lt {cap : ℕ} (hcap : 0 < cap) (h o : ℕ) : path cap h o < cap := Nat.mod_lt _ hcap

theorem path_zero {cap h : ℕ} (hh : h < cap) : path cap h 0 = h := Nat.mod_eq_of_lt hh

theorem path_succ (cap h o : ℕ) : path cap h (o + 1) = (path cap h o + 1) % cap := by
  simp only [path, Nat.mod_add_mod, Nat.add_assoc]

theorem path_injective {cap h o o' : ℕ} (ho : o < cap) (ho' : o' < cap)
    (h : path cap h o = path cap h o') : o = o' := by
  have hmod : o ≡ o' [MOD cap] := Nat.ModEq.add_left_cancel' _ h
  rwa [Nat.ModEq, Nat.mod_eq_of_lt ho, Nat.mod_eq_of_lt ho'] at hmod

/-- Every position is reached within one round. -/
theorem exists_path {cap h j : ℕ} (hj : j < cap) : ∃ o < cap, path cap h o = j := by
  have hcap : 0 < cap := by omega
  refine ⟨(j + (cap - h % cap)) % cap, Nat.mod_lt _ hcap, ?_⟩
  have hh : h % cap < cap := Nat.mod_lt _ hcap
  rw [path, Nat.add_mod_mod, ← Nat.mod_add_mod, ← Nat.add_assoc, Nat.add_comm (h % cap) j,
    Nat.add_assoc, Nat.add_sub_cancel' hh.le, Nat.add_mod_right, Nat.mod_eq_of_lt hj]

/-- `o` is the first offset from `h` whose slot stops the walk. -/
def FirstStop (stop : Slot κ β → Prop) (slots : List (Slot κ β)) (h o : ℕ) : Prop :=
  (∃ s, slots[path slots.length h o]? = some s ∧ stop s) ∧
    ∀ o' < o, ∀ s, slots[path slots.length h o']? = some s → ¬stop s

/-- A walk stops within one round, or no slot of the table stops it. -/
theorem firstStop_or_none (stop : Slot κ β → Prop) (slots : List (Slot κ β)) (h : ℕ) :
    (∃ o < slots.length, FirstStop stop slots h o) ∨ ∀ s ∈ slots, ¬stop s := by
  classical
  by_cases hex : ∃ o, ∃ s, slots[path slots.length h o]? = some s ∧ stop s
  · left
    have hfirst : FirstStop stop slots h (Nat.find hex) :=
      ⟨Nat.find_spec hex, fun o' ho' s hs hstop => Nat.find_min hex ho' ⟨s, hs, hstop⟩⟩
    refine ⟨Nat.find hex, ?_, hfirst⟩
    obtain ⟨s, hs, hstop⟩ := Nat.find_spec hex
    obtain ⟨hlt, -⟩ := List.getElem?_eq_some_iff.mp hs
    obtain ⟨o, ho, hpath⟩ := exists_path (h := h) hlt
    exact (Nat.find_min' hex ⟨s, by rw [hpath]; exact hs, hstop⟩).trans_lt ho
  · right
    intro s hs hstop
    obtain ⟨j, hj, hget⟩ := List.getElem_of_mem hs
    obtain ⟨o, -, hpath⟩ := exists_path (h := h) hj
    exact hex ⟨o, s, by rw [hpath, List.getElem?_eq_getElem hj, hget], hstop⟩

section Table
variable (r : κ → κ → Prop) (home : κ → ℕ)

structure WellProbed (slots : List (Slot κ β)) : Prop where
  reach : ∀ o < slots.length, ∀ (k : κ) (v : β),
    slots[path slots.length (home k) o]? = some (Slot.live k v) →
      ∀ o' < o, slots[path slots.length (home k) o']? ≠ some Slot.empty
  unique : ∀ (i j : ℕ) (k : κ) (v : β) (k' : κ) (v' : β), slots[i]? = some (Slot.live k v) →
    slots[j]? = some (Slot.live k' v') → r k k' → i = j

/-- The table holds value `v` under a key equivalent to `k`. -/
def Maps (slots : List (Slot κ β)) (k : κ) (v : β) : Prop :=
  ∃ (j : ℕ) (k' : κ), slots[j]? = some (Slot.live k' v) ∧ r k' k

/-- What ends a search for `k`: an empty slot, or a live slot with an equivalent key. -/
def Stops (k : κ) : Slot κ β → Prop
  | .empty => True
  | .live k' _ => r k' k
  | .dead => False

variable {r home} {slots : List (Slot κ β)}

theorem Maps.unique (hr : Equivalence r) (hw : WellProbed r home slots) {k : κ} {v v' : β}
    (h : Maps r slots k v) (h' : Maps r slots k v') : v = v' := by
  obtain ⟨j, k₁, hj, hk₁⟩ := h
  obtain ⟨j', k₂, hj', hk₂⟩ := h'
  have heq := hw.unique j j' k₁ v k₂ v' hj hj' (hr.trans hk₁ (hr.symm hk₂))
  subst heq
  rw [hj] at hj'
  cases hj'
  rfl

theorem Maps.congr (hr : Equivalence r) {k k' : κ} (hk : r k k') {v : β} :
    Maps r slots k v ↔ Maps r slots k' v :=
  ⟨fun ⟨j, x, hj, hx⟩ => ⟨j, x, hj, hr.trans hx hk⟩,
    fun ⟨j, x, hj, hx⟩ => ⟨j, x, hj, hr.trans hx (hr.symm hk)⟩⟩

/-- A search that ends on an empty slot has missed no key. -/
theorem not_maps_of_firstStop_empty (hw : WellProbed r home slots)
    (hhome : ∀ {x y}, r x y → home x = home y) {k : κ} {o : ℕ} (ho : o < slots.length)
    (hfirst : FirstStop (Stops r k) slots (home k) o)
    (hempty : slots[path slots.length (home k) o]? = some .empty) (v : β) :
    ¬Maps r slots k v := by
  rintro ⟨j, k', hj, hk'⟩
  obtain ⟨hlt, -⟩ := List.getElem?_eq_some_iff.mp hj
  obtain ⟨o₁, ho₁, hpath⟩ := exists_path (h := home k) hlt
  rcases lt_trichotomy o₁ o with hlt | rfl | hgt
  · exact hfirst.2 o₁ hlt (.live k' v) (by rw [hpath, hj]) hk'
  · rw [hpath, hj] at hempty
    cases hempty
  · have hreach := hw.reach o₁ ho₁ k' v (by rw [hhome hk', hpath, hj]) o hgt
    rw [hhome hk'] at hreach
    exact hreach hempty

/-- A key may be stored at a slot its search reaches, if no other slot holds an equivalent key. -/
theorem WellProbed.put (hr : Equivalence r) (hw : WellProbed r home slots) {k : κ} {v : β} {o : ℕ}
    (ho : o < slots.length)
    (hreach : ∀ o' < o, slots[path slots.length (home k) o']? ≠ some Slot.empty)
    (hother : ∀ j k' v', slots[j]? = some (Slot.live k' v') → r k' k →
      j = path slots.length (home k) o) :
    WellProbed r home (slots.set (path slots.length (home k) o) (.live k v)) := by
  have hp : path slots.length (home k) o < slots.length := path_lt (by omega) _ _
  constructor
  · intro o₁ ho₁ k₁ v₁ hget o' ho'
    rw [List.length_set] at ho₁ hget ⊢
    rw [Slice.getElem?_set_of_lt hp] at hget ⊢
    split_ifs at hget with hat
    · obtain ⟨rfl, rfl⟩ : k = k₁ ∧ v = v₁ := by simpa using hget
      obtain rfl := path_injective ho ho₁ hat
      split_ifs
      · simp
      · exact hreach o' ho'
    · split_ifs
      · simp
      · exact hw.reach o₁ ho₁ k₁ v₁ hget o' ho'
  · intro i j k₁ v₁ k₂ v₂ hi hj hrel
    rw [Slice.getElem?_set_of_lt hp] at hi hj
    split_ifs at hi hj with h₁ h₂ h₂
    · exact h₁.symm.trans h₂
    · obtain ⟨rfl, rfl⟩ : k = k₁ ∧ v = v₁ := by simpa using hi
      exact h₁.symm.trans (hother j k₂ v₂ hj (hr.symm hrel)).symm
    · obtain ⟨rfl, rfl⟩ : k = k₂ ∧ v = v₂ := by simpa using hj
      exact (hother i k₁ v₁ hi hrel).trans h₂
    · exact hw.unique i j k₁ v₁ k₂ v₂ hi hj hrel

theorem maps_put (hr : Equivalence r) {k : κ} {v : β} {p : ℕ} (hp : p < slots.length)
    (hother : ∀ j k' v', slots[j]? = some (Slot.live k' v') → r k' k → j = p)
    (hown : ∀ k' v', slots[p]? = some (Slot.live k' v') → r k' k) (x : κ) (v' : β) :
    Maps r (slots.set p (.live k v)) x v' ↔ r k x ∧ v' = v ∨ ¬r k x ∧ Maps r slots x v' := by
  constructor
  · rintro ⟨j, k', hj, hk'⟩
    rw [Slice.getElem?_set_of_lt hp] at hj
    split_ifs at hj with hat
    · obtain ⟨rfl, rfl⟩ : k = k' ∧ v = v' := by simpa using hj
      exact .inl ⟨hk', rfl⟩
    · refine .inr ⟨fun hx => hat ?_, j, k', hj, hk'⟩
      exact (hother j k' v' hj (hr.trans hk' (hr.symm hx))).symm
  · rintro (⟨hx, rfl⟩ | ⟨hx, j, k', hj, hk'⟩)
    · exact ⟨p, k, by simp [hp], hx⟩
    · refine ⟨j, k', ?_, hk'⟩
      rw [Slice.getElem?_set_of_lt hp, if_neg, hj]
      rintro rfl
      exact hx (hr.trans (hr.symm (hown k' v' hj)) hk')

theorem WellProbed.kill (hw : WellProbed r home slots) (p : ℕ) (hp : p < slots.length) :
    WellProbed r home (slots.set p .dead) := by
  constructor
  · intro o ho k v hget o' ho'
    rw [List.length_set] at ho hget ⊢
    rw [Slice.getElem?_set_of_lt hp] at hget ⊢
    split_ifs at hget with hat
    · cases hget
    · split_ifs
      · simp
      · exact hw.reach o ho k v hget o' ho'
  · intro i j k v k' v' hi hj hrel
    rw [Slice.getElem?_set_of_lt hp] at hi hj
    split_ifs at hi hj
    · cases hi
    · cases hi
    · cases hj
    · exact hw.unique i j k v k' v' hi hj hrel

theorem maps_kill (hr : Equivalence r) (hw : WellProbed r home slots) {k : κ} {v : β} {p : ℕ}
    (hp : slots[p]? = some (.live k v)) (x : κ) (v' : β) :
    Maps r (slots.set p .dead) x v' ↔ ¬r k x ∧ Maps r slots x v' := by
  obtain ⟨hlt, -⟩ := List.getElem?_eq_some_iff.mp hp
  constructor
  · rintro ⟨j, k', hj, hk'⟩
    rw [Slice.getElem?_set_of_lt hlt] at hj
    split_ifs at hj with hat
    · cases hj
    · refine ⟨fun hx => hat ?_, j, k', hj, hk'⟩
      exact hw.unique p j k v k' v' hp hj (hr.trans hx (hr.symm hk'))
  · rintro ⟨hx, j, k', hj, hk'⟩
    refine ⟨j, k', ?_, hk'⟩
    rw [Slice.getElem?_set_of_lt hlt, if_neg, hj]
    rintro rfl
    rw [hp] at hj
    cases hj
    exact hx hk'

end Table

section Count

def Slot.entry : Slot κ β → Option (κ × β)
  | .empty => none
  | .live k v => some (k, v)
  | .dead => none

def Slot.isEmpty : Slot κ β → Bool
  | .empty => true
  | .live _ _ => false
  | .dead => false

def Slot.isLive : Slot κ β → Bool
  | .empty => false
  | .live _ _ => true
  | .dead => false

/-- The live entries in slot order. -/
def lives (slots : List (Slot κ β)) : List (κ × β) := slots.filterMap Slot.entry

def empties (slots : List (Slot κ β)) : ℕ := slots.countP Slot.isEmpty

variable {slots : List (Slot κ β)}

theorem entry_eq_some {s : Slot κ β} {k : κ} {v : β} :
    s.entry = some (k, v) ↔ s = .live k v := by
  cases s <;> simp [Slot.entry]

theorem isEmpty_iff {s : Slot κ β} : s.isEmpty = true ↔ s = .empty := by
  cases s <;> simp [Slot.isEmpty]

theorem mem_lives {k : κ} {v : β} : (k, v) ∈ lives slots ↔ Slot.live k v ∈ slots := by
  simp only [lives, List.mem_filterMap, entry_eq_some, exists_eq_right]

theorem maps_iff_lives {r : κ → κ → Prop} {k : κ} {v : β} :
    Maps r slots k v ↔ ∃ k', (k', v) ∈ lives slots ∧ r k' k := by
  simp only [mem_lives, Maps]
  constructor
  · rintro ⟨j, k', hj, hk'⟩
    exact ⟨k', List.mem_of_getElem? hj, hk'⟩
  · rintro ⟨k', hmem, hk'⟩
    obtain ⟨j, hj⟩ := List.mem_iff_getElem?.mp hmem
    exact ⟨j, k', hj, hk'⟩

/-- No two entries of a table have equivalent keys. -/
theorem WellProbed.pairwise {r : κ → κ → Prop} {home : κ → ℕ} (hw : WellProbed r home slots) :
    (lives slots).Pairwise fun a b => ¬r a.1 b.1 := by
  rw [lives, List.pairwise_filterMap, List.pairwise_iff_getElem]
  intro i j hi hj hij a ha b hb hrel
  have hslot : ∀ {n : ℕ} (hn : n < slots.length) {kv : κ × β}, slots[n].entry = some kv →
      slots[n]? = some (.live kv.1 kv.2) := by
    intro n hn kv h
    rw [List.getElem?_eq_getElem hn, entry_eq_some.mp h]
  exact hij.ne (hw.unique i j _ _ _ _ (hslot hi ha) (hslot hj hb) hrel)

theorem length_lives : (lives slots).length = slots.countP Slot.isLive := by
  rw [lives, List.length_filterMap_eq_countP]
  congr 1
  funext s
  cases s <;> rfl

theorem empties_add_lives_le (slots : List (Slot κ β)) :
    empties slots + (lives slots).length ≤ slots.length := by
  rw [length_lives]
  induction slots with
  | nil => simp [empties]
  | cons s slots ih =>
    simp only [empties, List.countP_cons, List.length_cons] at ih ⊢
    cases s <;> simp [Slot.isEmpty, Slot.isLive] <;> omega

theorem empties_pos : 0 < empties slots ↔ Slot.empty ∈ slots := by
  simp only [empties, List.countP_pos_iff, isEmpty_iff, exists_eq_right]

theorem countP_set_add {α : Type*} (q : α → Bool) {l : List α} {p : ℕ} {s : α}
    (hp : l[p]? = some s) (t : α) :
    (l.set p t).countP q + (q s).toNat = l.countP q + (q t).toNat := by
  obtain ⟨hlt, rfl⟩ := List.getElem?_eq_some_iff.mp hp
  rw [List.countP_set hlt]
  cases hs : q l[p] with
  | false => cases q t <;> rfl
  | true =>
    have hpos : 0 < l.countP q := List.countP_pos_iff.mpr ⟨l[p], List.getElem_mem hlt, hs⟩
    have hsub : l.countP q - 1 + 1 = l.countP q := Nat.sub_add_cancel hpos
    cases q t <;> simpa using hsub

/-- Filling a slot that is not live adds one entry. -/
theorem lives_set_perm {p : ℕ} {s : Slot κ β} (hp : slots[p]? = some s) (hs : s.entry = none)
    (k : κ) (v : β) : (lives (slots.set p (.live k v))).Perm ((k, v) :: lives slots) := by
  obtain ⟨hlt, rfl⟩ := List.getElem?_eq_some_iff.mp hp
  have hsplit : slots = slots.take p ++ slots[p] :: slots.drop (p + 1) := by simp
  have hlives : lives slots = lives (slots.take p) ++ lives (slots.drop (p + 1)) := by
    conv_lhs => rw [hsplit, lives, List.filterMap_append, List.filterMap_cons_none hs]
    rfl
  rw [List.set_eq_take_append_cons_drop, if_pos hlt, hlives, lives, List.filterMap_append,
    List.filterMap_cons_some (entry_eq_some.mpr rfl)]
  exact List.perm_middle

theorem empties_set {p : ℕ} {s : Slot κ β} (hp : slots[p]? = some s) (t : Slot κ β) :
    empties (slots.set p t) + s.isEmpty.toNat = empties slots + t.isEmpty.toNat :=
  countP_set_add _ hp t

theorem length_lives_set {p : ℕ} {s : Slot κ β} (hp : slots[p]? = some s) (t : Slot κ β) :
    (lives (slots.set p t)).length + s.isLive.toNat = (lives slots).length + t.isLive.toNat := by
  simp only [length_lives]
  exact countP_set_add _ hp t

end Count

section Refill
variable {r : κ → κ → Prop} {home : κ → ℕ} {slots : List (Slot κ β)}

/-- A table without deleted slots that holds the entries of `old`. -/
structure Refilled (r : κ → κ → Prop) (home : κ → ℕ) (old : List (κ × β))
    (slots : List (Slot κ β)) : Prop where
  probed : WellProbed r home slots
  entries : (lives slots).Perm old
  room : empties slots + (lives slots).length = slots.length

theorem refilled_replicate (r : κ → κ → Prop) (home : κ → ℕ) (n : ℕ) :
    Refilled r home [] (List.replicate n (Slot.empty : Slot κ β)) := by
  have hnot : ∀ {i : ℕ} {s : Slot κ β}, (List.replicate n Slot.empty)[i]? = some s →
      s = .empty := fun {i s} h => List.eq_of_mem_replicate (List.mem_of_getElem? h)
  have hlives : lives (List.replicate n (Slot.empty : Slot κ β)) = [] := by
    simp [lives, Slot.entry]
  refine ⟨⟨fun o _ k v h => ?_, fun i j k v k' v' h => ?_⟩, ?_, ?_⟩
  · cases hnot h
  · cases hnot h
  · rw [hlives]
  · rw [hlives]
    simp [empties, List.countP_replicate, Slot.isEmpty]

/-- Where a table has room, every walk ends on an empty slot. -/
theorem Refilled.exists_empty {old : List (κ × β)} (h : Refilled r home old slots)
    (hroom : old.length < slots.length) (start : ℕ) :
    ∃ o < slots.length, slots[path slots.length start o]? = some .empty ∧
      ∀ o' < o, slots[path slots.length start o']? ≠ some .empty := by
  have hempties : 0 < empties slots := by
    have := h.room
    rw [h.entries.length_eq] at this
    omega
  rcases firstStop_or_none (· = Slot.empty) slots start with ⟨o, ho, hfirst⟩ | hnone
  · refine ⟨o, ho, ?_, fun o' ho' hs => hfirst.2 o' ho' _ hs rfl⟩
    obtain ⟨s, hs, rfl⟩ := hfirst.1
    exact hs
  · exact absurd (empties_pos.mp hempties) fun hmem => hnone _ hmem rfl

/-- A new key is stored on the first empty slot of its walk. -/
theorem Refilled.insert (hr : Equivalence r) {old : List (κ × β)} (h : Refilled r home old slots)
    {k : κ} {o : ℕ} (ho : o < slots.length)
    (hslot : slots[path slots.length (home k) o]? = some .empty)
    (hbefore : ∀ o' < o, slots[path slots.length (home k) o']? ≠ some .empty)
    (hnew : ∀ e ∈ old, ¬r e.1 k) (v : β) :
    Refilled r home (old ++ [(k, v)])
      (slots.set (path slots.length (home k) o) (.live k v)) := by
  have hlives := lives_set_perm hslot rfl k v
  refine ⟨h.probed.put hr ho hbefore fun j k' v' hj hk' => ?_, ?_, ?_⟩
  · have hmem := h.entries.mem_iff.mp (mem_lives.mpr (List.mem_of_getElem? hj))
    exact absurd hk' (hnew _ hmem)
  · exact hlives.trans ((h.entries.cons _).trans (List.perm_append_singleton _ _).symm)
  · have hcount := empties_set hslot (.live k v)
    have hsum := hlives.length_eq
    have hroom := h.room
    simp only [Slot.isEmpty, Bool.toNat_true, Bool.toNat_false] at hcount
    rw [List.length_cons] at hsum
    rw [List.length_set, hsum]
    omega

end Refill
end FcLang.Probe
