import FcLang.Intern.Table
import FcLang.Lib.Probe

/-!
# Interning is canonical

The entries are a probe table from strings to pointers. A growth moves them to a
table twice as large, and a call either finds the string or stores it on the
empty slot that ends its walk. Two calls therefore return one pointer exactly
where they are given the same bytes.
-/

namespace FcLang.Intern
open Exec Probe

section Index
variable {cap k : ℕ}

theorem mask_toNat (hcap : cap = 2 ^ k) (hk : k ≤ 30) (x : UInt32) :
    (x &&& mask cap).toNat = x.toNat % cap := by
  have hle : 2 ^ k ≤ 2 ^ 30 := Nat.pow_le_pow_right (by norm_num) hk
  have hmod : (mask cap).toNat = 2 ^ k - 1 := by
    rw [mask, UInt32.toNat_ofNat', hcap, Nat.mod_eq_of_lt (by omega)]
  rw [UInt32.toNat_and, hmod, Nat.and_two_pow_sub_one_eq_mod, hcap]

theorem position_toNat (hcap : cap = 2 ^ k) (hk : k ≤ 30) (h o : ℕ) :
    (UInt32.ofNat (path cap h o)).toNat = path cap h o := by
  have hle : 2 ^ k ≤ 2 ^ 30 := Nat.pow_le_pow_right (by norm_num) hk
  have hlt : path cap h o < cap := path_lt (by rw [hcap]; positivity) h o
  rw [UInt32.toNat_ofNat', Nat.mod_eq_of_lt (by omega)]

theorem position_zero (hcap : cap = 2 ^ k) (hk : k ≤ 30) (x : UInt32) :
    x &&& mask cap = UInt32.ofNat (path cap x.toNat 0) := by
  rw [← UInt32.toNat_inj, mask_toNat hcap hk, position_toNat hcap hk, path, Nat.add_zero]

theorem position_succ (hcap : cap = 2 ^ k) (hk : k ≤ 30) (h o : ℕ) :
    (UInt32.ofNat (path cap h o) + 1) &&& mask cap = UInt32.ofNat (path cap h (o + 1)) := by
  have hle : 2 ^ k ≤ 2 ^ 30 := Nat.pow_le_pow_right (by norm_num) hk
  have hlt : path cap h o < cap := path_lt (by rw [hcap]; positivity) h o
  rw [← UInt32.toNat_inj, mask_toNat hcap hk, position_toNat hcap hk, path_succ, UInt32.toNat_add,
    position_toNat hcap hk, UInt32.toNat_one, Nat.mod_eq_of_lt (by omega : path cap h o + 1 < 2 ^ 32)]

end Index

/-- The string and the pointer behind an entry. -/
def InternEntry.slot (a : Arena) (e : InternEntry) : Slot (List UInt8) Ptr :=
  match e.str with
  | none => .empty
  | some p => .live ((a.blocks[p]?.getD []).take e.length) p

def InternTable.slots (t : InternTable) : List (Slot (List UInt8) Ptr) :=
  t.entries.map (InternEntry.slot t.arena)

def home (s : List UInt8) : ℕ := (fnv1a s).toNat

/-- The entry describes the copy of `s` at `p`. -/
structure InternEntry.Describes (a : Arena) (e : InternEntry) (s : List UInt8) (p : Ptr) :
    Prop where
  str : e.str = some p
  length : e.length = s.length
  hash : e.hash = fnv1a s
  copy : a.blocks[p]? = some (s ++ [0])

/-- Every entry in use describes a string. -/
def Described (a : Arena) (entries : List InternEntry) : Prop :=
  ∀ e ∈ entries, e.str = none ∨ ∃ s p, e.Describes a s p

section Entry
variable {a : Arena} {e : InternEntry} {s : List UInt8} {p : Ptr}

theorem InternEntry.slot_eq_empty : e.slot a = .empty ↔ e.str = none := by
  cases h : e.str <;> simp [slot, h]

theorem InternEntry.Describes.slot (h : e.Describes a s p) : e.slot a = .live s p := by
  simp [InternEntry.slot, h.str, h.length, h.copy]

/-- An entry is taken for a string exactly when it describes that string. -/
theorem InternEntry.Describes.matches_iff (h : e.Describes a s p) (s' : List UInt8) :
    (e.hash = fnv1a s' ∧ e.length = s'.length ∧ sameBytes a p s' = true) ↔ s = s' := by
  constructor
  · rintro ⟨-, hlen, hbytes⟩
    rw [h.length] at hlen
    simpa [sameBytes, h.copy, ← hlen] using hbytes
  · rintro rfl
    exact ⟨h.hash, h.length, by simp [sameBytes, h.copy]⟩

theorem InternEntry.Describes.append (h : e.Describes a s p) (blocks : List (List UInt8)) :
    e.Describes ⟨a.blocks ++ blocks⟩ s p := by
  obtain ⟨hlt, -⟩ := List.getElem?_eq_some_iff.mp h.copy
  exact ⟨h.str, h.length, h.hash, by rw [List.getElem?_append_left hlt, h.copy]⟩

theorem Described.append {entries : List InternEntry} (h : Described a entries)
    (blocks : List (List UInt8)) : Described ⟨a.blocks ++ blocks⟩ entries := by
  intro e he
  rcases h e he with hnone | ⟨s, p, hd⟩
  · exact .inl hnone
  · exact .inr ⟨s, p, hd.append blocks⟩

/-- Later allocations leave the stored strings alone. -/
theorem Described.slots_append {entries : List InternEntry} (h : Described a entries)
    (blocks : List (List UInt8)) :
    entries.map (InternEntry.slot ⟨a.blocks ++ blocks⟩) = entries.map (InternEntry.slot a) := by
  refine List.map_congr_left fun e he => ?_
  rcases h e he with hnone | ⟨s, p, hd⟩
  · rw [InternEntry.slot_eq_empty.mpr hnone, InternEntry.slot_eq_empty.mpr hnone]
  · rw [hd.slot, (hd.append blocks).slot]

end Entry

/-- The table holds the pairs `known`, with at least half of its slots empty. -/
structure Inv (known : List (List UInt8 × Ptr)) (t : InternTable) : Prop where
  capacity : ∃ k, 8 ≤ k ∧ k ≤ 30 ∧ t.capacity = 2 ^ k
  length : t.entries.length = t.capacity
  described : Described t.arena t.entries
  table : Refilled Eq home known t.slots
  count : t.count = known.length
  load : t.count * 2 ≤ t.capacity

section Inv
variable {known : List (List UInt8 × Ptr)} {t : InternTable} {s : List UInt8} {p : Ptr}

theorem InternTable.slots_getElem? {i : ℕ} {e : InternEntry} (h : t.entries[i]? = some e) :
    t.slots[i]? = some (e.slot t.arena) := by
  rw [slots, List.getElem?_map, h]
  rfl

theorem Inv.length_slots (h : Inv known t) : t.slots.length = t.capacity := by
  rw [InternTable.slots, List.length_map, h.length]

theorem Inv.entry (h : Inv known t) {i : ℕ} (hi : i < t.capacity) :
    ∃ e, t.entries[i]? = some e ∧ (e.str = none ∨ ∃ s p, e.Describes t.arena s p) := by
  have hlt : i < t.entries.length := by rw [h.length]; exact hi
  exact ⟨_, List.getElem?_eq_getElem hlt, h.described _ (List.getElem_mem hlt)⟩

theorem Inv.maps_iff (h : Inv known t) : Maps Eq t.slots s p ↔ (s, p) ∈ known := by
  rw [maps_iff_lives]
  constructor
  · rintro ⟨s', hmem, rfl⟩
    exact h.table.entries.mem_iff.mp hmem
  · intro hmem
    exact ⟨s, h.table.entries.mem_iff.mpr hmem, rfl⟩

/-- A known pointer leads to the bytes of its string. -/
theorem Inv.copy (h : Inv known t) (hmem : (s, p) ∈ known) :
    t.arena.blocks[p]? = some (s ++ [0]) := by
  have hlive := mem_lives.mp (h.table.entries.mem_iff.mpr hmem)
  obtain ⟨e, he, hslot⟩ := List.mem_map.mp hlive
  rcases h.described e he with hnone | ⟨s', p', hd⟩
  · rw [InternEntry.slot_eq_empty.mpr hnone] at hslot
    cases hslot
  · rw [hd.slot] at hslot
    cases hslot
    exact hd.copy

theorem Inv.pairwise (h : Inv known t) : known.Pairwise fun x y => x.1 ≠ y.1 := by
  refine h.table.entries.pairwise (h.table.probed.pairwise) fun hne => ?_
  exact fun heq => hne heq.symm

theorem Inv.nodup (h : Inv known t) : (known.map Prod.fst).Nodup :=
  List.pairwise_map.mpr h.pairwise

/-- One pointer for one string. -/
theorem Inv.canonical (h : Inv known t) {x y : List UInt8 × Ptr} (hx : x ∈ known)
    (hy : y ∈ known) : x.2 = y.2 ↔ x.1 = y.1 := by
  constructor
  · intro heq
    have hx' := h.copy hx
    have hy' := h.copy hy
    rw [heq, hy', Option.some.injEq] at hx'
    exact (List.append_cancel_right hx').symm
  · intro heq
    rw [List.inj_on_of_nodup_map h.nodup hx hy heq]

theorem Inv.half_empty (h : Inv known t) : t.capacity ≤ 2 * empties t.slots := by
  have hroom := h.table.room
  have hload := h.load
  rw [h.table.entries.length_eq, ← h.count, h.length_slots] at hroom
  omega

end Inv

section Grow
variable {known : List (List UInt8 × Ptr)} {t : InternTable} {a : Arena} {cap k : ℕ}
  {entries : List InternEntry}

theorem placeBody_eq {e : InternEntry} {idx : UInt32} (he : entries[idx.toNat]? = some e) :
    placeBody cap entries idx = if e.str = none then .ret (.inr idx)
      else .ret (.inl ((idx + 1) &&& mask cap)) := by
  rw [placeBody, Slice.get_of_some he]
  cases h : e.str <;> simp [h]

/-- The walk of a growth ends on the first empty slot of the new table. -/
theorem place_within (hcap : cap = 2 ^ k) (hk : k ≤ 30) (hlen : entries.length = cap)
    (h : Refilled Eq home known (entries.map (InternEntry.slot a))) (hroom : known.length < cap)
    (start : UInt32) (fuel : ℕ) :
    Within (cap ≤ fuel) (fun idx => ∃ o < cap, idx.toNat = path cap start.toNat o ∧
        (entries.map (InternEntry.slot a))[path cap start.toNat o]? = some .empty ∧
        ∀ o' < o, (entries.map (InternEntry.slot a))[path cap start.toNat o']? ≠ some .empty)
      (loop (placeBody cap entries) fuel (start &&& mask cap)) := by
  have hslots : (entries.map (InternEntry.slot a)).length = cap := by rw [List.length_map, hlen]
  obtain ⟨o, ho, hempty, hbefore⟩ := h.exists_empty (by rw [hslots]; exact hroom) start.toNat
  rw [hslots] at ho hempty
  simp only [hslots] at hbefore
  have hround : ∀ d, ∃ e, entries[path cap start.toNat d]? = some e ∧
      (entries.map (InternEntry.slot a))[path cap start.toNat d]? = some (e.slot a) ∧
      placeBody cap entries (UInt32.ofNat (path cap start.toNat d)) = if e.str = none
        then .ret (.inr (UInt32.ofNat (path cap start.toNat d)))
        else .ret (.inl (UInt32.ofNat (path cap start.toNat (d + 1)))) := by
    intro d
    have hlt : path cap start.toNat d < entries.length := by rw [hlen]; exact path_lt (by omega) _ _
    refine ⟨_, List.getElem?_eq_getElem hlt, ?_, ?_⟩
    · rw [List.getElem?_map, List.getElem?_eq_getElem hlt]
      rfl
    · rw [placeBody_eq (e := entries[path cap start.toNat d]), position_succ hcap hk]
      rw [position_toNat hcap hk, List.getElem?_eq_getElem hlt]
  rw [position_zero hcap hk]
  refine (loop_walk (fun d => UInt32.ofNat (path cap start.toNat d)) (n := o) (fun d hd => ?_) ?_
    ⟨o, ho, position_toNat hcap hk _ _, hempty, hbefore⟩ fuel).mono (fun h => by omega) fun _ h => h
  · obtain ⟨e, -, hslot, hbody⟩ := hround d
    rw [hbody, if_neg fun hnone => hbefore d hd ?_]
    rw [hslot, InternEntry.slot_eq_empty.mpr hnone]
  · obtain ⟨e, -, hslot, hbody⟩ := hround o
    rw [hslot, Option.some.injEq] at hempty
    rw [hbody, if_pos (InternEntry.slot_eq_empty.mp hempty)]

/-- The new table has taken over the entries `done` of the old one. -/
structure Moved (t : InternTable) (cap : ℕ) (done entries : List InternEntry) : Prop where
  length : entries.length = cap
  described : Described t.arena entries
  table : Refilled Eq home (lives (done.map (InternEntry.slot t.arena)))
    (entries.map (InternEntry.slot t.arena))

theorem moved_fresh (t : InternTable) (cap : ℕ) : Moved t cap [] (List.replicate cap {}) := by
  refine ⟨List.length_replicate, fun e he => .inl ?_, ?_⟩
  · rw [List.eq_of_mem_replicate he]
  · rw [List.map_replicate]
    exact refilled_replicate _ _ _

/-- The entries moved already hold other strings than the next one. -/
theorem Inv.ne_of_done (h : Inv known t) {done rest : List InternEntry} {e : InternEntry}
    (hsplit : t.entries = done ++ e :: rest) {s : List UInt8} {p : Ptr}
    (hd : e.Describes t.arena s p) :
    ∀ x ∈ lives (done.map (InternEntry.slot t.arena)), ¬x.1 = s := by
  intro x hx
  have hpair := h.table.probed.pairwise
  rw [InternTable.slots, hsplit, List.map_append, List.map_cons, lives, List.filterMap_append,
    hd.slot, List.filterMap_cons_some (entry_eq_some.mpr rfl)] at hpair
  exact (List.pairwise_append.mp hpair).2.2 x hx _ List.mem_cons_self

/-- One entry moves. -/
theorem Moved.step (h : Inv known t) (hcap : cap = 2 ^ k) (hk : k ≤ 30) (hlt : t.capacity < cap)
    {done rest : List InternEntry} {e : InternEntry} (hsplit : t.entries = done ++ e :: rest)
    (hm : Moved t cap done entries) {s : List UInt8} {p : Ptr} (hd : e.Describes t.arena s p)
    (fuel : ℕ) :
    Within (cap ≤ fuel) (Moved t cap (done ++ [e])) (moveEntry cap fuel e entries) := by
  simp only [moveEntry, hd.str]
  have hdone : (lives (done.map (InternEntry.slot t.arena))).length < cap := by
    have hle : (lives (done.map (InternEntry.slot t.arena))).length ≤
        (done.map (InternEntry.slot t.arena)).length := List.length_filterMap_le _ _
    have hlen := h.length
    rw [List.length_map] at hle
    rw [hsplit, List.length_append, List.length_cons] at hlen
    omega
  refine (place_within hcap hk hm.length hm.table hdone e.hash fuel).bind ?_
  rintro idx ⟨o, ho, hidx, hempty, hbefore⟩
  have hpos : path cap e.hash.toNat o < entries.length := by
    rw [hm.length]
    exact path_lt (by omega) _ _
  have hslots : (entries.map (InternEntry.slot t.arena)).length = cap := by
    rw [List.length_map, hm.length]
  have hhash : e.hash.toNat = home s := by rw [hd.hash, home]
  rw [hidx, Slice.set_natCast hpos]
  refine .ret ⟨by rw [List.length_set, hm.length], ?_, ?_⟩
  · intro x hx
    rcases List.mem_or_eq_of_mem_set hx with hx | rfl
    · exact hm.described x hx
    · exact .inr ⟨s, p, hd⟩
  · have hlives : lives ((done ++ [e]).map (InternEntry.slot t.arena)) =
        lives (done.map (InternEntry.slot t.arena)) ++ [(s, p)] := by
      simp [lives, hd.slot, Slot.entry]
    rw [hlives, List.map_set, hd.slot, hhash]
    rw [hhash] at hempty hbefore
    have hins := hm.table.insert ⟨fun _ => rfl, Eq.symm, Eq.trans⟩ (k := s) (o := o)
      (by rw [hslots]; exact ho) (by rw [hslots]; exact hempty)
      (by rw [hslots]; exact hbefore) (h.ne_of_done hsplit hd) p
    rwa [hslots] at hins

theorem calloc_cases (m : Memory) (n : ℕ) :
    calloc m n = .abort ∧ (m.table = false ∨ 2147483647 < n) ∨
      calloc m n = .ret (List.replicate n {}) ∧ n ≤ 2147483647 := by
  by_cases hn : n ≤ 2147483647
  · cases htable : m.table with
    | true => exact .inr ⟨if_pos ⟨hn, htable⟩, hn⟩
    | false => exact .inl ⟨if_neg fun h => by simp [htable] at h, .inl rfl⟩
  · exact .inl ⟨if_neg fun h => hn h.1, .inr (by omega)⟩

/-- A growth is refused its memory, or keeps the table and leaves room for an insertion. -/
theorem internGrow_spec (h : Inv known t) (m : Memory) {fuel : ℕ} (hfuel : 2 ^ 30 ≤ fuel)
    (hfull : t.count * 2 ≥ t.capacity) :
    internGrow m fuel t = .abort ∧ (m.table = false ∨ 2 ^ 29 ≤ t.count) ∨
      ∃ t', internGrow m fuel t = .ret t' ∧ Inv known t' ∧ t'.arena = t.arena ∧
        t'.count * 2 < t'.capacity := by
  obtain ⟨k, hk8, hk30, hcapacity⟩ := h.capacity
  have hload := h.load
  rcases calloc_cases m (t.capacity * 2) with ⟨hcalloc, hwhy⟩ | ⟨hcalloc, hint⟩
  · refine .inl ⟨by rw [internGrow, hcalloc]; rfl, hwhy.imp_right fun hint => ?_⟩
    have hpow : (2 : ℕ) ^ 30 ≤ 2 ^ k := by
      rw [hcapacity] at hint
      by_contra hlt
      have hle : 2 ^ k ≤ 2 ^ 29 := Nat.pow_le_pow_right (by norm_num)
        (by have := (Nat.pow_lt_pow_iff_right (by norm_num : 1 < 2)).mp (not_le.mp hlt); omega)
      omega
    omega
  · have hcap : t.capacity * 2 = 2 ^ (k + 1) := by rw [hcapacity, Nat.pow_succ]
    have hk : k + 1 ≤ 30 := by
      by_contra hgt
      have hle : 2 ^ 31 ≤ 2 ^ (k + 1) := Nat.pow_le_pow_right (by norm_num) (by omega)
      omega
    have hle : 2 ^ (k + 1) ≤ 2 ^ 30 := Nat.pow_le_pow_right (by norm_num) hk
    have hpos : 0 < t.capacity := by rw [hcapacity]; positivity
    have hmoved : Within (t.capacity * 2 ≤ fuel) (Moved t (t.capacity * 2) t.entries)
        (forRange 0 t.entries.length (fun i newEntries => Slice.get t.entries i >>= fun e =>
          moveEntry (t.capacity * 2) fuel e newEntries) (List.replicate (t.capacity * 2) {})) := by
      refine Slice.forRange_get_within (Moved t (t.capacity * 2)) (moved_fresh t _)
        fun done e rest entries hsplit hm => ?_
      have hmem : e ∈ t.entries := by rw [hsplit]; exact List.mem_append_cons_self
      rcases h.described e hmem with hnone | ⟨s, p, hd⟩
      · have hlives : lives ((done ++ [e]).map (InternEntry.slot t.arena)) =
            lives (done.map (InternEntry.slot t.arena)) := by
          simp [lives, InternEntry.slot_eq_empty.mpr hnone, Slot.entry]
        simp only [moveEntry, hnone]
        exact .ret ⟨hm.length, hm.described, by rw [hlives]; exact hm.table⟩
      · exact hm.step h hcap hk (by omega) hsplit hd fuel
    obtain ⟨entries, hloop, hm⟩ := hmoved.total (by omega)
    rw [h.length] at hloop
    refine .inr ⟨{ t with entries, capacity := t.capacity * 2 }, ?_, ?_, rfl, ?_⟩
    · rw [internGrow, hcalloc, ret_bind, hloop]
      rfl
    · exact ⟨⟨k + 1, by omega, hk, hcap⟩, hm.length, hm.described,
        ⟨hm.table.probed, hm.table.entries.trans h.table.entries, hm.table.room⟩, h.count,
        by show t.count * 2 ≤ t.capacity * 2; omega⟩
    · show t.count * 2 < t.capacity * 2
      omega

end Grow

section Step
variable {known : List (List UInt8 × Ptr)} {t : InternTable} {m : Memory} {s : List UInt8}

/-- The pairs known after a call that answers `p` for `s`. -/
def record (known : List (List UInt8 × Ptr)) (s : List UInt8) (p : Ptr) :
    List (List UInt8 × Ptr) :=
  if (s, p) ∈ known then known else known ++ [(s, p)]

theorem mem_record {x : List UInt8 × Ptr} {p : Ptr} :
    x ∈ record known s p ↔ x ∈ known ∨ x = (s, p) := by
  unfold record
  split_ifs with h
  · exact ⟨.inl, fun hx => hx.elim id fun heq => heq ▸ h⟩
  · simp

theorem internBody_empty {idx : UInt32} {e : InternEntry} (he : t.entries[idx.toNat]? = some e)
    (hnone : e.str = none) : internBody m t s (fnv1a s) idx =
      if m.copy then .ret (.inr ({ t with
        entries := t.entries.set idx.toNat
          { str := some t.arena.blocks.length, length := s.length, hash := fnv1a s },
        count := t.count + 1, arena := ⟨t.arena.blocks ++ [s ++ [0]]⟩ }, t.arena.blocks.length))
      else .abort := by
  obtain ⟨hlt, -⟩ := List.getElem?_eq_some_iff.mp he
  rw [internBody, Slice.get_of_some he]
  simp only [ret_bind, hnone, arenaStrdup]
  cases m.copy with
  | false => rfl
  | true => simp [Slice.set_natCast hlt]

theorem internBody_used {idx : UInt32} {e : InternEntry} (he : t.entries[idx.toNat]? = some e)
    {s' : List UInt8} {p : Ptr} (hd : e.Describes t.arena s' p) :
    internBody m t s (fnv1a s) idx = if s' = s then .ret (.inr (t, p))
      else .ret (.inl ((idx + 1) &&& mask t.capacity)) := by
  rw [internBody, Slice.get_of_some he]
  simp only [ret_bind, hd.str, hd.matches_iff]
  rfl

/-- The table after a new string has been stored at the end of its walk. -/
theorem Inv.store (h : Inv known t) (hroom : t.count * 2 < t.capacity) {o : ℕ}
    (ho : o < t.capacity) (hempty : t.slots[path t.capacity (home s) o]? = some .empty)
    (hbefore : ∀ o' < o, t.slots[path t.capacity (home s) o']? ≠ some .empty)
    (hnew : ∀ x ∈ known, x.1 ≠ s) :
    Inv (known ++ [(s, t.arena.blocks.length)]) { t with
      entries := t.entries.set (path t.capacity (home s) o)
        { str := some t.arena.blocks.length, length := s.length, hash := fnv1a s },
      count := t.count + 1, arena := ⟨t.arena.blocks ++ [s ++ [0]]⟩ } := by
  obtain ⟨k, hk8, hk30, hcapacity⟩ := h.capacity
  have hd : ({ str := some t.arena.blocks.length, length := s.length, hash := fnv1a s } :
      InternEntry).Describes ⟨t.arena.blocks ++ [s ++ [0]]⟩ s t.arena.blocks.length :=
    ⟨rfl, rfl, rfl, List.getElem?_concat_length⟩
  refine ⟨⟨k, hk8, hk30, hcapacity⟩, (List.length_set).trans h.length, ?_, ?_, ?_, ?_⟩
  · intro e he
    rcases List.mem_or_eq_of_mem_set he with he | rfl
    · exact h.described.append _ e he
    · exact .inr ⟨s, _, hd⟩
  · have hins := h.table.insert ⟨fun _ => rfl, Eq.symm, Eq.trans⟩ (k := s) (o := o)
      (by rw [h.length_slots]; exact ho) (by rw [h.length_slots]; exact hempty)
      (by rw [h.length_slots]; exact hbefore) hnew t.arena.blocks.length
    rw [InternTable.slots, List.map_set, hd.slot, h.described.slots_append]
    rwa [h.length_slots] at hins
  · simp [h.count]
  · have heven : t.capacity = 2 * 2 ^ (k - 1) := by
      rw [hcapacity, ← Nat.pow_succ']
      congr 1
      omega
    show (t.count + 1) * 2 ≤ t.capacity
    omega

/-- A round of the probing loop at a slot that holds a string. -/
theorem Inv.round_live (h : Inv known t) {d : ℕ} {s' : List UInt8} {p : Ptr}
    (hlive : t.slots[path t.capacity (home s) d]? = some (.live s' p)) :
    internBody m t s (fnv1a s) (UInt32.ofNat (path t.capacity (home s) d)) =
      if s' = s then .ret (.inr (t, p))
      else .ret (.inl (UInt32.ofNat (path t.capacity (home s) (d + 1)))) := by
  obtain ⟨k, -, hk, hcapacity⟩ := h.capacity
  obtain ⟨e, he, hcases⟩ := h.entry (path_lt (by rw [hcapacity]; positivity) (home s) d)
  rw [InternTable.slots_getElem? he, Option.some.injEq] at hlive
  rcases hcases with hnone | ⟨s₁, p₁, hd⟩
  · rw [InternEntry.slot_eq_empty.mpr hnone] at hlive
    cases hlive
  · rw [hd.slot] at hlive
    cases hlive
    rw [← position_toNat hcapacity hk] at he
    rw [internBody_used he hd, position_succ hcapacity hk]

/-- A round at an empty slot. -/
theorem Inv.round_empty (h : Inv known t) {d : ℕ}
    (hempty : t.slots[path t.capacity (home s) d]? = some .empty) :
    internBody m t s (fnv1a s) (UInt32.ofNat (path t.capacity (home s) d)) =
      if m.copy then .ret (.inr ({ t with
        entries := t.entries.set (path t.capacity (home s) d)
          { str := some t.arena.blocks.length, length := s.length, hash := fnv1a s },
        count := t.count + 1, arena := ⟨t.arena.blocks ++ [s ++ [0]]⟩ }, t.arena.blocks.length))
      else .abort := by
  obtain ⟨k, -, hk, hcapacity⟩ := h.capacity
  obtain ⟨e, he, -⟩ := h.entry (path_lt (by rw [hcapacity]; positivity) (home s) d)
  rw [InternTable.slots_getElem? he, Option.some.injEq] at hempty
  rw [← position_toNat hcapacity hk] at he
  rw [internBody_empty he (InternEntry.slot_eq_empty.mp hempty), position_toNat hcapacity hk]

/-- Every walk ends, on the string or on an empty slot. -/
theorem Inv.exists_stop (h : Inv known t) (s : List UInt8) :
    ∃ o < t.capacity, FirstStop (Stops Eq s) t.slots (home s) o := by
  obtain ⟨k, -, -, hcapacity⟩ := h.capacity
  have hpos : 0 < t.capacity := by rw [hcapacity]; positivity
  rcases firstStop_or_none (Stops Eq s) t.slots (home s) with ⟨o, ho, hfirst⟩ | hnone
  · exact ⟨o, h.length_slots ▸ ho, hfirst⟩
  · have hhalf := h.half_empty
    exact absurd trivial (hnone .empty (empties_pos.mp (by omega)))

/-- The rounds before the end of a walk go on. -/
theorem Inv.round_passes (h : Inv known t) {o : ℕ}
    (hfirst : FirstStop (Stops Eq s) t.slots (home s) o) :
    ∀ d < o, internBody m t s (fnv1a s) (UInt32.ofNat (path t.capacity (home s) d)) =
      .ret (.inl (UInt32.ofNat (path t.capacity (home s) (d + 1)))) := by
  intro d hd
  obtain ⟨k, -, -, hcapacity⟩ := h.capacity
  have hlt : path t.capacity (home s) d < t.slots.length := by
    rw [h.length_slots]
    exact path_lt (by rw [hcapacity]; positivity) _ _
  have hpass := hfirst.2 d hd
  rw [h.length_slots] at hpass
  obtain ⟨slot, hslot⟩ : ∃ slot, t.slots[path t.capacity (home s) d]? = some slot :=
    ⟨_, List.getElem?_eq_getElem hlt⟩
  cases slot with
  | empty => exact absurd trivial (hpass _ hslot)
  | live s' p => exact (h.round_live hslot).trans (if_neg fun heq : s' = s => hpass _ hslot heq)
  | dead =>
    obtain ⟨e, he, heq⟩ := List.mem_map.mp (List.mem_of_getElem? hslot)
    rcases h.described e he with hnone | ⟨s₁, p₁, hdesc⟩
    · rw [InternEntry.slot_eq_empty.mpr hnone] at heq
      cases heq
    · rw [hdesc.slot] at heq
      cases heq

/-- The probing loop answers the known pointer, or stores the string under a new one. -/
theorem internLoop_spec (h : Inv known t) (hroom : t.count * 2 < t.capacity) {fuel : ℕ}
    (hfuel : 2 ^ 30 ≤ fuel) :
    loop (internBody m t s (fnv1a s)) fuel (fnv1a s &&& mask t.capacity) = .abort ∧
        m.copy = false ∨
      ∃ t' p, loop (internBody m t s (fnv1a s)) fuel (fnv1a s &&& mask t.capacity) =
        .ret (t', p) ∧ Inv (record known s p) t' := by
  obtain ⟨k, -, hk, hcapacity⟩ := h.capacity
  have hle : 2 ^ k ≤ 2 ^ 30 := Nat.pow_le_pow_right (by norm_num) hk
  obtain ⟨o, ho, hfirst⟩ := h.exists_stop s
  obtain ⟨rest, rfl⟩ : ∃ rest, fuel = rest + 1 + o := ⟨fuel - 1 - o, by omega⟩
  rw [position_zero hcapacity hk, show (fnv1a s).toNat = home s from rfl,
    loop_steps (fun d => UInt32.ofNat (path t.capacity (home s) d)) (h.round_passes hfirst)]
  obtain ⟨slot, hslot, hstop⟩ := hfirst.1
  have hat : t.slots[path t.capacity (home s) o]? = some slot := by rwa [h.length_slots] at hslot
  cases slot with
  | empty =>
    have hnew : ∀ x ∈ known, x.1 ≠ s := by
      rintro ⟨s', p⟩ hmem rfl
      exact not_maps_of_firstStop_empty h.table.probed (fun h => congrArg home h)
        (by rw [h.length_slots]; exact ho) hfirst hslot p (h.maps_iff.mpr hmem)
    have hbefore : ∀ o' < o, t.slots[path t.capacity (home s) o']? ≠ some .empty := by
      intro o' ho' hs
      exact hfirst.2 o' ho' .empty (by rw [h.length_slots]; exact hs) trivial
    have hround := h.round_empty (m := m) hat
    cases hcopy : m.copy with
    | false =>
      rw [hcopy] at hround
      exact .inl ⟨by rw [loop_succ, hround]; rfl, rfl⟩
    | true =>
      rw [hcopy] at hround
      refine .inr ⟨_, _, loop_break hround rest, ?_⟩
      rw [record, if_neg fun hmem => hnew _ hmem rfl]
      exact h.store hroom ho hat hbefore hnew
  | live s' p =>
    obtain rfl : s' = s := hstop
    refine .inr ⟨t, p, loop_break ((h.round_live hat).trans (if_pos rfl)) rest, ?_⟩
    rw [record, if_pos (h.maps_iff.mp ⟨_, _, hat, rfl⟩)]
    exact h
  | dead => exact hstop.elim

/-- One call. -/
theorem intern_spec (h : Inv known t) {fuel : ℕ} (hfuel : 2 ^ 30 ≤ fuel) :
    intern m fuel t s = .abort ∧ (m.table = false ∨ m.copy = false ∨ 2 ^ 29 ≤ known.length) ∨
      ∃ t' p, intern m fuel t s = .ret (t', p) ∧ Inv (record known s p) t' := by
  by_cases hfull : t.count * 2 ≥ t.capacity
  · rw [intern, if_pos hfull]
    rcases internGrow_spec h m hfuel hfull with ⟨habort, hwhy⟩ | ⟨t₁, hgrow, h₁, -, hroom⟩
    · refine .inl ⟨by rw [habort]; rfl, hwhy.imp_right fun hcount => .inr ?_⟩
      rwa [← h.count]
    · rw [hgrow, ret_bind]
      exact (internLoop_spec h₁ hroom hfuel).imp_left fun hab => ⟨hab.1, .inr (.inl hab.2)⟩
  · rw [intern, if_neg hfull, ret_bind]
    exact (internLoop_spec h (by omega) hfuel).imp_left fun hab => ⟨hab.1, .inr (.inl hab.2)⟩

end Step

section Run

/-- What the owner of an arena and its table does: it interns, or it allocates for itself. -/
inductive Call where
  | intern (m : Memory) (s : List UInt8)
  | alloc (block : List UInt8)

/-- The answers of a sequence of calls, each with the string it is for. -/
def run (fuel : ℕ) : List Call → InternTable → Exec (InternTable × List (List UInt8 × Ptr))
  | [], t => .ret (t, [])
  | .intern m s :: calls, t => do
    let (t, p) ← intern m fuel t s
    let (t, answers) ← run fuel calls t
    return (t, (s, p) :: answers)
  | .alloc block :: calls, t =>
    run fuel calls { t with arena := ⟨t.arena.blocks ++ [block]⟩ }

def session (fuel : ℕ) (m : Memory) (a : Arena) (calls : List Call) :
    Exec (InternTable × List (List UInt8 × Ptr)) :=
  internInit m a >>= run fuel calls

def Call.strings : Call → List (List UInt8)
  | .intern _ s => [s]
  | .alloc _ => []

def Call.Refused : Call → Prop
  | .intern m _ => m.table = false ∨ m.copy = false
  | .alloc _ => False

variable {known : List (List UInt8 × Ptr)} {t : InternTable}

theorem Inv.alloc (h : Inv known t) (block : List UInt8) :
    Inv known { t with arena := ⟨t.arena.blocks ++ [block]⟩ } := by
  refine ⟨h.capacity, h.length, h.described.append _, ?_, h.count, h.load⟩
  rw [InternTable.slots, h.described.slots_append]
  exact h.table

theorem internInit_spec (m : Memory) (a : Arena) :
    internInit m a = .abort ∧ m.table = false ∨
      ∃ t, internInit m a = .ret t ∧ Inv [] t := by
  rcases calloc_cases m 256 with ⟨hcalloc, hwhy⟩ | ⟨hcalloc, -⟩
  · exact .inl ⟨by rw [internInit, hcalloc]; rfl, hwhy.resolve_right (by omega)⟩
  · refine .inr ⟨_, by rw [internInit, hcalloc]; rfl, ⟨8, le_rfl, by omega, rfl⟩,
      List.length_replicate, fun e he => .inl ?_, ?_, rfl, Nat.zero_le _⟩
    · rw [List.eq_of_mem_replicate he]
    · rw [InternTable.slots, List.map_replicate]
      exact refilled_replicate _ _ _

/-- A whole run: it is refused memory, or every call is answered from the pairs known at its
end, whose strings are those given. -/
theorem run_spec {fuel : ℕ} (hfuel : 2 ^ 30 ≤ fuel) (calls : List Call) (h : Inv known t) :
    run fuel calls t = .abort ∧ ((∃ c ∈ calls, c.Refused) ∨
        2 ^ 29 ≤ (known.map Prod.fst ++ calls.flatMap Call.strings).toFinset.card) ∨
      ∃ t' answers known', run fuel calls t = .ret (t', answers) ∧
        answers.map Prod.fst = calls.flatMap Call.strings ∧ Inv known' t' ∧
        ∀ x, x ∈ known' ↔ x ∈ known ∨ x ∈ answers := by
  induction calls generalizing t known with
  | nil => exact .inr ⟨t, [], known, rfl, rfl, h, fun x => by simp⟩
  | cons c calls ih =>
    cases c with
    | intern m s =>
      rcases intern_spec (m := m) (s := s) h hfuel with ⟨habort, hwhy⟩ | ⟨t₁, p, hcall, h₁⟩
      · refine .inl ⟨by rw [run, habort]; rfl, ?_⟩
        rcases hwhy with htable | hcopy | hcount
        · exact .inl ⟨_, List.mem_cons_self, .inl htable⟩
        · exact .inl ⟨_, List.mem_cons_self, .inr hcopy⟩
        · refine .inr (hcount.trans ?_)
          rw [← List.length_map, ← List.toFinset_card_of_nodup h.nodup, List.toFinset_append]
          exact Finset.card_le_card Finset.subset_union_left
      · have hkeys : (record known s p).map Prod.fst ++ calls.flatMap Call.strings ⊆
            known.map Prod.fst ++ (Call.intern m s :: calls).flatMap Call.strings := by
          intro x hx
          simp only [List.mem_append, List.mem_map, mem_record, List.flatMap_cons, Call.strings,
            List.mem_singleton] at hx ⊢
          rcases hx with ⟨y, hy | rfl, rfl⟩ | hx
          · exact .inl ⟨y, hy, rfl⟩
          · exact .inr (.inl rfl)
          · exact .inr (.inr hx)
        rcases ih h₁ with ⟨habort, hwhy⟩ | ⟨t', answers, known', hrun, hfst, h', hmem⟩
        · refine .inl ⟨by simp only [run, hcall, ret_bind, habort, abort_bind], ?_⟩
          rcases hwhy with ⟨c, hc, hrefused⟩ | hcount
          · exact .inl ⟨c, List.mem_cons_of_mem _ hc, hrefused⟩
          · refine .inr (hcount.trans (Finset.card_le_card fun x hx => ?_))
            exact List.mem_toFinset.mpr (hkeys (List.mem_toFinset.mp hx))
        · refine .inr ⟨t', (s, p) :: answers, known', ?_, ?_, h', fun x => ?_⟩
          · simp only [run, hcall, ret_bind, hrun, pure_eq]
          · rw [List.map_cons, hfst]
            rfl
          · rw [hmem, mem_record, List.mem_cons, or_assoc]
    | alloc block =>
      rcases ih (h.alloc block) with ⟨habort, hwhy⟩ | hret
      · refine .inl ⟨habort, hwhy.imp_left ?_⟩
        rintro ⟨c, hc, hrefused⟩
        exact ⟨c, List.mem_cons_of_mem _ hc, hrefused⟩
      · exact .inr hret

/-- Every sequence of calls on a fresh table ends. Unless a request for memory is refused, or the
table would outgrow `int`, two answers are the same pointer exactly where their strings are the
same bytes, and the table holds each string in one slot on the walk from its hash, with at
least half of the slots empty. -/
theorem intern_canonical {fuel : ℕ} (hfuel : 2 ^ 30 ≤ fuel) (m : Memory) (a : Arena)
    (calls : List Call) :
    session fuel m a calls = .abort ∧ (m.table = false ∨ (∃ c ∈ calls, c.Refused) ∨
        2 ^ 29 ≤ (calls.flatMap Call.strings).toFinset.card) ∨
      ∃ t answers, session fuel m a calls = .ret (t, answers) ∧
        answers.map Prod.fst = calls.flatMap Call.strings ∧
        (∀ x ∈ answers, ∀ y ∈ answers, x.2 = y.2 ↔ x.1 = y.1) ∧
        (∀ x ∈ answers, t.arena.blocks[x.2]? = some (x.1 ++ [0])) ∧
        (∀ s p, Maps Eq t.slots s p ↔ (s, p) ∈ answers) ∧ WellProbed Eq home t.slots ∧
        t.slots.length = t.capacity ∧ t.capacity ≤ 2 * empties t.slots := by
  rcases internInit_spec m a with ⟨habort, hwhy⟩ | ⟨t₀, hinit, h₀⟩
  · exact .inl ⟨by rw [session, habort]; rfl, .inl hwhy⟩
  · rw [session, hinit, ret_bind]
    rcases run_spec hfuel calls h₀ with ⟨habort, hwhy⟩ | ⟨t, answers, known, hrun, hfst, h, hmem⟩
    · exact .inl ⟨habort, .inr hwhy⟩
    · have hknown : ∀ x, x ∈ known ↔ x ∈ answers := fun x => by rw [hmem]; simp
      refine .inr ⟨t, answers, hrun, hfst, fun x hx y hy => ?_, fun x hx => ?_, fun s p => ?_,
        h.table.probed, h.length_slots, h.half_empty⟩
      · exact h.canonical ((hknown x).mpr hx) ((hknown y).mpr hy)
      · exact h.copy ((hknown x).mpr hx)
      · rw [h.maps_iff, hknown]

theorem intern_canonical_twice :
    ∃ t p q r, session (2 ^ 30) ⟨true, true⟩ ⟨[]⟩ [.intern ⟨true, true⟩ [102, 99],
        .intern ⟨true, true⟩ [102], .intern ⟨true, true⟩ [102, 99]] =
      .ret (t, [([102, 99], p), ([102], q), ([102, 99], r)]) ∧ p = r ∧ p ≠ q := by
  rcases intern_canonical le_rfl ⟨true, true⟩ ⟨[]⟩ [.intern ⟨true, true⟩ [102, 99],
    .intern ⟨true, true⟩ [102], .intern ⟨true, true⟩ [102, 99]] with
    ⟨-, hwhy⟩ | ⟨t, answers, hrun, hfst, hsame, -⟩
  · have hcard : ([[102, 99], [102], [102, 99]] : List (List UInt8)).toFinset.card ≤ 3 :=
      List.toFinset_card_le _
    rcases hwhy with htable | ⟨c, hc, hrefused⟩ | hcount
    · cases htable
    · simp only [List.mem_cons, List.not_mem_nil, or_false] at hc
      rcases hc with rfl | rfl | rfl <;> exact absurd hrefused (by simp [Call.Refused])
    · exact absurd (hcount.trans hcard) (by norm_num)
  · match answers, hfst with
    | [(_, p), (_, q), (_, r)], rfl =>
      refine ⟨t, p, q, r, hrun, ?_, fun heq => ?_⟩
      · exact (hsame ([102, 99], p) (by simp) ([102, 99], r) (by simp)).mpr rfl
      · exact absurd ((hsame ([102, 99], p) (by simp) ([102], q) (by simp)).mp heq) (by simp)

end Run

end FcLang.Intern
