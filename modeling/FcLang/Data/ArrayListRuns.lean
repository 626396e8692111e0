import FcLang.Data.ArrayList
import FcLang.Lib.Runs

/-!
# When array_list keeps its length in bounds

Every call that returns keeps `0 <= len <= data.len`, whatever its index, save
one: a removal from an empty list, which leaves the length at `-1`.
-/

namespace FcLang.Data.ArrayList
open Exec
variable {α : Type}

inductive Request (α : Type) where
  | add (value : α)
  | update (index : ℤ) (value : α)
  | insert (index : ℤ) (value : α)
  | removeAt (index : ℤ)
  | pop
  | clear
  | retain (pred : α → Bool)
  | apply (f : α → α)
  | sort (cmp : α → α → ℤ)
  | reverse

/-- Nothing is removed from an empty list, inside its buffer. -/
def Safe (l : ArrayList α) : Request α → Prop
  | .removeAt index => 0 < l.len ∨ index < 0 ∨ l.data.length ≤ index
  | _ => True

/-- The list after one request. -/
def serve [Inhabited α] (fuel : ℕ) (l : ArrayList α) : Request α → Exec (ArrayList α)
  | .add value => add l value
  | .update index value => update l index value
  | .insert index value => insert fuel l index value
  | .removeAt index => do
    let (_, l) ← removeAt fuel l index
    .ret l
  | .pop => do
    let (_, l) ← pop l
    .ret l
  | .clear => .ret (clear l)
  | .retain pred => retain l pred
  | .apply f => apply l f
  | .sort cmp => sort fuel l cmp
  | .reverse => reverse fuel l

section Effects
variable {l l' : ArrayList α}

theorem grow_effect [Inhabited α] (h : grow l = .ret l') :
    l'.len = l.len ∧ l'.data.length = l.data.length * 2 := by
  obtain ⟨active, -, h⟩ := bind_eq_ret.mp h
  obtain ⟨newData, hcopy, h⟩ := bind_eq_ret.mp h
  cases h
  refine ⟨rfl, ?_⟩
  apply forRange_partial (fun data => data.length = l.data.length * 2) _ _ hcopy
  · intro i data data' hlen hbody
    obtain ⟨e, -, hset⟩ := bind_eq_ret.mp hbody
    rw [(Slice.set_length hset).1, hlen]
  · rw [allocData, List.length_replicate]
    omega

/-- After the capacity check there is room for one more element. -/
theorem room_effect [Inhabited α] (hcap : 0 < l.data.length) (hv : l.Valid)
    (h : growIfFull l = .ret l') : l'.len = l.len ∧ l.len < l'.data.length := by
  obtain ⟨h0, hle⟩ := hv
  rw [growIfFull] at h
  by_cases hfull : l.len = l.data.length
  · rw [if_pos hfull] at h
    obtain ⟨hlen, hdata⟩ := grow_effect h
    exact ⟨hlen, by omega⟩
  · rw [if_neg hfull] at h
    cases h
    exact ⟨rfl, by omega⟩

theorem insert_loop_length {index : ℤ} {fuel : ℕ} {data data' : List α} {len : ℤ}
    (h : loop (insertBody index) fuel (data, len) = .ret data') : data'.length = data.length := by
  apply loop_partial (fun r : List α × ℤ => r.1.length = data.length)
    (fun t => t.length = data.length) _ rfl h
  rintro ⟨t, i⟩ c ht hbody
  rw [insertBody] at hbody
  by_cases hle : i ≤ index
  · rw [if_pos hle] at hbody
    cases hbody
    exact ht
  · rw [if_neg hle] at hbody
    obtain ⟨x, -, hbody⟩ := bind_eq_ret.mp hbody
    obtain ⟨u, hset, hret⟩ := bind_eq_ret.mp hbody
    cases hret
    exact (Slice.set_length hset).1.trans ht

theorem removeAt_loop_length {fuel : ℕ} {data data' : List α} {len index : ℤ}
    (h : loop (removeAtBody len) fuel (data, index) = .ret data') :
    data'.length = data.length := by
  apply loop_partial (fun r : List α × ℤ => r.1.length = data.length)
    (fun t => t.length = data.length) _ rfl h
  rintro ⟨t, i⟩ c ht hbody
  rw [removeAtBody] at hbody
  by_cases hle : i ≥ len - 1
  · rw [if_pos hle] at hbody
    cases hbody
    exact ht
  · rw [if_neg hle] at hbody
    obtain ⟨x, -, hbody⟩ := bind_eq_ret.mp hbody
    obtain ⟨u, hset, hret⟩ := bind_eq_ret.mp hbody
    cases hret
    exact (Slice.set_length hset).1.trans ht

theorem add_effect [Inhabited α] (hcap : 0 < l.data.length) (hv : l.Valid) {value : α}
    (h : add l value = .ret l') : 0 < l'.data.length ∧ l'.Valid := by
  obtain ⟨l₁, hroom, h⟩ := bind_eq_ret.mp h
  obtain ⟨data, hset, h⟩ := bind_eq_ret.mp h
  cases h
  obtain ⟨hlen, hlt⟩ := room_effect hcap hv hroom
  obtain ⟨hsame, -⟩ := Slice.set_length hset
  obtain ⟨h0, -⟩ := hv
  refine ⟨?_, ?_, ?_⟩
  · simp only
    omega
  · simp only
    omega
  · simp only
    omega

theorem insert_effect [Inhabited α] (hcap : 0 < l.data.length) (hv : l.Valid) {fuel : ℕ}
    {index : ℤ} {value : α} (h : insert fuel l index value = .ret l') :
    0 < l'.data.length ∧ l'.Valid := by
  obtain ⟨l₁, hroom, h⟩ := bind_eq_ret.mp h
  obtain ⟨data₁, hloop, h⟩ := bind_eq_ret.mp h
  obtain ⟨data, hset, h⟩ := bind_eq_ret.mp h
  cases h
  obtain ⟨hlen, hlt⟩ := room_effect hcap hv hroom
  have hsame := (Slice.set_length hset).1.trans (insert_loop_length hloop)
  obtain ⟨h0, -⟩ := hv
  refine ⟨?_, ?_, ?_⟩
  · simp only
    omega
  · simp only
    omega
  · simp only
    omega

theorem removeAt_effect {fuel : ℕ} {index : ℤ} {value : α}
    (h : removeAt fuel l index = .ret (value, l')) :
    l'.data.length = l.data.length ∧ l'.len = l.len - 1 ∧ 0 ≤ index ∧ index < l.data.length := by
  obtain ⟨x, hget, h⟩ := bind_eq_ret.mp h
  obtain ⟨data, hloop, h⟩ := bind_eq_ret.mp h
  cases h
  exact ⟨removeAt_loop_length hloop, rfl, Slice.get_lt_length hget⟩

theorem pop_effect {value : α} (h : pop l = .ret (value, l')) :
    l'.data = l.data ∧ l'.len = l.len - 1 ∧ 0 < l.len := by
  obtain ⟨u, hpos, h⟩ := bind_eq_ret.mp h
  obtain ⟨x, -, h⟩ := bind_eq_ret.mp h
  cases h
  exact ⟨rfl, rfl, require_eq_ret.mp hpos⟩

theorem moveDown_ret {data : List α} {i j : ℕ} (hi : i < data.length) (hj : j ≤ i) :
    ∃ data', moveDown data i j = .ret data' ∧ data'.length = data.length := by
  rw [moveDown]
  by_cases hij : (j : ℤ) ≠ i
  · rw [if_pos hij, Slice.get_natCast hi, ret_bind, Slice.set_natCast (by omega)]
    exact ⟨_, rfl, List.length_set⟩
  · rw [if_neg hij]
    exact ⟨data, rfl, rfl⟩

theorem retain_effect (hv : l.Valid) {pred : α → Bool} (h : retain l pred = .ret l') :
    l'.data.length = l.data.length ∧ 0 ≤ l'.len ∧ l'.len ≤ l.len := by
  obtain ⟨h0, hle⟩ := hv
  have hrun : ∃ r, forRange 0 l.len (retainBody pred) (l.data, 0) = .ret r ∧
      r.1.length = l.data.length ∧ 0 ≤ r.2 ∧ r.2 ≤ l.len := by
    apply forRange_total
      (fun i (r : List α × ℤ) => r.1.length = l.data.length ∧ 0 ≤ r.2 ∧ r.2 ≤ i) h0
    · exact ⟨rfl, le_rfl, le_rfl⟩
    · rintro i ⟨data, j⟩ hi hlt ⟨hlen, hj0, hji⟩
      simp only at hlen hj0 hji
      obtain ⟨i, rfl⟩ := Int.eq_ofNat_of_zero_le hi
      obtain ⟨j, rfl⟩ := Int.eq_ofNat_of_zero_le hj0
      have hid : i < data.length := by omega
      rw [retainBody, Slice.get_natCast hid, ret_bind]
      by_cases hp : pred data[i] = true
      · obtain ⟨data', hmove, hlen'⟩ := moveDown_ret hid (by omega : j ≤ i)
        rw [if_pos hp, hmove, ret_bind]
        exact ⟨_, rfl, by simp only; omega, by simp only; omega, by simp only; omega⟩
      · rw [if_neg hp]
        exact ⟨_, rfl, hlen, hj0, by simp only; omega⟩
  obtain ⟨r, hr, hpost⟩ := hrun
  rw [retain, hr, ret_bind] at h
  cases h
  exact hpost

theorem apply_effect {f : α → α} (h : apply l f = .ret l') :
    l'.len = l.len ∧ l'.data.length = l.data.length := by
  obtain ⟨data, hloop, h⟩ := bind_eq_ret.mp h
  cases h
  refine ⟨rfl, ?_⟩
  apply forRange_partial (fun t => t.length = l.data.length) _ rfl hloop
  intro i t t' ht hbody
  obtain ⟨x, -, hset⟩ := bind_eq_ret.mp hbody
  exact (Slice.set_length hset).1.trans ht

theorem onActive_effect {f : List α → Exec (List α)}
    (hf : ∀ s s', f s = .ret s' → s'.length = s.length) (h : onActive l f = .ret l') :
    l'.len = l.len ∧ l'.data.length = l.data.length := by
  obtain ⟨active, hrange, h⟩ := bind_eq_ret.mp h
  obtain ⟨active', hf', h⟩ := bind_eq_ret.mp h
  cases h
  refine ⟨rfl, ?_⟩
  obtain ⟨⟨-, h0, hle⟩, rfl⟩ := Slice.range_eq_ret.mp hrange
  have hlen := hf _ _ hf'
  simp only [Int.toNat_zero, List.drop_zero, List.length_take, Int.sub_zero] at hlen
  simp only [List.length_append, List.length_drop, hlen]
  omega

theorem valid_of_eq (hcap : 0 < l.data.length) (hv : l.Valid)
    (h : l'.len = l.len ∧ l'.data.length = l.data.length) :
    0 < l'.data.length ∧ l'.Valid := by
  rw [Valid, h.1, h.2]
  exact ⟨hcap, hv⟩

end Effects

section Runs
variable [Inhabited α] {l l' : ArrayList α}

theorem serve_kept (hcap : 0 < l.data.length) (hv : l.Valid) {c : Request α} {fuel : ℕ}
    (h : serve fuel l c = .ret l') : 0 < l'.data.length ∧ (l'.Valid ↔ l.Safe c) := by
  have hkept : 0 < l'.data.length ∧ l'.Valid → l.Safe c →
      0 < l'.data.length ∧ (l'.Valid ↔ l.Safe c) := fun h hs => ⟨h.1, iff_of_true h.2 hs⟩
  cases c with
  | add value => exact hkept (add_effect hcap hv h) trivial
  | update index value =>
    obtain ⟨data, hset, hret⟩ := bind_eq_ret.mp h
    cases hret
    exact hkept (valid_of_eq hcap hv ⟨rfl, (Slice.set_length hset).1⟩) trivial
  | insert index value => exact hkept (insert_effect hcap hv h) trivial
  | removeAt index =>
    obtain ⟨⟨value, l₁⟩, hrem, hret⟩ := bind_eq_ret.mp h
    cases hret
    obtain ⟨hdata, hlen, hi0, hi⟩ := removeAt_effect hrem
    obtain ⟨h0, hle⟩ := hv
    simp only [Valid, Safe, hdata, hlen]
    omega
  | pop =>
    obtain ⟨⟨value, l₁⟩, hpop, hret⟩ := bind_eq_ret.mp h
    cases hret
    obtain ⟨hdata, hlen, hpos⟩ := pop_effect hpop
    obtain ⟨h0, hle⟩ := hv
    refine hkept ⟨by rw [hdata]; exact hcap, ?_, ?_⟩ trivial
    · omega
    · rw [hdata]
      omega
  | clear =>
    cases h
    exact hkept ⟨hcap, le_rfl, by simp [clear]⟩ trivial
  | retain pred =>
    obtain ⟨hdata, h0, hle⟩ := retain_effect hv h
    exact hkept ⟨by rw [hdata]; exact hcap, h0, by rw [hdata]; exact hle.trans hv.2⟩ trivial
  | apply f => exact hkept (valid_of_eq hcap hv (apply_effect h)) trivial
  | sort cmp =>
    exact hkept (valid_of_eq hcap hv (onActive_effect (fun s s' hs =>
      ((Slices.sort_within cmp fuel s).post hs).1.length_eq) h)) trivial
  | reverse =>
    exact hkept (valid_of_eq hcap hv (onActive_effect (fun s s' hs => by
      rw [(Slices.reverse_within fuel s).post hs, List.length_reverse]) h)) trivial

/-- A removal from an empty list returns. -/
theorem removeAt_empty {index : ℤ} (h : ¬l.Safe (.removeAt index)) :
    ∃ l', serve 1 l (.removeAt index) = .ret l' := by
  simp only [Safe, not_or, not_lt, not_le] at h
  obtain ⟨hlen, h0, hlt⟩ := h
  obtain ⟨i, rfl⟩ := Int.eq_ofNat_of_zero_le h0
  have hi : i < l.data.length := by omega
  have hstop : (i : ℤ) ≥ l.len - 1 := by omega
  have hloop : loop (removeAtBody l.len) 1 (l.data, (i : ℤ)) = .ret l.data :=
    loop_break (by rw [removeAtBody, if_pos hstop]) 0
  refine ⟨{ data := l.data, len := l.len - 1 }, ?_⟩
  simp only [serve, removeAt, Slice.get_natCast hi, ret_bind, hloop]

/-- The lists that `make` and `makeWithCapacity` create. -/
def Made (l : ArrayList α) : Prop := l = make ∨ ∃ cap, l = makeWithCapacity cap

theorem Made.valid (h : Made l) : 0 < l.data.length ∧ l.Valid := by
  rcases h with rfl | ⟨cap, rfl⟩
  · exact ⟨by simp [make, allocData], le_rfl, by simp [make]⟩
  · refine ⟨?_, le_rfl, by simp [makeWithCapacity]⟩
    rw [makeWithCapacity, allocData, List.length_replicate]
    split_ifs
    · decide
    · omega

/-- The length of a list stays in bounds throughout a run exactly if nothing is ever removed from
it while it is empty. -/
theorem keeps_valid_iff (hl : Made l) (requests : List (Request α)) :
    Runs.Keeps serve Valid l requests ↔ Runs.MadeWhen serve Safe l requests := by
  apply Runs.throughout_iff (I := fun l : ArrayList α => 0 < l.data.length)
  · exact fun _ _ _ _ => trivial
  · exact fun l c fuel l' hcap hv h => serve_kept hcap hv h
  · intro l c hcap hv hunsafe
    cases c with
    | removeAt index => exact ⟨1, removeAt_empty hunsafe⟩
    | _ => exact absurd trivial hunsafe
  · exact hl.valid.1
  · exact hl.valid.2

theorem keeps_valid_once :
    Runs.Keeps serve Valid (make : ArrayList ℤ) [.add 5, .clear] :=
  (keeps_valid_iff (.inl rfl) _).mpr
    ⟨trivial, fun _ _ _ => ⟨trivial, trivial, fun _ _ _ => ⟨trivial, trivial⟩⟩⟩

/-- `remove_at(l, 0)` on a new list returns and leaves the length at `-1`. -/
theorem remove_from_empty : ¬Runs.Keeps serve Valid (make : ArrayList ℤ) [.removeAt 0] := by
  intro h
  have hvalid : (⟨List.replicate 8 0, -1⟩ : ArrayList ℤ).Valid := (h.2 1 _ rfl).1
  exact absurd hvalid.1 (by decide)

end Runs
end FcLang.Data.ArrayList
