import FcLang.Lib.Rearrange

/-!
# slice: sorting and reversing in place

Quicksort with the last element of the range as its pivot. For every comparison
it ends, stays inside its range and permutes it; for a consistent comparison the
result is ascending.
-/

namespace FcLang.Data.Slices
open Exec Slice
variable {α : Type}

def partitionBody (cmp : α → α → ℤ) (pivot : α) (j : ℤ) : List α × ℤ → Exec (List α × ℤ)
  | (s, i) => do
    let x ← get s j
    if cmp x pivot < 0 then do
      let s ← swap s i j
      .ret (s, i + 1)
    else .ret (s, i)

def sortRange (cmp : α → α → ℤ) : ℕ → List α → ℤ → ℤ → Exec (List α)
  | 0, _, _, _ => .timeout
  | fuel + 1, s, lo, hi =>
    if lo ≥ hi then .ret s
    else do
      let pivot ← get s hi
      let (s, i) ← forRange lo hi (partitionBody cmp pivot) (s, lo)
      let s ← swap s i hi
      let s ← sortRange cmp fuel s lo (i - 1)
      sortRange cmp fuel s (i + 1) hi

def sort (fuel : ℕ) (s : List α) (cmp : α → α → ℤ) : Exec (List α) :=
  if (s.length : ℤ) > 1 then sortRange cmp fuel s 0 (s.length - 1) else .ret s

def reverseBody : List α × ℤ × ℤ → Exec ((List α × ℤ × ℤ) ⊕ List α)
  | (s, lo, hi) =>
    if lo ≥ hi then .ret (.inr s)
    else do
      let s ← swap s lo hi
      .ret (.inl (s, lo + 1, hi - 1))

def reverse (fuel : ℕ) (s : List α) : Exec (List α) :=
  loop reverseBody fuel (s, 0, s.length - 1)

/-- `cmp` is negative, zero or positive as its arguments are ordered by a total preorder. -/
structure Consistent (cmp : α → α → ℤ) : Prop where
  neg_iff : ∀ a b, cmp a b < 0 ↔ 0 < cmp b a
  trans : ∀ a b c, cmp a b ≤ 0 → cmp b c ≤ 0 → cmp a c ≤ 0

/-- The elements from `lo` to `hi` ascend. -/
def AscendingOn (cmp : α → α → ℤ) (lo hi : ℤ) (s : List α) : Prop :=
  ∀ (a b : ℕ) (x y : α), lo ≤ a → a < b → (b : ℤ) ≤ hi → s[a]? = some x → s[b]? = some y →
    cmp x y ≤ 0

section Partition
variable {cmp : α → α → ℤ} {pivot : α} {lo hi j : ℤ}

/-- The elements before position `i` are below the pivot, those from `i` up to `j` are not. -/
structure Partitioned (cmp : α → α → ℤ) (pivot : α) (lo j : ℤ) (r : List α × ℤ) : Prop where
  lo_le : lo ≤ r.2
  le_j : r.2 ≤ j
  below : AllOn (fun x => cmp x pivot < 0) lo (r.2 - 1) r.1
  above : AllOn (fun x => ¬cmp x pivot < 0) r.2 (j - 1) r.1

theorem partition_step (h0 : 0 ≤ lo) (hjlo : lo ≤ j) (hj : j < hi) {s : List α} {r : List α × ℤ}
    (hhi : hi < s.length) (hr : Rearranged lo (hi - 1) s r.1) (hp : Partitioned cmp pivot lo j r) :
    ∃ r', partitionBody cmp pivot j r = .ret r' ∧ Rearranged lo (hi - 1) s r'.1 ∧
      Partitioned cmp pivot lo (j + 1) r' := by
  obtain ⟨t, i⟩ := r
  obtain ⟨hilo, hij, hbelow, habove⟩ := hp
  have hlen : t.length = s.length := hr.length_eq
  obtain ⟨jn, rfl⟩ := Int.eq_ofNat_of_zero_le (by omega : 0 ≤ j)
  obtain ⟨k, hk⟩ := Int.eq_ofNat_of_zero_le (by simp only at hilo; omega : 0 ≤ i)
  subst hk
  simp only at hilo hij hbelow habove hr
  have hjt : jn < t.length := by omega
  have hkt : k < t.length := by omega
  have hget : t[jn]? = some t[jn] := List.getElem?_eq_getElem hjt
  simp only [partitionBody, get_natCast hjt, ret_bind]
  by_cases hlt : cmp t[jn] pivot < 0
  · rw [if_pos hlt, swap_ret hkt hjt, ret_bind]
    refine ⟨_, rfl, hr.trans (rearranged_swap hkt hjt (by omega) (by omega) (by omega) (by omega)),
      by simp only; omega, by simp only; omega, ?_, ?_⟩
    · intro m x hm hm' hx
      rw [swap_getElem? hkt hjt] at hx
      split_ifs at hx with hmj hmk
      · obtain rfl : k = jn := by simp only at hm'; omega
        rw [hget] at hx
        cases hx
        exact hlt
      · rw [hget] at hx
        cases hx
        exact hlt
      · exact hbelow m x hm (by simp only at hm'; omega) hx
    · intro m x hm hm' hx
      simp only at hm
      rw [swap_getElem? hkt hjt, if_neg (by omega : m ≠ k)] at hx
      split_ifs at hx with hmj
      · exact habove k x le_rfl (by omega) hx
      · exact habove m x (by omega) (by omega) hx
  · rw [if_neg hlt]
    refine ⟨_, rfl, hr, hilo, by simp only; omega, hbelow, ?_⟩
    intro m x hm hm' hx
    by_cases hmj : m = jn
    · subst hmj
      rw [hget] at hx
      cases hx
      exact hlt
    · exact habove m x hm (by omega) hx

theorem partition_total (cmp : α → α → ℤ) (pivot : α) (h0 : 0 ≤ lo) (hlh : lo ≤ hi) {s : List α} (hhi : hi < s.length) :
    ∃ r, forRange lo hi (partitionBody cmp pivot) (s, lo) = .ret r ∧
      Rearranged lo (hi - 1) s r.1 ∧ Partitioned cmp pivot lo hi r := by
  apply forRange_total
    (fun j r => Rearranged lo (hi - 1) s r.1 ∧ Partitioned cmp pivot lo j r) hlh
  · refine ⟨.refl _ _ _, le_rfl, le_rfl, ?_, ?_⟩
    · intro m x hm hm'
      simp only at hm'
      omega
    · intro m x hm hm'
      simp only at hm
      omega
  · exact fun j r hlo hj hr => partition_step h0 hlo hj hhi hr.1 hr.2

end Partition

section Sorting
variable {cmp : α → α → ℤ} {lo hi : ℤ} {s : List α}

/-- Two ascending parts with the pivot between them ascend as a whole. -/
theorem ascendingOn_join (hcmp : Consistent cmp) {i : ℕ} {pivot : α} (hpivot : s[i]? = some pivot)
    (hbelow : AllOn (fun x => cmp x pivot < 0) lo (i - 1) s)
    (habove : AllOn (fun x => ¬cmp x pivot < 0) (i + 1) hi s)
    (hleft : AscendingOn cmp lo (i - 1) s) (hright : AscendingOn cmp (i + 1) hi s) :
    AscendingOn cmp lo hi s := by
  intro a b x y ha hab hb hx hy
  have hxp : a < i → cmp x pivot ≤ 0 := fun h => (hbelow a x ha (by omega) hx).le
  have hpy : i < b → cmp pivot y ≤ 0 := fun h => by
    have hny : ¬cmp y pivot < 0 := habove b y (by omega) hb hy
    rw [hcmp.neg_iff] at hny
    omega
  rcases lt_trichotomy a i with hai | rfl | hia
  · rcases lt_trichotomy b i with hbi | rfl | hib
    · exact hleft a b x y ha hab (by omega) hx hy
    · rw [hpivot] at hy
      cases hy
      exact hxp hai
    · exact hcmp.trans x pivot y (hxp hai) (hpy hib)
  · rw [hpivot] at hx
    cases hx
    exact hpy hab
  · exact hright a b x y (by omega) hab hb hx hy

/-- Swapping the pivot to the end of the lower part puts it between the parts. -/
theorem pivot_placed {i h : ℕ} {pivot : α} (hi : i < s.length) (hh : h < s.length)
    (hpivot : s[h]? = some pivot) (hp : Partitioned cmp pivot lo h (s, (i : ℤ))) :
    ((s.set i s[h]).set h s[i])[i]? = some pivot ∧
      AllOn (fun x => cmp x pivot < 0) lo (i - 1) ((s.set i s[h]).set h s[i]) ∧
      AllOn (fun x => ¬cmp x pivot < 0) (i + 1) h ((s.set i s[h]).set h s[i]) := by
  obtain ⟨-, hih, hbelow, habove⟩ := hp
  simp only at hih hbelow habove
  refine ⟨?_, fun m x hm hm' hx => ?_, fun m x hm hm' hx => ?_⟩
  · rw [swap_getElem? hi hh, if_pos rfl]
    by_cases h' : i = h
    · rw [if_pos h', h', hpivot]
    · rw [if_neg h', hpivot]
  · rw [swap_getElem? hi hh, if_neg (by omega), if_neg (by omega)] at hx
    exact hbelow m x hm hm' hx
  · rw [swap_getElem? hi hh, if_neg (by omega : m ≠ i)] at hx
    split_ifs at hx with hmh
    · exact habove i x le_rfl (by omega) hx
    · exact habove m x (by omega) (by omega) hx

theorem ascendingOn_outside {s' : List α} {lo' hi' : ℤ} (hr : Rearranged lo' hi' s s')
    (hout : hi < lo') (h : AscendingOn cmp lo hi s) : AscendingOn cmp lo hi s' := by
  intro a b x y ha hab hb hx hy
  rw [hr.frame a (by omega)] at hx
  rw [hr.frame b (by omega)] at hy
  exact h a b x y ha hab hb hx hy

/-- What sorting a range leaves behind. -/
def SortedRange (cmp : α → α → ℤ) (lo hi : ℤ) (s s' : List α) : Prop :=
  Rearranged lo hi s s' ∧ (Consistent cmp → AscendingOn cmp lo hi s')

theorem sortRange_within (cmp : α → α → ℤ) (fuel : ℕ) (h0 : 0 ≤ lo) (hhi : hi < s.length) :
    Within (hi - lo + 1 < fuel ∧ 0 < fuel) (SortedRange cmp lo hi s)
      (sortRange cmp fuel s lo hi) := by
  induction fuel generalizing s lo hi with
  | zero => exact .inr ⟨by omega, rfl⟩
  | succ fuel ih =>
    rw [sortRange]
    by_cases hle : lo ≥ hi
    · rw [if_pos hle]
      refine .ret ⟨.refl _ _ _, fun _ a b x y ha hab hb => ?_⟩
      omega
    · obtain ⟨h, rfl⟩ := Int.eq_ofNat_of_zero_le (by omega : 0 ≤ hi)
      have hh : h < s.length := by omega
      obtain ⟨⟨t, i⟩, hpart, hrt, hparts⟩ :=
        partition_total cmp s[h] h0 (by omega : lo ≤ h) hhi
      have hilo : lo ≤ i := hparts.lo_le
      have hih : i ≤ h := hparts.le_j
      obtain ⟨i, rfl⟩ := Int.eq_ofNat_of_zero_le (by omega : 0 ≤ i)
      have hlen : t.length = s.length := hrt.length_eq
      have hi : i < t.length := by omega
      have hht : h < t.length := by omega
      have hpivot : t[h]? = some s[h] := by
        rw [hrt.frame h (by omega), List.getElem?_eq_getElem hh]
      obtain ⟨hmid, hbelow, habove⟩ := pivot_placed hi hht hpivot hparts
      have hswap : Rearranged lo h t ((t.set i t[h]).set h t[i]) :=
        rearranged_swap hi hht hilo hih (by omega) le_rfl
      have hlen' : ((t.set i t[h]).set h t[i]).length = s.length := by
        rw [hswap.length_eq, hlen]
      rw [if_neg hle, get_natCast hh, ret_bind, hpart, ret_bind]
      simp only [swap_ret hi hht, ret_bind]
      have hleft := @ih lo (i - 1) ((t.set i t[h]).set h t[i]) h0 (by omega)
      refine (hleft.mono (fun hf => by omega) fun _ h => h).bind fun u hu => ?_
      obtain ⟨hru, hau⟩ := hu
      have hright := @ih (i + 1) h u (by omega) (by rw [hru.length_eq]; omega)
      refine hright.mono (fun hf => by omega) fun v hv => ?_
      obtain ⟨hrv, hav⟩ := hv
      constructor
      · exact (((hrt.mono le_rfl (by omega)).trans hswap).trans (hru.mono le_rfl (by omega))).trans
          (hrv.mono (by omega) le_rfl)
      · intro hcmp
        have hat : v[i]? = some s[h] := by
          rw [hrv.frame i (by omega), hru.frame i (by omega), hmid]
        apply ascendingOn_join hcmp hat
        · exact hrv.allOn_outside (by omega) (hru.keeps _ hbelow)
        · exact hrv.keeps _ (hru.allOn_outside (by omega) habove)
        · exact ascendingOn_outside hrv (by omega) (hau hcmp)
        · exact hav hcmp

/-- Sorting ends, and permutes the slice; a consistent comparison puts it in ascending order. -/
theorem sort_within (cmp : α → α → ℤ) (fuel : ℕ) (s : List α) :
    Within (s.length < fuel)
      (fun s' => s'.Perm s ∧ (Consistent cmp → s'.Pairwise fun x y => cmp x y ≤ 0))
      (sort fuel s cmp) := by
  rw [sort]
  by_cases hlen : (s.length : ℤ) > 1
  · rw [if_pos hlen]
    have hrange := sortRange_within cmp fuel (le_refl 0) (by omega : (s.length - 1 : ℤ) < s.length)
    refine hrange.mono (fun hf => by omega) fun s' hs' => ?_
    obtain ⟨hr, hasc⟩ := hs'
    have hlen' := hr.length_eq
    refine ⟨hr.perm, fun hcmp => ?_⟩
    rw [List.pairwise_iff_getElem]
    intro a b ha hb hab
    exact hasc hcmp a b _ _ (by omega) hab (by omega) (List.getElem?_eq_getElem ha)
      (List.getElem?_eq_getElem hb)
  · rw [if_neg hlen]
    refine .ret ⟨.refl s, fun _ => ?_⟩
    rw [List.pairwise_iff_getElem]
    intro a b ha hb hab
    omega

/-- Sorting ends for every comparison, with a permutation of the slice and without an access outside
it, ascending if the comparison is consistent; a call on a range leaves the rest untouched. -/
theorem sort_ascends (cmp : α → α → ℤ) (fuel : ℕ) (s : List α) :
    Within (s.length < fuel)
      (fun s' => s'.Perm s ∧ (Consistent cmp → s'.Pairwise fun x y => cmp x y ≤ 0))
      (sort fuel s cmp) ∧
    ∀ lo hi : ℤ, 0 ≤ lo → hi < s.length →
      Within (hi - lo + 1 < fuel ∧ 0 < fuel) (SortedRange cmp lo hi s)
        (sortRange cmp fuel s lo hi) :=
  ⟨sort_within cmp fuel s, fun _ _ h0 hhi => sortRange_within cmp fuel h0 hhi⟩

/-- The state of `reverse` after `k` rounds: the outer `k` elements on each side are swapped. -/
def Reversing (s : List α) (k : ℕ) (t : List α) : Prop :=
  t.length = s.length ∧
    ∀ m, t[m]? = if m < k ∨ s.length - k ≤ m then s.reverse[m]? else s[m]?

theorem Reversing.step {t : List α} {k : ℕ} (h : Reversing s k t) (hk : k < s.length - 1 - k) :
    ∃ t', swap t k ((s.length - 1 - k : ℕ) : ℤ) = .ret t' ∧ Reversing s (k + 1) t' := by
  obtain ⟨hlen, hget⟩ := h
  have hkt : k < t.length := by omega
  have hjt : s.length - 1 - k < t.length := by omega
  have hleft : t[k]? = s[k]? := by rw [hget, if_neg (by omega)]
  have hright : t[s.length - 1 - k]? = s[s.length - 1 - k]? := by rw [hget, if_neg (by omega)]
  refine ⟨_, swap_ret hkt hjt, by simp [hlen], fun m => ?_⟩
  rw [swap_getElem? hkt hjt, hleft, hright, hget m]
  by_cases hmj : m = s.length - 1 - k
  · rw [if_pos hmj, if_pos (by omega), List.getElem?_reverse (by omega)]
    congr 1
    omega
  · rw [if_neg hmj]
    by_cases hmk : m = k
    · rw [if_pos hmk, if_pos (by omega), List.getElem?_reverse (by omega), hmk]
    · rw [if_neg hmk]
      congr 1
      rw [eq_iff_iff]
      omega

theorem Reversing.done {t : List α} {k : ℕ} (h : Reversing s k t) (hk : s.length - 1 - k ≤ k) :
    t = s.reverse := by
  apply List.ext_getElem?
  intro m
  rw [h.2 m]
  by_cases hm : m < k ∨ s.length - k ≤ m
  · rw [if_pos hm]
  · rw [if_neg hm, List.getElem?_reverse (by omega)]
    congr 1
    omega

theorem Reversing.start (s : List α) : Reversing s 0 s := by
  refine ⟨rfl, fun m => ?_⟩
  by_cases hm : m < s.length
  · rw [if_neg (by omega)]
  · rw [if_pos (by omega), List.getElem?_eq_none (by omega),
      List.getElem?_eq_none (by rw [List.length_reverse]; omega)]

theorem reverse_within (fuel : ℕ) (s : List α) :
    Within (s.length < fuel) (fun s' => s' = s.reverse) (reverse fuel s) := by
  apply loop_within fun n (r : List α × ℤ × ℤ) => ∃ k : ℕ, k + n = s.length ∧
    r.2 = ((k : ℤ), (s.length : ℤ) - 1 - k) ∧ Reversing s k r.1
  · rintro n ⟨t, lo, hi⟩ ⟨k, hks, hk, ht⟩
    obtain ⟨rfl, rfl⟩ := Prod.mk.inj hk
    by_cases hle : (k : ℤ) ≥ s.length - 1 - k
    · exact .inr ⟨t, by simp only [reverseBody, if_pos hle], ht.done (by omega)⟩
    · obtain ⟨t', hswap, ht'⟩ := ht.step (by omega)
      have hcast : ((s.length - 1 - k : ℕ) : ℤ) = s.length - 1 - k := by omega
      rw [hcast] at hswap
      refine .inl ⟨(t', (k : ℤ) + 1, (s.length : ℤ) - 1 - k - 1), ?_, n - 1, by omega, k + 1,
        by omega, by push_cast; ring_nf, ht'⟩
      simp only [reverseBody, if_neg hle, hswap, ret_bind]
  · exact ⟨0, Nat.zero_add _, by simp, Reversing.start s⟩

end Sorting

end FcLang.Data.Slices
