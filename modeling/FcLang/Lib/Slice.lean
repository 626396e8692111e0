import FcLang.Lib.Exec

/-!
# Bounds-checked slices

A slice is the list of its elements, indexed by signed integers. An access
outside the slice, and a subslice with bounds out of order, abort the run.
-/

namespace FcLang.Slice
universe u
variable {α : Type u}

def get (s : List α) (i : ℤ) : Exec α :=
  if 0 ≤ i then match s[i.toNat]? with
    | some x => .ret x
    | none => .abort
  else .abort

def set (s : List α) (i : ℤ) (x : α) : Exec (List α) :=
  if 0 ≤ i ∧ i < s.length then .ret (s.set i.toNat x) else .abort

/-- `s[lo..hi]` -/
def range (s : List α) (lo hi : ℤ) : Exec (List α) :=
  if 0 ≤ lo ∧ lo ≤ hi ∧ hi ≤ s.length then .ret ((s.drop lo.toNat).take (hi - lo).toNat)
  else .abort

theorem get_eq_ret {s : List α} {i : ℤ} {x : α} :
    get s i = .ret x ↔ 0 ≤ i ∧ s[i.toNat]? = some x := by
  unfold get
  by_cases h : 0 ≤ i
  · cases s[i.toNat]? <;> simp [h]
  · simp [h]

theorem get_of_some {s : List α} {i : ℕ} {x : α} (h : s[i]? = some x) : get s (i : ℤ) = .ret x :=
  get_eq_ret.mpr ⟨by omega, h⟩

theorem get_of_lt {s : List α} {i : ℤ} (h0 : 0 ≤ i) (h : i.toNat < s.length) :
    get s i = .ret s[i.toNat] := by
  simp [get_eq_ret, h0, h]

@[simp] theorem get_natCast {s : List α} {i : ℕ} (h : i < s.length) :
    get s (i : ℤ) = .ret s[i] := by
  simp [get_eq_ret, h]

theorem get_lt_length {s : List α} {i : ℤ} {x : α} (h : get s i = .ret x) :
    0 ≤ i ∧ i < s.length := by
  obtain ⟨h0, hx⟩ := get_eq_ret.mp h
  obtain ⟨hlt, -⟩ := List.getElem?_eq_some_iff.mp hx
  exact ⟨h0, by omega⟩

theorem set_eq_ret {s s' : List α} {i : ℤ} {x : α} :
    set s i x = .ret s' ↔ (0 ≤ i ∧ i < s.length) ∧ s' = s.set i.toNat x := by
  unfold set
  by_cases h : 0 ≤ i ∧ i < s.length <;> simp [h, eq_comm]

theorem set_of_lt {s : List α} {i : ℤ} (h0 : 0 ≤ i) (h : i < s.length) (x : α) :
    set s i x = .ret (s.set i.toNat x) := if_pos ⟨h0, h⟩

@[simp] theorem set_natCast {s : List α} {i : ℕ} (h : i < s.length) (x : α) :
    set s (i : ℤ) x = .ret (s.set i x) := by
  simp [set_of_lt, h]

theorem set_length {s s' : List α} {i : ℤ} {x : α} (h : set s i x = .ret s') :
    s'.length = s.length ∧ 0 ≤ i ∧ i < s.length := by
  obtain ⟨hi, rfl⟩ := set_eq_ret.mp h
  exact ⟨List.length_set, hi⟩

theorem getElem?_set_of_lt {s : List α} {i k : ℕ} {x : α} (h : i < s.length) :
    (s.set i x)[k]? = if i = k then some x else s[k]? := by
  rw [List.getElem?_set, if_pos h]

theorem range_eq_ret {s s' : List α} {lo hi : ℤ} :
    range s lo hi = .ret s' ↔
      (0 ≤ lo ∧ lo ≤ hi ∧ hi ≤ s.length) ∧ s' = (s.drop lo.toNat).take (hi - lo).toNat := by
  unfold range
  by_cases h : 0 ≤ lo ∧ lo ≤ hi ∧ hi ≤ s.length <;> simp [h, eq_comm]

/-- The element after a first part. -/
theorem get_middle (a : List α) (x : α) (b : List α) {i : ℤ} (hi : i = a.length) :
    get (a ++ x :: b) i = .ret x := by
  rw [get_eq_ret]
  refine ⟨by omega, ?_⟩
  rw [hi, Int.toNat_natCast, List.getElem?_append_right le_rfl, Nat.sub_self]
  rfl

theorem set_middle (a : List α) (x : α) (b : List α) {i : ℤ} (hi : i = a.length) (y : α) :
    set (a ++ x :: b) i y = .ret (a ++ y :: b) := by
  rw [set_eq_ret]
  refine ⟨⟨by omega, by rw [hi, List.length_append, List.length_cons]; omega⟩, ?_⟩
  rw [hi, Int.toNat_natCast, List.set_append_right _ _ le_rfl, Nat.sub_self]
  rfl

/-- The active prefix of a slice. -/
theorem range_zero {s : List α} {hi : ℤ} (h0 : 0 ≤ hi) (h : hi ≤ s.length) :
    range s 0 hi = .ret (s.take hi.toNat) := by
  simp [range_eq_ret, h0, h]

/-- A counting loop that reads the elements of a slice in order. -/
theorem forRange_get_within {σ : Type u} {s : List α} {body : ℤ → α → σ → Exec σ} {p : Prop}
    (I : List α → σ → Prop) {init : σ} (hinit : I [] init)
    (hbody : ∀ done x rest acc, s = done ++ x :: rest → I done acc →
      Exec.Within p (I (done ++ [x])) (body done.length x acc)) :
    Exec.Within p (I s) (Exec.forRange 0 s.length
      (fun i acc => get s i >>= fun x => body i x acc) init) := by
  have hstart : I (s.take (0 : ℤ).toNat) init := hinit
  refine (Exec.forRange_within (fun i acc => I (s.take i.toNat) acc) (by omega) hstart
    fun i acc h0 hlt hacc => ?_).mono (fun h => h) fun acc h => ?_
  · obtain ⟨i, rfl⟩ := Int.eq_ofNat_of_zero_le h0
    have hi : i < s.length := by omega
    have hsplit : s = s.take i ++ s[i] :: s.drop (i + 1) := by simp
    have hstep := hbody (s.take i) s[i] (s.drop (i + 1)) acc hsplit hacc
    rw [List.length_take_of_le hi.le, List.take_append_getElem hi] at hstep
    rw [get_natCast hi, Exec.ret_bind]
    exact hstep
  · rwa [Int.toNat_natCast, List.take_length] at h

end FcLang.Slice
