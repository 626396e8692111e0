import FcLang.Data.ArrayList
import FcLang.Lib.Runs

/-!
# array_list as a finite sequence

A list holds a sequence when the sequence is the active prefix of its buffer.
Every operation whose indices are valid for the sequence does to the list what
it does to the sequence, over any history; only a buffer without any capacity
cannot grow.
-/

namespace FcLang.Data.ArrayList
open Exec
variable {α β : Type}

/-- `l` holds `xs`, in a buffer of some capacity. -/
structure Holds (l : ArrayList α) (xs : List α) : Prop where
  len : l.len = xs.length
  active : ∃ spare, l.data = xs ++ spare
  capacity : 0 < l.data.length

theorem length_snoc (xs : List α) (x : α) : ((xs ++ [x]).length : ℤ) = xs.length + 1 := by
  rw [List.length_append, List.length_singleton]
  rfl

section Operations
variable {l : ArrayList α} {xs : List α}

/-- A loop over the active elements reads the sequence. -/
theorem Holds.forActive_within (h : l.Holds xs) {σ : Type} {body : ℤ → α → σ → Exec σ} {p : Prop}
    (I : List α → σ → Prop) {init : σ} (hinit : I [] init)
    (hbody : ∀ done x rest acc, xs = done ++ x :: rest → I done acc →
      Within p (I (done ++ [x])) (body done.length x acc)) :
    Within p (I xs) (l.forActive body init) := by
  obtain ⟨spare, hdata⟩ := h.active
  have hrange : Slice.range l.data 0 l.len = .ret xs := by
    rw [h.len, Slice.range_zero (by omega) (by rw [hdata, List.length_append]; omega), hdata,
      Int.toNat_natCast, List.take_left]
  rw [forActive, hrange, ret_bind]
  exact Slice.forRange_get_within I hinit hbody

theorem Holds.forActive_ret (h : l.Holds xs) {σ : Type} (body : ℤ → α → σ → Exec σ) (init : σ)
    (I : List α → σ → Prop) (hinit : I [] init)
    (hbody : ∀ done x rest acc, xs = done ++ x :: rest → I done acc →
      ∃ acc', body done.length x acc = .ret acc' ∧ I (done ++ [x]) acc') :
    ∃ acc, l.forActive body init = .ret acc ∧ I xs acc :=
  (h.forActive_within (p := True) I hinit fun done x rest acc hxs hI =>
    .inl (hbody done x rest acc hxs hI)).total trivial

/-- Copying the active elements to the front of a larger zeroed buffer. -/
theorem Holds.copyActive [Inhabited α] (h : l.Holds xs) (cap : ℤ) (hcap : (xs.length : ℤ) ≤ cap) :
    ∃ spare, l.forActive (fun i e newData => Slice.set newData i e) (allocData cap) =
      .ret (xs ++ spare) ∧ xs.length + spare.length = cap.toNat := by
  obtain ⟨data, hrun, spare, rfl, hlen⟩ := h.forActive_ret
    (fun i e newData => Slice.set newData i e) (allocData cap)
    (fun done data => ∃ spare, data = done ++ spare ∧ done.length + spare.length = cap.toNat)
    ⟨allocData cap, rfl, by simp [allocData]⟩ (by
      rintro done x rest _ hxs ⟨spare, rfl, hlen⟩
      have hlt : done.length < xs.length := by
        rw [hxs, List.length_append, List.length_cons]
        omega
      obtain ⟨y, spare, rfl⟩ : ∃ y spare', spare = y :: spare' := by
        apply List.exists_cons_of_ne_nil
        rintro rfl
        simp only [List.length_nil] at hlen
        omega
      refine ⟨_, Slice.set_middle done y spare rfl x, spare, by simp, ?_⟩
      simp only [List.length_append, List.length_cons, List.length_nil] at hlen ⊢
      omega)
  exact ⟨spare, hrun, hlen⟩

theorem Holds.grow [Inhabited α] (h : l.Holds xs) :
    ∃ l', grow l = .ret l' ∧ l'.Holds xs ∧ l'.data.length = 2 * l.data.length := by
  obtain ⟨spare₀, hdata⟩ := h.active
  have hle : xs.length ≤ l.data.length := by
    rw [hdata, List.length_append]
    omega
  have hcap := h.capacity
  obtain ⟨spare, hrun, hlen⟩ := h.copyActive ((l.data.length : ℤ) * 2) (by omega)
  refine ⟨{ l with data := xs ++ spare }, ?_, ⟨h.len, ⟨spare, rfl⟩, ?_⟩, ?_⟩
  · have hgrow : ArrayList.grow l = (l.forActive (fun i e newData => Slice.set newData i e)
        (allocData ((l.data.length : ℤ) * 2)) >>= fun newData => .ret { l with data := newData }) := by
      simp only [ArrayList.grow, forActive, bind_assoc]
    rw [hgrow, hrun, ret_bind]
  · simp only [List.length_append]
    omega
  · simp only [List.length_append]
    omega

/-- After the capacity check there is a spare place. -/
theorem Holds.growIfFull [Inhabited α] (h : l.Holds xs) :
    ∃ l' y spare, ArrayList.growIfFull l = .ret l' ∧ l'.len = xs.length ∧
      l'.data = xs ++ y :: spare := by
  rw [ArrayList.growIfFull]
  by_cases hfull : l.len = l.data.length
  · obtain ⟨l', hrun, ⟨hlen, ⟨spare, hdata⟩, -⟩, hdouble⟩ := h.grow
    have hcap := h.capacity
    have hxs := h.len
    rw [hdata, List.length_append] at hdouble
    cases spare with
    | nil =>
      simp only [List.length_nil] at hdouble
      omega
    | cons y spare => exact ⟨l', y, spare, by rw [if_pos hfull, hrun], hlen, hdata⟩
  · obtain ⟨spare, hdata⟩ := h.active
    rw [if_neg hfull]
    cases spare with
    | nil =>
      rw [hdata, List.append_nil] at hfull
      exact absurd h.len hfull
    | cons y spare => exact ⟨l, y, spare, rfl, h.len, hdata⟩

theorem Holds.add [Inhabited α] (h : l.Holds xs) (value : α) :
    ∃ l', add l value = .ret l' ∧ l'.Holds (xs ++ [value]) := by
  obtain ⟨l₁, y, spare, hrun, hlen, hdata⟩ := h.growIfFull
  refine ⟨{ data := xs ++ value :: spare, len := l₁.len + 1 }, ?_, ?_, ⟨spare, by simp⟩, by simp⟩
  · rw [ArrayList.add, hrun, ret_bind, hdata, Slice.set_middle xs y spare hlen, ret_bind]
  · simp [hlen]

theorem Holds.update (h : l.Holds xs) {index : ℕ} (hindex : index < xs.length) (value : α) :
    ∃ l', update l index value = .ret l' ∧ l'.Holds (xs.set index value) := by
  obtain ⟨spare, hdata⟩ := h.active
  have hlt : index < l.data.length := by
    rw [hdata, List.length_append]
    omega
  refine ⟨{ l with data := l.data.set index value }, ?_, ?_, ⟨spare, ?_⟩, ?_⟩
  · rw [ArrayList.update, Slice.set_natCast hlt, ret_bind]
  · simp [h.len]
  · simp only [hdata, List.set_append_left _ _ hindex]
  · simp only [List.length_set]
    omega

/-- The shifting loop of `insert`: the gap moves left, from the end of the list to the index. -/
theorem insert_loop_within {pre post spare : List α} {y : α} (fuel : ℕ) :
    Within (post.length < fuel) (fun data => ∃ y, data = pre ++ y :: (post ++ spare))
      (loop (insertBody pre.length) fuel
        ((pre ++ post) ++ y :: spare, ((pre ++ post).length : ℤ))) := by
  refine loop_within (fun n (r : List α × ℤ) => ∃ a b y, post = a ++ b ∧ n = a.length ∧
    r = ((pre ++ a) ++ y :: (b ++ spare), ((pre ++ a).length : ℤ))) ?_ ?_ fuel
  · rintro n _ ⟨a, b, y, rfl, rfl, rfl⟩
    rcases List.eq_nil_or_concat' a with rfl | ⟨a, x, rfl⟩
    · refine .inr ⟨_, ?_, y, rfl⟩
      simp only [insertBody, List.append_nil, le_refl, if_true, List.nil_append]
    · refine .inl ⟨((pre ++ a) ++ x :: (x :: b ++ spare), ((pre ++ a).length : ℤ)), ?_, a.length,
        by simp, a, x :: b, x, by simp, rfl, rfl⟩
      have hlen : ((pre ++ (a ++ [x])).length : ℤ) = (pre ++ a).length + 1 := by
        rw [← List.append_assoc, length_snoc]
      have hgt : ¬((pre ++ a).length : ℤ) + 1 ≤ pre.length := by
        rw [List.length_append]
        omega
      have hdata : (pre ++ (a ++ [x])) ++ y :: (b ++ spare) =
          (pre ++ a) ++ x :: y :: (b ++ spare) := by simp
      have hset := Slice.set_middle ((pre ++ a) ++ [x]) y (b ++ spare)
        (i := ((pre ++ a).length : ℤ) + 1) (length_snoc _ _).symm x
      rw [insertBody, hlen, if_neg hgt, hdata, add_sub_cancel_right,
        Slice.get_middle (pre ++ a) x _ rfl, ret_bind]
      rw [List.append_assoc, List.singleton_append] at hset
      rw [hset, ret_bind, List.append_assoc, List.singleton_append, List.cons_append]
  · exact ⟨post, [], y, by simp, rfl, by simp⟩

theorem insertIdx_middle (pre post : List α) (value : α) :
    (pre ++ post).insertIdx pre.length value = pre ++ value :: post := by
  induction pre with
  | nil => rfl
  | cons x pre ih => exact congrArg (x :: ·) ih

theorem Holds.insert_within [Inhabited α] (h : l.Holds xs) {index : ℕ} (hindex : index ≤ xs.length)
    (value : α) (fuel : ℕ) :
    Within (xs.length < fuel) (fun l' => l'.Holds (xs.insertIdx index value))
      (insert fuel l index value) := by
  obtain ⟨l₁, y, spare, hrun, hlen, hdata⟩ := h.growIfFull
  obtain ⟨pre, post, rfl, rfl⟩ : ∃ pre post, xs = pre ++ post ∧ pre.length = index :=
    ⟨xs.take index, xs.drop index, (List.take_append_drop _ _).symm, List.length_take_of_le hindex⟩
  rw [insert, hrun, ret_bind, hdata, hlen]
  refine ((insert_loop_within fuel).mono (fun h => ?_) fun _ h => h).bind ?_
  · rw [List.length_append] at h
    omega
  · rintro _ ⟨y, rfl⟩
    rw [Slice.set_middle pre y _ rfl, ret_bind]
    refine .ret ⟨?_, ⟨spare, ?_⟩, by simp⟩
    · rw [List.length_insertIdx_of_le_length hindex]
      push_cast
      rfl
    · rw [insertIdx_middle, List.append_assoc, List.cons_append]

/-- The shifting loop of `remove_at`: the gap moves right, from the index to the end of the list. -/
theorem removeAt_loop_within {pre post spare : List α} {y : α} (fuel : ℕ) :
    Within (post.length < fuel) (fun data => ∃ y, data = (pre ++ post) ++ y :: spare)
      (loop (removeAtBody ((pre.length : ℤ) + post.length + 1)) fuel
        (pre ++ y :: (post ++ spare), (pre.length : ℤ))) := by
  refine loop_within (fun n (r : List α × ℤ) => ∃ a b y, post = a ++ b ∧ n = b.length ∧
    r = ((pre ++ a) ++ y :: (b ++ spare), ((pre ++ a).length : ℤ))) ?_ ?_ fuel
  · rintro n _ ⟨a, b, y, rfl, rfl, rfl⟩
    cases b with
    | nil =>
      have hge : ((pre ++ a).length : ℤ) ≥ (pre.length : ℤ) + (a ++ []).length + 1 - 1 := by
        simp
      exact .inr ⟨_, by rw [removeAtBody, if_pos hge], y, by simp⟩
    | cons x b =>
      refine .inl ⟨((pre ++ (a ++ [x])) ++ x :: (b ++ spare), ((pre ++ (a ++ [x])).length : ℤ)), ?_,
        b.length, by simp, a ++ [x], b, x, by simp, rfl, rfl⟩
      have hlt : ¬((pre ++ a).length : ℤ) ≥ (pre.length : ℤ) + (a ++ x :: b).length + 1 - 1 := by
        simp only [List.length_append, List.length_cons]
        omega
      have hlen : ((pre ++ (a ++ [x])).length : ℤ) = (pre ++ a).length + 1 := by
        rw [← List.append_assoc, length_snoc]
      have hget := Slice.get_middle ((pre ++ a) ++ [y]) x (b ++ spare)
        (i := ((pre ++ a).length : ℤ) + 1) (length_snoc _ _).symm
      rw [List.append_assoc, List.singleton_append] at hget
      rw [removeAtBody, if_neg hlt, List.cons_append, hget, ret_bind,
        Slice.set_middle (pre ++ a) y _ rfl, ret_bind, hlen]
      simp
  · exact ⟨[], post, y, rfl, rfl, by simp⟩

theorem Holds.removeAt_within (h : l.Holds xs) {index : ℕ} (hindex : index < xs.length)
    (fuel : ℕ) :
    Within (xs.length < fuel) (fun r => r.1 = xs[index] ∧ r.2.Holds (xs.eraseIdx index))
      (removeAt fuel l index) := by
  obtain ⟨spare, hdata⟩ := h.active
  obtain ⟨pre, value, post, rfl, rfl⟩ : ∃ pre value post, xs = pre ++ value :: post ∧
      pre.length = index :=
    ⟨xs.take index, xs[index], xs.drop (index + 1), by simp, List.length_take_of_le hindex.le⟩
  have hlen : l.len = (pre.length : ℤ) + post.length + 1 := by
    rw [h.len, List.length_append, List.length_cons]
    push_cast
    ring
  rw [List.append_assoc, List.cons_append] at hdata
  rw [removeAt, hdata, Slice.get_middle pre value _ rfl, ret_bind, hlen]
  refine ((removeAt_loop_within fuel).mono (fun hf => ?_) fun _ h => h).bind ?_
  · rw [List.length_append, List.length_cons] at hf
    omega
  · rintro _ ⟨y, rfl⟩
    refine .ret ⟨by simp, ?_, ⟨y :: spare, ?_⟩, by simp⟩
    · rw [List.length_eraseIdx_of_lt hindex, List.length_append, List.length_cons]
      push_cast
      omega
    · rw [List.eraseIdx_append_of_length_le le_rfl, Nat.sub_self, List.eraseIdx_cons_zero]

theorem Holds.pop {value : α} (h : l.Holds (xs ++ [value])) :
    ∃ l', pop l = .ret (value, l') ∧ l'.Holds xs := by
  obtain ⟨spare, hdata⟩ := h.active
  have hlen : l.len = (xs.length : ℤ) + 1 := by rw [h.len, length_snoc]
  rw [List.append_assoc, List.singleton_append] at hdata
  refine ⟨{ l with len := xs.length }, ?_, rfl, ⟨value :: spare, hdata⟩, h.capacity⟩
  have hpos : (xs.length : ℤ) + 1 > 0 := by omega
  simp only [ArrayList.pop, ret_bind, hlen, require_of hpos, add_sub_cancel_right, hdata,
    Slice.get_middle xs value spare rfl]

theorem Holds.clear (h : l.Holds xs) : (clear l).Holds [] :=
  ⟨rfl, ⟨l.data, rfl⟩, h.capacity⟩

/-- A loop over the positions of the sequence, each round of which sees one more element. -/
theorem forRange_split (xs : List α) {σ : Type} (body : ℤ → σ → Exec σ) (init : σ)
    (I : List α → List α → σ → Prop) (hinit : I [] xs init)
    (hbody : ∀ done x rest acc, xs = done ++ x :: rest → I done (x :: rest) acc →
      ∃ acc', body done.length acc = .ret acc' ∧ I (done ++ [x]) rest acc') :
    ∃ acc, forRange 0 xs.length body init = .ret acc ∧ I xs [] acc := by
  have hstep : ∀ (i : ℤ) acc, 0 ≤ i → i < xs.length →
      (∃ done rest, xs = done ++ rest ∧ (done.length : ℤ) = i ∧ I done rest acc) →
      ∃ acc', body i acc = .ret acc' ∧
        ∃ done rest, xs = done ++ rest ∧ (done.length : ℤ) = i + 1 ∧ I done rest acc' := by
    rintro _ acc - hlt ⟨done, rest, hxs, rfl, hI⟩
    cases rest with
    | nil =>
      rw [hxs, List.append_nil] at hlt
      omega
    | cons x rest =>
      obtain ⟨acc', hrun, hI'⟩ := hbody done x rest acc hxs hI
      exact ⟨acc', hrun, done ++ [x], rest, by simp [hxs], by simp, hI'⟩
  obtain ⟨acc, hrun, done, rest, hxs, hlen, hI⟩ := forRange_total
    (fun i acc => ∃ done rest, xs = done ++ rest ∧ (done.length : ℤ) = i ∧ I done rest acc)
    (Int.natCast_nonneg xs.length) ⟨[], xs, rfl, rfl, hinit⟩ hstep
  have hnil : rest = [] := by
    have := congrArg List.length hxs
    rw [List.length_append] at this
    exact List.length_eq_zero_iff.mp (by omega)
  subst hnil
  rw [List.append_nil] at hxs
  subst hxs
  exact ⟨acc, hrun, hI⟩

/-- A kept element moves over those that were dropped before it. -/
theorem moveDown_ret_of (kept dropped tail : List α) (x : α) :
    ∃ dropped' : List α, moveDown (kept ++ dropped ++ x :: tail) (kept ++ dropped).length
        kept.length = .ret ((kept ++ [x]) ++ dropped' ++ tail) ∧
      dropped'.length = dropped.length := by
  rw [moveDown]
  cases dropped with
  | nil => exact ⟨[], by simp, rfl⟩
  | cons y dropped =>
    have hne : (kept.length : ℤ) ≠ (kept ++ y :: dropped).length := by
      rw [List.length_append, List.length_cons]
      omega
    refine ⟨dropped ++ [x], ?_, by simp⟩
    rw [if_pos hne, Slice.get_middle (kept ++ y :: dropped) x tail rfl, ret_bind]
    have hset := Slice.set_middle kept y (dropped ++ x :: tail) rfl x
    simp [hset]

theorem Holds.retain (h : l.Holds xs) (pred : α → Bool) :
    ∃ l', retain l pred = .ret l' ∧ l'.Holds (xs.filter pred) := by
  obtain ⟨spare, hdata⟩ := h.active
  obtain ⟨⟨data, j⟩, hrun, dropped, hr, hlen⟩ := forRange_split xs (retainBody pred) (l.data, 0)
    (fun done rest (r : List α × ℤ) => ∃ dropped, r = (done.filter pred ++ dropped ++ (rest ++ spare),
      ((done.filter pred).length : ℤ)) ∧ (done.filter pred ++ dropped).length = done.length)
    ⟨[], by simp [hdata], rfl⟩ (by
      rintro done x rest _ - ⟨dropped, rfl, hlen⟩
      rw [← hlen, List.cons_append, retainBody, Slice.get_middle _ x _ rfl, ret_bind]
      by_cases hx : pred x = true
      · obtain ⟨dropped', hmove, hlen'⟩ :=
          moveDown_ret_of (done.filter pred) dropped (rest ++ spare) x
        refine ⟨_, by rw [if_pos hx, hmove, ret_bind], dropped', ?_, ?_⟩
        · simp [List.filter_append, hx]
        · simp only [List.filter_append, List.length_append, List.filter_cons_of_pos hx,
            List.filter_nil, List.length_singleton] at hlen ⊢
          omega
      · refine ⟨_, by rw [if_neg hx], dropped ++ [x], ?_, ?_⟩
        · simp [List.filter_append, hx]
        · simp only [List.filter_append, List.length_append, List.filter_cons_of_neg hx,
            List.filter_nil, List.length_singleton, List.length_nil] at hlen ⊢
          omega)
  obtain ⟨rfl, rfl⟩ := Prod.mk.inj hr
  have hcap := h.capacity
  refine ⟨_, by rw [ArrayList.retain, h.len, hrun, ret_bind], rfl, ⟨dropped ++ spare, by simp⟩, ?_⟩
  rw [hdata, List.length_append] at hcap
  simp only [List.length_append, List.nil_append] at hlen ⊢
  omega

theorem Holds.apply (h : l.Holds xs) (f : α → α) :
    ∃ l', apply l f = .ret l' ∧ l'.Holds (xs.map f) := by
  obtain ⟨spare, hdata⟩ := h.active
  obtain ⟨data, hrun, rfl⟩ := forRange_split xs
    (fun i data => do
      let x ← Slice.get data i
      Slice.set data i (f x)) l.data
    (fun done rest data => data = done.map f ++ (rest ++ spare)) hdata (by
      rintro done x rest _ - rfl
      have hlen : (done.length : ℤ) = (done.map f).length := by rw [List.length_map]
      refine ⟨_, ?_, rfl⟩
      rw [List.cons_append, Slice.get_middle _ x _ hlen, ret_bind, Slice.set_middle _ x _ hlen]
      simp)
  have hcap := h.capacity
  refine ⟨_, by rw [ArrayList.apply, h.len, hrun, ret_bind], ?_, ⟨spare, rfl⟩, ?_⟩
  · simp
  · rw [hdata, List.length_append] at hcap
    simpa using hcap

/-- Work in place on the active elements. -/
theorem Holds.onActive_within (h : l.Holds xs) {f : List α → Exec (List α)} {p : Prop}
    {Q : List α → Prop} (hf : Within p (fun ys => ys.length = xs.length ∧ Q ys) (f xs)) :
    Within p (fun l' => ∃ ys, l'.Holds ys ∧ Q ys) (l.onActive f) := by
  obtain ⟨spare, hdata⟩ := h.active
  have hrange : Slice.range l.data 0 l.len = .ret xs := by
    rw [h.len, Slice.range_zero (by omega) (by rw [hdata, List.length_append]; omega), hdata,
      Int.toNat_natCast, List.take_left]
  rw [onActive, hrange, ret_bind]
  refine hf.bind fun ys hys => .ret ⟨ys, ⟨?_, ⟨spare, ?_⟩, ?_⟩, hys.2⟩
  · rw [h.len, hys.1]
  · rw [hdata, hys.1, List.drop_left]
  · have hcap := h.capacity
    simp only [List.length_append, List.length_drop, hys.1]
    omega

theorem Holds.reverse_within (h : l.Holds xs) (fuel : ℕ) :
    Within (xs.length < fuel) (fun l' => l'.Holds xs.reverse) (reverse fuel l) := by
  refine (h.onActive_within (Q := fun ys => ys = xs.reverse) ?_).mono (fun h => h) ?_
  · refine (Slices.reverse_within fuel xs).mono (fun h => h) fun ys hys => ⟨?_, hys⟩
    rw [hys, List.length_reverse]
  · rintro l' ⟨_, hl', rfl⟩
    exact hl'

theorem Holds.sort_within (h : l.Holds xs) (cmp : α → α → ℤ) (fuel : ℕ) :
    Within (xs.length < fuel) (fun l' => ∃ ys, l'.Holds ys ∧ ys.Perm xs ∧
      (Slices.Consistent cmp → ys.Pairwise fun x y => cmp x y ≤ 0)) (sort fuel l cmp) := by
  refine h.onActive_within ?_
  exact (Slices.sort_within cmp fuel xs).mono (fun h => h) fun ys hys => ⟨hys.1.length_eq, hys⟩

theorem Holds.copy [Inhabited α] (h : l.Holds xs) :
    ∃ l', copy l = .ret l' ∧ l'.Holds xs := by
  obtain ⟨spare₀, hdata⟩ := h.active
  have hcap := h.capacity
  obtain ⟨spare, hrun, hlen⟩ := h.copyActive l.data.length (by
    rw [hdata, List.length_append]
    omega)
  refine ⟨⟨xs ++ spare, l.len⟩, by rw [ArrayList.copy, hrun, ret_bind], h.len, ⟨spare, rfl⟩, ?_⟩
  simp only [List.length_append]
  omega

theorem Holds.foldLeft (h : l.Holds xs) (init : β) (f : β → α → β) :
    foldLeft l init f = .ret (xs.foldl f init) := by
  obtain ⟨acc, hrun, rfl⟩ := h.forActive_ret (fun _ e acc => .ret (f acc e)) init
    (fun done acc => acc = done.foldl f init) rfl (by
      rintro done x rest _ - rfl
      exact ⟨_, rfl, by simp⟩)
  exact hrun

theorem Holds.foldRight_within (h : l.Holds xs) (init : β) (f : β → α → β) (fuel : ℕ) :
    Within (xs.length < fuel) (fun acc => acc = xs.foldr (fun x acc => f acc x) init)
      (foldRight fuel l init f) := by
  obtain ⟨spare, hdata⟩ := h.active
  rw [foldRight, h.len]
  refine loop_within (fun n (r : β × ℤ) => ∃ rest done, xs = rest ++ done ∧ n = rest.length ∧
    r = (done.foldr (fun x acc => f acc x) init, (rest.length : ℤ) - 1)) ?_ ?_ fuel
  · rintro n _ ⟨rest, done, rfl, rfl, rfl⟩
    rcases List.eq_nil_or_concat' rest with rfl | ⟨rest, x, rfl⟩
    · exact .inr ⟨_, by simp [foldRightBody], rfl⟩
    · refine .inl ⟨_, ?_, rest.length, by simp, rest, x :: done, by simp, rfl, rfl⟩
      have hidx : ((rest ++ [x]).length : ℤ) - 1 = rest.length := by simp
      have hpos : ¬(rest.length : ℤ) < 0 := by omega
      rw [foldRightBody, hidx, if_neg hpos, hdata, List.append_assoc, List.append_assoc,
        List.singleton_append, Slice.get_middle rest x _ rfl, ret_bind]
      rfl
  · exact ⟨xs, [], by simp, rfl, rfl⟩

end Operations

section Results
variable [Inhabited β] {l : ArrayList α} {xs : List α}

theorem makeWithCapacity_holds (cap : ℤ) : (makeWithCapacity cap : ArrayList β).Holds [] := by
  refine ⟨rfl, ⟨_, rfl⟩, ?_⟩
  rw [makeWithCapacity, allocData, List.length_replicate]
  split_ifs
  · decide
  · omega

theorem Holds.map (h : l.Holds xs) (f : α → β) :
    ∃ l' : ArrayList β, map l f = .ret l' ∧ l'.Holds (xs.map f) := by
  refine h.forActive_ret _ _ (fun done (l' : ArrayList β) => l'.Holds (done.map f))
    (makeWithCapacity_holds _) fun done x rest acc _ hacc => ?_
  rw [List.map_append]
  exact hacc.add (f x)

theorem Holds.mapi (h : l.Holds xs) (f : ℤ → α → β) :
    ∃ l' : ArrayList β, mapi l f = .ret l' ∧ l'.Holds (xs.mapIdx fun i x => f i x) := by
  refine h.forActive_ret _ _
    (fun done (l' : ArrayList β) => l'.Holds (done.mapIdx fun i x => f i x))
    (makeWithCapacity_holds _) fun done x rest acc _ hacc => ?_
  simp only [List.mapIdx_append, List.mapIdx_cons, List.mapIdx_nil, Nat.zero_add]
  exact hacc.add (f done.length x)

theorem Holds.scan (h : l.Holds xs) (init : β) (f : β → α → β) :
    ∃ l' : ArrayList β, scan l init f = .ret l' ∧ l'.Holds (xs.scanl f init) := by
  obtain ⟨l₀, hrun₀, hl₀⟩ := (makeWithCapacity_holds (β := β) (l.len + 1)).add init
  obtain ⟨r, hrun, hr, -⟩ := h.forActive_ret
    (fun _ e r => do
      let acc := f r.2 e
      let result ← ArrayList.add r.1 acc
      .ret (result, acc)) (l₀, init)
    (fun done (r : ArrayList β × β) => r.1.Holds (done.scanl f init) ∧ r.2 = done.foldl f init)
    ⟨hl₀, rfl⟩ (by
      rintro done x rest ⟨acc, _⟩ - ⟨hacc, rfl⟩
      obtain ⟨l', hadd, hl'⟩ := hacc.add (f (done.foldl f init) x)
      refine ⟨(l', f (done.foldl f init) x), ?_, ?_, by simp⟩
      · simp only [hadd, ret_bind]
      · rw [List.scanl_append]
        simpa using hl')
  exact ⟨r.1, by rw [ArrayList.scan, hrun₀, ret_bind, hrun, ret_bind], hr⟩

theorem Holds.filter [Inhabited α] (h : l.Holds xs) (pred : α → Bool) :
    ∃ l' : ArrayList α, filter l pred = .ret l' ∧ l'.Holds (xs.filter pred) := by
  refine h.forActive_ret _ _ (fun done (l' : ArrayList α) => l'.Holds (done.filter pred))
    ⟨rfl, ⟨_, rfl⟩, by simp [make, allocData]⟩ fun done x rest acc _ hacc => ?_
  rw [List.filter_append]
  by_cases hx : pred x = true
  · rw [if_pos hx, List.filter_cons_of_pos hx, List.filter_nil]
    exact hacc.add x
  · rw [if_neg hx, List.filter_cons_of_neg hx, List.filter_nil, List.append_nil]
    exact ⟨acc, rfl, hacc⟩

end Results

/-- A call on a list, with the arguments of its function. -/
inductive Call (α : Type) : Type 1 where
  | add (value : α)
  | insert (index : ℕ) (value : α)
  | removeAt (index : ℕ)
  | pop
  | update (index : ℕ) (value : α)
  | clear
  | retain (pred : α → Bool)
  | apply (f : α → α)
  | sort (cmp : α → α → ℤ)
  | reverse
  | copy
  | filter (pred : α → Bool)
  | map (β : Type) (zero : Inhabited β) (f : α → β)
  | mapi (β : Type) (zero : Inhabited β) (f : ℤ → α → β)
  | scan (β : Type) (zero : Inhabited β) (init : β) (f : β → α → β)
  | foldLeft (β : Type) (init : β) (f : β → α → β)
  | foldRight (β : Type) (init : β) (f : β → α → β)

/-- What a call returns. -/
def Call.Out : Call α → Type
  | .removeAt _ | .pop => α
  | .copy | .filter _ => ArrayList α
  | .map β _ _ | .mapi β _ _ | .scan β _ _ _ => ArrayList β
  | .foldLeft β _ _ | .foldRight β _ _ => β
  | _ => Unit

/-- The indices of a call are valid for the sequence. -/
def Call.Legal (xs : List α) : Call α → Prop
  | .insert index _ => index ≤ xs.length
  | .removeAt index | .update index _ => index < xs.length
  | .pop => xs ≠ []
  | _ => True

def perform [Inhabited α] (fuel : ℕ) (l : ArrayList α) : (c : Call α) → Exec (c.Out × ArrayList α)
  | .add value => do return ((), ← add l value)
  | .insert index value => do return ((), ← insert fuel l index value)
  | .removeAt index => removeAt fuel l index
  | .pop => pop l
  | .update index value => do return ((), ← update l index value)
  | .clear => .ret ((), clear l)
  | .retain pred => do return ((), ← retain l pred)
  | .apply f => do return ((), ← apply l f)
  | .sort cmp => do return ((), ← sort fuel l cmp)
  | .reverse => do return ((), ← reverse fuel l)
  | .copy => do return (← copy l, l)
  | .filter pred => do return (← filter l pred, l)
  | .map _ _ f => do return (← map l f, l)
  | .mapi _ _ f => do return (← mapi l f, l)
  | .scan _ _ init f => do return (← scan l init f, l)
  | .foldLeft _ init f => do return (← foldLeft l init f, l)
  | .foldRight _ init f => do return (← foldRight fuel l init f, l)

/-- What a call on a sequence answers, and what it makes of the sequence. -/
def Answers (xs : List α) : (c : Call α) → c.Out → List α → Prop
  | .add value, _, ys => ys = xs ++ [value]
  | .insert index value, _, ys => ys = xs.insertIdx index value
  | .removeAt index, out, ys => xs[index]? = some out ∧ ys = xs.eraseIdx index
  | .pop, out, ys => xs = ys ++ ([out] : List α)
  | .update index value, _, ys => ys = xs.set index value
  | .clear, _, ys => ys = []
  | .retain pred, _, ys => ys = xs.filter pred
  | .apply f, _, ys => ys = xs.map f
  | .sort cmp, _, ys => ys.Perm xs ∧
      (Slices.Consistent cmp → ys.Pairwise fun x y => cmp x y ≤ 0)
  | .reverse, _, ys => ys = xs.reverse
  | .copy, out, ys => out.Holds xs ∧ ys = xs
  | .filter pred, out, ys => out.Holds (xs.filter pred) ∧ ys = xs
  | .map _ _ f, out, ys => out.Holds (xs.map f) ∧ ys = xs
  | .mapi _ _ f, out, ys => out.Holds (xs.mapIdx fun i x => f i x) ∧ ys = xs
  | .scan _ _ init f, out, ys => out.Holds (xs.scanl f init) ∧ ys = xs
  | .foldLeft _ init f, out, ys => out = xs.foldl f init ∧ ys = xs
  | .foldRight _ init f, out, ys => out = xs.foldr (fun x acc => f acc x) init ∧ ys = xs

section Runs
variable {l : ArrayList α} {xs : List α}

/-- The active elements of a list. -/
def elems (l : ArrayList α) : List α := l.data.take l.len.toNat

theorem Holds.elems_eq (h : l.Holds xs) : l.elems = xs := by
  obtain ⟨spare, hdata⟩ := h.active
  rw [elems, hdata, h.len, Int.toNat_natCast, List.take_left]

theorem holds_elems (hv : l.Valid) (hcap : 0 < l.data.length) : l.Holds l.elems := by
  obtain ⟨h0, hle⟩ := hv
  refine ⟨?_, ⟨_, (List.take_append_drop _ _).symm⟩, hcap⟩
  rw [elems, List.length_take]
  omega

/-- A call that changes the list and returns nothing. -/
theorem changes_within {c : Call α} {run : Exec (ArrayList α)} {out : c.Out} {p : Prop}
    {ys : List α} (h : Within p (fun l' => l'.Holds ys) run) (ha : Answers xs c out ys) :
    Within p (fun r => ∃ ys, r.2.Holds ys ∧ Answers xs c r.1 ys) (run >>= fun l' => .ret (out, l')) :=
  h.bind fun _ hl' => .ret ⟨ys, hl', ha⟩

/-- A call that returns something and leaves the list. -/
theorem yields_within {c : Call α} {run : Exec c.Out} {p : Prop} (hl : l.Holds xs)
    (h : Within p (fun out => Answers xs c out xs) run) :
    Within p (fun r => ∃ ys, r.2.Holds ys ∧ Answers xs c r.1 ys) (run >>= fun out => .ret (out, l)) :=
  h.bind fun _ hout => .ret ⟨xs, hl, hout⟩

variable [Inhabited α]

/-- A legal call answers what the sequence answers. -/
theorem perform_within (h : l.Holds xs) (c : Call α) (hc : c.Legal xs) (fuel : ℕ) :
    Within (xs.length < fuel) (fun r => ∃ ys, r.2.Holds ys ∧ Answers xs c r.1 ys)
      (perform fuel l c) := by
  cases c with
  | add value => exact changes_within (.inl (h.add value)) rfl
  | insert index value => exact changes_within (h.insert_within hc value fuel) rfl
  | removeAt index =>
    refine (h.removeAt_within hc fuel).mono (fun h => h) ?_
    rintro ⟨out, l'⟩ ⟨hout, hl'⟩
    exact ⟨_, hl', (List.getElem?_eq_getElem hc).trans (congrArg some hout.symm), rfl⟩
  | pop =>
    obtain ⟨ys, value, rfl⟩ := (List.eq_nil_or_concat' xs).resolve_left hc
    obtain ⟨l', hrun, hl'⟩ := h.pop
    exact .inl ⟨(value, l'), hrun, ys, hl', rfl⟩
  | update index value => exact changes_within (.inl (h.update hc value)) rfl
  | clear => exact .ret ⟨[], h.clear, rfl⟩
  | retain pred => exact changes_within (.inl (h.retain pred)) rfl
  | apply f => exact changes_within (.inl (h.apply f)) rfl
  | sort cmp =>
    refine (h.sort_within cmp fuel).bind ?_
    rintro l' ⟨ys, hl', hys⟩
    exact .ret ⟨ys, hl', hys⟩
  | reverse => exact changes_within (h.reverse_within fuel) rfl
  | copy =>
    obtain ⟨l', hrun, hl'⟩ := h.copy
    exact yields_within h (.inl ⟨l', hrun, hl', rfl⟩)
  | filter pred =>
    obtain ⟨l', hrun, hl'⟩ := h.filter pred
    exact yields_within h (.inl ⟨l', hrun, hl', rfl⟩)
  | map β zero f =>
    obtain ⟨l', hrun, hl'⟩ := h.map f
    exact yields_within h (.inl ⟨l', hrun, hl', rfl⟩)
  | mapi β zero f =>
    obtain ⟨l', hrun, hl'⟩ := h.mapi f
    exact yields_within h (.inl ⟨l', hrun, hl', rfl⟩)
  | scan β zero init f =>
    obtain ⟨l', hrun, hl'⟩ := h.scan init f
    exact yields_within h (.inl ⟨l', hrun, hl', rfl⟩)
  | foldLeft β init f => exact yields_within h (.inl ⟨_, h.foldLeft init f, rfl, rfl⟩)
  | foldRight β init f =>
    exact yields_within h ((h.foldRight_within init f fuel).mono (fun h => h) fun _ hout =>
      ⟨hout, rfl⟩)

/-- Over the calls of a history, each of them legal for the elements there are, the list does what
the sequence of its elements does; a call ends for every budget beyond the number of elements. -/
def Refines : ArrayList α → List (Call α) → Prop
  | _, [] => True
  | l, c :: cs => c.Legal l.elems → ∀ fuel, Within (l.elems.length < fuel)
      (fun r => r.2.Valid ∧ Answers l.elems c r.1 r.2.elems ∧ Refines r.2 cs) (perform fuel l c)

theorem Holds.refines (h : l.Holds xs) (cs : List (Call α)) : Refines l cs := by
  induction cs generalizing l xs with
  | nil => trivial
  | cons c cs ih =>
    intro hc fuel
    rw [h.elems_eq] at hc ⊢
    refine (perform_within h c hc fuel).mono (fun h => h) ?_
    rintro ⟨out, l'⟩ ⟨ys, hl', hout⟩
    have hvalid : l'.Valid := by
      obtain ⟨spare, hdata⟩ := hl'.active
      refine ⟨by rw [hl'.len]; omega, ?_⟩
      rw [hl'.len, hdata, List.length_append]
      omega
    exact ⟨hvalid, by rw [hl'.elems_eq]; exact hout, ih hl'⟩

/-- A list of some capacity whose length is in bounds refines a finite sequence. -/
theorem refines_list (hv : l.Valid) (hcap : 0 < l.data.length) (cs : List (Call α)) :
    Refines l cs :=
  (holds_elems hv hcap).refines cs

theorem refines_list_once :
    Refines (make : ArrayList ℤ) [.add 5, .insert 0 7, .foldRight ℤ 0 fun acc x => 2 * acc + x] :=
  refines_list ⟨le_rfl, by simp [make]⟩ (by simp [make, allocData]) _

/-- A buffer without capacity stays without it when it grows, so that an element has no place. -/
theorem no_capacity_no_growth :
    ¬∀ l : ArrayList ℤ, l.Valid → ∀ cs, Refines l cs := by
  intro h
  have hrun := h ⟨[], 0⟩ ⟨le_rfl, le_rfl⟩ [.add 5] trivial 1
  exact hrun.ne_abort rfl

end Runs
end FcLang.Data.ArrayList
