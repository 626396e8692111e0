import FcLang.Data.LinkedList

/-!
# Chains of nodes

A segment is a list of addresses and values whose nodes hold the values and
point at their neighbours. A list with a gap has the links around one position
free; insertions and removals open a gap and close it.
-/

namespace FcLang.Data.LinkedList
open Exec
variable {α : Type}

/-- The address of the first node of a segment, or `q` past its end. -/
def firstAddr (xs : List (ℕ × α)) (q : Option ℕ) : Option ℕ :=
  match xs with
  | [] => q
  | (a, _) :: _ => some a

/-- The address of the last node of a segment, or `p` before its start. -/
def lastAddr (p : Option ℕ) : List (ℕ × α) → Option ℕ
  | [] => p
  | (a, _) :: xs => lastAddr (some a) xs

def addrs (xs : List (ℕ × α)) : List ℕ := xs.map Prod.fst

/-- The nodes of `xs` form a segment between the links `p` and `q`. -/
def Seg (cells : ℕ → Option (DlNode α)) (p : Option ℕ) (xs : List (ℕ × α)) (q : Option ℕ) : Prop :=
  match xs with
  | [] => True
  | (a, v) :: xs =>
    cells a = some { value := v, prev := p, next := firstAddr xs q } ∧ Seg cells (some a) xs q

section Segments
variable {cells cells' : ℕ → Option (DlNode α)} {p q : Option ℕ} {xs ys : List (ℕ × α)}

@[simp] theorem firstAddr_cons (a : ℕ) (v : α) : firstAddr ((a, v) :: xs) q = some a := rfl

@[simp] theorem lastAddr_nil : lastAddr p ([] : List (ℕ × α)) = p := rfl

@[simp] theorem lastAddr_cons (a : ℕ) (v : α) :
    lastAddr p ((a, v) :: xs) = lastAddr (some a) xs := rfl

@[simp] theorem firstAddr_append :
    firstAddr (xs ++ ys) q = firstAddr xs (firstAddr ys q) := by
  cases xs <;> rfl

@[simp] theorem lastAddr_append : lastAddr p (xs ++ ys) = lastAddr (lastAddr p xs) ys := by
  induction xs generalizing p with
  | nil => rfl
  | cons x xs ih => exact ih

@[simp] theorem addrs_append : addrs (xs ++ ys) = addrs xs ++ addrs ys := List.map_append

@[simp] theorem addrs_cons (a : ℕ) (v : α) : addrs ((a, v) :: xs) = a :: addrs xs := rfl

@[simp] theorem addrs_nil : addrs ([] : List (ℕ × α)) = [] := rfl

theorem seg_append : Seg cells p (xs ++ ys) q ↔
    Seg cells p xs (firstAddr ys q) ∧ Seg cells (lastAddr p xs) ys q := by
  induction xs generalizing p with
  | nil => simp [Seg, lastAddr]
  | cons x xs ih =>
    obtain ⟨a, v⟩ := x
    simp only [List.cons_append, Seg, ih, lastAddr, firstAddr_append, and_assoc]

/-- A segment only depends on its own nodes. -/
theorem Seg.congr (h : Seg cells p xs q) (heq : ∀ a ∈ addrs xs, cells' a = cells a) :
    Seg cells' p xs q := by
  induction xs generalizing p with
  | nil => trivial
  | cons x xs ih =>
    obtain ⟨a, v⟩ := x
    obtain ⟨ha, hxs⟩ := h
    refine ⟨?_, ih hxs fun b hb => heq b (List.mem_cons_of_mem _ hb)⟩
    rw [heq a (List.mem_cons_self), ha]

theorem Seg.update (h : Seg cells p xs q) {a : ℕ} (ha : a ∉ addrs xs) (c : Option (DlNode α)) :
    Seg (Function.update cells a c) p xs q := by
  apply h.congr
  intro b hb
  rw [Function.update_of_ne]
  rintro rfl
  exact ha hb

/-- A segment with the backward link of its first node changed. -/
theorem Seg.setFirstPrev {a : ℕ} {v : α} (h : Seg cells p ((a, v) :: xs) q) (ha : a ∉ addrs xs)
    (p' : Option ℕ) :
    Seg (Function.update cells a (some { value := v, prev := p', next := firstAddr xs q })) p'
      ((a, v) :: xs) q :=
  ⟨Function.update_self _ _ _, h.2.update ha _⟩

/-- A segment with the forward link of its last node changed. -/
theorem Seg.setLastNext {a : ℕ} {v : α} (h : Seg cells p (xs ++ [(a, v)]) q) (ha : a ∉ addrs xs)
    (q' : Option ℕ) :
    Seg (Function.update cells a (some { value := v, prev := lastAddr p xs, next := q' })) p
      (xs ++ [(a, v)]) q' := by
  obtain ⟨hxs, -⟩ := seg_append.mp h
  rw [seg_append]
  exact ⟨hxs.update ha _, Function.update_self _ _ _, trivial⟩

/-- A node of a segment with its value changed. -/
theorem Seg.setValue {a : ℕ} {v : α} (h : Seg cells p (xs ++ (a, v) :: ys) q) (hxs : a ∉ addrs xs)
    (hys : a ∉ addrs ys) (v' : α) :
    Seg (Function.update cells a
      (some { value := v', prev := lastAddr p xs, next := firstAddr ys q })) p
      (xs ++ (a, v') :: ys) q := by
  obtain ⟨hleft, -, hright⟩ := seg_append.mp h
  rw [seg_append]
  exact ⟨hleft.update hxs _, Function.update_self _ _ _, hright.update hys _⟩

end Segments

/-- The nodes before and after a gap, and what the links around the gap hold: `x` the forward link
into it, `y` the backward link. -/
structure Gap (s : State α) (pre post : List (ℕ × α)) (x y : Option ℕ) : Prop where
  left : Seg s.1.cells none pre x
  right : Seg s.1.cells y post none
  head : s.2.head = firstAddr pre x
  tail : s.2.tail = lastAddr y post
  nodup : (addrs pre ++ addrs post).Nodup

section Gaps
variable {s : State α} {pre post : List (ℕ × α)} {x y : Option ℕ}

theorem Gap.congr (h : Gap s pre post x y) {s' : State α}
    (hcells : ∀ b ∈ addrs pre ++ addrs post, s'.1.cells b = s.1.cells b)
    (hhead : s'.2.head = s.2.head) (htail : s'.2.tail = s.2.tail) : Gap s' pre post x y := by
  refine ⟨h.left.congr fun b hb => ?_, h.right.congr fun b hb => ?_, ?_, ?_, h.nodup⟩
  · exact hcells b (List.mem_append_left _ hb)
  · exact hcells b (List.mem_append_right _ hb)
  · rw [hhead, h.head]
  · rw [htail, h.tail]

/-- Nothing but the nodes at `as` may differ between two states, and the length is the same. -/
def SameBut (as : List ℕ) (s s' : State α) : Prop :=
  (∀ b ∉ as, s'.1.cells b = s.1.cells b) ∧ s'.2.len = s.2.len

theorem Gap.setNextOf (h : Gap s pre post x y) (q : Option ℕ) :
    ∃ s', setNextOf s (lastAddr none pre) q = .ret s' ∧ Gap s' pre post q y ∧
      SameBut (addrs pre) s s' := by
  obtain ⟨hleft, hright, hhead, htail, hnodup⟩ := h
  rcases List.eq_nil_or_concat pre with rfl | ⟨init, ⟨a, v⟩, rfl⟩
  · exact ⟨_, rfl, ⟨trivial, hright, rfl, htail, hnodup⟩, fun _ _ => rfl, rfl⟩
  · rw [List.concat_eq_append] at *
    obtain ⟨-, hnode, -⟩ := seg_append.mp hleft
    obtain ⟨h', hmod, hcells⟩ := Heap.modify_ret hnode fun n : DlNode α => { n with next := q }
    obtain ⟨hpre, -, hdisj⟩ := List.nodup_append.mp hnodup
    have hainit : a ∉ addrs init := by
      rw [addrs_append, List.nodup_append] at hpre
      exact fun hmem => hpre.2.2 a hmem a (by simp) rfl
    have hapost : a ∉ addrs post := fun hmem => hdisj a (by simp) a hmem rfl
    refine ⟨(h', s.2), ?_, ⟨?_, ?_, ?_, htail, hnodup⟩, fun b hb => ?_, rfl⟩
    · simp only [lastAddr_append, lastAddr, LinkedList.setNextOf, hmod, ret_bind]
    · simp only [hcells]
      exact hleft.setLastNext hainit q
    · simp only [hcells]
      exact hright.update hapost _
    · rw [hhead, firstAddr_append, firstAddr_append]
      rfl
    · simp only [hcells]
      rw [Function.update_of_ne]
      rintro rfl
      exact hb (by simp)

theorem Gap.setPrevOf (h : Gap s pre post x y) (p : Option ℕ) :
    ∃ s', setPrevOf s (firstAddr post none) p = .ret s' ∧ Gap s' pre post x p ∧
      SameBut (addrs post) s s' := by
  obtain ⟨hleft, hright, hhead, htail, hnodup⟩ := h
  cases post with
  | nil => exact ⟨_, rfl, ⟨hleft, trivial, hhead, rfl, hnodup⟩, fun _ _ => rfl, rfl⟩
  | cons b post =>
    obtain ⟨a, v⟩ := b
    obtain ⟨h', hmod, hcells⟩ := Heap.modify_ret hright.1 fun n : DlNode α => { n with prev := p }
    obtain ⟨-, hpost, hdisj⟩ := List.nodup_append.mp hnodup
    have hapost : a ∉ addrs post := (List.nodup_cons.mp hpost).1
    have hapre : a ∉ addrs pre := fun hmem => hdisj a hmem a (by simp) rfl
    refine ⟨(h', s.2), ?_, ⟨?_, ?_, hhead, htail, hnodup⟩, fun b hb => ?_, rfl⟩
    · simp only [firstAddr, LinkedList.setPrevOf, hmod, ret_bind]
    · simp only [hcells]
      exact hleft.update hapre _
    · simp only [hcells]
      exact hright.setFirstPrev hapost p
    · simp only [hcells]
      rw [Function.update_of_ne]
      rintro rfl
      exact hb (by simp)

end Gaps

/-- The list holds the nodes of `xs` in order, and the heap is `base` elsewhere. -/
structure Holds (base : ℕ → Option (DlNode α)) (s : State α) (xs : List (ℕ × α)) : Prop where
  seg : Seg s.1.cells none xs none
  head : s.2.head = firstAddr xs none
  tail : s.2.tail = lastAddr none xs
  len : s.2.len = xs.length
  nodup : (addrs xs).Nodup
  unused : ∀ a ∈ addrs xs, base a = none
  frame : ∀ a ∉ addrs xs, s.1.cells a = base a

section Splices
variable {base : ℕ → Option (DlNode α)} {s : State α} {pre post : List (ℕ × α)}

/-- Between any two nodes there is a gap whose links are what they should be. -/
theorem Holds.gap (h : Holds base s (pre ++ post)) :
    Gap s pre post (firstAddr post none) (lastAddr none pre) := by
  obtain ⟨hleft, hright⟩ := seg_append.mp h.seg
  refine ⟨hleft, hright, ?_, ?_, ?_⟩
  · rw [h.head, firstAddr_append]
  · rw [h.tail, lastAddr_append]
  · have hnodup := h.nodup
    rwa [addrs_append] at hnodup

theorem Seg.live {cells : ℕ → Option (DlNode α)} {p q : Option ℕ} {xs : List (ℕ × α)}
    (h : Seg cells p xs q) {a : ℕ} (ha : a ∈ addrs xs) : cells a ≠ none := by
  induction xs generalizing p with
  | nil => cases ha
  | cons x xs ih =>
    obtain ⟨b, v⟩ := x
    rcases List.mem_cons.mp ha with rfl | hmem
    · rw [h.1]
      exact Option.some_ne_none _
    · exact ih h.2 hmem

/-- The state after a new node was put into the gap. -/
theorem Holds.inserted (h : Holds base s (pre ++ post)) {s' : State α} {n : ℕ} {v : α}
    (hgap : Gap s' pre post (some n) (some n))
    (hnode : s'.1.cells n =
      some { value := v, prev := lastAddr none pre, next := firstAddr post none })
    (hfresh : s.1.cells n = none)
    (hsame : ∀ b ∉ addrs pre ++ addrs post, b ≠ n → s'.1.cells b = s.1.cells b)
    (hlen : s'.2.len = s.2.len + 1) : Holds base s' (pre ++ (n, v) :: post) := by
  have hn : n ∉ addrs (pre ++ post) := fun hmem => h.seg.live hmem hfresh
  have hn' := hn
  rw [addrs_append, List.mem_append, not_or] at hn'
  constructor
  · rw [seg_append]
    exact ⟨hgap.left, hnode, hgap.right⟩
  · rw [hgap.head, firstAddr_append]
    rfl
  · rw [hgap.tail, lastAddr_append]
    rfl
  · rw [hlen, h.len]
    simp only [List.length_append, List.length_cons]
    push_cast
    ring
  · rw [addrs_append, addrs_cons]
    apply List.nodup_middle.mpr
    exact List.nodup_cons.mpr ⟨by rwa [addrs_append] at hn, hgap.nodup⟩
  · intro a ha
    rw [addrs_append, addrs_cons, List.mem_append, List.mem_cons] at ha
    have hold : a ∈ addrs (pre ++ post) → base a = none := h.unused a
    rw [addrs_append, List.mem_append] at hold
    rcases ha with ha | rfl | ha
    · exact hold (.inl ha)
    · rw [← h.frame a hn, hfresh]
    · exact hold (.inr ha)
  · intro a ha
    rw [addrs_append, addrs_cons, List.mem_append, List.mem_cons, not_or, not_or] at ha
    obtain ⟨hpre, hne, hpost⟩ := ha
    rw [hsame a (by simp [hpre, hpost]) hne, h.frame a (by simp [hpre, hpost])]

/-- The gap around a node of the list. -/
theorem Holds.gap_around {a : ℕ} {v : α} (h : Holds base s (pre ++ (a, v) :: post)) :
    Gap s pre post (some a) (some a) := by
  obtain ⟨hleft, -, hright⟩ := seg_append.mp h.seg
  refine ⟨hleft, hright, ?_, ?_, ?_⟩
  · rw [h.head, firstAddr_append]
    rfl
  · rw [h.tail, lastAddr_append]
    rfl
  · have hnodup := h.nodup
    rw [addrs_append, addrs_cons] at hnodup
    exact (List.nodup_cons.mp (List.nodup_middle.mp hnodup)).2

theorem Holds.not_mem {a : ℕ} {v : α} (h : Holds base s (pre ++ (a, v) :: post)) :
    a ∉ addrs pre ++ addrs post := by
  have hnodup := h.nodup
  rw [addrs_append, addrs_cons] at hnodup
  exact (List.nodup_cons.mp (List.nodup_middle.mp hnodup)).1

theorem Holds.node {a : ℕ} {v : α} (h : Holds base s (pre ++ (a, v) :: post)) :
    s.1.cells a = some { value := v, prev := lastAddr none pre, next := firstAddr post none } :=
  (seg_append.mp h.seg).2.1

/-- The state after a node was unlinked and freed. -/
theorem Holds.removed {a : ℕ} {v : α} (h : Holds base s (pre ++ (a, v) :: post)) {s' : State α}
    (hgap : Gap s' pre post (firstAddr post none) (lastAddr none pre))
    (hfree : s'.1.cells a = none)
    (hsame : ∀ b ∉ addrs pre ++ addrs post, b ≠ a → s'.1.cells b = s.1.cells b)
    (hlen : s'.2.len = s.2.len - 1) : Holds base s' (pre ++ post) := by
  constructor
  · rw [seg_append]
    exact ⟨hgap.left, hgap.right⟩
  · rw [hgap.head, firstAddr_append]
  · rw [hgap.tail, lastAddr_append]
  · rw [hlen, h.len]
    simp only [List.length_append, List.length_cons]
    push_cast
    ring
  · rw [addrs_append]
    exact hgap.nodup
  · intro b hb
    apply h.unused
    rw [addrs_append, List.mem_append] at hb
    rw [addrs_append, addrs_cons, List.mem_append, List.mem_cons]
    exact hb.imp_right .inr
  · intro b hb
    rw [addrs_append] at hb
    by_cases hba : b = a
    · subst hba
      rw [hfree, h.unused b (by simp)]
    · rw [hsame b hb hba]
      apply h.frame
      rw [addrs_append, addrs_cons, List.mem_append, List.mem_cons]
      rw [List.mem_append] at hb
      tauto

end Splices
end FcLang.Data.LinkedList
