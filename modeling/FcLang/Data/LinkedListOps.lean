import FcLang.Data.LinkedListChain

/-!
# What the operations of linked_list do

Each operation is followed on the list of nodes the header holds: it neither
touches a node that is not live nor leaves the chain broken.
-/

namespace FcLang.Data.LinkedList
open Exec
variable {α : Type} {base : ℕ → Option (DlNode α)} {s : State α}

theorem allocNode_ret (s : State α) (v : α) (p q : Option ℕ) :
    ∃ n s', allocNode s v p q = .ret (n, s') ∧ s'.2 = s.2 ∧ s.1.cells n = none ∧
      s'.1.cells = Function.update s.1.cells n (some { value := v, prev := p, next := q }) := by
  obtain ⟨h₁, hmod₁, hcells₁⟩ := Heap.modify_ret
    (h := (s.1.alloc { value := v, prev := none, next := none }).2)
    (Function.update_self _ _ _) fun x : DlNode α => { x with prev := p }
  have hat : h₁.cells s.1.bound = some { value := v, prev := p, next := none } := by
    rw [hcells₁]
    exact Function.update_self _ _ _
  obtain ⟨h₂, hmod₂, hcells₂⟩ := Heap.modify_ret hat fun x : DlNode α => { x with next := q }
  have hrun : allocNode s v p q = ((s.1.alloc { value := v, prev := none, next := none }).2.modify
      s.1.bound (fun x => { x with prev := p }) >>= fun h =>
        h.modify s.1.bound (fun x => { x with next := q }) >>= fun h =>
          .ret (s.1.bound, (h, s.2))) := rfl
  refine ⟨s.1.bound, (h₂, s.2), ?_, rfl, s.1.fresh _ le_rfl, ?_⟩
  · rw [hrun, hmod₁, ret_bind, hmod₂, ret_bind]
  · rw [hcells₂, hcells₁]
    simp only [Heap.alloc, Function.update_idem]

section Insertions
variable {pre post : List (ℕ × α)}

/-- A new node leaves a gap as it was. -/
theorem Holds.gap_alloc (h : Holds base s (pre ++ post)) {s' : State α} {n : ℕ}
    {c : Option (DlNode α)} (hfresh : s.1.cells n = none) (hlist : s'.2 = s.2)
    (hcells : s'.1.cells = Function.update s.1.cells n c) :
    Gap s' pre post (firstAddr post none) (lastAddr none pre) ∧ n ∉ addrs pre ++ addrs post := by
  have hn : n ∉ addrs pre ++ addrs post := by
    rw [← addrs_append]
    exact fun hmem => h.seg.live hmem hfresh
  refine ⟨h.gap.congr (fun b hb => ?_) (by rw [hlist]) (by rw [hlist]), hn⟩
  rw [hcells, Function.update_of_ne]
  rintro rfl
  exact hn hb

theorem prepend_ret {xs : List (ℕ × α)} (h : Holds base s xs) (v : α) :
    ∃ n s', prepend s v = .ret s' ∧ Holds base s' ((n, v) :: xs) := by
  obtain ⟨n, s₁, halloc, hlist, hfresh, hcells⟩ := allocNode_ret s v none s.2.head
  have h' : Holds base s ([] ++ xs) := h
  obtain ⟨hgap, hn⟩ := h'.gap_alloc hfresh hlist hcells
  obtain ⟨s₂, hset, hgap₂, hsame, hlen⟩ := hgap.setPrevOf (some n)
  refine ⟨n, (s₂.1, (s₂.2.withHead (some n)).withLen (s₂.2.len + 1)), ?_, ?_⟩
  · rw [prepend, halloc, ret_bind]
    simp only [hlist, h.head, hset, ret_bind]
  · apply h'.inserted (n := n) (v := v)
    · exact ⟨trivial, hgap₂.right, rfl, hgap₂.tail, hgap₂.nodup⟩
    · simp only
      rw [hsame n (fun hmem => hn (by simpa using hmem)), hcells, Function.update_self, h.head]
      rfl
    · exact hfresh
    · intro b hb hbn
      simp only
      rw [hsame b (fun hmem => hb (by simpa using hmem)), hcells, Function.update_of_ne hbn]
    · rw [withLen_len, hlen, hlist]

theorem append_ret {xs : List (ℕ × α)} (h : Holds base s xs) (v : α) :
    ∃ n s', append s v = .ret s' ∧ Holds base s' (xs ++ [(n, v)]) := by
  obtain ⟨n, s₁, halloc, hlist, hfresh, hcells⟩ := allocNode_ret s v s.2.tail none
  have h' : Holds base s (xs ++ []) := by rwa [List.append_nil]
  obtain ⟨hgap, hn⟩ := h'.gap_alloc hfresh hlist hcells
  obtain ⟨s₂, hset, hgap₂, hsame, hlen⟩ := hgap.setNextOf (some n)
  refine ⟨n, (s₂.1, (s₂.2.withTail (some n)).withLen (s₂.2.len + 1)), ?_, ?_⟩
  · rw [append, halloc, ret_bind]
    simp only [hlist, h.tail, hset, ret_bind]
  · apply h'.inserted (n := n) (v := v)
    · exact ⟨hgap₂.left, trivial, hgap₂.head, rfl, hgap₂.nodup⟩
    · simp only
      rw [hsame n (fun hmem => hn (by simpa using hmem)), hcells, Function.update_self, h.tail]
      rfl
    · exact hfresh
    · intro b hb hbn
      simp only
      rw [hsame b (fun hmem => hb (by simpa using hmem)), hcells, Function.update_of_ne hbn]
    · rw [withLen_len, hlen, hlist]

theorem insertBefore_ret {a : ℕ} {w : α} (h : Holds base s (pre ++ (a, w) :: post)) (v : α) :
    ∃ n s', insertBefore s a v = .ret s' ∧ Holds base s' (pre ++ (n, v) :: (a, w) :: post) := by
  have hread := Heap.read_ret h.node
  obtain ⟨n, s₁, halloc, hlist, hfresh, hcells⟩ := allocNode_ret s v (lastAddr none pre) (some a)
  obtain ⟨hgap, hn⟩ := h.gap_alloc hfresh hlist hcells
  obtain ⟨s₂, hnext, hgap₂, hsame₂, hlen₂⟩ := hgap.setNextOf (some n)
  obtain ⟨s₃, hprev, hgap₃, hsame₃, hlen₃⟩ := hgap₂.setPrevOf (some n)
  refine ⟨n, (s₃.1, s₃.2.withLen (s₃.2.len + 1)), ?_, ?_⟩
  · obtain ⟨h₃, hmod, hs₃⟩ := bind_eq_ret.mp hprev
    cases hs₃
    rw [insertBefore, hread, ret_bind]
    simp only [halloc, ret_bind, hnext, hmod]
  · apply h.inserted (n := n) (v := v)
    · exact ⟨hgap₃.left, hgap₃.right, hgap₃.head, hgap₃.tail, hgap₃.nodup⟩
    · simp only
      rw [hsame₃ n (fun hmem => hn (List.mem_append_right _ hmem)),
        hsame₂ n (fun hmem => hn (List.mem_append_left _ hmem)), hcells, Function.update_self]
      rfl
    · exact hfresh
    · intro b hb hbn
      simp only
      rw [hsame₃ b (fun hmem => hb (List.mem_append_right _ hmem)),
        hsame₂ b (fun hmem => hb (List.mem_append_left _ hmem)), hcells,
        Function.update_of_ne hbn]
    · rw [withLen_len, hlen₃, hlen₂, hlist]

/-- The node that the walk of `insert` is at after `d` rounds. -/
theorem insertBody_next {a : ℕ} {w : α} (h : Holds base s (pre ++ (a, w) :: post)) {index i : ℤ}
    (hi : i ≠ index) (v : α) :
    insertBody s index v (some a, i) = .ret (.inl (firstAddr post none, i + 1)) := by
  rw [insertBody, if_neg hi, Heap.read_ret h.node, ret_bind]

theorem insert_within {xs : List (ℕ × α)} (h : Holds base s xs) (index : ℤ) (v : α) (fuel : ℕ) :
    Within (xs.length < fuel)
      (fun s' => ∃ n, Holds base s' (xs.take (min index.toNat xs.length) ++
        (n, v) :: xs.drop (min index.toNat xs.length)))
      (insert fuel s index v) := by
  rw [insert]
  by_cases h0 : index ≤ 0
  · rw [if_pos h0]
    obtain ⟨n, s', hrun, hs'⟩ := prepend_ret h v
    rw [hrun, Int.toNat_eq_zero.mpr h0]
    exact .ret ⟨n, by simpa using hs'⟩
  · rw [if_neg h0]
    by_cases hlen : index ≥ s.2.len
    · rw [if_pos hlen]
      obtain ⟨n, s', hrun, hs'⟩ := append_ret h v
      rw [h.len] at hlen
      rw [hrun, min_eq_right (by omega)]
      exact .ret ⟨n, by simpa using hs'⟩
    · rw [if_neg hlen]
      rw [h.len] at hlen
      obtain ⟨m, rfl⟩ := Int.eq_ofNat_of_zero_le (by omega : 0 ≤ index)
      have hm : m < xs.length := by omega
      have hsplit : ∀ d (hd : d < xs.length),
          xs = xs.take d ++ (xs[d].1, xs[d].2) :: xs.drop (d + 1) := fun d hd => by simp
      have haddr : ∀ d (hd : d < xs.length), firstAddr (xs.drop d) none = some xs[d].1 := by
        intro d hd
        rw [List.drop_eq_getElem_cons hd]
        rfl
      have hnode : Holds base s (xs.take m ++ (xs[m].1, xs[m].2) :: xs.drop (m + 1)) := by
        rwa [← hsplit m hm]
      obtain ⟨n, s', hins, hs'⟩ := insertBefore_ret hnode v
      rw [Int.toNat_natCast, min_eq_left hm.le, h.head]
      refine (loop_walk (fun d => (firstAddr (xs.drop d) none, (d : ℤ))) (n := m) (r := s')
        (fun d hd => ?_) ?_ ⟨n, ?_⟩ fuel).mono (fun hf => by omega) fun _ hq => hq
      · have hd' : Holds base s (xs.take d ++ (xs[d].1, xs[d].2) :: xs.drop (d + 1)) := by
          rwa [← hsplit d (by omega)]
        simp only [haddr d (by omega), insertBody_next hd' (by omega : (d : ℤ) ≠ m)]
        push_cast
        rfl
      · simp only [haddr m hm, insertBody, if_true, hins, ret_bind]
      · rw [List.drop_eq_getElem_cons hm]
        exact hs'

end Insertions

section Removals
variable {pre post : List (ℕ × α)} {a : ℕ} {v : α}

/-- Freeing an unlinked node. -/
theorem Holds.freed (h : Holds base s (pre ++ (a, v) :: post)) {s' : State α}
    (hgap : Gap s' pre post (firstAddr post none) (lastAddr none pre))
    (hsame : ∀ b ∉ addrs pre ++ addrs post, s'.1.cells b = s.1.cells b)
    (hlen : s'.2.len = s.2.len) :
    ∃ h', s'.1.free a = .ret h' ∧
      Holds base (h', s'.2.withLen (s'.2.len - 1)) (pre ++ post) := by
  have hnode : s'.1.cells a = some _ := (hsame a h.not_mem).trans h.node
  obtain ⟨h', hfree, hcells⟩ := Heap.free_ret hnode
  refine ⟨h', hfree, h.removed ?_ ?_ ?_ ?_⟩
  · refine hgap.congr (fun b hb => ?_) rfl rfl
    simp only [hcells]
    rw [Function.update_of_ne]
    rintro rfl
    exact h.not_mem hb
  · simp only [hcells, Function.update_self]
  · intro b hb hba
    simp only [hcells]
    rw [Function.update_of_ne hba, hsame b hb]
  · rw [withLen_len, hlen]

/-- What a pop answers for the value it took off, if there was one. -/
def answer (isNull : α → Bool) : Option α → Exec (Option α)
  | none => .ret none
  | some val => someOf isNull val

theorem answer_ret {isNull : α → Bool} {out : Option α} (h : ∀ v ∈ out, isNull v ≠ true) :
    answer isNull out = .ret out := by
  cases out with
  | none => rfl
  | some val => exact if_neg (h val rfl)

theorem answer_abort {isNull : α → Bool} {out : Option α} (h : ∃ v ∈ out, isNull v = true) :
    answer isNull out = .abort := by
  obtain ⟨v, rfl, hv⟩ := h
  exact if_pos hv

/-- A pop of the head follows its links and frees it before it makes the option of its value. -/
theorem popFirst_eq {xs : List (ℕ × α)} (h : Holds base s xs) (isNull : α → Bool) :
    ∃ s', Holds base s' xs.tail ∧ popFirst isNull s =
      answer isNull (xs.map Prod.snd).head? >>= fun val => .ret (val, s') := by
  cases xs with
  | nil =>
    refine ⟨s, h, ?_⟩
    rw [popFirst, h.head]
    rfl
  | cons x post =>
    obtain ⟨a, v⟩ := x
    have h' : Holds base s ([] ++ (a, v) :: post) := h
    have hgap := h'.gap_around
    have hmoved : Gap (s.1, s.2.withHead (firstAddr post none)) [] post
        (firstAddr post none) (some a) := ⟨trivial, hgap.right, rfl, hgap.tail, hgap.nodup⟩
    obtain ⟨s₁, hset, hgap₁, hsame, hlen⟩ := hmoved.setPrevOf none
    obtain ⟨h₂, hfree, hs₂⟩ := h'.freed hgap₁ (fun b hb => hsame b (by simpa using hb)) hlen
    refine ⟨_, hs₂, ?_⟩
    rw [popFirst, h.head]
    simp only [firstAddr_cons, Heap.read_ret h'.node, ret_bind, hset, hfree]
    rfl

theorem popLast_eq {xs : List (ℕ × α)} (h : Holds base s xs) (isNull : α → Bool) :
    ∃ s', Holds base s' xs.dropLast ∧ popLast isNull s =
      answer isNull (xs.map Prod.snd).getLast? >>= fun val => .ret (val, s') := by
  rcases List.eq_nil_or_concat xs with rfl | ⟨pre, ⟨a, v⟩, rfl⟩
  · refine ⟨s, h, ?_⟩
    rw [popLast, h.tail]
    rfl
  · rw [List.concat_eq_append] at *
    have hgap := h.gap_around
    have hmoved : Gap (s.1, s.2.withTail (lastAddr none pre)) pre []
        (some a) (lastAddr none pre) := ⟨hgap.left, trivial, hgap.head, rfl, hgap.nodup⟩
    obtain ⟨s₁, hset, hgap₁, hsame, hlen⟩ := hmoved.setNextOf none
    obtain ⟨h₂, hfree, hs₂⟩ := h.freed hgap₁ (fun b hb => hsame b (by simpa using hb)) hlen
    rw [List.append_nil] at hs₂
    refine ⟨(h₂, s₁.2.withLen (s₁.2.len - 1)), by rwa [List.dropLast_concat], ?_⟩
    rw [popLast, h.tail, lastAddr_append]
    simp only [lastAddr_cons, lastAddr_nil, Heap.read_ret h.node, ret_bind, hset, hfree,
      List.map_append, List.map_cons, List.map_nil, List.getLast?_concat]
    rfl

theorem unlink_ret (h : Holds base s (pre ++ (a, v) :: post)) :
    ∃ s', unlink s a = .ret s' ∧ Gap s' pre post (firstAddr post none) (lastAddr none pre) ∧
      (∀ b ∉ addrs pre ++ addrs post, s'.1.cells b = s.1.cells b) ∧ s'.2.len = s.2.len := by
  obtain ⟨s₁, hnext, hgap₁, hsame₁, hlen₁⟩ := h.gap_around.setNextOf (firstAddr post none)
  obtain ⟨s₂, hprev, hgap₂, hsame₂, hlen₂⟩ := hgap₁.setPrevOf (lastAddr none pre)
  have hnode : s₁.1.cells a = s.1.cells a :=
    hsame₁ a fun hmem => h.not_mem (List.mem_append_left _ hmem)
  refine ⟨s₂, ?_, hgap₂, fun b hb => ?_, hlen₂.trans hlen₁⟩
  · rw [unlink, Heap.read_ret h.node, ret_bind, hnext, ret_bind,
      Heap.read_ret (hnode.trans h.node), ret_bind, hprev]
  · rw [hsame₂ b fun hmem => hb (List.mem_append_right _ hmem),
      hsame₁ b fun hmem => hb (List.mem_append_left _ hmem)]

end Removals
section Walks

/-- A loop over the nodes of a list, from state to state along the chain. -/
theorem chain_loop {σ ρ : Type} {body : Option ℕ × σ → Exec ((Option ℕ × σ) ⊕ ρ)}
    {xs : List (ℕ × α)} (I : List (ℕ × α) → List (ℕ × α) → σ → Prop) {Q : ρ → Prop} {t : σ}
    (hstart : I [] xs t)
    (hbody : ∀ done a v rest t, xs = done ++ (a, v) :: rest → I done ((a, v) :: rest) t →
      ∃ t', body (some a, t) = .ret (.inl (firstAddr rest none, t')) ∧ I (done ++ [(a, v)]) rest t')
    (hend : ∀ t, I xs [] t → ∃ r, body (none, t) = .ret (.inr r) ∧ Q r) (fuel : ℕ) :
    Within (xs.length < fuel) Q (loop body fuel (firstAddr xs none, t)) := by
  apply loop_within fun n (r : Option ℕ × σ) => ∃ done rest, xs = done ++ rest ∧
    rest.length = n ∧ r.1 = firstAddr rest none ∧ I done rest r.2
  · rintro n ⟨p, t⟩ ⟨done, rest, hsplit, rfl, rfl, hI⟩
    cases rest with
    | nil =>
      rw [List.append_nil] at hsplit
      subst hsplit
      exact .inr (hend t hI)
    | cons x rest =>
      obtain ⟨a, v⟩ := x
      obtain ⟨t', hrun, hI'⟩ := hbody done a v rest t hsplit hI
      exact .inl ⟨_, hrun, rest.length, Nat.lt_succ_self _, done ++ [(a, v)], rest,
        by rw [hsplit, List.append_cons], rfl, rfl, hI'⟩
  · exact ⟨[], xs, rfl, rfl, rfl, hstart⟩

/-- A node of the list with its value changed. -/
theorem Holds.setValue {pre post : List (ℕ × α)} {a : ℕ} {v : α}
    (h : Holds base s (pre ++ (a, v) :: post)) (v' : α) {h' : Heap (DlNode α)}
    (hcells : h'.cells = Function.update s.1.cells a
      (some { value := v', prev := lastAddr none pre, next := firstAddr post none })) :
    Holds base (h', s.2) (pre ++ (a, v') :: post) := by
  have hmem := h.not_mem
  rw [List.mem_append, not_or] at hmem
  constructor
  · rw [hcells]
    exact h.seg.setValue hmem.1 hmem.2 v'
  · rw [h.head, firstAddr_append, firstAddr_append, firstAddr_cons, firstAddr_cons]
  · rw [h.tail, lastAddr_append, lastAddr_append, lastAddr_cons, lastAddr_cons]
  · rw [h.len]
    simp
  · have hnodup := h.nodup
    simpa using hnodup
  · have hunused := h.unused
    simpa using hunused
  · intro b hb
    have hframe := h.frame b
    simp only [addrs_append, addrs_cons] at hb hframe
    rw [hcells, Function.update_of_ne, hframe hb]
    rintro rfl
    exact hb (by simp)

/-- Storing a value in the node the walk is at, and going on. -/
theorem store_ret {pre post : List (ℕ × α)} {a : ℕ} {v : α}
    (h : Holds base s (pre ++ (a, v) :: post)) (f : DlNode α → DlNode α) (v' : α)
    (hf : f { value := v, prev := lastAddr none pre, next := firstAddr post none } =
      { value := v', prev := lastAddr none pre, next := firstAddr post none }) :
    ∃ h', s.1.modify a f = .ret h' ∧ Holds base (h', s.2) (pre ++ (a, v') :: post) := by
  obtain ⟨h', hmod, hcells⟩ := Heap.modify_ret h.node f
  rw [hf] at hcells
  exact ⟨h', hmod, h.setValue v' hcells⟩

theorem apply_within {xs : List (ℕ × α)} (h : Holds base s xs) (f : α → α) (fuel : ℕ) :
    Within (xs.length < fuel) (fun s' => Holds base s' (xs.map fun x => (x.1, f x.2)))
      (apply fuel s f) := by
  rw [apply, h.head]
  have hloop : Within (xs.length < fuel)
      (fun h' => Holds base (h', s.2) (xs.map fun x => (x.1, f x.2)))
      (loop (applyBody f) fuel (firstAddr xs none, s.1)) := by
    apply chain_loop fun done rest h' =>
      Holds base (h', s.2) (done.map (fun x => (x.1, f x.2)) ++ rest)
    · exact h
    · intro done a v rest t hsplit ht
      obtain ⟨t', hmod, ht'⟩ := store_ret ht (fun x => { x with value := f x.value }) (f v) rfl
      refine ⟨t', ?_, by simpa using ht'⟩
      simp only [applyBody, hmod, ret_bind, Heap.read_ret ht'.node]
    · intro t ht
      rw [List.append_nil] at ht
      exact ⟨t, rfl, ht⟩
  exact hloop.bind fun h' hh' => .ret hh'

theorem clear_within {xs : List (ℕ × α)} (h : Holds base s xs) (fuel : ℕ) :
    Within (xs.length < fuel) (fun s' => Holds base s' []) (clear fuel s) := by
  rw [clear, h.head]
  have hloop : Within (xs.length < fuel) (fun h' : Heap (DlNode α) => ∀ b, h'.cells b = base b)
      (loop clearBody fuel (firstAddr xs none, s.1)) := by
    apply chain_loop fun done rest (h' : Heap (DlNode α)) =>
      Seg h'.cells (lastAddr none done) rest none ∧ ∀ b ∉ addrs rest, h'.cells b = base b
    · exact ⟨h.seg, h.frame⟩
    · rintro done a v rest t hsplit ⟨⟨hnode, hrest⟩, hframe⟩
      obtain ⟨t', hfree, hcells⟩ := Heap.free_ret hnode
      have hx : a ∈ addrs xs := by simp [hsplit]
      have hnodup := h.nodup
      rw [hsplit, addrs_append, addrs_cons] at hnodup
      have ha : a ∉ addrs rest := (List.nodup_cons.mp (List.nodup_append.mp hnodup).2.1).1
      refine ⟨t', by simp only [clearBody, Heap.read_ret hnode, ret_bind, hfree], ?_, ?_⟩
      · rw [hcells, lastAddr_append]
        exact hrest.update ha none
      · intro b hb
        rw [hcells, Function.update_apply]
        by_cases hba : b = a
        · rw [if_pos hba, hba, h.unused a hx]
        · rw [if_neg hba]
          exact hframe b (by simp [hba, hb])
    · rintro t ⟨-, ht⟩
      exact ⟨t, rfl, fun b => ht b (by simp)⟩
  refine hloop.bind fun h' hh' => .ret ⟨trivial, rfl, rfl, rfl, List.nodup_nil, ?_, fun b _ => hh' b⟩
  intro b hb
  cases hb

@[simp] theorem firstAddr_reverse (xs : List (ℕ × α)) :
    firstAddr xs.reverse none = lastAddr none xs := by
  rcases List.eq_nil_or_concat xs with rfl | ⟨pre, ⟨a, v⟩, rfl⟩
  · rfl
  · simp

@[simp] theorem lastAddr_reverse (xs : List (ℕ × α)) :
    lastAddr none xs.reverse = firstAddr xs none := by
  cases xs with
  | nil => rfl
  | cons x xs =>
    obtain ⟨a, v⟩ := x
    rw [List.reverse_cons, lastAddr_append]
    rfl

@[simp] theorem addrs_reverse (xs : List (ℕ × α)) : addrs xs.reverse = (addrs xs).reverse :=
  List.map_reverse

theorem reverse_within {xs : List (ℕ × α)} (h : Holds base s xs) (fuel : ℕ) :
    Within (xs.length < fuel) (fun s' => Holds base s' xs.reverse) (reverse fuel s) := by
  rw [reverse, h.head]
  have hloop : Within (xs.length < fuel) (fun h' : Heap (DlNode α) =>
      Seg h'.cells none xs.reverse none ∧ ∀ b ∉ addrs xs, h'.cells b = base b)
      (loop reverseBody fuel (firstAddr xs none, s.1)) := by
    -- the nodes walked over form the reversed chain, still linked to the rest on both sides
    apply chain_loop fun done rest (h' : Heap (DlNode α)) =>
      Seg h'.cells (firstAddr rest none) done.reverse none ∧
        Seg h'.cells (lastAddr none done) rest none ∧ ∀ b ∉ addrs xs, h'.cells b = base b
    · exact ⟨trivial, h.seg, h.frame⟩
    · rintro done a v rest t hsplit ⟨hdone, ⟨hnode, hrest⟩, hframe⟩
      obtain ⟨t₁, hmod₁, hcells₁⟩ := Heap.modify_ret hnode fun x : DlNode α =>
        { x with next := lastAddr none done }
      have hnode₁ : t₁.cells a =
          some { value := v, prev := lastAddr none done, next := lastAddr none done } := by
        rw [hcells₁, Function.update_self]
      obtain ⟨t₂, hmod₂, hcells₂⟩ := Heap.modify_ret hnode₁ fun x : DlNode α =>
        { x with prev := firstAddr rest none }
      rw [hcells₁, Function.update_idem] at hcells₂
      have hnodup := h.nodup
      rw [hsplit, addrs_append, addrs_cons] at hnodup
      have hmem := (List.nodup_cons.mp (List.nodup_middle.mp hnodup)).1
      rw [List.mem_append, not_or] at hmem
      refine ⟨t₂, by simp only [reverseBody, Heap.read_ret hnode, ret_bind, hmod₁, hmod₂], ?_, ?_, ?_⟩
      · rw [hcells₂, List.reverse_append]
        refine ⟨?_, ?_⟩
        · rw [Function.update_self]
          simp
        · exact hdone.update (by simpa using hmem.1) _
      · rw [hcells₂, lastAddr_append]
        exact hrest.update hmem.2 _
      · intro b hb
        rw [hcells₂, Function.update_of_ne, hframe b hb]
        rintro rfl
        exact hb (by simp [hsplit])
    · rintro t ⟨hdone, -, hframe⟩
      exact ⟨t, rfl, hdone, hframe⟩
  refine hloop.bind fun h' hh' => .ret ⟨hh'.1, ?_, ?_, ?_, ?_, ?_, ?_⟩
  · rw [withTail_head, withHead_head, h.tail, firstAddr_reverse]
  · rw [withTail_tail, lastAddr_reverse]
  · rw [withTail_len, withHead_len, h.len, List.length_reverse]
  · rw [addrs_reverse, List.nodup_reverse]
    exact h.nodup
  · intro b hb
    rw [addrs_reverse, List.mem_reverse] at hb
    exact h.unused b hb
  · intro b hb
    rw [addrs_reverse, List.mem_reverse] at hb
    exact hh'.2 b hb

theorem retain_within {xs : List (ℕ × α)} (h : Holds base s xs) (pred : α → Bool) (fuel : ℕ) :
    Within (xs.length < fuel) (fun s' => Holds base s' (xs.filter fun x => pred x.2))
      (retain fuel s pred) := by
  rw [retain, h.head]
  apply chain_loop fun done rest s' => Holds base s' (done.filter (fun x => pred x.2) ++ rest)
  · exact h
  · intro done a v rest t hsplit ht
    by_cases hp : pred v = true
    · refine ⟨t, ?_, ?_⟩
      · simp only [retainBody, Heap.read_ret ht.node, ret_bind, if_pos hp]
      · simpa [List.filter_append, hp] using ht
    · obtain ⟨t₁, hunlink, hgap, hsame, hlen⟩ := unlink_ret ht
      obtain ⟨h₂, hfree, ht₂⟩ := ht.freed hgap hsame hlen
      refine ⟨(h₂, t₁.2.withLen (t₁.2.len - 1)), ?_, ?_⟩
      · simp only [retainBody, Heap.read_ret ht.node, ret_bind, if_neg hp, hunlink, hfree]
      · simpa [List.filter_append, hp] using ht₂
  · intro t ht
    rw [List.append_nil] at ht
    exact ⟨t, rfl, ht⟩

theorem toSlice_within [Inhabited α] {xs : List (ℕ × α)} (h : Holds base s xs) (fuel : ℕ) :
    Within (xs.length < fuel) (fun values => values = xs.map Prod.snd) (toSlice fuel s) := by
  rw [toSlice, h.head, h.len, Int.toNat_natCast]
  apply chain_loop fun done rest (r : List α × ℤ) =>
    r = (done.map Prod.snd ++ List.replicate rest.length default, (done.length : ℤ)) ∧
      Seg s.1.cells (lastAddr none done) rest none
  · exact ⟨rfl, h.seg⟩
  · rintro done a v rest _ hsplit ⟨rfl, hnode, hrest⟩
    have hlt : done.length < (done.map Prod.snd ++
        List.replicate ((a, v) :: rest).length default).length := by simp
    refine ⟨(done.map Prod.snd ++ v :: List.replicate rest.length default, (done.length : ℤ) + 1),
      ?_, ?_, ?_⟩
    · simp only [toSliceBody, Heap.read_ret hnode, ret_bind, Slice.set_natCast hlt]
      rw [List.set_append_right _ _ (by simp)]
      simp [List.replicate_succ]
    · simp
    · rw [lastAddr_append]
      exact hrest
  · rintro _ ⟨rfl, -⟩
    exact ⟨_, rfl, by simp⟩

theorem write_within {xs : List (ℕ × α)} (h : Holds base s xs) {values : List α}
    (hlen : values.length = xs.length) (fuel : ℕ) :
    Within (xs.length < fuel) (fun h' => Holds base (h', s.2) ((addrs xs).zip values))
      (loop (writeBody values) fuel (firstAddr xs none, 0, s.1)) := by
  apply chain_loop fun done rest (r : ℤ × Heap (DlNode α)) => r.1 = done.length ∧
    Holds base (r.2, s.2) ((addrs done).zip (values.take done.length) ++ rest)
  · exact ⟨rfl, h⟩
  · rintro done a v rest ⟨_, t⟩ hsplit ⟨rfl, ht⟩
    have hlt : done.length < values.length := by
      rw [hlen, hsplit]
      simp
    have htake : values.take (done.length + 1) = values.take done.length ++ [values[done.length]] :=
      (List.take_append_getElem hlt).symm
    obtain ⟨t', hmod, ht'⟩ := store_ret ht (fun x => { x with value := values[done.length] })
      values[done.length] rfl
    refine ⟨((done.length : ℤ) + 1, t'), ?_, ?_, ?_⟩
    · simp only [writeBody, Slice.get_natCast hlt, hmod, ret_bind, Heap.read_ret ht'.node]
    · simp
    · rw [List.length_append, List.length_singleton, htake, addrs_append,
        List.zip_append (by simp [addrs]; omega), List.append_assoc]
      exact ht'
  · rintro ⟨_, t⟩ ⟨rfl, ht⟩
    rw [List.append_nil, ← hlen, List.take_length] at ht
    exact ⟨t, rfl, ht⟩

theorem sort_within [Inhabited α] {xs : List (ℕ × α)} (h : Holds base s xs) (cmp : α → α → ℤ)
    (fuel : ℕ) :
    Within (xs.length < fuel) (fun s' => ∃ values, Holds base s' ((addrs xs).zip values) ∧
        values.Perm (xs.map Prod.snd) ∧
        (Slices.Consistent cmp → values.Pairwise fun x y => cmp x y ≤ 0))
      (sort fuel s cmp) := by
  rw [sort, h.len]
  by_cases hle : (xs.length : ℤ) ≤ 1
  · rw [if_pos hle]
    refine .ret ⟨xs.map Prod.snd, ?_, .refl _, fun _ => ?_⟩
    · rw [addrs, ← List.unzip_fst, ← List.unzip_snd, List.zip_unzip]
      exact h
    · rw [List.pairwise_iff_getElem]
      intro i j hi hj hij
      rw [List.length_map] at hj
      omega
  · rw [if_neg hle, h.head]
    refine (toSlice_within h fuel).bind fun values hvalues => ?_
    subst hvalues
    refine ((Slices.sort_within cmp fuel _).mono (fun hf => by simpa using hf) fun _ hq => hq).bind
      fun values hvalues => ?_
    obtain ⟨hperm, hasc⟩ := hvalues
    have hlen : values.length = xs.length := by
      rw [hperm.length_eq, List.length_map]
    exact (write_within h hlen fuel).bind fun h' hh' => .ret ⟨values, hh', hperm, hasc⟩

end Walks
end FcLang.Data.LinkedList
