import FcLang.Data.LinkedListOps
import FcLang.Lib.Runs

/-!
# linked_list refines a sequence

After every call the live nodes form one chain from the head to the tail, linked
both ways, and the values along it are those of the sequence that the calls
describe. A call aborts only where it pops a null pointer.
-/

namespace FcLang.Data.LinkedList
open Exec
variable {α : Type}

inductive Op (α : Type) where
  | prepend (value : α)
  | append (value : α)
  | insert (index : ℤ) (value : α)
  | popFirst
  | popLast
  | reverse
  | retain (pred : α → Bool)
  | sort (cmp : α → α → ℤ)
  | apply (f : α → α)
  | clear

/-- One call: what it popped, if anything, and the state it leaves. -/
def call [Inhabited α] (isNull : α → Bool) (fuel : ℕ) (s : State α) :
    Op α → Exec (Option α × State α)
  | .prepend value => prepend s value >>= fun s => .ret (none, s)
  | .append value => append s value >>= fun s => .ret (none, s)
  | .insert index value => insert fuel s index value >>= fun s => .ret (none, s)
  | .popFirst => popFirst isNull s
  | .popLast => popLast isNull s
  | .reverse => reverse fuel s >>= fun s => .ret (none, s)
  | .retain pred => retain fuel s pred >>= fun s => .ret (none, s)
  | .sort cmp => sort fuel s cmp >>= fun s => .ret (none, s)
  | .apply f => apply fuel s f >>= fun s => .ret (none, s)
  | .clear => clear fuel s >>= fun s => .ret (none, s)

/-- The value that a call takes off a sequence. -/
def popped (vs : List α) : Op α → Option α
  | .popFirst => vs.head?
  | .popLast => vs.getLast?
  | _ => none

/-- The call takes a null pointer off the sequence. -/
def PopsNull (isNull : α → Bool) (vs : List α) (op : Op α) : Prop :=
  ∃ v ∈ popped vs op, isNull v = true

/-- The same call on a sequence. -/
def SeqStep (vs : List α) (op : Op α) (out : Option α) (vs' : List α) : Prop :=
  match op with
  | .prepend value => out = none ∧ vs' = value :: vs
  | .append value => out = none ∧ vs' = vs ++ [value]
  | .insert index value => out = none ∧
      vs' = vs.take (min index.toNat vs.length) ++ value :: vs.drop (min index.toNat vs.length)
  | .popFirst => out = vs.head? ∧ vs' = vs.tail
  | .popLast => out = vs.getLast? ∧ vs' = vs.dropLast
  | .reverse => out = none ∧ vs' = vs.reverse
  | .retain pred => out = none ∧ vs' = vs.filter pred
  | .sort cmp => out = none ∧ vs'.Perm vs ∧
      (Slices.Consistent cmp → vs'.Pairwise fun x y => cmp x y ≤ 0)
  | .apply f => out = none ∧ vs' = vs.map f
  | .clear => out = none ∧ vs' = []

/-- The nodes reached from the head by following `next`. -/
inductive Reached (s : State α) : ℕ → Prop
  | head {a : ℕ} (h : s.2.head = some a) : Reached s a
  | next {a b : ℕ} {node : DlNode α} (ha : Reached s a) (hnode : s.1.cells a = some node)
      (hnext : node.next = some b) : Reached s b

/-- The nodes at `as`, allocated since `base`, form a doubly linked chain with the values `vs`. -/
structure WellFormed (base : ℕ → Option (DlNode α)) (s : State α) (as : List ℕ)
    (vs : List α) : Prop where
  nodup : as.Nodup
  node : ∀ i a, as[i]? = some a → ∃ v, vs[i]? = some v ∧ s.1.cells a =
    some { value := v, prev := if i = 0 then none else as[i - 1]?, next := as[i + 1]? }
  head : s.2.head = as.head?
  tail : s.2.tail = as.getLast?
  len : s.2.len = as.length
  length_eq : as.length = vs.length
  live : ∀ a, base a = none → (s.1.cells a ≠ none ↔ a ∈ as)
  frame : ∀ a, base a ≠ none → a ∉ as ∧ s.1.cells a = base a

section Chains
variable {base : ℕ → Option (DlNode α)} {s : State α} {xs : List (ℕ × α)}

theorem firstAddr_eq_head? (xs : List (ℕ × α)) : firstAddr xs none = (addrs xs).head? := by
  cases xs <;> rfl

theorem lastAddr_eq_getLast? (xs : List (ℕ × α)) : lastAddr none xs = (addrs xs).getLast? := by
  rcases List.eq_nil_or_concat xs with rfl | ⟨pre, ⟨a, v⟩, rfl⟩
  · rfl
  · simp

/-- The node of the list at position `i`, and its neighbours. -/
theorem Holds.node_at (h : Holds base s xs) {i : ℕ} (hi : i < xs.length) :
    s.1.cells xs[i].1 = some {
      value := xs[i].2
      prev := if i = 0 then none else (addrs xs)[i - 1]?
      next := (addrs xs)[i + 1]? } := by
  have hsplit : xs = xs.take i ++ (xs[i].1, xs[i].2) :: xs.drop (i + 1) := by simp
  have hnode : Holds base s (xs.take i ++ (xs[i].1, xs[i].2) :: xs.drop (i + 1)) := by
    rwa [← hsplit]
  have hprev : lastAddr none (xs.take i) = if i = 0 then none else (addrs xs)[i - 1]? := by
    simp only [lastAddr_eq_getLast?, addrs, List.map_take, List.getLast?_take]
    by_cases h0 : i = 0
    · rw [if_pos h0, if_pos h0]
    · have hlt : i - 1 < (xs.map Prod.fst).length := by
        rw [List.length_map]
        omega
      rw [if_neg h0, if_neg h0, List.getElem?_eq_getElem hlt]
      rfl
  have hnext : firstAddr (xs.drop (i + 1)) none = (addrs xs)[i + 1]? := by
    rw [firstAddr_eq_head?, addrs, List.map_drop, List.head?_drop]
    rfl
  rw [hnode.node, hprev, hnext]

theorem Holds.wellFormed (h : Holds base s xs) : WellFormed base s (addrs xs) (xs.map Prod.snd) := by
  constructor
  · exact h.nodup
  · intro i a ha
    obtain ⟨hi, -⟩ := List.getElem?_eq_some_iff.mp ha
    rw [addrs, List.length_map] at hi
    refine ⟨xs[i].2, by simp [hi], ?_⟩
    have hat : (addrs xs)[i]? = some xs[i].1 := by simp [addrs, hi]
    rw [hat] at ha
    cases ha
    exact h.node_at hi
  · rw [h.head, firstAddr_eq_head?]
  · rw [h.tail, lastAddr_eq_getLast?]
  · rw [h.len, addrs, List.length_map]
  · rw [addrs, List.length_map, List.length_map]
  · intro a ha
    by_cases hmem : a ∈ addrs xs
    · exact iff_of_true (h.seg.live hmem) hmem
    · rw [h.frame a hmem, ha]
      exact iff_of_false (fun hne => hne rfl) hmem
  · intro a ha
    have hmem : a ∉ addrs xs := fun hmem => ha (h.unused a hmem)
    exact ⟨hmem, h.frame a hmem⟩

theorem WellFormed.mem_of_reached {as : List ℕ} {vs : List α} (h : WellFormed base s as vs) {a : ℕ}
    (ha : Reached s a) : a ∈ as := by
  induction ha with
  | head hhead =>
    rw [h.head] at hhead
    exact List.mem_of_mem_head? hhead
  | next hreach hnode hnext ih =>
    obtain ⟨i, hi⟩ := List.mem_iff_getElem?.mp ih
    obtain ⟨v, -, hcell⟩ := h.node i _ hi
    rw [hcell] at hnode
    cases hnode
    exact List.mem_of_getElem? hnext

theorem WellFormed.reached_at {as : List ℕ} {vs : List α} (h : WellFormed base s as vs) {i a : ℕ}
    (ha : as[i]? = some a) : Reached s a := by
  induction i generalizing a with
  | zero => exact .head (by rw [h.head, List.head?_eq_getElem?, ha])
  | succ i ih =>
    have hlt : i < as.length := by
      obtain ⟨hlt, -⟩ := List.getElem?_eq_some_iff.mp ha
      omega
    obtain ⟨v, -, hcell⟩ := h.node i as[i] (List.getElem?_eq_getElem hlt)
    exact .next (ih (List.getElem?_eq_getElem hlt)) hcell ha

theorem WellFormed.reached_iff {as : List ℕ} {vs : List α} (h : WellFormed base s as vs) (a : ℕ) :
    Reached s a ↔ base a = none ∧ s.1.cells a ≠ none := by
  constructor
  · intro ha
    have hmem := h.mem_of_reached ha
    have hbase : base a = none := by
      by_contra hne
      exact (h.frame a hne).1 hmem
    exact ⟨hbase, (h.live a hbase).mpr hmem⟩
  · rintro ⟨hbase, hlive⟩
    obtain ⟨i, hi⟩ := List.mem_iff_getElem?.mp ((h.live a hbase).mp hlive)
    exact h.reached_at hi

end Chains

section Refinement
variable {base : ℕ → Option (DlNode α)} {s : State α} {xs : List (ℕ × α)}

/-- The abstract state of a list is the sequence of its values. -/
def Represents (base : ℕ → Option (DlNode α)) (s : State α) (vs : List α) : Prop :=
  ∃ xs, Holds base s xs ∧ vs = xs.map Prod.snd

theorem Holds.represents (h : Holds base s xs) : Represents base s (xs.map Prod.snd) := ⟨xs, h, rfl⟩

theorem make_holds (h : Heap (DlNode α)) : Holds h.cells (make h) [] := by
  refine ⟨trivial, rfl, rfl, rfl, List.nodup_nil, ?_, fun a _ => rfl⟩
  intro a ha
  cases ha

/-- An operation with no result, as a call. -/
theorem call_of_within {p : Prop} {Q : State α → Prop} {x : Exec (State α)} {op : Op α}
    {vs : List α} (hx : Within p Q x)
    (hQ : ∀ s', Q s' → ∃ vs', SeqStep vs op none vs' ∧ Represents base s' vs') :
    Within p (fun r : Option α × State α => ∃ vs', SeqStep vs op r.1 vs' ∧ Represents base r.2 vs')
      (x >>= fun s' => .ret (none, s')) :=
  hx.bind fun s' hs' => .ret (hQ s' hs')

section Calls
variable [Inhabited α] {isNull : α → Bool}

/-- Every call that pops no null pointer ends within a budget above the length, and does to the
sequence what it says. -/
theorem call_within (h : Holds base s xs) (op : Op α)
    (hnull : ¬PopsNull isNull (xs.map Prod.snd) op) (fuel : ℕ) :
    Within (xs.length < fuel) (fun r : Option α × State α =>
      ∃ vs', SeqStep (xs.map Prod.snd) op r.1 vs' ∧ Represents base r.2 vs')
      (call isNull fuel s op) := by
  have hsome : ∀ v ∈ popped (xs.map Prod.snd) op, isNull v ≠ true :=
    fun v hv hv' => hnull ⟨v, hv, hv'⟩
  cases op with
  | prepend value =>
    obtain ⟨n, s', hrun, hs'⟩ := prepend_ret h value
    rw [call, hrun, ret_bind]
    exact .ret ⟨_, ⟨rfl, rfl⟩, hs'.represents⟩
  | append value =>
    obtain ⟨n, s', hrun, hs'⟩ := append_ret h value
    rw [call, hrun, ret_bind]
    exact .ret ⟨_, ⟨rfl, by simp⟩, hs'.represents⟩
  | insert index value =>
    apply call_of_within (insert_within h index value fuel)
    rintro s' ⟨n, hs'⟩
    exact ⟨_, ⟨rfl, by simp⟩, hs'.represents⟩
  | popFirst =>
    obtain ⟨s', hs', hrun⟩ := popFirst_eq h isNull
    have hanswer : answer isNull (xs.map Prod.snd).head? = .ret _ := answer_ret hsome
    rw [call, hrun, hanswer, ret_bind]
    exact .ret ⟨_, ⟨rfl, by simp⟩, hs'.represents⟩
  | popLast =>
    obtain ⟨s', hs', hrun⟩ := popLast_eq h isNull
    have hanswer : answer isNull (xs.map Prod.snd).getLast? = .ret _ := answer_ret hsome
    rw [call, hrun, hanswer, ret_bind]
    exact .ret ⟨_, ⟨rfl, by simp⟩, hs'.represents⟩
  | reverse =>
    apply call_of_within (reverse_within h fuel)
    exact fun s' hs' => ⟨_, ⟨rfl, by simp⟩, hs'.represents⟩
  | retain pred =>
    apply call_of_within (retain_within h pred fuel)
    refine fun s' hs' => ⟨_, ⟨rfl, ?_⟩, hs'.represents⟩
    rw [List.filter_map]
    rfl
  | sort cmp =>
    apply call_of_within (sort_within h cmp fuel)
    rintro s' ⟨values, hs', hperm, hasc⟩
    refine ⟨values, ⟨rfl, hperm, hasc⟩, _, hs', ?_⟩
    have hlen : values.length = (addrs xs).length := by
      rw [hperm.length_eq, addrs, List.length_map, List.length_map]
    rw [List.map_snd_zip hlen.le]
  | apply f =>
    apply call_of_within (apply_within h f fuel)
    exact fun s' hs' => ⟨_, ⟨rfl, by simp⟩, hs'.represents⟩
  | clear =>
    apply call_of_within (clear_within h fuel)
    exact fun s' hs' => ⟨[], ⟨rfl, rfl⟩, hs'.represents⟩

/-- A call that pops a null pointer aborts. -/
theorem call_abort (h : Holds base s xs) {op : Op α} (hnull : PopsNull isNull (xs.map Prod.snd) op)
    (fuel : ℕ) : call isNull fuel s op = .abort := by
  cases op with
  | popFirst =>
    obtain ⟨s', -, hrun⟩ := popFirst_eq h isNull
    have hanswer : answer isNull (xs.map Prod.snd).head? = .abort := answer_abort hnull
    rw [call, hrun, hanswer, abort_bind]
  | popLast =>
    obtain ⟨s', -, hrun⟩ := popLast_eq h isNull
    have hanswer : answer isNull (xs.map Prod.snd).getLast? = .abort := answer_abort hnull
    rw [call, hrun, hanswer, abort_bind]
  | _ =>
    obtain ⟨v, hv, -⟩ := hnull
    cases hv

/-- A list stays a well-formed chain throughout any run, and its values are those of the sequence;
a further call aborts if it pops a null pointer, and returns if it does not. -/
theorem refines_sequence (isNull : α → Bool) (h : Heap (DlNode α))
    {trace : List (Σ _ : Op α, Option α)} {s : State α}
    (hcalls : Runs.Calls (call isNull) (make h) trace s) :
    ∃ as vs, Runs.Behaves SeqStep [] trace vs ∧ WellFormed h.cells s as vs ∧
      (∀ a, Reached s a ↔ h.cells a = none ∧ s.1.cells a ≠ none) ∧
      ∀ op, (PopsNull isNull vs op → ∀ fuel, call isNull fuel s op = .abort) ∧
        (¬PopsNull isNull vs op → (∃ fuel r, call isNull fuel s op = .ret r) ∧
          ∀ fuel, call isNull fuel s op ≠ .abort) := by
  obtain ⟨vs, hbehaves, xs, hxs, rfl⟩ := hcalls.behaves (R := Represents h.cells)
    (by
      rintro _ _ op fuel out s' ⟨xs, hxs, rfl⟩ hcall
      by_cases hnull : PopsNull isNull (xs.map Prod.snd) op
      · rw [call_abort hxs hnull] at hcall
        cases hcall
      · exact (call_within hxs op hnull fuel).post hcall)
    (make_holds h).represents
  refine ⟨addrs xs, _, hbehaves, hxs.wellFormed, hxs.wellFormed.reached_iff, fun op =>
    ⟨fun hnull => call_abort hxs hnull, fun hnull => ⟨?_, ?_⟩⟩⟩
  · obtain ⟨r, hr, -⟩ := (call_within hxs op hnull (xs.length + 1)).total (Nat.lt_succ_self _)
    exact ⟨_, r, hr⟩
  · exact fun fuel => (call_within hxs op hnull fuel).ne_abort

/-- Five insertions, two of them clamped, a reversal and a removal at the end. -/
def spliceTrace : List (Σ _ : Op ℤ, Option ℤ) :=
  [⟨.append 2, none⟩, ⟨.prepend 1, none⟩, ⟨.insert 1 5, none⟩, ⟨.insert (-3) 0, none⟩,
    ⟨.insert 9 8, none⟩, ⟨.reverse, none⟩, ⟨.popLast, some 0⟩, ⟨.retain fun v => v ≠ 5, none⟩]

theorem refines_sequence_splice : ∃ as vs s, Runs.Behaves SeqStep [] spliceTrace vs ∧
    WellFormed (fun _ => none) s as vs := by
  have hcalls : Runs.Calls (call fun _ => false) (make Heap.empty) spliceTrace _ :=
    .cons 9 rfl (.cons 9 rfl (.cons 9 rfl (.cons 9 rfl (.cons 9 rfl (.cons 9 rfl
      (.cons 9 rfl (.cons 9 rfl (.nil _))))))))
  obtain ⟨as, vs, hbehaves, hwf, -⟩ := refines_sequence (fun _ => false) Heap.empty hcalls
  exact ⟨as, vs, _, hbehaves, hwf⟩

end Calls
end Refinement
end FcLang.Data.LinkedList
