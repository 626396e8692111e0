import FcLang.Lib.Search
import Mathlib.Data.Finset.Card

/-!
# Topological order by depth-first search

A node is put behind its successors: the search enters it, visits its
successors, and appends it to the order. On a finite graph without a cycle it
ends, with each node once and behind all that it leads to.
-/

namespace FcLang.Toposort
open Relation Search
variable {α : Type*} [DecidableEq α] (succ : α → List α)

/-- The nodes entered so far, and those that are finished, in order. -/
structure Visit (α : Type*) where
  entered : List α
  order : List α

def Visit.enter (s : Visit α) (u : α) : Visit α := { s with entered := u :: s.entered }

def Visit.leave (s : Visit α) (u : α) : Visit α := { s with order := s.order ++ [u] }

mutual

/-- A node that was entered before is left as it is. -/
def Visit.visit (u : α) (s : Visit α) : Option (Visit α) :=
  if u ∈ s.entered then some s
  else do
    let s ← s.enter u |>.visitAll (succ u)
    return s.leave u
partial_fixpoint

def Visit.visitAll (us : List α) (s : Visit α) : Option (Visit α) :=
  match us with
  | [] => some s
  | u :: us => do
    let s ← s |>.visit u
    s |>.visitAll us
partial_fixpoint

end

def toposort (us : List α) : Option (List α) := (Visit.visitAll succ us ⟨[], []⟩).map Visit.order

variable {succ} {s s' : Visit α} {path done : List α} {u : α}

/-- What is entered is on the path or finished. -/
structure Visiting (s : Visit α) (path done : List α) : Prop where
  entered : ∀ v, v ∈ s.entered ↔ v ∈ path ∨ v ∈ done
  order : s.order = done.reverse

omit [DecidableEq α] in
theorem Visiting.enter (h : Visiting s path done) : Visiting (s.enter u) (u :: path) done where
  entered v := by simp [Visit.enter, h.entered, or_assoc]
  order := h.order

omit [DecidableEq α] in
theorem Visiting.leave (h : Visiting s (u :: path) done) : Visiting (s.leave u) path (u :: done) where
  entered v := by
    rw [Visit.leave, h.entered, List.mem_cons, List.mem_cons, or_assoc, or_left_comm]
  order := by rw [Visit.leave, h.order, List.reverse_cons]

/-- The nodes that are left to enter. -/
def fresh (nodes : Finset α) (s : Visit α) : Finset α := nodes.filter (· ∉ s.entered)

theorem fresh_enter_lt {nodes : Finset α} (hu : u ∈ nodes) (hnew : u ∉ s.entered) :
    (fresh nodes (s.enter u)).card < (fresh nodes s).card := by
  apply Finset.card_lt_card
  refine Finset.ssubset_iff_subset_ne.mpr ⟨fun v hv => ?_, fun heq => ?_⟩
  · rw [fresh, Finset.mem_filter] at hv ⊢
    exact ⟨hv.1, fun hmem => hv.2 (List.mem_cons_of_mem u hmem)⟩
  · have hmem : u ∈ fresh nodes s := Finset.mem_filter.mpr ⟨hu, hnew⟩
    rw [← heq, fresh, Finset.mem_filter] at hmem
    exact hmem.2 List.mem_cons_self

/-- A part of the search, which leaves the path as it was. -/
structure Visited (succ : α → List α) (path done : List α) (s' : Visit α) (done' : List α) :
    Prop where
  visiting : Visiting s' path done'
  searching : Searching (fun u v => v ∈ succ u) path done' False
  kept : done ⊆ done'

theorem Visited.fresh_subset {nodes : Finset α} {done' : List α} (h : Visiting s path done)
    (h' : Visited succ path done s' done') : fresh nodes s' ⊆ fresh nodes s := by
  intro v hv
  rw [fresh, Finset.mem_filter] at hv ⊢
  refine ⟨hv.1, fun hmem => hv.2 ((h'.visiting.entered v).mpr ?_)⟩
  exact ((h.entered v).mp hmem).imp id fun hd => h'.kept hd

variable {nodes : Finset α}

/-- The successors of the node that the search stands at, given how it enters others. -/
theorem visitAll_visited {N : ℕ} {us : List α}
    (ih : ∀ {v s path done}, (fresh nodes s).card < N → v ∈ nodes → Visiting s path done →
      Searching (fun u v => v ∈ succ u) path done False → (∀ u ∈ path.head?, v ∈ succ u) →
      ∃ s' done', s.visit succ v = some s' ∧ Visited succ path done s' done' ∧ v ∈ done')
    (hN : (fresh nodes s).card < N) (hus : ∀ v ∈ us, v ∈ nodes)
    (hedge : ∀ u ∈ path.head?, ∀ v ∈ us, v ∈ succ u) (hv : Visiting s path done)
    (hs : Searching (fun u v => v ∈ succ u) path done False) :
    ∃ s' done', s.visitAll succ us = some s' ∧ Visited succ path done s' done' ∧
      ∀ v ∈ us, v ∈ done' := by
  induction us generalizing s done with
  | nil => exact ⟨s, done, by rw [Visit.visitAll], ⟨hv, hs, List.Subset.refl done⟩, by simp⟩
  | cons v vs ihus =>
    obtain ⟨s₁, done₁, hrun₁, hvis₁, hmem₁⟩ := ih hN (hus v List.mem_cons_self) hv hs
      fun u hu => hedge u hu v List.mem_cons_self
    have hfresh : fresh nodes s₁ ⊆ fresh nodes s := hvis₁.fresh_subset hv
    have hN₁ := (Finset.card_le_card hfresh).trans_lt hN
    obtain ⟨s', done', hrun, hvis, hall⟩ := ihus hN₁ (fun w hw => hus w (List.mem_cons_of_mem v hw))
      (fun u hu w hw => hedge u hu w (List.mem_cons_of_mem v hw)) hvis₁.visiting hvis₁.searching
    refine ⟨s', done', ?_, ⟨hvis.visiting, hvis.searching, fun w hw => hvis.kept (hvis₁.kept hw)⟩,
      fun w hw => ?_⟩
    · rw [Visit.visitAll, hrun₁]
      exact hrun
    · rcases List.mem_cons.mp hw with rfl | hw
      · exact hvis.kept hmem₁
      · exact hall w hw

/-- Without a cycle, a node that the search is told to visit is finished when it returns. -/
theorem visit_visited (hclosed : ∀ u ∈ nodes, ∀ v ∈ succ u, v ∈ nodes)
    (hacyclic : ∀ u, ¬TransGen (fun u v => v ∈ succ u) u u) (hu : u ∈ nodes)
    (hv : Visiting s path done) (hs : Searching (fun u v => v ∈ succ u) path done False)
    (hedge : ∀ w ∈ path.head?, u ∈ succ w) : ∃ s' done', s.visit succ u = some s' ∧
      Visited succ path done s' done' ∧ u ∈ done' := by
  induction hN : (fresh nodes s).card using Nat.strong_induction_on
    generalizing u s path done with
  | _ N ih =>
    rw [Visit.visit]
    split
    · rename_i hent
      refine ⟨s, done, rfl, ⟨hv, hs, List.Subset.refl done⟩, ?_⟩
      refine ((hv.entered u).mp hent).resolve_left fun hpath => ?_
      cases path with
      | nil => cases hpath
      | cons w ws =>
        have hback : ReflTransGen (fun u v => v ∈ succ u) u w := reaches_head hs.chain hpath
        exact hacyclic u (TransGen.tail' hback (hedge w rfl))
    · rename_i hnew
      have hpath : u ∉ path := fun h => hnew ((hv.entered u).mpr (.inl h))
      have hdone : u ∉ done := fun h => hnew ((hv.entered u).mpr (.inr h))
      obtain ⟨s', done', hrun, hvis, hall⟩ := visitAll_visited (N := N)
        (fun hlt hmem hv hs hedge => ih _ hlt hmem hv hs hedge rfl)
        ((fresh_enter_lt hu hnew).trans_eq hN) (hclosed u hu)
        (fun w hw v hmem => by
          cases hw
          exact hmem) hv.enter (hs.enter hpath hdone hedge)
      refine ⟨s'.leave u, u :: done', ?_, ⟨hvis.visiting.leave, ?_, ?_⟩, List.mem_cons_self⟩
      · rw [hrun]
        rfl
      · exact hvis.searching.leave (.inr hall)
      · exact fun w hw => List.mem_cons_of_mem u (hvis.kept hw)

omit [DecidableEq α] in
theorem finished_nodup {R : α → α → Prop} (h : Finished R done) : done.Nodup := by
  induction done with
  | nil => exact List.nodup_nil
  | cons u us ih => exact List.nodup_cons.mpr ⟨h.1, ih h.2.2⟩

omit [DecidableEq α] in
theorem finished_append {R : α → α → Prop} {xs ys : List α} {v : α}
    (h : Finished R (xs ++ u :: ys)) (hv : R u v) : v ∈ ys := by
  induction xs with
  | nil => exact h.2.1 v hv
  | cons x xs ih => exact ih h.2.2

/-- On a finite graph without a cycle the search ends. Each node is in the order
once, behind its successors. -/
theorem toposort_spec (nodes : Finset α) (us : List α)
    (hclosed : ∀ u ∈ nodes, ∀ v ∈ succ u, v ∈ nodes)
    (hacyclic : ∀ u, ¬TransGen (fun u v => v ∈ succ u) u u)
    (hus : ∀ u ∈ us, u ∈ nodes) : ∃ order, toposort succ us = some order ∧ order.Nodup ∧
      (∀ u ∈ us, u ∈ order) ∧
      ∀ pre u post, order = pre ++ u :: post → ∀ v ∈ succ u, v ∈ pre := by
  have hvisit : ∃ s' done', Visit.visitAll succ us ⟨[], []⟩ = some s' ∧ Visited succ [] [] s' done' ∧
      ∀ v ∈ us, v ∈ done' :=
    visitAll_visited (N := (fresh nodes (⟨[], []⟩ : Visit α)).card + 1)
      (fun _ hv hvis hs hedge => visit_visited hclosed hacyclic hv hvis hs hedge)
      (Nat.lt_succ_self _) hus (by simp) ⟨by simp, rfl⟩ searching_nil
  obtain ⟨s', done, hrun, hvis, hall⟩ := hvisit
  have hfin : Finished (fun u v => v ∈ succ u) done := hvis.searching.finished.resolve_left id
  have horder : s'.order = done.reverse := hvis.visiting.order
  refine ⟨s'.order, by rw [toposort, hrun]; rfl, ?_, fun u hu => ?_, fun pre u post heq v hv => ?_⟩
  · rw [horder, List.nodup_reverse]
    exact finished_nodup hfin
  · rw [horder, List.mem_reverse]
    exact hall u hu
  · have hdone : done = post.reverse ++ u :: pre.reverse := by
      rw [← List.reverse_reverse done, ← horder, heq]
      simp
    rw [hdone] at hfin
    exact List.mem_reverse.mp (finished_append hfin hv)

end FcLang.Toposort
