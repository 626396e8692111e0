import Mathlib.Data.List.Chain
import Mathlib.Logic.Relation

/-!
# Depth-first search for a cycle

A search keeps its path, the node it stands at first, and the nodes it has
finished, the last of them first. It enters a new node, meets one that is on
its path, or leaves a node whose successors it has finished. As long as no node
of the path was met, the finished nodes form no cycle.
-/

namespace FcLang.Search
open Relation
variable {α : Type*} {R : α → α → Prop} {u v : α} {path done : List α} {found : Prop}

/-- The successors of a finished node were finished before it. -/
def Finished (R : α → α → Prop) : List α → Prop
  | [] => True
  | u :: us => u ∉ us ∧ (∀ v, R u v → v ∈ us) ∧ Finished R us

theorem Finished.succ_mem (h : Finished R done) (hu : u ∈ done) (hv : R u v) : v ∈ done := by
  induction done with
  | nil => cases hu
  | cons w ws ih =>
    rcases List.mem_cons.mp hu with rfl | hu
    · exact List.mem_cons_of_mem _ (h.2.1 v hv)
    · exact List.mem_cons_of_mem _ (ih h.2.2 hu)

theorem Finished.trans_mem (h : Finished R done) (hu : u ∈ done) (hv : TransGen R u v) :
    v ∈ done := by
  induction hv with
  | single hv => exact h.succ_mem hu hv
  | tail _ hv ih => exact h.succ_mem ih hv

theorem Finished.acyclic (h : Finished R done) (hu : u ∈ done) : ¬TransGen R u u := by
  induction done with
  | nil => cases hu
  | cons w ws ih =>
    rcases List.mem_cons.mp hu with rfl | hu
    · intro hcycle
      obtain ⟨v, hv, hback⟩ := TransGen.head'_iff.mp hcycle
      have hmem : v ∈ ws := h.2.1 v hv
      rcases reflTransGen_iff_eq_or_transGen.mp hback with rfl | hback
      · exact h.1 hmem
      · exact h.1 (h.2.2.trans_mem hmem hback)
    · exact ih h.2.2 hu

/-- A node of the path leads to the node that the search stands at. -/
theorem reaches_head (h : (u :: path).IsChain fun a b => R b a) (hv : v ∈ u :: path) :
    ReflTransGen R v u := by
  induction path generalizing u with
  | nil =>
    rw [List.mem_singleton.mp hv]
  | cons w ws ih =>
    rw [List.isChain_cons_cons] at h
    rcases List.mem_cons.mp hv with rfl | hv
    · exact ReflTransGen.refl
    · exact (ih h.2 hv).tail h.1

/-- A search, and whether it has met a node of its path. -/
structure Searching (R : α → α → Prop) (path done : List α) (found : Prop) : Prop where
  chain : path.IsChain fun a b => R b a
  fresh : path.Nodup
  apart : ∀ v ∈ path, v ∉ done
  finished : found ∨ Finished R done
  cycle : found → ∃ w, TransGen R w w

theorem searching_nil : Searching R [] [] False where
  chain := List.IsChain.nil
  fresh := List.nodup_nil
  apart := by simp
  finished := .inr trivial
  cycle := False.elim

theorem Searching.enter (h : Searching R path done found) (hpath : v ∉ path) (hdone : v ∉ done)
    (hedge : ∀ u ∈ path.head?, R u v) : Searching R (v :: path) done found where
  chain := by
    cases path with
    | nil => exact .singleton v
    | cons u us => exact List.isChain_cons_cons.mpr ⟨hedge u rfl, h.chain⟩
  fresh := List.nodup_cons.mpr ⟨hpath, h.fresh⟩
  apart := by
    intro w hw
    rcases List.mem_cons.mp hw with rfl | hw
    · exact hdone
    · exact h.apart w hw
  finished := h.finished
  cycle := h.cycle

/-- An edge back to the path closes a cycle. -/
theorem Searching.back (h : Searching R (u :: path) done found) (hv : v ∈ u :: path)
    (hedge : R u v) : Searching R (u :: path) done True where
  chain := h.chain
  fresh := h.fresh
  apart := h.apart
  finished := .inl trivial
  cycle := fun _ => ⟨u, (TransGen.single hedge).trans_left (reaches_head h.chain hv)⟩

theorem Searching.leave (h : Searching R (u :: path) done found)
    (hsucc : found ∨ ∀ v, R u v → v ∈ done) : Searching R path (u :: done) found where
  chain := h.chain.tail
  fresh := (List.nodup_cons.mp h.fresh).2
  apart := by
    intro w hw hmem
    rcases List.mem_cons.mp hmem with rfl | hmem
    · exact (List.nodup_cons.mp h.fresh).1 hw
    · exact h.apart w (List.mem_cons_of_mem u hw) hmem
  finished := by
    rcases h.finished with hfound | hdone
    · exact .inl hfound
    · rcases hsucc with hfound | hsucc
      · exact .inl hfound
      · exact .inr ⟨h.apart u List.mem_cons_self, hsucc, hdone⟩
  cycle := h.cycle

/-- Once all nodes are finished, a node of the path was met just when there is a cycle. -/
theorem Searching.found_iff (h : Searching R [] done found)
    (hall : ∀ u v, R u v → u ∈ done) : found ↔ ∃ w, TransGen R w w := by
  refine ⟨h.cycle, ?_⟩
  rintro ⟨w, hw⟩
  rcases h.finished with hfound | hdone
  · exact hfound
  · obtain ⟨v, hv, -⟩ := TransGen.head'_iff.mp hw
    exact absurd hw (hdone.acyclic (hall w v hv))

end FcLang.Search
