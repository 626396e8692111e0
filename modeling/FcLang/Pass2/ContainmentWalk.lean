import FcLang.Lib.Search
import FcLang.Pass2.Containment
import Mathlib.Data.Finset.Card

/-!
# The walk over by-value containment is a search

Its state is a path and a list of finished declarations. It ends, and reports
an error just when the declarations' names form a cycle.
-/

namespace FcLang.Pass2
open Types Relation Search

/-- Declaration `i` embeds declaration `j`, as far as the walk can see. -/
def ByvalEdge (udts : List Aggregate) (i j : ℕ) : Prop :=
  ∃ d, udts[i]? = some d ∧ ∃ m ∈ d.members, m.target udts = some j

section
variable {udts : List Aggregate} {w w' : Walk} {path done : List ℕ} {i j : ℕ} {d : Aggregate}

theorem findAggregateDecl_lt {name : String} (h : findAggregateDecl udts name = some j) :
    j < udts.length := by
  unfold findAggregateDecl at h
  split at h
  · rename_i i hi
    cases h
    have : j ∈ (List.range udts.length).filter fun i =>
        (udts[i]?.map Aggregate.name) = some name := by
      rw [hi]
      exact List.mem_singleton_self j
    exact List.mem_range.mp (List.mem_of_mem_filter this)
  · cases h

theorem Member.target_lt {m : Member} (h : m.target udts = some j) : j < udts.length := by
  obtain ⟨name, -, hname⟩ := Option.bind_eq_some_iff.mp h
  exact findAggregateDecl_lt hname

/-- The marks say what is on the path and what is finished. -/
structure Marked (w : Walk) (path done : List ℕ) : Prop where
  onStack : ∀ i, w.state i = .onStack ↔ i ∈ path
  done : ∀ i, w.state i = .done ↔ i ∈ done

theorem Marked.enter (h : Marked w path done) (hi : w.state i = .unvisited) :
    Marked (w.set i .onStack) (i :: path) done := by
  have hfinished : i ∉ done := fun hmem => by simp [(h.done i).mpr hmem] at hi
  constructor <;> intro k <;> by_cases hk : k = i
  · simp [Walk.set, hk]
  · simp [Walk.set, hk, h.onStack]
  · simp [Walk.set, hk, hfinished]
  · simp [Walk.set, hk, h.done]

theorem Marked.leave (h : Marked w (i :: path) done) (hi : i ∉ path) :
    Marked (w.set i .done) path (i :: done) := by
  constructor <;> intro k <;> by_cases hk : k = i
  · simp [Walk.set, hk, hi]
  · simp [Walk.set, hk, h.onStack]
  · simp [Walk.set, hk]
  · simp [Walk.set, hk, h.done]

/-- The declarations that the walk has yet to enter. -/
def unvisited (n : ℕ) (w : Walk) : Finset ℕ :=
  (Finset.range n).filter fun i => w.state i = .unvisited

theorem mem_unvisited {n : ℕ} : i ∈ unvisited n w ↔ i < n ∧ w.state i = .unvisited := by
  rw [unvisited, Finset.mem_filter, Finset.mem_range]

/-- Entering a declaration leaves fewer to enter. -/
theorem unvisited_enter_lt {n : ℕ} (hi : i < n) (hstate : w.state i = .unvisited) :
    (unvisited n (w.set i .onStack)).card < (unvisited n w).card := by
  apply Finset.card_lt_card
  have hset : (w.set i .onStack).state i = .onStack := Function.update_self i _ _
  refine Finset.ssubset_iff_subset_ne.mpr ⟨fun k hk => ?_, fun heq => ?_⟩
  · have hki : k ≠ i := by
      rintro rfl
      simp [mem_unvisited, hset] at hk
    have hstay : (w.set i .onStack).state k = w.state k := Function.update_of_ne hki _ _
    rwa [mem_unvisited, hstay, ← mem_unvisited] at hk
  · have hmem : i ∈ unvisited n w := mem_unvisited.mpr ⟨hi, hstate⟩
    rw [← heq, mem_unvisited, hset] at hmem
    exact Mark.noConfusion hmem.2

/-- What is unvisited when more is finished was unvisited before. -/
theorem Marked.unvisited_subset {n : ℕ} {done' : List ℕ} (h : Marked w path done)
    (h' : Marked w' path done') (hkept : done ⊆ done') : unvisited n w' ⊆ unvisited n w := by
  intro k hk
  rw [mem_unvisited] at hk ⊢
  refine ⟨hk.1, ?_⟩
  cases hstate : w.state k with
  | unvisited => rfl
  | onStack =>
    have := (h'.onStack k).mpr ((h.onStack k).mp hstate)
    simp [this] at hk
  | done =>
    have := (h'.done k).mpr (hkept ((h.done k).mp hstate))
    simp [this] at hk

/-- A part of the walk, which leaves the path as it was. -/
structure Walked (udts : List Aggregate) (path done : List ℕ) (w w' : Walk) (done' : List ℕ) :
    Prop where
  marked : Marked w' path done'
  searching : Searching (ByvalEdge udts) path done' (w'.errors ≠ [])
  kept : done ⊆ done'
  errors : w.errors ≠ [] → w'.errors ≠ []

theorem Walked.refl (hm : Marked w path done)
    (hs : Searching (ByvalEdge udts) path done (w.errors ≠ [])) : Walked udts path done w w done :=
  ⟨hm, hs, List.Subset.refl done, id⟩

theorem Walked.trans {done' done'' : List ℕ} {w'' : Walk} (h : Walked udts path done w w' done')
    (h' : Walked udts path done' w' w'' done'') : Walked udts path done w w'' done'' :=
  ⟨h'.marked, h'.searching, fun _ hi => h'.kept (h.kept hi), h'.errors ∘ h.errors⟩

/-- What is unvisited after a part of the walk was so before. -/
theorem Walked.unvisited_subset {n : ℕ} {done' : List ℕ} (hm : Marked w path done)
    (h : Walked udts path done w w' done') : unvisited n w' ⊆ unvisited n w :=
  hm.unvisited_subset h.marked h.kept

/-- The members of the declaration that the walk stands at, given how it enters others. -/
theorem visitMembers_walked {N : ℕ} {ms : List Member}
    (ih : ∀ {j w path done}, (unvisited udts.length w).card < N → j < udts.length →
      w.state j = .unvisited → Marked w path done →
      Searching (ByvalEdge udts) path done (w.errors ≠ []) →
      (∀ u ∈ path.head?, ByvalEdge udts u j) → ∃ w' done',
        w.visitByvalContainment udts j = some w' ∧ Walked udts path done w w' done' ∧ j ∈ done')
    (hN : (unvisited udts.length w).card < N) (hd : udts[i]? = some d) (hms : ∀ m ∈ ms, m ∈ d.members)
    (hm : Marked w (i :: path) done)
    (hs : Searching (ByvalEdge udts) (i :: path) done (w.errors ≠ [])) :
    ∃ w' done', w.visitMembers udts d ms = some w' ∧ Walked udts (i :: path) done w w' done' ∧
      (w'.errors ≠ [] ∨ ∀ m ∈ ms, ∀ j, m.target udts = some j → j ∈ done') := by
  induction ms generalizing w done with
  | nil => exact ⟨w, done, by rw [Walk.visitMembers], Walked.refl hm hs, .inr (by simp)⟩
  | cons m ms ihms =>
    have hrest := fun m' hm' => hms m' (List.mem_cons_of_mem m hm')
    rw [Walk.visitMembers]
    cases htarget : m.target udts with
    | none =>
      obtain ⟨w', done', hrun, hwalk, hall⟩ := ihms hN hrest hm hs
      refine ⟨w', done', hrun, hwalk, hall.imp id fun hall m' hm' j hj => ?_⟩
      rcases List.mem_cons.mp hm' with rfl | hm'
      · simp [htarget] at hj
      · exact hall m' hm' j hj
    | some j =>
      have hedge : ByvalEdge udts i j := ⟨d, hd, m, hms m List.mem_cons_self, htarget⟩
      have member : ∀ {done' : List ℕ}, j ∈ done' →
          (∀ m' ∈ ms, ∀ k, m'.target udts = some k → k ∈ done') →
          ∀ m' ∈ m :: ms, ∀ k, m'.target udts = some k → k ∈ done' := by
        intro done' hj hall m' hm' k hk
        rcases List.mem_cons.mp hm' with rfl | hm'
        · cases htarget.symm.trans hk
          exact hj
        · exact hall m' hm' k hk
      cases hstate : w.state j with
      | onStack =>
        have hback := hs.back ((hm.onStack j).mp hstate) hedge
        have hfound : (w.report d m).errors ≠ [] := by simp [Walk.report]
        have hm' : Marked (w.report d m) (i :: path) done := ⟨hm.onStack, hm.done⟩
        obtain ⟨w', done', hrun, hwalk, -⟩ := ihms (w := w.report d m) hN hrest hm'
          ⟨hback.chain, hback.fresh, hback.apart, .inl hfound, fun _ => hback.cycle trivial⟩
        exact ⟨w', done', by simpa only [hstate] using hrun, ⟨hwalk.marked, hwalk.searching, hwalk.kept,
          fun _ => hwalk.errors hfound⟩, .inl (hwalk.errors hfound)⟩
      | done =>
        obtain ⟨w', done', hrun, hwalk, hall⟩ := ihms hN hrest hm hs
        exact ⟨w', done', by simpa only [hstate] using hrun, hwalk,
          hall.imp id (member (hwalk.kept ((hm.done j).mp hstate)))⟩
      | unvisited =>
        obtain ⟨w₁, done₁, hrun₁, hwalk₁, hj⟩ := ih hN (Member.target_lt htarget) hstate hm hs
          fun u hu => by
            cases hu
            exact hedge
        have hcard := Finset.card_le_card (hwalk₁.unvisited_subset (n := udts.length) hm)
        obtain ⟨w', done', hrun, hwalk, hall⟩ :=
          ihms (hcard.trans_lt hN) hrest hwalk₁.marked hwalk₁.searching
        refine ⟨w', done', ?_, hwalk₁.trans hwalk, hall.imp id (member (hwalk.kept hj))⟩
        simp only [hstate, hrun₁, Option.bind_eq_bind, Option.bind_some, hrun]

/-- Entering a declaration, the walk ends with it finished. -/
theorem visit_walked (hi : i < udts.length) (hstate : w.state i = .unvisited)
    (hm : Marked w path done) (hs : Searching (ByvalEdge udts) path done (w.errors ≠ []))
    (hedge : ∀ u ∈ path.head?, ByvalEdge udts u i) : ∃ w' done',
      w.visitByvalContainment udts i = some w' ∧ Walked udts path done w w' done' ∧ i ∈ done' := by
  induction hN : (unvisited udts.length w).card using Nat.strong_induction_on
    generalizing i w path done with
  | _ N ih =>
    have hpath : i ∉ path := fun h => by simp [(hm.onStack i).mpr h] at hstate
    have hdone : i ∉ done := fun h => by simp [(hm.done i).mpr h] at hstate
    have hd : udts[i]? = some udts[i] := List.getElem?_eq_getElem hi
    have hless : (unvisited udts.length (w.set i .onStack)).card < N :=
      (unvisited_enter_lt hi hstate).trans_eq hN
    obtain ⟨w', done', hrun, hwalk, hall⟩ := visitMembers_walked (N := N)
      (fun hlt hj hstate hm hs hedge => ih _ hlt hj hstate hm hs hedge rfl) hless hd
      (fun m hm => hm) (hm.enter hstate) (hs.enter hpath hdone hedge)
    refine ⟨w'.set i .done, i :: done', ?_, ⟨hwalk.marked.leave hpath, ?_, ?_, hwalk.errors⟩,
      List.mem_cons_self⟩
    · rw [Walk.visitByvalContainment, hd]
      simp only [Option.bind_eq_bind, Option.bind_some, hrun]
      rfl
    · refine hwalk.searching.leave (hall.imp id fun hall v hv => ?_)
      obtain ⟨d, hd', m, hmem, htarget⟩ := hv
      cases hd.symm.trans hd'
      exact hall m hmem v htarget
    · exact fun k hk => List.mem_cons_of_mem i (hwalk.kept hk)

theorem visitAll_walked (is : List ℕ) (w : Walk) (done : List ℕ) (his : ∀ i ∈ is, i < udts.length) (hm : Marked w [] done)
    (hs : Searching (ByvalEdge udts) [] done (w.errors ≠ [])) : ∃ w' done',
      visitAll udts is w = some w' ∧ Walked udts [] done w w' done' ∧ ∀ i ∈ is, i ∈ done' := by
  induction is generalizing w done with
  | nil => exact ⟨w, done, rfl, Walked.refl hm hs, by simp⟩
  | cons i is ih =>
    have hrest := fun k hk => his k (List.mem_cons_of_mem i hk)
    rw [visitAll]
    by_cases hstate : w.state i = .unvisited
    · obtain ⟨w₁, done₁, hrun₁, hwalk₁, hi⟩ :=
        visit_walked (his i List.mem_cons_self) hstate hm hs (by simp)
      obtain ⟨w', done', hrun, hwalk, hall⟩ := ih _ _ hrest hwalk₁.marked hwalk₁.searching
      refine ⟨w', done', ?_, hwalk₁.trans hwalk, fun k hk => ?_⟩
      · simp only [if_pos hstate, hrun₁, Option.bind_eq_bind, Option.bind_some, hrun]
      · rcases List.mem_cons.mp hk with rfl | hk
        · exact hwalk.kept hi
        · exact hall k hk
    · obtain ⟨w', done', hrun, hwalk, hall⟩ := ih _ _ hrest hm hs
      have hi : i ∈ done := by
        refine (hm.done i).mp ?_
        cases hmark : w.state i with
        | unvisited => exact absurd hmark hstate
        | onStack => exact absurd ((hm.onStack i).mp hmark) (by simp)
        | done => rfl
      refine ⟨w', done', ?_, hwalk, fun k hk => ?_⟩
      · rw [if_neg hstate, hrun]
      · rcases List.mem_cons.mp hk with rfl | hk
        · exact hwalk.kept hi
        · exact hall k hk

/-- The walk ends on every set of declarations, with an error just when the names form a cycle. -/
theorem checkInfiniteSize_iff (decls : List Decl) : ∃ errors,
    checkInfiniteSize decls = some errors ∧
      (errors ≠ [] ↔ ∃ i, TransGen (ByvalEdge (collectAggregateDecls decls)) i i) := by
  obtain ⟨w', done', hrun, hwalk, hall⟩ := visitAll_walked
    (List.range (collectAggregateDecls decls).length) ⟨fun _ => .unvisited, []⟩ []
    (fun i hi => List.mem_range.mp hi) ⟨by simp, by simp⟩
    (by simpa using searching_nil)
  refine ⟨w'.errors, ?_, hwalk.searching.found_iff fun u v huv => ?_⟩
  · rw [checkInfiniteSize, hrun]
    rfl
  · obtain ⟨d, hd, -⟩ := huv
    exact hall u (List.mem_range.mpr (List.getElem?_eq_some_iff.mp hd).1)

end
end FcLang.Pass2
