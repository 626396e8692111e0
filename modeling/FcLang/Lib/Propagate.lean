import Mathlib.Algebra.BigOperators.Group.Finset.Basic
import Mathlib.Algebra.Order.BigOperators.Group.Finset
import Mathlib.Logic.Function.Basic

/-!
# Propagation of marks in place

Every cell starts without a mark or with one, and a list of occurrences marks
cells: with a fixed mark, or with the mark of another cell. Two different marks on
one cell are a conflict, and a cell in conflict is read back as unmarked. The list
is gone through in place, again and again, until a round changes nothing.
-/

namespace FcLang.Lib
variable {ι κ : Type} [DecidableEq ι] [DecidableEq κ]

inductive Mark (κ : Type) where
  | unknown
  | known (k : κ)
  | conflict
  deriving DecidableEq, Repr

/-- What another cell reads. -/
def Mark.read : Mark κ → Option κ
  | .known k => some k
  | _ => none

inductive Source (ι κ : Type) where
  | fixed (k : κ)
  | copied (j : ι)

structure Occurrence (ι κ : Type) where
  target : ι
  source : Source ι κ

structure Marking (ι κ : Type) where
  marks : ι → Mark κ
  changed : Bool
  conflicts : List ι

def Marking.merge (s : Marking ι κ) (i : ι) (k : Option κ) : Marking ι κ :=
  match k with
  | none => s
  | some k =>
    match s.marks i with
    | .conflict => s
    | .unknown => { s with marks := Function.update s.marks i (.known k), changed := true }
    | .known k' =>
      if k' = k then s
      else {
        marks := Function.update s.marks i .conflict
        changed := true
        conflicts := s.conflicts ++ [i] }

def Source.kind (marks : ι → Mark κ) : Source ι κ → Option κ
  | .fixed k => some k
  | .copied j => (marks j).read

def Marking.visit (s : Marking ι κ) (o : Occurrence ι κ) : Marking ι κ :=
  s.merge o.target (o.source.kind s.marks)

def Marking.round (os : List (Occurrence ι κ)) (s : Marking ι κ) : Marking ι κ :=
  os.foldl Marking.visit { s with changed := false }

/-- Rounds until one changes nothing. -/
def Marking.run (os : List (Occurrence ι κ)) : ℕ → Marking ι κ → Option (Marking ι κ)
  | 0, _ => none
  | n + 1, s =>
    if (s.round os).changed then run os n (s.round os) else some (s.round os)

/-- A chain of occurrences gives the cell the mark. -/
inductive Reach (S : Occurrence ι κ → Prop) : κ → ι → Prop where
  | fixed {i : ι} {k : κ} : S ⟨i, .fixed k⟩ → Reach S k i
  | copied {i j : ι} {k : κ} : S ⟨i, .copied j⟩ → Reach S k j → Reach S k i

def Contested (S : Occurrence ι κ → Prop) (i : ι) : Prop :=
  ∃ k k', k ≠ k' ∧ Reach S k i ∧ Reach S k' i

def Mark.Justified (S : Occurrence ι κ → Prop) (i : ι) : Mark κ → Prop
  | .unknown => True
  | .known k => Reach S k i
  | .conflict => Contested S i

/-- Every mark comes from a chain, and the conflicts reported are the cells in conflict. -/
structure Sound (S : Occurrence ι κ → Prop) (s : Marking ι κ) : Prop where
  justified : ∀ i, (s.marks i).Justified S i
  reported : ∀ i, i ∈ s.conflicts ↔ s.marks i = .conflict

section Steps
variable {S : Occurrence ι κ → Prop} {s : Marking ι κ} {i : ι}

theorem merge_cases (s : Marking ι κ) (i : ι) (k : Option κ) :
    (s.merge i k = s ∧ (k = none ∨ s.marks i = .conflict ∨ ∃ k', k = some k' ∧ s.marks i = .known k'))
    ∨ (∃ k', k = some k' ∧ s.marks i = .unknown ∧
      s.merge i k = { s with marks := Function.update s.marks i (.known k'), changed := true })
    ∨ (∃ k' k₀, k = some k' ∧ s.marks i = .known k₀ ∧ k₀ ≠ k' ∧
      s.merge i k = {
        marks := Function.update s.marks i .conflict
        changed := true
        conflicts := s.conflicts ++ [i] }) := by
  cases k with
  | none => exact .inl ⟨rfl, .inl rfl⟩
  | some k =>
    rw [Marking.merge]
    cases h : s.marks i with
    | conflict => exact .inl ⟨rfl, .inr (.inl rfl)⟩
    | unknown => exact .inr (.inl ⟨k, rfl, rfl, rfl⟩)
    | known k₀ =>
      by_cases heq : k₀ = k
      · exact .inl ⟨if_pos heq, .inr (.inr ⟨k₀, congrArg some heq.symm, rfl⟩)⟩
      · exact .inr (.inr ⟨k, k₀, rfl, rfl, heq, if_neg heq⟩)

omit [DecidableEq κ] in
theorem Sound.update (h : Sound S s) (m : Mark κ) (hm : m.Justified S i) {conflicts : List ι}
    (hc : ∀ j, j ∈ conflicts ↔ Function.update s.marks i m j = .conflict) :
    Sound S ⟨Function.update s.marks i m, true, conflicts⟩ where
  justified j := by
    change (Function.update s.marks i m j).Justified S j
    rw [Function.update_apply]
    split_ifs with hji
    · exact hji ▸ hm
    · exact h.justified j
  reported := hc

theorem Sound.merge (h : Sound S s) {k : Option κ} (hk : ∀ k', k = some k' → Reach S k' i) :
    Sound S (s.merge i k) := by
  rcases merge_cases s i k with ⟨heq, -⟩ | ⟨k', hk', hi, heq⟩ | ⟨k', k₀, hk', hi, hne, heq⟩
  · rw [heq]
    exact h
  · rw [heq]
    refine h.update (.known k') (hk k' hk') fun j => ?_
    rw [h.reported, Function.update_apply]
    split_ifs with hji
    · simp [hji, hi]
    · rfl
  · rw [heq]
    have hold : Reach S k₀ i := by
      have hj := h.justified i
      rwa [hi] at hj
    refine h.update .conflict ⟨k₀, k', hne, hold, hk k' hk'⟩ fun j => ?_
    rw [List.mem_append, List.mem_singleton, h.reported, Function.update_apply]
    split_ifs with hji
    · exact iff_of_true (.inr hji) rfl
    · exact or_iff_left hji

theorem Sound.visit (h : Sound S s) {o : Occurrence ι κ} (ho : S o) : Sound S (s.visit o) := by
  apply h.merge
  intro k hk
  obtain ⟨i, source⟩ := o
  cases source with
  | fixed k' =>
    obtain rfl : k' = k := Option.some.inj hk
    exact .fixed ho
  | copied j =>
    refine .copied ho ?_
    have hj := h.justified j
    change (s.marks j).read = some k at hk
    cases hm : s.marks j with
    | unknown => rw [hm] at hk; cases hk
    | conflict => rw [hm] at hk; cases hk
    | known k' =>
      rw [hm] at hk hj
      obtain rfl : k' = k := Option.some.inj hk
      exact hj

theorem Sound.foldl {os : List (Occurrence ι κ)} (h : Sound S s) (hos : ∀ o ∈ os, S o) :
    Sound S (os.foldl Marking.visit s) := by
  induction os generalizing s with
  | nil => exact h
  | cons o os ih =>
    exact ih (h.visit (hos o List.mem_cons_self)) fun p hp => hos p (List.mem_cons_of_mem o hp)

omit [DecidableEq ι] [DecidableEq κ] in
theorem Sound.unchanged (h : Sound S s) : Sound S { s with changed := false } :=
  ⟨h.justified, h.reported⟩

theorem Sound.round {os : List (Occurrence ι κ)} (h : Sound S s) (hos : ∀ o ∈ os, S o) :
    Sound S (s.round os) :=
  h.unchanged.foldl hos

theorem Sound.run {os : List (Occurrence ι κ)} {n : ℕ} {s' : Marking ι κ} (h : Sound S s)
    (hos : ∀ o ∈ os, S o) (hrun : s.run os n = some s') : Sound S s' := by
  induction n generalizing s with
  | zero => cases hrun
  | succ n ih =>
    rw [Marking.run] at hrun
    split_ifs at hrun with hchanged
    · exact ih (h.round hos) hrun
    · cases hrun
      exact h.round hos

end Steps

section Rounds
variable {S : Occurrence ι κ → Prop} {os : List (Occurrence ι κ)} {s : Marking ι κ} {T : Finset ι}

def Mark.level : Mark κ → ℕ
  | .unknown => 0
  | .known _ => 1
  | .conflict => 2

/-- How far the cells of `T` have come: a mark is only ever tightened. -/
def Marking.total (T : Finset ι) (s : Marking ι κ) : ℕ :=
  ∑ i ∈ T, (s.marks i).level

omit [DecidableEq ι] [DecidableEq κ] in
theorem Marking.total_le (T : Finset ι) (s : Marking ι κ) : s.total T ≤ 2 * T.card := by
  have hlevel : ∀ i ∈ T, (s.marks i).level ≤ 2 := fun i _ => by
    cases s.marks i <;> simp [Mark.level]
  exact (Finset.sum_le_card_nsmul T _ 2 hlevel).trans_eq (Nat.mul_comm _ _)

omit [DecidableEq κ] in
theorem total_update_lt {i : ι} (hi : i ∈ T) {m : Mark κ} (hm : (s.marks i).level < m.level)
    (changed : Bool) (conflicts : List ι) :
    s.total T < Marking.total T ⟨Function.update s.marks i m, changed, conflicts⟩ := by
  refine Finset.sum_lt_sum (fun j _ => ?_) ⟨i, hi, ?_⟩
  · change (s.marks j).level ≤ (Function.update s.marks i m j).level
    rw [Function.update_apply]
    split_ifs with hji
    · exact hji ▸ hm.le
    · exact le_rfl
  · change (s.marks i).level < (Function.update s.marks i m i).level
    rwa [Function.update_self]

/-- A visit changes nothing, or tightens a mark and says so. -/
theorem visit_cases {o : Occurrence ι κ} (ho : o.target ∈ T) (s : Marking ι κ) :
    s.visit o = s ∨ ((s.visit o).changed = true ∧ s.total T < (s.visit o).total T) := by
  rcases merge_cases s o.target (o.source.kind s.marks) with
    ⟨heq, -⟩ | ⟨k, -, hi, heq⟩ | ⟨k, k₀, -, hi, -, heq⟩
  · exact .inl heq
  · rw [Marking.visit, heq]
    exact .inr ⟨rfl, total_update_lt ho (by rw [hi]; exact Nat.zero_lt_one) _ _⟩
  · rw [Marking.visit, heq]
    exact .inr ⟨rfl, total_update_lt ho (by rw [hi]; exact Nat.one_lt_two) _ _⟩

theorem foldl_cases (hT : ∀ o ∈ os, o.target ∈ T) (s : Marking ι κ) :
    (os.foldl Marking.visit s = s ∧ ∀ o ∈ os, s.visit o = s) ∨
      ((os.foldl Marking.visit s).changed = true ∧
        s.total T < (os.foldl Marking.visit s).total T) := by
  induction os generalizing s with
  | nil => exact .inl ⟨rfl, fun o ho => absurd ho List.not_mem_nil⟩
  | cons o os ih =>
    have hrest := ih fun p hp => hT p (List.mem_cons_of_mem o hp)
    rw [List.foldl_cons]
    rcases visit_cases (hT o List.mem_cons_self) s with heq | ⟨hchanged, hlt⟩
    · rw [heq]
      refine (hrest s).imp_left fun h => ⟨h.1, fun p hp => ?_⟩
      rcases List.mem_cons.mp hp with rfl | hp
      · exact heq
      · exact h.2 p hp
    · right
      rcases hrest (s.visit o) with ⟨h, -⟩ | ⟨h, hlt'⟩
      · rw [h]
        exact ⟨hchanged, hlt⟩
      · exact ⟨h, hlt.trans hlt'⟩

/-- The cells that the occurrences mark. -/
def targets (os : List (Occurrence ι κ)) : Finset ι :=
  (os.map Occurrence.target).toFinset

theorem round_cases (os : List (Occurrence ι κ)) (s : Marking ι κ) :
    (s.round os).changed = false ∧ (∀ o ∈ os, (s.round os).visit o = s.round os) ∨
      ((s.round os).changed = true ∧ s.total (targets os) < (s.round os).total (targets os)) := by
  have hT : ∀ o ∈ os, o.target ∈ targets os := fun o ho =>
    List.mem_toFinset.mpr (List.mem_map_of_mem ho)
  rcases foldl_cases hT { s with changed := false } with ⟨heq, hquiet⟩ | hgrow
  · rw [Marking.round, heq]
    exact .inl ⟨rfl, hquiet⟩
  · exact .inr hgrow

theorem exists_run (os : List (Occurrence ι κ)) (s : Marking ι κ) :
    ∃ n s', s.run os n = some s' := by
  induction hm : 2 * (targets os).card - s.total (targets os) using Nat.strong_induction_on
    generalizing s with
  | _ m ih =>
    rcases round_cases os s with ⟨hdone, -⟩ | ⟨hchanged, hlt⟩
    · exact ⟨1, s.round os, by rw [Marking.run, if_neg (by rw [hdone]; exact Bool.noConfusion)]⟩
    · have hle := (s.round os).total_le (targets os)
      obtain ⟨n, s', hrun⟩ := ih _ (by omega) (s.round os) rfl
      exact ⟨n + 1, s', by rw [Marking.run, if_pos hchanged, hrun]⟩

theorem run_quiet {n : ℕ} {s' : Marking ι κ} (h : s.run os n = some s') :
    ∀ o ∈ os, s'.visit o = s' := by
  induction n generalizing s with
  | zero => cases h
  | succ n ih =>
    rw [Marking.run] at h
    split_ifs at h with hchanged
    · exact ih h
    · cases h
      exact ((round_cases os s).resolve_right fun hgrow => hchanged hgrow.1).2

theorem run_unique {n m : ℕ} {a b : Marking ι κ} (ha : s.run os n = some a)
    (hb : s.run os m = some b) : a = b := by
  induction n generalizing s m with
  | zero => cases ha
  | succ n ih =>
    cases m with
    | zero => cases hb
    | succ m =>
      rw [Marking.run] at ha hb
      split_ifs at ha hb with hchanged
      · exact ih ha hb
      · exact Option.some.inj (ha.symm.trans hb)

theorem merge_quiet {i : ι} {k : κ} (h : s.merge i (some k) = s) :
    s.marks i = .conflict ∨ s.marks i = .known k := by
  rcases merge_cases s i (some k) with ⟨-, hk⟩ | ⟨k', hk', hi, heq⟩ | ⟨k', k₀, hk', hi, hne, heq⟩
  · rcases hk with hk | hk | ⟨k', hk', hi⟩
    · cases hk
    · exact .inl hk
    · exact .inr (Option.some.inj hk' ▸ hi)
  · have hmark : Function.update s.marks i (.known k') i = s.marks i :=
      congrFun (congrArg Marking.marks (heq.symm.trans h)) i
    rw [Function.update_self, hi] at hmark
    cases hmark
  · have hmark : Function.update s.marks i .conflict i = s.marks i :=
      congrFun (congrArg Marking.marks (heq.symm.trans h)) i
    rw [Function.update_self, hi] at hmark
    cases hmark

/-- Where nothing changes any more and no conflict is reported, every chain has arrived. -/
theorem known_of_reach (hsound : Sound S s) (hquiet : ∀ o, S o → s.visit o = s)
    (hnone : s.conflicts = []) {k : κ} {i : ι} (h : Reach S k i) : s.marks i = .known k := by
  have hfree : ∀ i, s.marks i ≠ .conflict := fun i hi => by
    have hmem := (hsound.reported i).mpr hi
    rw [hnone] at hmem
    cases hmem
  induction h with
  | fixed ho => exact (merge_quiet (hquiet _ ho)).resolve_left (hfree _)
  | @copied i j k ho _ ih =>
    have hvisit := hquiet _ ho
    rw [Marking.visit, Source.kind, ih] at hvisit
    exact (merge_quiet hvisit).resolve_left (hfree _)

/-- What a run comes to. -/
structure Settled (S : Occurrence ι κ → Prop) (s : Marking ι κ) : Prop where
  conflict : s.conflicts ≠ [] ↔ ∃ i, Contested S i
  known : s.conflicts = [] → ∀ i k, s.marks i = .known k ↔ Reach S k i
  free : s.conflicts = [] → ∀ i, s.marks i ≠ .conflict

theorem Sound.settled (hsound : Sound S s) (hquiet : ∀ o, S o → s.visit o = s) :
    Settled S s where
  conflict := by
    constructor
    · intro hne
      obtain ⟨i, hi⟩ := List.exists_mem_of_ne_nil _ hne
      have hj := hsound.justified i
      rw [(hsound.reported i).mp hi] at hj
      exact ⟨i, hj⟩
    · rintro ⟨i, k, k', hne, hk, hk'⟩ hnone
      have h := known_of_reach hsound hquiet hnone hk
      rw [known_of_reach hsound hquiet hnone hk'] at h
      exact hne (Mark.known.inj h).symm
  known hnone i k := by
    refine ⟨fun h => ?_, known_of_reach hsound hquiet hnone⟩
    have hj := hsound.justified i
    rwa [h] at hj
  free hnone i hi := by
    have hmem := (hsound.reported i).mpr hi
    rw [hnone] at hmem
    cases hmem

end Rounds

end FcLang.Lib
