import Mathlib.Data.List.Forall2
import Mathlib.Algebra.Order.BigOperators.Group.List
import Mathlib.Tactic

/-!
# Usefulness of pattern matrices

A signature says which constructors build the values of a type and what their
arguments are; a type with no list of constructors has more values than any
finite list of constructors accounts for. A matrix of patterns is searched
column by column for a row of values that no row matches: `findWitness`
specializes the matrix by each constructor where the column names them all, and
keeps the rows that start with a wildcard where it does not.
-/

namespace FcLang.PatternMatrix

structure Signature (τ κ V : Type*) where
  /-- All constructors of a type, or none when they cannot be listed. -/
  ctors : τ → Option (List κ)
  args : κ → τ → List τ
  same : κ → κ → Bool
  size : τ → ℕ
  HasTy : V → τ → Prop
  Is : κ → V → Prop
  parts : κ → V → List V
  size_pos : ∀ t, 0 < size t
  size_args : ∀ {t cs c}, ctors t = some cs → c ∈ cs → ((args c t).map size).sum < size t
  same_iff : ∀ {t cs c d}, ctors t = some cs → c ∈ cs → d ∈ cs → (same c d = true ↔ c = d)
  covered : ∀ {t cs v}, ctors t = some cs → HasTy v t → ∃ c ∈ cs, Is c v
  distinct : ∀ {t cs c d v}, ctors t = some cs → c ∈ cs → d ∈ cs → HasTy v t → Is c v → Is d v →
    c = d
  parts_hasTy : ∀ {t cs c v}, ctors t = some cs → c ∈ cs → HasTy v t → Is c v →
    List.Forall₂ HasTy (parts c v) (args c t)
  build : ∀ {t cs c vs}, ctors t = some cs → c ∈ cs → List.Forall₂ HasTy vs (args c t) →
    ∃ v, HasTy v t ∧ Is c v ∧ parts c v = vs
  fresh : ∀ {t}, ctors t = none → ∀ ds : List κ, ∃ v, HasTy v t ∧ ∀ d ∈ ds, ¬Is d v
  inhabited : ∀ t, ∃ v, HasTy v t

inductive MatPat (κ : Type*) where
  | wild
  | ctor (c : κ) (sub : List (MatPat κ))

abbrev Row (κ : Type*) := List (MatPat κ)

abbrev Matrix (κ : Type*) := List (Row κ)

variable {τ κ V : Type*} (S : Signature τ κ V)

/-- A pattern whose constructors are those of its type. -/
inductive PatOk : MatPat κ → τ → Prop where
  | wild {t : τ} : PatOk .wild t
  | ctor {t : τ} {c : κ} {sub : List (MatPat κ)} (mem : ∀ cs, S.ctors t = some cs → c ∈ cs)
      (subOk : List.Forall₂ PatOk sub (S.args c t)) : PatOk (.ctor c sub) t

inductive Matches : MatPat κ → V → Prop where
  | wild {v : V} : Matches .wild v
  | ctor {v : V} {c : κ} {sub : List (MatPat κ)} (head : S.Is c v)
      (parts : List.Forall₂ Matches sub (S.parts c v)) : Matches (.ctor c sub) v

def specializeRow (c : κ) (arity : ℕ) : Row κ → Option (Row κ)
  | [] => none
  | .wild :: rest => some (List.replicate arity .wild ++ rest)
  | .ctor d sub :: rest => if S.same d c then some (sub ++ rest) else none

def specialize (M : Matrix κ) (c : κ) (arity : ℕ) : Matrix κ :=
  M.filterMap (specializeRow S c arity)

def defaultRow : Row κ → Option (Row κ)
  | .wild :: rest => some rest
  | _ => none

def defaultMatrix (M : Matrix κ) : Matrix κ := M.filterMap defaultRow

def headCtor : Row κ → Option κ
  | .ctor d _ :: _ => some d
  | _ => none

def collectHeadCtor (seen : List κ) (row : Row κ) : List κ :=
  match headCtor row with
  | some d => if seen.any (S.same · d) then seen else seen ++ [d]
  | none => seen

/-- The constructors in the first column, each once. -/
def collectHeadCtors (M : Matrix κ) : List κ := M.foldl (collectHeadCtor S) []

def rebuild (c : κ) (arity : ℕ) (w : Row κ) : Row κ := .ctor c (w.take arity) :: w.drop arity

/-- None when every row of values of types `ts` is matched, and otherwise a row
of patterns that describes one that is not. -/
def findWitness (M : Matrix κ) : List τ → Option (Row κ)
  | [] => if M.isEmpty then some [] else none
  | t :: ts =>
    let heads := collectHeadCtors S M
    match _hcs : S.ctors t with
    | some cs =>
      match cs.find? fun c => !heads.any (S.same c) with
      | none =>
        cs.attach.findSome? fun c =>
          (findWitness (specialize S M c.1 (S.args c.1 t).length) (S.args c.1 t ++ ts)).map
            (rebuild c.1 (S.args c.1 t).length)
      | some missing =>
        (findWitness (defaultMatrix M) ts).map
          (.ctor missing (List.replicate (S.args missing t).length .wild) :: ·)
    | none => (findWitness (defaultMatrix M) ts).map (.wild :: ·)
termination_by ts => (ts.map S.size).sum
decreasing_by
  · have := S.size_args _hcs c.2
    simp only [List.map_append, List.sum_append, List.map_cons, List.sum_cons]
    omega
  all_goals
    have := S.size_pos t
    simp only [List.map_cons, List.sum_cons]
    omega

section Correctness
variable {S} {M : Matrix κ} {t : τ} {ts : List τ} {v : V} {vs : List V} {row : Row κ} {c : κ}
variable {cs : List κ}

def RowOk (S : Signature τ κ V) (ts : List τ) (row : Row κ) : Prop :=
  List.Forall₂ (PatOk S) row ts

def RowMatches (S : Signature τ κ V) (row : Row κ) (vs : List V) : Prop :=
  List.Forall₂ (Matches S) row vs

theorem patOk_wilds (ts : List τ) : RowOk S ts (List.replicate ts.length .wild) := by
  induction ts with
  | nil => exact .nil
  | cons t ts ih => exact .cons .wild ih

theorem matches_wilds {n : ℕ} (h : n = vs.length) : RowMatches S (List.replicate n .wild) vs := by
  subst h
  induction vs with
  | nil => exact .nil
  | cons v vs ih => exact .cons .wild ih

theorem rowMatches_append {r₁ r₂ : Row κ} {vs₁ vs₂ : List V} (hlen : r₁.length = vs₁.length) :
    RowMatches S (r₁ ++ r₂) (vs₁ ++ vs₂) ↔ RowMatches S r₁ vs₁ ∧ RowMatches S r₂ vs₂ := by
  induction r₁ generalizing vs₁ with
  | nil =>
    obtain rfl := List.length_eq_zero_iff.mp hlen.symm
    simp [RowMatches]
  | cons p r₁ ih =>
    cases vs₁ with
    | nil => cases hlen
    | cons w vs₁ =>
      have h := ih (Nat.succ.inj hlen)
      simp only [RowMatches, List.cons_append, List.forall₂_cons] at h ⊢
      rw [h, and_assoc]

/-- A row matches a value built with `c` as its specialization matches the
arguments. -/
theorem specializeRow_matches (hcs : S.ctors t = some cs) (hc : c ∈ cs) (hv : S.HasTy v t)
    (his : S.Is c v) (hrow : RowOk S (t :: ts) row) :
    RowMatches S row (v :: vs) ↔
      ∃ r ∈ specializeRow S c (S.args c t).length row, RowMatches S r (S.parts c v ++ vs) := by
  have hparts : (S.args c t).length = (S.parts c v).length :=
    (S.parts_hasTy hcs hc hv his).length_eq.symm
  cases hrow with
  | @cons _ _ rest _ hp hrest =>
    rw [RowMatches, List.forall₂_cons]
    cases hp with
    | wild =>
      have happ : RowMatches S (List.replicate (S.args c t).length .wild ++ rest)
          (S.parts c v ++ vs) ↔ _ := rowMatches_append (by simpa using hparts)
      simp only [specializeRow, Option.mem_some_iff, exists_eq_left', happ]
      exact ⟨fun h => ⟨matches_wilds hparts, h.2⟩, fun h => ⟨.wild, h.2⟩⟩
    | @ctor _ d sub hmem hsub =>
      have hd := hmem cs hcs
      by_cases hdc : d = c
      · subst hdc
        have happ : RowMatches S (sub ++ rest) (S.parts d v ++ vs) ↔ _ :=
          rowMatches_append (hsub.length_eq.trans hparts)
        simp only [specializeRow, if_pos ((S.same_iff hcs hd hd).mpr rfl), Option.mem_some_iff,
          exists_eq_left', happ]
        constructor
        · rintro ⟨hm, h⟩
          cases hm with
          | ctor _ hsubs => exact ⟨hsubs, h⟩
        · exact fun h => ⟨.ctor his h.1, h.2⟩
      · have hsame : ¬S.same d c = true := mt (S.same_iff hcs hd hc).mp hdc
        simp only [specializeRow, if_neg hsame, Option.not_mem_none, false_and, exists_false,
          iff_false]
        rintro ⟨hm, -⟩
        cases hm with
        | ctor hisd _ => exact hdc (S.distinct hcs hd hc hv hisd his)

theorem specializeRow_ok (hcs : S.ctors t = some cs) (hc : c ∈ cs) (hrow : RowOk S (t :: ts) row)
    {r : Row κ} (hr : r ∈ specializeRow S c (S.args c t).length row) :
    RowOk S (S.args c t ++ ts) r := by
  cases hrow with
  | cons hp hrest =>
    cases hp with
    | wild =>
      cases hr
      exact List.rel_append (patOk_wilds _) hrest
    | @ctor _ d sub hmem hsub =>
      simp only [specializeRow] at hr
      split at hr
      · rename_i hdc
        obtain rfl := (S.same_iff hcs (hmem cs hcs) hc).mp hdc
        cases hr
        exact List.rel_append hsub hrest
      · cases hr

theorem specialize_ok (hcs : S.ctors t = some cs) (hc : c ∈ cs) (hM : ∀ r ∈ M, RowOk S (t :: ts) r) :
    ∀ r ∈ specialize S M c (S.args c t).length, RowOk S (S.args c t ++ ts) r := by
  intro r hr
  obtain ⟨row, hrow, h⟩ := List.mem_filterMap.mp hr
  exact specializeRow_ok hcs hc (hM row hrow) h

theorem mem_defaultMatrix {r : Row κ} : r ∈ defaultMatrix M ↔ .wild :: r ∈ M := by
  simp only [defaultMatrix, List.mem_filterMap]
  constructor
  · rintro ⟨row, hrow, h⟩
    cases row with
    | nil => cases h
    | cons p rest =>
      cases p with
      | wild =>
        cases h
        exact hrow
      | ctor d sub => cases h
  · exact fun h => ⟨_, h, rfl⟩

theorem defaultMatrix_ok (hM : ∀ r ∈ M, RowOk S (t :: ts) r) :
    ∀ r ∈ defaultMatrix M, RowOk S ts r := by
  intro r hr
  cases hM _ (mem_defaultMatrix.mp hr) with
  | cons _ h => exact h

theorem mem_collectHeadCtor {seen : List κ} {e : κ} (h : e ∈ collectHeadCtor S seen row) :
    e ∈ seen ∨ headCtor row = some e := by
  unfold collectHeadCtor at h
  split at h
  · rename_i d hd
    split at h
    · exact .inl h
    · simp only [List.mem_append, List.mem_singleton] at h
      refine h.imp_right fun h => ?_
      rw [h, hd]
  · exact .inl h

theorem collectHeadCtor_subset (seen : List κ) (row : Row κ) :
    seen ⊆ collectHeadCtor S seen row := by
  unfold collectHeadCtor
  intro e he
  split
  · split
    · exact he
    · exact List.mem_append_left _ he
  · exact he

theorem collectHeadCtor_head {seen : List κ} {d : κ} (hd : headCtor row = some d) :
    ∃ e ∈ collectHeadCtor S seen row, e = d ∨ S.same e d = true := by
  unfold collectHeadCtor
  rw [hd]
  dsimp only
  split
  · rename_i hany
    obtain ⟨e, he, hs⟩ := List.any_eq_true.mp hany
    exact ⟨e, he, .inr hs⟩
  · exact ⟨d, by simp, .inl rfl⟩

theorem mem_collectHeadCtors (M : Matrix κ) :
    (∀ e ∈ collectHeadCtors S M, ∃ row ∈ M, headCtor row = some e) ∧
      ∀ row ∈ M, ∀ d, headCtor row = some d →
        ∃ e ∈ collectHeadCtors S M, e = d ∨ S.same e d = true := by
  unfold collectHeadCtors
  induction M using List.reverseRecOn with
  | nil => simp
  | append_singleton M row ih =>
    obtain ⟨ihl, ihr⟩ := ih
    rw [List.foldl_append, List.foldl_cons, List.foldl_nil]
    constructor
    · intro e he
      obtain he | he := mem_collectHeadCtor he
      · obtain ⟨r, hr, h⟩ := ihl e he
        exact ⟨r, List.mem_append_left _ hr, h⟩
      · exact ⟨row, by simp, he⟩
    · intro r hr d hd
      obtain hr | hr := List.mem_append.mp hr
      · obtain ⟨e, he, h⟩ := ihr r hr d hd
        exact ⟨e, collectHeadCtor_subset _ _ he, h⟩
      · obtain rfl := List.mem_singleton.mp hr
        exact collectHeadCtor_head hd

/-- A constructor at the head of a row is found among the collected ones. -/
theorem head_found (hcs : S.ctors t = some cs) (hM : ∀ r ∈ M, RowOk S (t :: ts) r)
    {sub : List (MatPat κ)} {rest : Row κ} (hrow : .ctor c sub :: rest ∈ M) :
    (collectHeadCtors S M).any (S.same c) = true := by
  have head_mem : ∀ row ∈ M, ∀ d, headCtor row = some d → d ∈ cs := by
    intro row hr d hd
    cases hM row hr with
    | cons hp _ =>
      cases hp with
      | wild => cases hd
      | ctor hmem _ =>
        cases hd
        exact hmem cs hcs
  obtain ⟨hl, hr⟩ := mem_collectHeadCtors (S := S) M
  obtain ⟨e, he, hec⟩ := hr _ hrow c rfl
  obtain ⟨row, hrow', hhead⟩ := hl e he
  have hc := head_mem _ hrow c rfl
  have hecs := head_mem row hrow' e hhead
  have hec : e = c := hec.elim id (S.same_iff hcs hecs hc).mp
  exact List.any_eq_true.mpr ⟨e, he, (S.same_iff hcs hc hecs).mpr hec.symm⟩

theorem inhabited_row (S : Signature τ κ V) (ts : List τ) : ∃ vs, List.Forall₂ S.HasTy vs ts := by
  induction ts with
  | nil => exact ⟨[], .nil⟩
  | cons t ts ih =>
    obtain ⟨v, hv⟩ := S.inhabited t
    obtain ⟨vs, hvs⟩ := ih
    exact ⟨v :: vs, .cons hv hvs⟩

/-- What the search says of a matrix. -/
def Answers (S : Signature τ κ V) (M : Matrix κ) (ts : List τ) : Option (Row κ) → Prop
  | none => ∀ vs, List.Forall₂ S.HasTy vs ts → ∃ row ∈ M, RowMatches S row vs
  | some w => RowOk S ts w ∧ ∃ vs, List.Forall₂ S.HasTy vs ts ∧ RowMatches S w vs ∧
      ∀ row ∈ M, ¬RowMatches S row vs

theorem answers_nil (M : Matrix κ) (hM : ∀ r ∈ M, RowOk S [] r) :
    Answers S M [] (if M.isEmpty then some [] else none) := by
  cases M with
  | nil => exact ⟨.nil, [], .nil, .nil, by simp⟩
  | cons row M =>
    have hrow : row = [] := by
      cases hM row (by simp)
      rfl
    intro vs hvs
    cases hvs
    exact ⟨row, by simp, hrow ▸ .nil⟩

/-- One constructor of a column: a witness of the specialized matrix is one of
the matrix. -/
theorem answers_rebuild (hcs : S.ctors t = some cs) (hc : c ∈ cs)
    (hM : ∀ r ∈ M, RowOk S (t :: ts) r) {w : Row κ}
    (hw : Answers S (specialize S M c (S.args c t).length) (S.args c t ++ ts) (some w)) :
    Answers S M (t :: ts) (some (rebuild c (S.args c t).length w)) := by
  obtain ⟨hok, us, hus, hmatch, hno⟩ := hw
  obtain ⟨us₁, us₂, rfl, h₁, h₂⟩ : ∃ us₁ us₂, us = us₁ ++ us₂ ∧
      List.Forall₂ S.HasTy us₁ (S.args c t) ∧ List.Forall₂ S.HasTy us₂ ts :=
    ⟨us.take (S.args c t).length, us.drop (S.args c t).length, by simp,
      List.forall₂_take_append us _ _ hus, List.forall₂_drop_append us _ _ hus⟩
  obtain ⟨v, hv, his, rfl⟩ := S.build hcs hc h₁
  have hlen : (w.take (S.args c t).length).length = (S.parts c v).length := by
    rw [List.length_take, hok.length_eq, h₁.length_eq]
    simp
  have hsplit : RowMatches S (w.take (S.args c t).length) (S.parts c v) ∧
      RowMatches S (w.drop (S.args c t).length) us₂ := by
    rw [← rowMatches_append hlen, List.take_append_drop]
    exact hmatch
  refine ⟨.cons (.ctor (fun cs' h => ?_) (List.forall₂_take_append _ _ _ hok))
    (List.forall₂_drop_append _ _ _ hok), v :: us₂, .cons hv h₂,
    .cons (.ctor his hsplit.1) hsplit.2, fun row hrow hm => ?_⟩
  · rw [hcs] at h
    cases h
    exact hc
  · obtain ⟨r, hr, hrm⟩ := (specializeRow_matches hcs hc hv his (hM row hrow)).mp hm
    exact hno r (List.mem_filterMap.mpr ⟨row, hrow, hr⟩) hrm

/-- A value that no row of the column names leaves the rows that start with a
wildcard. -/
theorem answers_default {p : MatPat κ} (hp : PatOk S p t)
    (hv : S.HasTy v t) (hpv : Matches S p v)
    (hhead : ∀ row ∈ M, ∀ d, headCtor row = some d → ¬S.Is d v) {o : Option (Row κ)}
    (ho : Answers S (defaultMatrix M) ts o) : Answers S M (t :: ts) (o.map (p :: ·)) := by
  cases o with
  | none =>
    intro vs hvs
    cases hvs with
    | cons _ hvs =>
      obtain ⟨r, hr, hm⟩ := ho _ hvs
      exact ⟨_, mem_defaultMatrix.mp hr, .cons .wild hm⟩
  | some w =>
    obtain ⟨hok, vs, hvs, hm, hno⟩ := ho
    refine ⟨.cons hp hok, v :: vs, .cons hv hvs, .cons hpv hm, fun row hrow h => ?_⟩
    cases h with
    | cons hpm hrest =>
      cases hpm with
      | wild => exact hno _ (mem_defaultMatrix.mpr hrow) hrest
      | ctor his _ => exact hhead _ hrow _ rfl his

/-- A constructor that no row of the column names. -/
theorem missing_not_head (hcs : S.ctors t = some cs) (hM : ∀ r ∈ M, RowOk S (t :: ts) r)
    (hfind : cs.find? (fun c => !(collectHeadCtors S M).any (S.same c)) = some c)
    (hv : S.HasTy v t) (his : S.Is c v) : ∀ row ∈ M, ∀ d, headCtor row = some d → ¬S.Is d v := by
  intro row hrow d hd hisd
  have hc := List.mem_of_find?_eq_some hfind
  have hnone := List.find?_some hfind
  cases hM row hrow with
  | cons hp _ =>
    cases hp with
    | wild => cases hd
    | ctor hmem _ =>
      cases hd
      obtain rfl := S.distinct hcs hc (hmem cs hcs) hv his hisd
      rw [head_found hcs hM hrow] at hnone
      cases hnone

theorem answers_unlisted (hcs : S.ctors t = none) {o : Option (Row κ)}
    (ho : Answers S (defaultMatrix M) ts o) : Answers S M (t :: ts) (o.map (.wild :: ·)) := by
  obtain ⟨v, hv, hfresh⟩ := S.fresh hcs (M.filterMap headCtor)
  exact answers_default .wild hv .wild
    (fun row hrow d hd => hfresh d (List.mem_filterMap.mpr ⟨row, hrow, hd⟩)) ho

theorem answers_missing (hcs : S.ctors t = some cs) (hM : ∀ r ∈ M, RowOk S (t :: ts) r)
    (hfind : cs.find? (fun c => !(collectHeadCtors S M).any (S.same c)) = some c)
    {o : Option (Row κ)} (ho : Answers S (defaultMatrix M) ts o) :
    Answers S M (t :: ts)
      (o.map (.ctor c (List.replicate (S.args c t).length .wild) :: ·)) := by
  have hc := List.mem_of_find?_eq_some hfind
  obtain ⟨us, hus⟩ := inhabited_row S (S.args c t)
  obtain ⟨v, hv, his, rfl⟩ := S.build hcs hc hus
  have hmem : ∀ cs', S.ctors t = some cs' → c ∈ cs' := by
    intro cs' h
    rw [hcs] at h
    cases h
    exact hc
  exact answers_default (.ctor hmem (patOk_wilds _)) hv
    (.ctor his (matches_wilds hus.length_eq.symm)) (missing_not_head hcs hM hfind hv his) ho

/-- All constructors of a column: none of the specialized matrices has a
witness, or the first that has one gives it. -/
theorem answers_complete (hcs : S.ctors t = some cs) (hM : ∀ r ∈ M, RowOk S (t :: ts) r)
    {f : κ → Option (Row κ)}
    (hf : ∀ c ∈ cs, Answers S (specialize S M c (S.args c t).length) (S.args c t ++ ts) (f c)) :
    Answers S M (t :: ts)
      (cs.attach.findSome? fun c => (f c.1).map (rebuild c.1 (S.args c.1 t).length)) := by
  cases hres : cs.attach.findSome? fun c => (f c.1).map (rebuild c.1 (S.args c.1 t).length) with
  | none =>
    intro vs hvs
    cases hvs with
    | @cons v _ vs _ hv hvs =>
      obtain ⟨c, hc, his⟩ := S.covered hcs hv
      have hnone : f c = none := by
        have := List.findSome?_eq_none_iff.mp hres ⟨c, hc⟩ (List.mem_attach ..)
        simpa using this
      have hans := hf c hc
      rw [hnone] at hans
      obtain ⟨r, hr, hm⟩ := hans _ (List.rel_append (S.parts_hasTy hcs hc hv his) hvs)
      obtain ⟨row, hrow, hspec⟩ := List.mem_filterMap.mp hr
      exact ⟨row, hrow, (specializeRow_matches hcs hc hv his (hM row hrow)).mpr ⟨r, hspec, hm⟩⟩
  | some w =>
    obtain ⟨⟨c, hc⟩, -, hw⟩ := List.exists_of_findSome?_eq_some hres
    obtain ⟨w', hfc, rfl⟩ := Option.map_eq_some_iff.mp hw
    have hans := hf c hc
    rw [hfc] at hans
    exact answers_rebuild hcs hc hM hans

/-- The search is exact: no witness means that every row of values is matched,
and a witness describes a row of values that is not. -/
theorem findWitness_answers (S : Signature τ κ V) (M : Matrix κ) (ts : List τ)
    (hM : ∀ r ∈ M, RowOk S ts r) : Answers S M ts (findWitness S M ts) := by
  induction hn : (ts.map S.size).sum using Nat.strong_induction_on generalizing M ts with
  | _ n ih =>
    subst hn
    cases ts with
    | nil =>
      rw [findWitness]
      exact answers_nil M hM
    | cons t ts =>
      have hdrop : (ts.map S.size).sum < ((t :: ts).map S.size).sum := by
        have := S.size_pos t
        simp only [List.map_cons, List.sum_cons]
        omega
      have hdefault := ih _ hdrop (defaultMatrix M) ts (defaultMatrix_ok hM) rfl
      rw [findWitness]
      split
      · rename_i cs hcs
        split
        · refine answers_complete hcs hM fun c hc =>
            ih _ ?_ _ _ (specialize_ok hcs hc hM) rfl
          have := S.size_args hcs hc
          simp only [List.map_append, List.sum_append, List.map_cons, List.sum_cons]
          omega
        · rename_i missing hfind
          exact answers_missing hcs hM hfind hdefault
      · rename_i hcs
        exact answers_unlisted hcs hdefault

end Correctness

end FcLang.PatternMatrix
