import FcLang.Lib.Slice
import Mathlib.Logic.Relation

/-!
# The memoized test for type variables

A type is a node of a graph whose subtrees may be shared. The test walks the
graph depth first and keeps the struct, union and stub nodes whose subgraph it
has found free of variables. The set keeps its first entries in a buffer of the
caller's frame.
-/

namespace FcLang.Types.Graph
open Exec

variable {ι : Type}

/-- A type by its kind and its pointers to other types, any of which may be null. -/
inductive TypeNode (ι : Type) where
  | typeVar
  | pointer (pointee : Option ι)
  | slice (elem : Option ι)
  | option (inner : Option ι)
  | result (inner : Option ι)
  | fixedArray (sizeRef elem : Option ι)
  | constInt
  | constExpr
  | func (paramTypes : List (Option ι)) (returnType : Option ι)
  | struct (fields typeArgs : List (Option ι))
  | union (payloads typeArgs : List (Option ι))
  | stub (typeArgs : List (Option ι))
  /-- Primitives, enums, `any*` and the kinds of failed types. -/
  | leaf

/-- The types that the naive recursion goes on to. -/
def TypeNode.children : TypeNode ι → List (Option ι)
  | .pointer t | .slice t | .option t | .result t => [t]
  | .fixedArray sizeRef elem => [sizeRef, elem]
  | .func paramTypes returnType => paramTypes ++ [returnType]
  | .struct ts typeArgs | .union ts typeArgs => ts ++ typeArgs
  | .stub typeArgs => typeArgs
  | .typeVar | .constInt | .constExpr | .leaf => []

def TypeNode.isSymbolic : TypeNode ι → Bool
  | .typeVar | .constExpr => true
  | _ => false

/-- No type contains itself. Nodes may be shared. -/
structure TypeGraph (ι : Type) where
  node : ι → TypeNode ι
  acyclic : WellFounded fun u t => some u ∈ (node t).children

/-- `items` is the buffer, of `cap` slots, and `isInline` tells whether it is the one in the
frame. -/
structure TypeVarCleanSet (ι : Type) where
  items : List (Option ι)
  count : ℕ
  cap : ℕ
  isInline : Bool

def TypeVarCleanSet.entries (s : TypeVarCleanSet ι) : List (Option ι) := s.items.take s.count

def cleanSetHas [DecidableEq ι] (s : TypeVarCleanSet ι) (t : ι) : Bool := s.entries.any (· = some t)

def cleanSetAdd (s : TypeVarCleanSet ι) (t : ι) : Exec (TypeVarCleanSet ι) := do
  let s := if s.count = s.cap then
      let ncap := s.cap * 2
      -- `malloc` and a copy of the entries, or a `realloc` that keeps the old buffer
      let kept := if s.isInline then s.items.take s.count else s.items
      { items := kept ++ List.replicate (ncap - kept.length) none, count := s.count, cap := ncap,
        isInline := false }
    else s
  let items ← Slice.set s.items s.count (some t)
  return { s with items, count := s.count + 1 }

def cleanSetNew : TypeVarCleanSet ι :=
  { items := List.replicate 64 none, count := 0, cap := 64, isInline := true }

/-- `for (...) if (memo(children[i], clean)) return true;` -/
def anyChild (memo : Option ι → TypeVarCleanSet ι → Exec (Bool × TypeVarCleanSet ι)) :
    List (Option ι) → TypeVarCleanSet ι → Exec (Bool × TypeVarCleanSet ι)
  | [], clean => .ret (false, clean)
  | t :: ts, clean => do
    let (found, clean) ← memo t clean
    if found then return (true, clean)
    anyChild memo ts clean

/-- The branching kinds: two lists of types are scanned unless the node is known to be clean. -/
def scanNode [DecidableEq ι]
    (memo : Option ι → TypeVarCleanSet ι → Exec (Bool × TypeVarCleanSet ι)) (t : ι)
    (ts typeArgs : List (Option ι)) (clean : TypeVarCleanSet ι) :
    Exec (Bool × TypeVarCleanSet ι) := do
  if cleanSetHas clean t then return (false, clean)
  let (found, clean) ← anyChild memo ts clean
  if found then return (true, clean)
  let (found, clean) ← anyChild memo typeArgs clean
  if found then return (true, clean)
  let clean ← cleanSetAdd clean t
  return (false, clean)

def typeContainsTypeVarMemo [DecidableEq ι] (g : TypeGraph ι) :
    ℕ → Option ι → TypeVarCleanSet ι → Exec (Bool × TypeVarCleanSet ι)
  | 0, _, _ => .timeout
  | _ + 1, none, clean => .ret (false, clean)
  | fuel + 1, some t, clean =>
    match g.node t with
    | .typeVar => .ret (true, clean)
    | .pointer pointee => typeContainsTypeVarMemo g fuel pointee clean
    | .slice elem => typeContainsTypeVarMemo g fuel elem clean
    | .option inner => typeContainsTypeVarMemo g fuel inner clean
    | .result inner => typeContainsTypeVarMemo g fuel inner clean
    | .fixedArray none elem => typeContainsTypeVarMemo g fuel elem clean
    | .fixedArray (some sizeRef) elem => do
      let (found, clean) ← typeContainsTypeVarMemo g fuel (some sizeRef) clean
      if found then return (true, clean)
      typeContainsTypeVarMemo g fuel elem clean
    | .constInt => .ret (false, clean)
    | .constExpr => .ret (true, clean)
    | .func paramTypes returnType => do
      let (found, clean) ← anyChild (typeContainsTypeVarMemo g fuel) paramTypes clean
      if found then return (true, clean)
      typeContainsTypeVarMemo g fuel returnType clean
    | .struct fields typeArgs => scanNode (typeContainsTypeVarMemo g fuel) t fields typeArgs clean
    | .union payloads typeArgs =>
      scanNode (typeContainsTypeVarMemo g fuel) t payloads typeArgs clean
    | .stub typeArgs => scanNode (typeContainsTypeVarMemo g fuel) t [] typeArgs clean
    | .leaf => .ret (false, clean)

def typeContainsTypeVar [DecidableEq ι] (g : TypeGraph ι) (fuel : ℕ) (t : Option ι) : Exec Bool := do
  let (r, _) ← typeContainsTypeVarMemo g fuel t cleanSetNew
  return r

section Spec
variable {g : TypeGraph ι} {s : TypeVarCleanSet ι} {t : ι} {o : Option ι} {fuel : ℕ}
  {memo : Option ι → TypeVarCleanSet ι → Exec (Bool × TypeVarCleanSet ι)}

/-- A symbolic node is reachable. -/
def HasVar (g : TypeGraph ι) (t : ι) : Prop :=
  ∃ u, Relation.ReflTransGen (fun a b => some b ∈ (g.node a).children) t u ∧
    (g.node u).isSymbolic = true

/-- The same of a pointer that may be null. -/
def MayVary (g : TypeGraph ι) (o : Option ι) : Prop := ∃ t ∈ o, HasVar g t

theorem hasVar_iff : HasVar g t ↔
    (g.node t).isSymbolic = true ∨ ∃ o ∈ (g.node t).children, MayVary g o := by
  constructor
  · rintro ⟨u, hpath, hu⟩
    rcases Relation.ReflTransGen.cases_head hpath with rfl | ⟨v, hv, hpath⟩
    · exact .inl hu
    · exact .inr ⟨some v, hv, v, rfl, u, hpath, hu⟩
  · rintro (h | ⟨o, ho, v, rfl, u, hpath, hu⟩)
    · exact ⟨t, .refl, h⟩
    · exact ⟨u, .head ho hpath, hu⟩

/-- The buffer is as long as `cap` says. -/
structure TypeVarCleanSet.Buffer (s : TypeVarCleanSet ι) : Prop where
  length : s.items.length = s.cap
  count_le : s.count ≤ s.cap
  cap_pos : 0 < s.cap

/-- Every entry is a node whose subgraph has no variable. -/
structure Sound (g : TypeGraph ι) (s : TypeVarCleanSet ι) : Prop where
  buffer : s.Buffer
  clean : ∀ t, some t ∈ s.entries → ¬HasVar g t

/-- An addition appends one entry. A buffer that is full moves to one twice as long. -/
theorem cleanSetAdd_spec (hs : s.Buffer) (t : ι) :
    ∃ s', cleanSetAdd s t = .ret s' ∧ s'.Buffer ∧ s'.entries = s.entries ++ [some t] := by
  have happend : ∀ items : List (Option ι), items.take s.count = s.entries →
      s.count < items.length →
      ∃ items', Slice.set items s.count (some t) = .ret items' ∧ items'.length = items.length ∧
        items'.take (s.count + 1) = s.entries ++ [some t] := by
    intro items htake hlt
    refine ⟨_, Slice.set_natCast hlt _, List.length_set, ?_⟩
    rw [List.take_add_one, List.take_set_of_le le_rfl, htake, List.getElem?_set_self hlt]
    rfl
  have hcount : s.entries.length = s.count := by
    rw [TypeVarCleanSet.entries, List.length_take, hs.length]
    exact min_eq_left hs.count_le
  by_cases hfull : s.count = s.cap
  · have hkept : (if s.isInline then s.items.take s.count else s.items) = s.entries := by
      have htake : s.items.take s.count = s.items := by
        rw [hfull, ← hs.length, List.take_length]
      rw [TypeVarCleanSet.entries, htake, ite_self]
    obtain ⟨items, hset, hlen, htake⟩ := happend
      (s.entries ++ List.replicate (s.cap * 2 - s.entries.length) none)
      (by rw [← hcount, List.take_left]) (by
        have := hs.cap_pos
        rw [List.length_append, List.length_replicate, hcount]
        omega)
    refine ⟨{ items, count := s.count + 1, cap := s.cap * 2, isInline := false }, ?_, ?_, htake⟩
    · simp only [cleanSetAdd, if_pos hfull, hkept, hset, ret_bind, pure_eq]
    · have := hs.cap_pos
      refine ⟨?_, show s.count + 1 ≤ s.cap * 2 by omega, show 0 < s.cap * 2 by omega⟩
      show items.length = s.cap * 2
      rw [hlen, List.length_append, List.length_replicate, hcount]
      omega
  · have hlt : s.count < s.items.length := by
      have := hs.count_le
      rw [hs.length]
      omega
    obtain ⟨items, hset, hlen, htake⟩ := happend s.items rfl hlt
    refine ⟨{ s with items, count := s.count + 1 }, ?_, ?_, htake⟩
    · simp only [cleanSetAdd, if_neg hfull, hset, ret_bind, pure_eq]
    · exact ⟨hlen.trans hs.length, show s.count + 1 ≤ s.cap by rw [← hs.length]; omega, hs.cap_pos⟩

/-- The walk answers from any sound set whether `P` holds, and leaves a sound set that has kept
its entries. -/
def Answers (g : TypeGraph ι) (P : Prop)
    (walk : TypeVarCleanSet ι → Exec (Bool × TypeVarCleanSet ι)) : Prop :=
  ∀ s, Sound g s → ∃ found s', walk s = .ret (found, s') ∧ (found = true ↔ P) ∧ Sound g s' ∧
    s.entries <+: s'.entries

theorem answers_ret {P : Prop} {found : Bool} (h : found = true ↔ P) :
    Answers g P fun s => .ret (found, s) :=
  fun s hs => ⟨found, s, rfl, h, hs, List.prefix_rfl⟩

theorem Answers.congr {P Q : Prop} {walk : TypeVarCleanSet ι → Exec (Bool × TypeVarCleanSet ι)}
    (h : Answers g P walk) (hPQ : P ↔ Q) : Answers g Q walk := by
  intro s hs
  obtain ⟨found, s', hwalk, hfound, hs', hprefix⟩ := h s hs
  exact ⟨found, s', hwalk, hfound.trans hPQ, hs', hprefix⟩

/-- One walk, and another where the first found nothing. -/
theorem Answers.orElse {P Q : Prop}
    {walk walk' : TypeVarCleanSet ι → Exec (Bool × TypeVarCleanSet ι)}
    (h : Answers g P walk) (h' : ¬P → Answers g Q walk') :
    Answers g (P ∨ Q) (fun s => do
      let (found, s) ← walk s
      if found then return (true, s)
      walk' s) := by
  intro s hs
  obtain ⟨found, s₁, hwalk, hfound, hs₁, hprefix⟩ := h s hs
  cases found with
  | true =>
    exact ⟨true, s₁, by simp [hwalk], iff_of_true rfl (.inl (hfound.mp rfl)), hs₁, hprefix⟩
  | false =>
    have hnot : ¬P := fun hP => by simpa using hfound.mpr hP
    obtain ⟨found', s₂, hwalk', hfound', hs₂, hprefix'⟩ := h' hnot s₁ hs₁
    refine ⟨found', s₂, by simp [hwalk, hwalk'], ?_, hs₂, hprefix.trans hprefix'⟩
    rw [hfound', or_iff_right hnot]

theorem anyChild_answers {os : List (Option ι)}
    (hmemo : ∀ o ∈ os, Answers g (MayVary g o) (memo o)) :
    Answers g (∃ o ∈ os, MayVary g o) (anyChild memo os) := by
  induction os with
  | nil => exact answers_ret (by simp)
  | cons o os ih =>
    refine Answers.congr ((hmemo o List.mem_cons_self).orElse fun _ =>
      ih fun o ho => hmemo o (List.mem_cons_of_mem _ ho)) ?_
    rw [List.exists_mem_cons_iff]

theorem cleanSetHas_iff [DecidableEq ι] : cleanSetHas s t = true ↔ some t ∈ s.entries := by
  simp [cleanSetHas]

/-- A branching node joins the set only after all its types were found free of variables. -/
theorem scanNode_answers [DecidableEq ι] {ts typeArgs : List (Option ι)}
    (hnode : HasVar g t ↔ (∃ o ∈ ts, MayVary g o) ∨ ∃ o ∈ typeArgs, MayVary g o)
    (hmemo : ∀ o ∈ ts ++ typeArgs, Answers g (MayVary g o) (memo o)) :
    Answers g (HasVar g t) (scanNode memo t ts typeArgs) := by
  intro s hs
  by_cases hhas : cleanSetHas s t = true
  · refine ⟨false, s, by simp [scanNode, hhas], ?_, hs, List.prefix_rfl⟩
    exact iff_of_false (by simp) (hs.clean t (cleanSetHas_iff.mp hhas))
  · have hlast : ¬(∃ o ∈ ts, MayVary g o) → ¬(∃ o ∈ typeArgs, MayVary g o) →
        Answers g False fun s => do
          let s ← cleanSetAdd s t
          return (false, s) := by
      intro hts hargs s hs
      obtain ⟨s', hadd, hbuffer, hentries⟩ := cleanSetAdd_spec hs.buffer t
      refine ⟨false, s', by simp [hadd], by simp, ⟨hbuffer, fun u hu => ?_⟩, ?_⟩
      · rw [hentries] at hu
        rcases List.mem_append.mp hu with hu | hu
        · exact hs.clean u hu
        · cases List.mem_singleton.mp hu
          exact fun h => (hnode.mp h).elim hts hargs
      · rw [hentries]
        exact List.prefix_append _ _
    have hscan := (anyChild_answers fun o ho => hmemo o (List.mem_append_left _ ho)).orElse
      fun hts => (anyChild_answers fun o ho => hmemo o (List.mem_append_right _ ho)).orElse
        fun hargs => hlast hts hargs
    obtain ⟨found, s', hwalk, hfound, hs', hprefix⟩ := hscan s hs
    refine ⟨found, s', ?_, hfound.trans ?_, hs', hprefix⟩
    · rw [scanNode, if_neg hhas]
      exact hwalk
    · rw [or_false, hnode]

theorem exists_mem_append_iff {os os' : List (Option ι)} {P : Option ι → Prop} :
    (∃ o ∈ os ++ os', P o) ↔ (∃ o ∈ os, P o) ∨ ∃ o ∈ os', P o := by
  constructor
  · rintro ⟨o, ho, h⟩
    exact (List.mem_append.mp ho).imp (fun ho => ⟨o, ho, h⟩) fun ho => ⟨o, ho, h⟩
  · rintro (⟨o, ho, h⟩ | ⟨o, ho, h⟩)
    · exact ⟨o, List.mem_append_left _ ho, h⟩
    · exact ⟨o, List.mem_append_right _ ho, h⟩

section Walk
variable [DecidableEq ι]

theorem memo_none_answers :
    ∃ n, ∀ fuel ≥ n, Answers g (MayVary g none) (typeContainsTypeVarMemo g fuel none) := by
  refine ⟨1, fun fuel hfuel => ?_⟩
  obtain ⟨fuel, rfl⟩ : ∃ k, fuel = k + 1 := ⟨fuel - 1, by omega⟩
  exact answers_ret (by simp [MayVary])

/-- One node: its answer follows from those of its children. -/
theorem memo_node (h : ∀ o ∈ (g.node t).children,
    Answers g (MayVary g o) (typeContainsTypeVarMemo g fuel o)) :
    Answers g (HasVar g t) (typeContainsTypeVarMemo g (fuel + 1) (some t)) := by
  have hvar := hasVar_iff (g := g) (t := t)
  show Answers g (HasVar g t) fun clean => typeContainsTypeVarMemo g (fuel + 1) (some t) clean
  simp only [typeContainsTypeVarMemo]
  cases hnode : g.node t with
  | typeVar | constExpr =>
    rw [hnode] at hvar
    exact answers_ret (iff_of_true rfl (hvar.mpr (.inl rfl)))
  | constInt | leaf =>
    rw [hnode] at hvar
    exact answers_ret (iff_of_false (by simp) fun h => by
      simpa [TypeNode.isSymbolic, TypeNode.children] using hvar.mp h)
  | pointer p | slice p | option p | result p =>
    rw [hnode] at hvar h
    refine (h p List.mem_cons_self).congr ?_
    rw [hvar]
    simp [TypeNode.isSymbolic, TypeNode.children]
  | fixedArray sizeRef elem =>
    rw [hnode] at hvar h
    have helem := h elem (by simp [TypeNode.children])
    cases sizeRef with
    | none =>
      refine helem.congr ?_
      rw [hvar]
      simp [TypeNode.isSymbolic, TypeNode.children, MayVary]
    | some sizeRef =>
      refine ((h (some sizeRef) List.mem_cons_self).orElse fun _ => helem).congr ?_
      rw [hvar]
      simp [TypeNode.isSymbolic, TypeNode.children]
  | func paramTypes returnType =>
    rw [hnode] at hvar h
    refine ((anyChild_answers fun o ho => h o (List.mem_append_left _ ho)).orElse fun _ =>
      h returnType (by simp [TypeNode.children])).congr ?_
    rw [hvar, TypeNode.children, exists_mem_append_iff]
    simp [TypeNode.isSymbolic]
  | struct ts typeArgs | union ts typeArgs =>
    rw [hnode] at hvar h
    refine scanNode_answers ?_ h
    rw [hvar, TypeNode.children, exists_mem_append_iff]
    simp [TypeNode.isSymbolic]
  | stub typeArgs =>
    rw [hnode] at hvar h
    refine scanNode_answers ?_ h
    rw [hvar]
    simp [TypeNode.isSymbolic, TypeNode.children]

omit [DecidableEq ι] in
/-- Enough budget for each of finitely many types is enough for all of them. -/
theorem exists_budget {os : List (Option ι)} {P : ℕ → Option ι → Prop}
    (h : ∀ o ∈ os, ∃ n, ∀ fuel ≥ n, P fuel o) : ∃ n, ∀ fuel ≥ n, ∀ o ∈ os, P fuel o := by
  induction os with
  | nil => exact ⟨0, by simp⟩
  | cons o os ih =>
    obtain ⟨n, hn⟩ := h o List.mem_cons_self
    obtain ⟨m, hm⟩ := ih fun o ho => h o (List.mem_cons_of_mem _ ho)
    refine ⟨max n m, fun fuel hfuel => List.forall_mem_cons.mpr ⟨?_, ?_⟩⟩
    · exact hn fuel (le_of_max_le_left hfuel)
    · exact hm fuel (le_of_max_le_right hfuel)

/-- The walk of any type ends with the right answer. -/
theorem memo_answers (g : TypeGraph ι) (o : Option ι) :
    ∃ n, ∀ fuel ≥ n, Answers g (MayVary g o) (typeContainsTypeVarMemo g fuel o) := by
  cases o with
  | none => exact memo_none_answers
  | some t =>
    induction t using g.acyclic.induction with
    | _ t ih =>
      have hchild : ∀ o ∈ (g.node t).children, ∃ n, ∀ fuel ≥ n,
          Answers g (MayVary g o) (typeContainsTypeVarMemo g fuel o) := by
        intro o ho
        cases o with
        | none => exact memo_none_answers
        | some u => exact ih u ho
      obtain ⟨n, hn⟩ := exists_budget hchild
      refine ⟨n + 1, fun fuel hfuel => ?_⟩
      obtain ⟨fuel, rfl⟩ : ∃ k, fuel = k + 1 := ⟨fuel - 1, by omega⟩
      refine (memo_node (hn fuel (by omega))).congr ?_
      simp [MayVary]

omit [DecidableEq ι] in
theorem sound_new (g : TypeGraph ι) : Sound g cleanSetNew :=
  ⟨⟨List.length_replicate, Nat.zero_le _, Nat.succ_pos 63⟩, fun t h => by
    simp [cleanSetNew, TypeVarCleanSet.entries] at h⟩

/-- The memoized test ends, and finds a type variable or a symbolic constant exactly where one is
reachable. From any set of variable-free nodes the walk ends in such a set that still has all of
its entries, and an addition only appends, also past the inline buffer. -/
theorem typeContainsTypeVar_iff (g : TypeGraph ι) (o : Option ι) :
    ∃ n, ∀ fuel ≥ n,
      (∃ found, typeContainsTypeVar g fuel o = .ret found ∧
        (found = true ↔ ∃ t ∈ o, HasVar g t)) ∧
      (∀ s, Sound g s → ∃ found s', typeContainsTypeVarMemo g fuel o s = .ret (found, s') ∧
        Sound g s' ∧ s.entries <+: s'.entries) ∧
      ∀ s, Sound g s → ∀ t, ∃ s', cleanSetAdd s t = .ret s' ∧
        s'.entries = s.entries ++ [some t] := by
  obtain ⟨n, hn⟩ := memo_answers g o
  refine ⟨n, fun fuel hfuel => ⟨?_, fun s hs => ?_, fun s hs t => ?_⟩⟩
  · obtain ⟨found, s', hwalk, hfound, -⟩ := hn fuel hfuel _ (sound_new g)
    exact ⟨found, by rw [typeContainsTypeVar, hwalk]; rfl, hfound⟩
  · obtain ⟨found, s', hwalk, -, hs', hprefix⟩ := hn fuel hfuel s hs
    exact ⟨found, s', hwalk, hs', hprefix⟩
  · obtain ⟨s', hadd, -, hentries⟩ := cleanSetAdd_spec hs.buffer t
    exact ⟨s', hadd, hentries⟩

/-- A struct whose fields are another struct and a pointer to it, and a type variable behind. -/
def sharedField : TypeGraph (Fin 4) where
  node
    | 0 => .struct [some 1, some 2, some 3] []
    | 1 => .pointer (some 2)
    | 2 => .struct [none] []
    | 3 => .typeVar
  acyclic := by
    refine Subrelation.wf (fun {u t} h => ?_) (wellFounded_gt : WellFounded fun u t : Fin 4 => u > t)
    revert u t
    decide

theorem typeContainsTypeVar_iff_sharedField : ∃ n, ∀ fuel ≥ n,
    typeContainsTypeVar sharedField fuel (some 0) = .ret true ∧
      typeContainsTypeVar sharedField fuel (some 1) = .ret false := by
  have hvar : HasVar sharedField 0 :=
    ⟨3, .single (by decide), rfl⟩
  have hstruct : ¬HasVar sharedField 2 := by
    rw [hasVar_iff]
    simp [MayVary, sharedField, TypeNode.children, TypeNode.isSymbolic]
  have hnone : ¬HasVar sharedField 1 := by
    rw [hasVar_iff]
    rintro (h | ⟨o, ho, t, rfl, h⟩)
    · cases h
    · obtain rfl : t = 2 := by simpa [sharedField, TypeNode.children] using ho
      exact hstruct h
  obtain ⟨n, hn⟩ := typeContainsTypeVar_iff sharedField (some 0)
  obtain ⟨m, hm⟩ := typeContainsTypeVar_iff sharedField (some 1)
  refine ⟨max n m, fun fuel hfuel => ⟨?_, ?_⟩⟩
  · obtain ⟨⟨found, hrun, hfound⟩, -⟩ := hn fuel (le_of_max_le_left hfuel)
    rw [hrun, hfound.mpr ⟨0, rfl, hvar⟩]
  · obtain ⟨⟨found, hrun, hfound⟩, -⟩ := hm fuel (le_of_max_le_right hfuel)
    have hfalse : found = false := by
      rw [Bool.eq_false_iff]
      rintro h
      obtain ⟨t, ht, hhas⟩ := hfound.mp h
      cases ht
      exact hnone hhas
    rw [hrun, hfalse]

end Walk

end Spec

end FcLang.Types.Graph
