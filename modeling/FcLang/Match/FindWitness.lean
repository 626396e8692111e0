import FcLang.Match.Ctors

/-!
# The search for a witness

`find_witness` over matrices whose constructors carry their arities and whose
rows are copied column by column. On well-formed matrices it is the search of
the pattern matrix library, and so it decides coverage.
-/

namespace FcLang.Match.Columns
open FcLang.PatternMatrix (Signature MatPat RowOk RowMatches PatOk Matches)

/-- A constructor with the number of its sub-patterns. -/
structure MatCtor where
  head : Ctor
  arity : ℕ

def MatCtor.eq (a b : MatCtor) : Bool := ctorEq a.head b.head

abbrev PatRow := List (MatPat MatCtor)

structure PatMatrix where
  rows : List PatRow
  colCount : ℕ

def typeCtorsList : Ty → Option (List MatCtor)
  | .prim .bool => some [⟨.tru, 0⟩, ⟨.fls, 0⟩]
  | .option _ => some [⟨.some, 1⟩, ⟨.none, 0⟩]
  | .result _ => some [⟨.ok, 1⟩, ⟨.err, 1⟩]
  | .union first rest =>
    some ((first :: rest).map fun v => ⟨.variant v.1, if v.2.isSome then 1 else 0⟩)
  | .enum first rest => some ((first :: rest).map fun name => ⟨.variant name, 0⟩)
  | .struct _ fields => some [⟨.struct, fields.length⟩]
  | _ => none

def typesSpecialize (types : List Ty) (c : MatCtor) (colType : Ty) : List Ty :=
  ctorSubTypes c.head colType ++ types.drop 1

def specializeRow (colCount : ℕ) (c : MatCtor) : PatRow → Option PatRow
  | [] => none
  | .wild :: rest => some (List.replicate c.arity .wild ++ rest.take (colCount - 1))
  | .ctor d sub :: rest =>
    if d.eq c then some (sub.take d.arity ++ rest.take (colCount - 1)) else none

def specialize (mat : PatMatrix) (c : MatCtor) : PatMatrix :=
  { rows := mat.rows.filterMap (specializeRow mat.colCount c)
    colCount := c.arity + mat.colCount - 1 }

def defaultRow (newCols : ℕ) : PatRow → Option PatRow
  | .wild :: rest => some (rest.take newCols)
  | _ => none

def defaultMatrix (mat : PatMatrix) : PatMatrix :=
  { rows := mat.rows.filterMap (defaultRow (mat.colCount - 1))
    colCount := mat.colCount - 1 }

def collectHeadCtor (seen : List MatCtor) : PatRow → List MatCtor
  | .ctor d _ :: _ => if seen.any (·.eq d) then seen else seen ++ [d]
  | _ => seen

def collectHeadCtors (mat : PatMatrix) : List MatCtor := mat.rows.foldl collectHeadCtor []

/-- The first `arity` patterns of a witness under `c`, before the others. -/
def wrap (c : MatCtor) (w : PatRow) : PatRow := .ctor c (w.take c.arity) :: w.drop c.arity

theorem heads_typeCtorsList (t : Ty) :
    (typeCtorsList t).map (List.map MatCtor.head) = Match.typeCtorsList t := by
  cases t with
  | prim kind => cases kind <;> rfl
  | union first rest => simp [typeCtorsList, Match.typeCtorsList]
  | enum first rest => simp [typeCtorsList, Match.typeCtorsList]
  | _ => rfl

theorem mem_heads {t : Ty} {cs : List MatCtor} (hcs : typeCtorsList t = some cs) {c : MatCtor}
    (hc : c ∈ cs) : ∃ heads, Match.typeCtorsList t = some heads ∧ c.head ∈ heads := by
  refine ⟨cs.map MatCtor.head, ?_, List.mem_map_of_mem hc⟩
  rw [← heads_typeCtorsList, hcs]
  rfl

/-- None where every row of values is matched, and otherwise a row of patterns for one that is
not. -/
def findWitness (mat : PatMatrix) : List Ty → Option PatRow
  | [] => if mat.rows.isEmpty then some [] else none
  | colType :: types =>
    let heads := collectHeadCtors mat
    match _hall : typeCtorsList colType with
    | some all =>
      if all.all fun c => heads.any c.eq then
        all.attach.findSome? fun c =>
          (findWitness (specialize mat c.1)
            (typesSpecialize (colType :: types) c.1 colType)).map (wrap c.1)
      else
        (findWitness (defaultMatrix mat) types).map fun w =>
          -- a constructor is missing here, so the fallback is never taken
          let missing := (all.find? fun c => !heads.any c.eq).getD (all.headD ⟨.none, 0⟩)
          .ctor missing (List.replicate missing.arity .wild) :: w
    | none => (findWitness (defaultMatrix mat) types).map (.wild :: ·)
termination_by types => (types.map Ty.size).sum
decreasing_by
  · obtain ⟨heads, hheads, hmem⟩ := mem_heads _hall c.2
    have := ctorSubTypes_size hheads hmem
    simp only [typesSpecialize, List.drop_one, List.tail_cons, List.map_append, List.sum_append,
      List.map_cons, List.sum_cons]
    omega
  all_goals
    have := colType.size_pos
    simp only [List.map_cons, List.sum_cons]
    omega

/-- The variants of every union in the type are told apart by their names. -/
inductive Distinct : Ty → Prop where
  | leaf {t : Ty} (h : Match.typeCtorsList t = none) : Distinct t
  | bool : Distinct (.prim .bool)
  | option {inner : Ty} (h : Distinct inner) : Distinct (.option inner)
  | result {inner : Ty} (h : Distinct inner) : Distinct (.result inner)
  | union {first : String × Option Ty} {rest : List (String × Option Ty)}
    (names : ((first :: rest).map Prod.fst).Nodup)
    (h : ∀ v ∈ first :: rest, ∀ t ∈ v.2, Distinct t) : Distinct (.union first rest)
  | enum {first : String} {rest : List String} : Distinct (.enum first rest)
  | struct {isTuple : Bool} {fields : List (String × Ty)} (h : ∀ f ∈ fields, Distinct f.2) :
    Distinct (.struct isTuple fields)

structure ColType where
  ty : Ty
  distinct : Distinct ty

section Laws
variable {t : Ty} {cs : List MatCtor} {c : MatCtor}

theorem lookup_of_nodup {l : List (String × Option Ty)} (hnodup : (l.map Prod.fst).Nodup)
    {v : String × Option Ty} (hv : v ∈ l) : l.lookup v.1 = some v.2 := by
  induction l with
  | nil => cases hv
  | cons w l ih =>
    obtain ⟨name, payload⟩ := w
    rw [List.map_cons, List.nodup_cons] at hnodup
    rw [List.lookup_cons]
    rcases List.mem_cons.mp hv with rfl | hmem
    · simp
    · have hne : v.1 ≠ name := by
        rintro rfl
        exact hnodup.1 (List.mem_map.mpr ⟨v, hmem, rfl⟩)
      rw [show (v.1 == name) = false by simpa using hne]
      exact ih hnodup.2 hmem

/-- The arity of a listed constructor is the number of its arguments. -/
theorem arity_eq (ht : Distinct t) (hcs : typeCtorsList t = some cs) (hc : c ∈ cs) :
    c.arity = (ctorSubTypes c.head t).length := by
  cases ht with
  | leaf h =>
    rw [← heads_typeCtorsList, hcs] at h
    cases h
  | bool =>
    cases hcs
    simp only [List.mem_cons, List.not_mem_nil, or_false] at hc
    rcases hc with rfl | rfl <;> rfl
  | option h =>
    cases hcs
    simp only [List.mem_cons, List.not_mem_nil, or_false] at hc
    rcases hc with rfl | rfl <;> rfl
  | result h =>
    cases hcs
    simp only [List.mem_cons, List.not_mem_nil, or_false] at hc
    rcases hc with rfl | rfl <;> rfl
  | union names h =>
    cases hcs
    obtain ⟨v, hv, rfl⟩ := List.mem_map.mp hc
    simp only [ctorSubTypes, lookup_of_nodup names hv, Option.join_some]
    cases v.2 <;> rfl
  | enum =>
    cases hcs
    obtain ⟨name, -, rfl⟩ := List.mem_map.mp hc
    rfl
  | struct h =>
    cases hcs
    obtain rfl := List.mem_singleton.mp hc
    simp [ctorSubTypes]

theorem Distinct.subTypes (ht : Distinct t) (hcs : typeCtorsList t = some cs) (hc : c ∈ cs) :
    ∀ s ∈ ctorSubTypes c.head t, Distinct s := by
  cases ht with
  | leaf h =>
    rw [← heads_typeCtorsList, hcs] at h
    cases h
  | bool =>
    cases hcs
    simp only [List.mem_cons, List.not_mem_nil, or_false] at hc
    rcases hc with rfl | rfl <;> simp [ctorSubTypes]
  | option h =>
    cases hcs
    simp only [List.mem_cons, List.not_mem_nil, or_false] at hc
    rcases hc with rfl | rfl <;> simp [ctorSubTypes, h]
  | result h =>
    cases hcs
    simp only [List.mem_cons, List.not_mem_nil, or_false] at hc
    rcases hc with rfl | rfl
    · simpa [ctorSubTypes] using h
    · simpa [ctorSubTypes] using Distinct.leaf rfl
  | union names h =>
    cases hcs
    obtain ⟨v, hv, rfl⟩ := List.mem_map.mp hc
    simp only [ctorSubTypes, lookup_of_nodup names hv, Option.join_some]
    exact fun s hs => h v hv s (Option.mem_toList.mp hs)
  | enum =>
    cases hcs
    obtain ⟨name, -, rfl⟩ := List.mem_map.mp hc
    simp [ctorSubTypes]
  | struct h =>
    cases hcs
    obtain rfl := List.mem_singleton.mp hc
    simpa [ctorSubTypes] using fun s name hf => h (name, s) hf

end Laws

/-- The signature of the subject types with the arities their constructors take. -/
def countedSignature : Signature Ty MatCtor Val where
  ctors t := (Match.typeCtorsList t).map
    (List.map fun head => ⟨head, (ctorSubTypes head t).length⟩)
  args c t := ctorSubTypes c.head t
  same := MatCtor.eq
  size := Ty.size
  HasTy := HasTy true
  Is c v := builds c.head v
  parts := fun _ => Val.parts
  size_pos := Ty.size_pos
  size_args := by
    intro t cs c hcs hc
    obtain ⟨heads, hheads, rfl⟩ := Option.map_eq_some_iff.mp hcs
    obtain ⟨head, hmem, rfl⟩ := List.mem_map.mp hc
    exact signature.size_args hheads hmem
  same_iff := by
    intro t cs c d hcs hc hd
    obtain ⟨heads, hheads, rfl⟩ := Option.map_eq_some_iff.mp hcs
    obtain ⟨head, hmem, rfl⟩ := List.mem_map.mp hc
    obtain ⟨head', hmem', rfl⟩ := List.mem_map.mp hd
    rw [MatCtor.eq, ctorEq, decide_eq_true_iff]
    refine ⟨fun h => ?_, fun h => congrArg MatCtor.head h⟩
    obtain rfl : head = head' := h
    rfl
  covered := by
    intro t cs v hcs hv
    obtain ⟨heads, hheads, rfl⟩ := Option.map_eq_some_iff.mp hcs
    obtain ⟨head, hmem, his⟩ := signature.covered hheads hv
    exact ⟨_, List.mem_map_of_mem hmem, his⟩
  distinct := by
    intro t cs c d v hcs hc hd hv hcv hdv
    obtain ⟨heads, hheads, rfl⟩ := Option.map_eq_some_iff.mp hcs
    obtain ⟨head, hmem, rfl⟩ := List.mem_map.mp hc
    obtain ⟨head', hmem', rfl⟩ := List.mem_map.mp hd
    obtain rfl : head = head' := signature.distinct hheads hmem hmem' hv hcv hdv
    rfl
  parts_hasTy := by
    intro t cs c v hcs hc hv his
    obtain ⟨heads, hheads, rfl⟩ := Option.map_eq_some_iff.mp hcs
    obtain ⟨head, hmem, rfl⟩ := List.mem_map.mp hc
    exact signature.parts_hasTy hheads hmem hv his
  build := by
    intro t cs c vs hcs hc hvs
    obtain ⟨heads, hheads, rfl⟩ := Option.map_eq_some_iff.mp hcs
    obtain ⟨head, hmem, rfl⟩ := List.mem_map.mp hc
    exact signature.build hheads hmem hvs
  fresh := by
    intro t ht ds
    obtain ⟨v, hv, hfresh⟩ := signature.fresh (Option.map_eq_none_iff.mp ht) (ds.map MatCtor.head)
    exact ⟨v, hv, fun d hd => hfresh d.head (List.mem_map_of_mem hd)⟩
  inhabited := hasTy_inhabited

theorem ctors_eq {t : Ty} (ht : Distinct t) : countedSignature.ctors t = typeCtorsList t := by
  show (Match.typeCtorsList t).map
    (List.map fun head => (⟨head, (ctorSubTypes head t).length⟩ : MatCtor)) = _
  rw [← heads_typeCtorsList]
  cases hcs : typeCtorsList t with
  | none => rfl
  | some cs =>
    simp only [Option.map_some, List.map_map, Option.some.injEq]
    refine (List.map_congr_left fun c hc => ?_).trans (List.map_id cs)
    rw [Function.comp_apply, ← arity_eq ht hcs hc]
    rfl

def Ctor.IsLiteral : Ctor → Prop
  | .intLit _ | .charLit _ | .stringLit _ => True
  | _ => False

/-- A constructor of the type with its arity, or a literal where the type lists none. -/
inductive WellFormed : MatPat MatCtor → Ty → Prop where
  | wild {t : Ty} : WellFormed .wild t
  | listed {t : Ty} {cs : List MatCtor} {c : MatCtor} {sub : List (MatPat MatCtor)}
    (hcs : typeCtorsList t = some cs) (mem : c ∈ cs)
    (hsub : List.Forall₂ WellFormed sub (ctorSubTypes c.head t)) : WellFormed (.ctor c sub) t
  | literal {t : Ty} {head : Ctor} (hcs : typeCtorsList t = none) (h : Ctor.IsLiteral head) :
    WellFormed (.ctor ⟨head, 0⟩ []) t

section Search
variable {t : Ty} {ts : List Ty} {mat : PatMatrix} {c : MatCtor}

theorem ctorSubTypes_literal {head : Ctor} (h : Ctor.IsLiteral head) (t : Ty) :
    ctorSubTypes head t = [] := by
  cases head <;> first | rfl | cases h

theorem forall₂_of_mem {α β : Type} {R S : α → β → Prop} {as : List α} {bs : List β}
    (h : List.Forall₂ R as bs) (hRS : ∀ b ∈ bs, ∀ a, R a b → S a b) : List.Forall₂ S as bs := by
  induction h with
  | nil => exact .nil
  | cons hab _ ih =>
    exact .cons (hRS _ List.mem_cons_self _ hab) (ih fun b hb => hRS b (List.mem_cons_of_mem _ hb))

theorem subType_size {cs : List MatCtor} (hcs : typeCtorsList t = some cs) (hc : c ∈ cs) :
    ((ctorSubTypes c.head t).map Ty.size).sum < t.size := by
  obtain ⟨heads, hheads, hmem⟩ := mem_heads hcs hc
  exact ctorSubTypes_size hheads hmem

theorem WellFormed.patOk {p : MatPat MatCtor} (hp : WellFormed p t) (ht : Distinct t) :
    PatOk countedSignature p t := by
  induction hn : t.size using Nat.strong_induction_on generalizing p t with
  | _ n ih =>
    subst hn
    cases hp with
    | wild => exact .wild
    | @listed _ cs c sub hcs mem hsub =>
      refine .ctor (fun cs' h => ?_) (forall₂_of_mem hsub fun s hs p hp => ?_)
      · rw [ctors_eq ht, hcs] at h
        cases h
        exact mem
      · have hle : s.size ≤ ((ctorSubTypes c.head t).map Ty.size).sum :=
          List.le_sum_of_mem (List.mem_map_of_mem hs)
        exact ih _ (hle.trans_lt (subType_size hcs mem)) hp (ht.subTypes hcs mem s hs) rfl
    | literal hcs h =>
      refine .ctor (fun cs' h' => ?_) ?_
      · rw [ctors_eq ht, hcs] at h'
        cases h'
      · show List.Forall₂ _ _ (ctorSubTypes _ t)
        rw [ctorSubTypes_literal h]
        exact .nil

theorem collectHeadCtors_eq (mat : PatMatrix) :
    collectHeadCtors mat = PatternMatrix.collectHeadCtors countedSignature mat.rows := by
  have hstep : collectHeadCtor = PatternMatrix.collectHeadCtor countedSignature := by
    funext seen row
    rcases row with _ | ⟨_ | ⟨d, sub⟩, rest⟩ <;> rfl
  rw [collectHeadCtors, hstep, PatternMatrix.collectHeadCtors]

/-- On well-formed rows the copying loops copy everything. -/
theorem specialize_rows (ht : Distinct t) {cs : List MatCtor} (hcs : typeCtorsList t = some cs)
    (hc : c ∈ cs) (hcols : mat.colCount = ts.length + 1)
    (hrows : ∀ r ∈ mat.rows, RowOk countedSignature (t :: ts) r) :
    (specialize mat c).rows = PatternMatrix.specialize countedSignature mat.rows c
      (countedSignature.args c t).length := by
  refine List.filterMap_congr fun row hrow => ?_
  cases hrows row hrow with
  | @cons p _ rest _ hp hrest =>
    have htake : rest.take (mat.colCount - 1) = rest := by
      rw [hcols, Nat.add_sub_cancel, ← hrest.length_eq, List.take_length]
    have harity : c.arity = (countedSignature.args c t).length := arity_eq ht hcs hc
    cases hp with
    | wild => simp only [specializeRow, PatternMatrix.specializeRow, htake, harity]
    | @ctor _ d sub hmem hsub =>
      have hd : d ∈ cs := hmem cs ((ctors_eq ht).trans hcs)
      have hsub : sub.take d.arity = sub := by
        have harity : d.arity = sub.length := (arity_eq ht hcs hd).trans hsub.length_eq.symm
        rw [harity, List.take_length]
      simp only [specializeRow, PatternMatrix.specializeRow, htake, hsub]
      rfl

theorem defaultMatrix_rows (hcols : mat.colCount = ts.length + 1)
    (hrows : ∀ r ∈ mat.rows, RowOk countedSignature (t :: ts) r) :
    (defaultMatrix mat).rows = PatternMatrix.defaultMatrix mat.rows := by
  refine List.filterMap_congr fun row hrow => ?_
  cases hrows row hrow with
  | @cons p _ rest _ hp hrest =>
    have htake : rest.take (mat.colCount - 1) = rest := by
      rw [hcols, Nat.add_sub_cancel, ← hrest.length_eq, List.take_length]
    cases hp with
    | wild => simp only [defaultRow, PatternMatrix.defaultRow, htake]
    | ctor _ _ => rfl

theorem findSome?_attach_val {α β : Type} (l : List α) (f : α → Option β) :
    l.attach.findSome? (fun a => f a.1) = l.findSome? f := by
  conv_rhs => rw [← List.attach_map_subtype_val l, List.findSome?_map]
  rfl

theorem findSome?_congr {α β : Type} {l : List α} {f g : α → Option β}
    (h : ∀ a ∈ l, f a = g a) : l.findSome? f = l.findSome? g := by
  induction l with
  | nil => rfl
  | cons a l ih =>
    rw [List.findSome?_cons, List.findSome?_cons, h a List.mem_cons_self,
      ih fun b hb => h b (List.mem_cons_of_mem _ hb)]

theorem findWitness_listed {cs : List MatCtor} (hcs : typeCtorsList t = some cs) :
    findWitness mat (t :: ts) =
      if cs.all fun c => (collectHeadCtors mat).any c.eq then
        cs.findSome? fun c =>
          (findWitness (specialize mat c) (ctorSubTypes c.head t ++ ts)).map (wrap c)
      else (findWitness (defaultMatrix mat) ts).map
        (.ctor ((cs.find? fun c => !(collectHeadCtors mat).any c.eq).getD (cs.headD ⟨.none, 0⟩))
          (List.replicate ((cs.find? fun c => !(collectHeadCtors mat).any c.eq).getD
            (cs.headD ⟨.none, 0⟩)).arity .wild) :: ·) := by
  rw [findWitness]
  split
  · rename_i cs' hcs'
    obtain rfl : cs' = cs := Option.some.inj (hcs'.symm.trans hcs)
    rw [findSome?_attach_val cs' fun c =>
      (findWitness (specialize mat c) (typesSpecialize (t :: ts) c t)).map (wrap c)]
    rfl
  · rename_i hnone
    rw [hcs] at hnone
    cases hnone

theorem findWitness_unlisted (hcs : typeCtorsList t = none) :
    findWitness mat (t :: ts) = (findWitness (defaultMatrix mat) ts).map (.wild :: ·) := by
  rw [findWitness]
  split
  · rename_i cs' hcs'
    rw [hcs] at hcs'
    cases hcs'
  · rfl

theorem missing_or_complete (cs heads : List MatCtor) :
    (cs.all fun c => heads.any c.eq) = true ∧ (cs.find? fun c => !heads.any c.eq) = none ∨
    (cs.all fun c => heads.any c.eq) = false ∧
      ∃ missing ∈ cs, (cs.find? fun c => !heads.any c.eq) = some missing := by
  cases hfind : cs.find? fun c => !heads.any c.eq with
  | none =>
    refine .inl ⟨List.all_eq_true.mpr fun c hc => ?_, rfl⟩
    simpa using List.find?_eq_none.mp hfind c hc
  | some missing =>
    have hmem := List.mem_of_find?_eq_some hfind
    refine .inr ⟨List.all_eq_false.mpr ⟨missing, hmem, ?_⟩, missing, hmem, rfl⟩
    simpa using List.find?_some hfind

/-- On well-formed matrices the code runs the search of the library. -/
theorem findWitness_eq (hts : ∀ t ∈ ts, Distinct t) (hcols : mat.colCount = ts.length)
    (hrows : ∀ r ∈ mat.rows, RowOk countedSignature ts r) :
    findWitness mat ts = PatternMatrix.findWitness countedSignature mat.rows ts := by
  induction hn : (ts.map Ty.size).sum using Nat.strong_induction_on generalizing mat ts with
  | _ n ih =>
    subst hn
    cases ts with
    | nil => rw [findWitness, PatternMatrix.findWitness]
    | cons t ts =>
      have ht : Distinct t := hts t List.mem_cons_self
      have hts' : ∀ s ∈ ts, Distinct s := fun s hs => hts s (List.mem_cons_of_mem _ hs)
      rw [List.length_cons] at hcols
      have hdefault : findWitness (defaultMatrix mat) ts =
          PatternMatrix.findWitness countedSignature (PatternMatrix.defaultMatrix mat.rows) ts := by
        rw [← defaultMatrix_rows hcols hrows]
        refine ih _ ?_ hts' ?_ ?_ rfl
        · have := t.size_pos
          simp only [List.map_cons, List.sum_cons]
          omega
        · show mat.colCount - 1 = ts.length
          omega
        · rw [defaultMatrix_rows hcols hrows]
          exact PatternMatrix.defaultMatrix_ok hrows
      rw [PatternMatrix.findWitness]
      split
      · rename_i cs hcs
        rw [ctors_eq ht] at hcs
        have hspecial : ∀ c ∈ cs, (findWitness (specialize mat c)
            (ctorSubTypes c.head t ++ ts)).map (wrap c) =
              (PatternMatrix.findWitness countedSignature
                (PatternMatrix.specialize countedSignature mat.rows c
                  (countedSignature.args c t).length)
                (countedSignature.args c t ++ ts)).map
                (PatternMatrix.rebuild c (countedSignature.args c t).length) := by
          intro c hc
          have harity : c.arity = (countedSignature.args c t).length := arity_eq ht hcs hc
          have hwrap : wrap c =
              PatternMatrix.rebuild c (countedSignature.args c t).length := by
            funext w
            rw [wrap, PatternMatrix.rebuild, harity]
          rw [hwrap, ← specialize_rows ht hcs hc hcols hrows]
          congr 1
          refine ih _ ?_ ?_ ?_ ?_ rfl
          · have := subType_size hcs hc
            simp only [List.map_append, List.sum_append, List.map_cons, List.sum_cons]
            omega
          · intro s hs
            exact (List.mem_append.mp hs).elim (ht.subTypes hcs hc s) (hts' s)
          · show c.arity + mat.colCount - 1 = (ctorSubTypes c.head t ++ ts).length
            rw [arity_eq ht hcs hc, List.length_append]
            omega
          · rw [specialize_rows ht hcs hc hcols hrows]
            exact PatternMatrix.specialize_ok ((ctors_eq ht).trans hcs) hc hrows
        rw [findWitness_listed hcs, collectHeadCtors_eq]
        rcases missing_or_complete cs
          (PatternMatrix.collectHeadCtors countedSignature mat.rows) with
          ⟨hall, hfind⟩ | ⟨hall, missing, hmem, hfind⟩
        · rw [if_pos hall]
          split
          · rw [findSome?_attach_val cs fun c => (PatternMatrix.findWitness countedSignature
              (PatternMatrix.specialize countedSignature mat.rows c
                (countedSignature.args c t).length) (countedSignature.args c t ++ ts)).map
              (PatternMatrix.rebuild c (countedSignature.args c t).length)]
            exact findSome?_congr hspecial
          · rename_i hsome
            cases hfind.symm.trans hsome
        · rw [if_neg (by simp [hall]), hfind, hdefault]
          split
          · rename_i hnone
            cases hfind.symm.trans hnone
          · rename_i hsome
            obtain rfl := Option.some.inj (hfind.symm.trans hsome)
            rw [← show missing.arity = (countedSignature.args missing t).length from
              arity_eq ht hcs hmem]
            rfl
      · rename_i hcs
        rw [ctors_eq ht] at hcs
        rw [findWitness_unlisted hcs, hdefault]

theorem Distinct.wilds {cs : List MatCtor} (ht : Distinct t) (hcs : typeCtorsList t = some cs)
    (hc : c ∈ cs) : WellFormed (.ctor c (List.replicate c.arity .wild)) t := by
  refine .listed hcs hc ?_
  rw [arity_eq ht hcs hc]
  generalize ctorSubTypes c.head t = types
  induction types with
  | nil => exact .nil
  | cons s types ih => exact .cons .wild ih

/-- A witness is made of listed constructors and wildcards. -/
theorem findWitness_wellFormed (hts : ∀ t ∈ ts, Distinct t) {w : PatRow}
    (h : findWitness mat ts = some w) : List.Forall₂ WellFormed w ts := by
  induction hn : (ts.map Ty.size).sum using Nat.strong_induction_on generalizing mat ts w with
  | _ n ih =>
    subst hn
    cases ts with
    | nil =>
      rw [findWitness] at h
      split at h
      · cases h
        exact .nil
      · cases h
    | cons t ts =>
      have ht : Distinct t := hts t List.mem_cons_self
      have hts' : ∀ s ∈ ts, Distinct s := fun s hs => hts s (List.mem_cons_of_mem _ hs)
      have hlt : (ts.map Ty.size).sum < ((t :: ts).map Ty.size).sum := by
        have := t.size_pos
        simp only [List.map_cons, List.sum_cons]
        omega
      cases hcs : typeCtorsList t with
      | none =>
        rw [findWitness_unlisted hcs] at h
        obtain ⟨w, hw, rfl⟩ := Option.map_eq_some_iff.mp h
        exact .cons .wild (ih _ hlt hts' hw rfl)
      | some cs =>
        rw [findWitness_listed hcs] at h
        rcases missing_or_complete cs (collectHeadCtors mat) with
          ⟨hall, -⟩ | ⟨hall, missing, hmem, hfind⟩
        · rw [if_pos hall] at h
          obtain ⟨c, hc, hcw⟩ := List.exists_of_findSome?_eq_some h
          obtain ⟨w, hw, rfl⟩ := Option.map_eq_some_iff.mp hcw
          have hrow : List.Forall₂ WellFormed w (ctorSubTypes c.head t ++ ts) := by
            refine ih _ ?_ (fun s hs => ?_) hw rfl
            · have := subType_size hcs hc
              simp only [List.map_append, List.sum_append, List.map_cons, List.sum_cons]
              omega
            · exact (List.mem_append.mp hs).elim (ht.subTypes hcs hc s) (hts' s)
          rw [wrap, arity_eq ht hcs hc]
          exact .cons (.listed hcs hc (List.forall₂_take_append _ _ _ hrow))
            (List.forall₂_drop_append _ _ _ hrow)
        · rw [if_neg (by simp [hall]), hfind, Option.getD_some] at h
          obtain ⟨w, hw, rfl⟩ := Option.map_eq_some_iff.mp h
          exact .cons (ht.wilds hcs hmem) (ih _ hlt hts' hw rfl)

end Search

section Decides

/-- The values of a row of columns. -/
def RowTyped (types : List ColType) (vs : List Val) : Prop :=
  List.Forall₂ (HasTy true) vs (types.map ColType.ty)

def Covers (rows : List PatRow) (vs : List Val) : Prop :=
  ∃ row ∈ rows, RowMatches countedSignature row vs

/-- The search ends with no witness exactly where every tuple of values is matched. A witness has
the width of the columns and is well-formed at their types, and some tuple that it matches is
matched by no row. -/
theorem findWitness_decides (rows : List PatRow) (types : List ColType)
    (hrows : ∀ row ∈ rows, List.Forall₂ WellFormed row (types.map ColType.ty)) :
    (findWitness ⟨rows, types.length⟩ (types.map ColType.ty) = none ↔
      ∀ vs, RowTyped types vs → Covers rows vs) ∧
    ∀ w, findWitness ⟨rows, types.length⟩ (types.map ColType.ty) = some w →
      w.length = types.length ∧ List.Forall₂ WellFormed w (types.map ColType.ty) ∧
      ∃ vs, RowTyped types vs ∧ RowMatches countedSignature w vs ∧ ¬Covers rows vs := by
  have hts : ∀ t ∈ types.map ColType.ty, Distinct t := by
    intro t ht
    obtain ⟨col, -, rfl⟩ := List.mem_map.mp ht
    exact col.distinct
  have hok : ∀ r ∈ rows, RowOk countedSignature (types.map ColType.ty) r := fun r hr =>
    forall₂_of_mem (hrows r hr) fun t ht p hp => hp.patOk (hts t ht)
  have heq : findWitness ⟨rows, types.length⟩ (types.map ColType.ty) =
      PatternMatrix.findWitness countedSignature rows (types.map ColType.ty) :=
    findWitness_eq hts (List.length_map _).symm hok
  have hanswers := PatternMatrix.findWitness_answers countedSignature rows _ hok
  rw [← heq] at hanswers
  cases hw : findWitness ⟨rows, types.length⟩ (types.map ColType.ty) with
  | none =>
    rw [hw] at hanswers
    exact ⟨iff_of_true rfl hanswers, fun w h => by cases h⟩
  | some w =>
    rw [hw] at hanswers
    obtain ⟨-, vs, hvs, hmatch, hno⟩ := hanswers
    have hnot : ¬Covers rows vs := fun ⟨row, hrow, h⟩ => hno row hrow h
    refine ⟨iff_of_false (by simp) fun hall => hnot (hall vs hvs), fun w' h => ?_⟩
    obtain rfl := Option.some.inj h
    have hwf := findWitness_wellFormed hts hw
    exact ⟨hwf.length_eq.trans (List.length_map _), hwf, vs, hvs, hmatch, hnot⟩

theorem findWitness_decides_bool :
    findWitness ⟨[[.ctor ⟨.tru, 0⟩ []], [.ctor ⟨.fls, 0⟩ []]], 1⟩ [.prim .bool] = none ∧
      ∀ vs, RowTyped [⟨.prim .bool, .bool⟩] vs →
        Covers [[.ctor ⟨.tru, 0⟩ []], [.ctor ⟨.fls, 0⟩ []]] vs := by
  have hrows : ∀ row ∈ [[.ctor ⟨.tru, 0⟩ []], [.ctor ⟨.fls, 0⟩ []]],
      List.Forall₂ WellFormed row [.prim .bool] := by
    intro row hrow
    simp only [List.mem_cons, List.not_mem_nil, or_false] at hrow
    rcases hrow with rfl | rfl
    · exact .cons (.listed rfl (by simp) .nil) .nil
    · exact .cons (.listed rfl (by simp) .nil) .nil
  have hnone : findWitness ⟨[[.ctor ⟨.tru, 0⟩ []], [.ctor ⟨.fls, 0⟩ []]], 1⟩ [.prim .bool] =
      none := by
    simp [findWitness, typeCtorsList, collectHeadCtors, collectHeadCtor, MatCtor.eq, ctorEq,
      specialize, specializeRow, typesSpecialize, ctorSubTypes]
  exact ⟨hnone, (findWitness_decides _ [⟨.prim .bool, .bool⟩] hrows).1.mp hnone⟩

end Decides

end FcLang.Match.Columns
