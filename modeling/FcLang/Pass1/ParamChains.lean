import FcLang.Pass1.ParamKinds

/-!
# Occurrences and chains

`visits` lists the variables that a walk of a type comes to, each with the slot it
stands in; it has a result exactly where the type is grounded, with no node inside
itself. A walk is a fold over them, and a round of kind inference a fold over the
occurrences of all declarations.
-/

namespace FcLang.Pass1
open Lib

/-- The results for every element, one after the other. -/
def gather {α β : Type} (f : α → Option (List β)) : List α → Option (List β)
  | [] => some []
  | a :: l => (f a).bind fun x => (gather f l).map (x ++ ·)

section
-- The equations are made here, once for all the proofs below.
attribute [local simp] gather
end

section Gather
variable {α β σ : Type} {f g : α → Option (List β)} {l : List α} {r : List β}

theorem gather_cons_eq_some {a : α} :
    gather f (a :: l) = some r ↔ ∃ x y, f a = some x ∧ gather f l = some y ∧ x ++ y = r := by
  simp only [gather, Option.bind_eq_some_iff, Option.map_eq_some_iff]
  constructor
  · rintro ⟨x, hx, y, hy, h⟩
    exact ⟨x, y, hx, hy, h⟩
  · rintro ⟨x, y, hx, hy, h⟩
    exact ⟨x, hx, y, hy, h⟩

theorem mem_gather (h : gather f l = some r) {b : β} :
    b ∈ r ↔ ∃ a ∈ l, ∃ x, f a = some x ∧ b ∈ x := by
  induction l generalizing r with
  | nil =>
    cases h
    simp
  | cons a l ih =>
    obtain ⟨x, y, hx, hy, rfl⟩ := gather_cons_eq_some.mp h
    rw [List.mem_append, ih hy, List.exists_mem_cons_iff, hx]
    simp

theorem exists_of_gather (h : gather f l = some r) {a : α} (ha : a ∈ l) : ∃ x, f a = some x := by
  induction l generalizing r with
  | nil => cases ha
  | cons b l ih =>
    obtain ⟨x, y, hx, hy, -⟩ := gather_cons_eq_some.mp h
    rcases List.mem_cons.mp ha with rfl | ha
    · exact ⟨x, hx⟩
    · exact ih hy ha

theorem gather_exists (h : ∀ a ∈ l, ∃ x, f a = some x) : ∃ r, gather f l = some r := by
  induction l with
  | nil => exact ⟨[], rfl⟩
  | cons a l ih =>
    obtain ⟨x, hx⟩ := h a List.mem_cons_self
    obtain ⟨y, hy⟩ := ih fun b hb => h b (List.mem_cons_of_mem a hb)
    exact ⟨x ++ y, gather_cons_eq_some.mpr ⟨x, y, hx, hy, rfl⟩⟩

theorem gather_mono (hfg : ∀ a ∈ l, ∀ x, f a = some x → g a = some x) (h : gather f l = some r) :
    gather g l = some r := by
  induction l generalizing r with
  | nil => exact h
  | cons a l ih =>
    obtain ⟨x, y, hx, hy, heq⟩ := gather_cons_eq_some.mp h
    exact gather_cons_eq_some.mpr ⟨x, y, hfg a List.mem_cons_self x hx,
      ih (fun b hb => hfg b (List.mem_cons_of_mem a hb)) hy, heq⟩

theorem gather_append {l' : List α} : gather f (l ++ l') =
    (gather f l).bind fun x => (gather f l').map (x ++ ·) := by
  induction l with
  | nil => cases h : gather f l' <;> simp [gather, h]
  | cons a l ih =>
    rw [List.cons_append, gather, ih, gather]
    cases f a with
    | none => rfl
    | some x =>
      cases gather f l with
      | none => rfl
      | some y => cases gather f l' <;> simp

/-- A fold over one list and then over another. -/
theorem folds_bind {step : σ → β → σ} {x y : Option (List β)} {F : σ → Option σ}
    (hF : ∀ s, F s = y.map fun l => l.foldl step s) (s : σ) :
    (x.map fun l => l.foldl step s).bind F =
      (x.bind fun a => y.map (a ++ ·)).map fun l => l.foldl step s := by
  cases x with
  | none => rfl
  | some a =>
    simp only [Option.map_some, Option.bind_some, hF]
    cases y with
    | none => rfl
    | some b => simp

theorem foldlM_gather {step : σ → β → σ} {F : σ → α → Option σ}
    (h : ∀ a ∈ l, ∀ s, F s a = (f a).map fun x => x.foldl step s) (s : σ) :
    l.foldlM F s = (gather f l).map fun x => x.foldl step s := by
  induction l generalizing s with
  | nil => rfl
  | cons a l ih =>
    rw [List.foldlM_cons, h a List.mem_cons_self, gather]
    exact folds_bind (ih fun b hb => h b (List.mem_cons_of_mem a hb)) s

end Gather

/-- Where the kind of a visited variable comes from: a position, or the argument `i` of the
type at `node`. -/
inductive Slot where
  | fixed (k : GenericKind)
  | arg (node i : ℕ)

mutual

def SizeExpr.vars : SizeExpr → List String
  | .typeVarRef name => [name]
  | .other children => SizeExpr.varsAll children

def SizeExpr.varsAll : List SizeExpr → List String
  | [] => []
  | e :: es => e.vars ++ SizeExpr.varsAll es

end

def typeParts (ts : List TypeRef) : List (TypeRef × Slot) :=
  ts.map fun t => (t, .fixed .type)

def argParts (node : ℕ) (ts : List TypeRef) : List (TypeRef × Slot) :=
  ts.zipIdx.map fun t => (t.1, .arg node t.2)

/-- The types inside a node, each with its slot. -/
def TypeNode.parts (node : ℕ) : TypeNode → List (TypeRef × Slot)
  | .pointer t => typeParts [t]
  | .slice t => typeParts [t]
  | .option t => typeParts [t]
  | .result t => typeParts [t]
  | .fixedArray elem sizeRef => [(elem, .fixed .type), (sizeRef, .fixed .const)]
  | .func params ret => typeParts params ++ typeParts [ret]
  | .struct _ _ fields typeArgs => typeParts fields ++ argParts node typeArgs
  | .union _ _ variants typeArgs => typeParts variants ++ argParts node typeArgs
  | .stub _ typeArgs => argParts node typeArgs
  | _ => []

/-- The variables at a node itself. -/
def TypeNode.own (slot : Slot) : TypeNode → List (String × Slot)
  | .typeVar name => [(name, slot)]
  | .constExpr e => e.vars.map fun name => (name, .fixed .const)
  | _ => []

def visits (types : ℕ → TypeNode) : ℕ → TypeRef → Slot → Option (List (String × Slot))
  | _, none, _ => some []
  | 0, some _, _ => none
  | depth + 1, some a, slot =>
    (gather (fun t => visits types depth t.1 t.2) ((types a).parts a)).map ((types a).own slot ++ ·)

/-- No node of the type lies inside itself. -/
inductive Grounded (types : ℕ → TypeNode) : TypeRef → Prop where
  | null : Grounded types none
  | node {a : ℕ} : (∀ t ∈ (types a).parts a, Grounded types t.1) → Grounded types (some a)

section Visits
variable {types : ℕ → TypeNode} {depth : ℕ} {t : TypeRef} {slot : Slot}

theorem visits_mono {d d' : ℕ} (hd : d ≤ d') {vs : List (String × Slot)}
    (h : visits types d t slot = some vs) : visits types d' t slot = some vs := by
  induction d generalizing d' t slot vs with
  | zero =>
    cases t with
    | none => cases d' <;> exact h
    | some a => cases h
  | succ d ih =>
    obtain ⟨d', rfl⟩ : ∃ e, d' = e + 1 := ⟨d' - 1, by omega⟩
    cases t with
    | none => exact h
    | some a =>
      rw [visits] at h ⊢
      obtain ⟨ws, hws, heq⟩ := Option.map_eq_some_iff.mp h
      exact Option.map_eq_some_iff.mpr
        ⟨ws, gather_mono (fun p _ x hx => ih (by omega) hx) hws, heq⟩

theorem grounded_of_visits {vs : List (String × Slot)} (h : visits types depth t slot = some vs) :
    Grounded types t := by
  induction depth generalizing t slot vs with
  | zero =>
    cases t with
    | none => exact .null
    | some a => cases h
  | succ depth ih =>
    cases t with
    | none => exact .null
    | some a =>
      rw [visits] at h
      obtain ⟨ws, hws, -⟩ := Option.map_eq_some_iff.mp h
      refine .node fun p hp => ?_
      obtain ⟨x, hx⟩ := exists_of_gather hws hp
      exact ih hx

/-- One depth does for all elements of a list. -/
theorem exists_depth {α : Type} {P : ℕ → α → Prop} (hmono : ∀ a d d', d ≤ d' → P d a → P d' a)
    {l : List α} (h : ∀ a ∈ l, ∃ d, P d a) : ∃ d, ∀ a ∈ l, P d a := by
  induction l with
  | nil => exact ⟨0, fun a ha => absurd ha List.not_mem_nil⟩
  | cons a l ih =>
    obtain ⟨d, hd⟩ := h a List.mem_cons_self
    obtain ⟨e, he⟩ := ih fun b hb => h b (List.mem_cons_of_mem a hb)
    refine ⟨max d e, fun b hb => ?_⟩
    rcases List.mem_cons.mp hb with rfl | hb
    · exact hmono b d _ (le_max_left d e) hd
    · exact hmono b e _ (le_max_right d e) (he b hb)

theorem exists_visits (h : Grounded types t) :
    ∃ depth, ∀ slot, ∃ vs, visits types depth t slot = some vs := by
  induction h with
  | null => exact ⟨0, fun _ => ⟨[], rfl⟩⟩
  | @node a _ ih =>
    have hmono : ∀ (p : TypeRef × Slot) d d', d ≤ d' →
        (∃ vs, visits types d p.1 p.2 = some vs) → ∃ vs, visits types d' p.1 p.2 = some vs :=
      fun p d d' hd ⟨vs, hvs⟩ => ⟨vs, visits_mono hd hvs⟩
    obtain ⟨d, hd⟩ := exists_depth hmono fun p hp => (ih p hp).imp fun d hd => hd p.2
    obtain ⟨ws, hws⟩ := gather_exists hd
    exact ⟨d + 1, fun slot => ⟨(types a).own slot ++ ws, by rw [visits, hws]; rfl⟩⟩

end Visits

section Walk
variable {κ σ : Type} {w : VarWalk κ σ} {types : ℕ → TypeNode}

def VarWalk.kindOf (w : VarWalk κ σ) (types : ℕ → TypeNode) (s : σ) : Slot → κ
  | .fixed .type => w.type
  | .fixed .const => w.const
  | .arg a i => w.argKind (types a) i s

def VarWalk.step (w : VarWalk κ σ) (types : ℕ → TypeNode) (s : σ) (v : String × Slot) : σ :=
  w.visit v.1 (w.kindOf types s v.2) s

mutual

theorem constExprWalkVars_eq (e : SizeExpr) (s : σ) : constExprWalkVars w e s =
    (e.vars.map fun name => (name, Slot.fixed .const)).foldl (w.step types) s := by
  cases e with
  | typeVarRef name => rfl
  | other children => exact constExprsWalkVars_eq children s

theorem constExprsWalkVars_eq (es : List SizeExpr) (s : σ) : constExprsWalkVars w es s =
    ((SizeExpr.varsAll es).map fun name => (name, Slot.fixed .const)).foldl (w.step types) s := by
  cases es with
  | nil => rfl
  | cons e es =>
    rw [constExprsWalkVars, constExprWalkVars_eq e s, constExprsWalkVars_eq es,
      SizeExpr.varsAll, List.map_append, List.foldl_append]

end

/-- One level of the walk: the node's own variables, then its parts in order. -/
theorem walkVars_succ (depth a : ℕ) (slot : Slot) (s : σ) :
    walkVars w types (depth + 1) (some a) (w.kindOf types s slot) s =
      ((types a).parts a).foldlM (fun s t => walkVars w types depth t.1 (w.kindOf types s t.2) s)
        (((types a).own slot).foldl (w.step types) s) := by
  rw [walkVars]
  cases h : types a with
  | constExpr e => exact congrArg some (constExprWalkVars_eq e s)
  | typeVar name => rfl
  | other => rfl
  | _ => simp [TypeNode.parts, TypeNode.own, typeParts, argParts, VarWalk.kindOf,
      List.foldlM_append, List.foldlM_map, h]

theorem walkVars_eq (depth : ℕ) (t : TypeRef) (slot : Slot) (s : σ) :
    walkVars w types depth t (w.kindOf types s slot) s =
      (visits types depth t slot).map fun vs => vs.foldl (w.step types) s := by
  induction depth generalizing t slot s with
  | zero => cases t <;> rfl
  | succ depth ih =>
    cases t with
    | none => rfl
    | some a =>
      rw [walkVars_succ, visits, foldlM_gather fun t _ s => ih t.1 t.2 s, Option.map_map]
      congr 1
      funext vs
      exact (List.foldl_append).symm

end Walk

namespace Tables
variable (p : Tables)

/-- What the type at a node is looked up as. -/
def found (a : ℕ) : Option ℕ := p.named (p.types a)

/-- The kind of a slot, or the parameter it is read from; `ref` gives the declaration that
the type at a node refers to. -/
def source (ref : ℕ → Option ℕ) : Slot → Option (Source (ℕ × ℕ) GenericKind)
  | .fixed k => some (.fixed k)
  | .arg a i =>
    match ref a with
    | none => none
    | some r =>
      if !(p.decls r).isGeneric || i ≥ (p.decls r).typeParams.length then none
      else if !(p.decls r).hasParamKinds then some (.fixed .type)
      else some (.copied (r, i))

/-- The occurrence of a parameter that a visit is, if it is one. -/
def occurrence (ref : ℕ → Option ℕ) (decl : ℕ) (v : String × Slot) :
    Option (Occurrence (ℕ × ℕ) GenericKind) :=
  match (p.decls decl).typeParams.idxOf? v.1, p.source ref v.2 with
  | some i, some source => some ⟨(decl, i), source⟩
  | _, _ => none

def occurrences (depth decl : ℕ) : Option (List (Occurrence (ℕ × ℕ) GenericKind)) :=
  if !p.isWalked decl then some []
  else (gather (fun t => visits p.types depth t (.fixed .type)) (p.decls decl).memberTypes).map
    fun vs => vs.filterMap (p.occurrence p.found decl)

mutual

/-- The declarations of all symbols, in the order of the walk. -/
def declsOf : List Symbol → List ℕ
  | [] => []
  | sym :: table => declsOfEntry sym ++ declsOf table

def declsOfEntry : Symbol → List ℕ
  | .mk _ decl members => decl :: declsOf members

end

theorem kindOf_source (owner : ℕ) (s : KindInfer) (slot : Slot) :
    (p.kindWalk owner).kindOf p.types s slot =
      (p.source p.found slot).bind fun x => x.kind s.marks := by
  cases slot with
  | fixed k => cases k <;> rfl
  | arg a i =>
    change p.kindArgSlot (p.types a) i s = _
    rw [kindArgSlot, source, found]
    cases p.named (p.types a) with
    | none => rfl
    | some r =>
      dsimp only
      split_ifs <;> rfl

theorem step_eq {decl : ℕ} (h : p.isWalked decl = true) (s : KindInfer) (v : String × Slot) :
    (p.kindWalk decl).step p.types s v =
      ((p.occurrence p.found decl v).map s.visit).getD s := by
  rw [VarWalk.step, kindOf_source]
  change p.kindMerge decl v.1 _ s = _
  have hkinds : (p.decls decl).hasParamKinds = true := (Bool.and_eq_true_iff.mp h).2
  rw [kindMerge, occurrence, hkinds]
  cases (p.decls decl).typeParams.idxOf? v.1 with
  | none => rfl
  | some i => cases p.source p.found v.2 <;> rfl

theorem foldl_step {decl : ℕ} (h : p.isWalked decl = true) (vs : List (String × Slot))
    (s : KindInfer) : vs.foldl ((p.kindWalk decl).step p.types) s =
      (vs.filterMap (p.occurrence p.found decl)).foldl Marking.visit s := by
  induction vs generalizing s with
  | nil => rfl
  | cons v vs ih =>
    rw [List.foldl_cons, ih, p.step_eq h, List.filterMap_cons]
    cases p.occurrence p.found decl v <;> rfl

theorem kindWalkSym_eq (depth decl : ℕ) (s : KindInfer) : p.kindWalkSym depth decl s =
    (p.occurrences depth decl).map fun os => os.foldl Marking.visit s := by
  rw [kindWalkSym, occurrences]
  by_cases h : p.isWalked decl = true
  · have hwalk : ∀ t ∈ (p.decls decl).memberTypes, ∀ s,
        walkVars (p.kindWalk decl) p.types depth t (some .type) s =
          (visits p.types depth t (.fixed .type)).map fun vs =>
            vs.foldl ((p.kindWalk decl).step p.types) s :=
      fun t _ s => walkVars_eq depth t (.fixed .type) s
    rw [h, if_neg (by decide), if_neg (by decide), foldlM_gather hwalk, Option.map_map]
    congr 1
    funext vs
    exact p.foldl_step h vs s
  · rw [Bool.not_eq_true] at h
    rw [h]
    rfl

mutual

theorem kindWalkTable_eq (depth : ℕ) (table : List Symbol) (s : KindInfer) :
    p.kindWalkTable depth table s = (gather (p.occurrences depth) (declsOf table)).map
      fun os => os.foldl Marking.visit s := by
  cases table with
  | nil => rfl
  | cons sym table =>
    rw [kindWalkTable, kindWalkEntry_eq depth sym, folds_bind (kindWalkTable_eq depth table),
      declsOf, gather_append]

theorem kindWalkEntry_eq (depth : ℕ) (sym : Symbol) (s : KindInfer) :
    p.kindWalkEntry depth sym s = (gather (p.occurrences depth) (declsOfEntry sym)).map
      fun os => os.foldl Marking.visit s := by
  cases sym with
  | mk name decl members =>
    rw [kindWalkEntry, kindWalkSym_eq, folds_bind (kindWalkTable_eq depth members), declsOfEntry,
      gather]

end

/-- All occurrences, in the order of the walk. -/
def allOccurrences (depth : ℕ) : Option (List (Occurrence (ℕ × ℕ) GenericKind)) :=
  gather (p.occurrences depth) (declsOf p.symbols)

theorem inferRounds_eq (depth rounds : ℕ) (s : KindInfer) : p.inferRounds depth rounds s =
    (p.allOccurrences depth).bind fun os => s.run os rounds := by
  induction rounds generalizing s with
  | zero => cases p.allOccurrences depth <;> rfl
  | succ rounds ih =>
    rw [inferRounds, kindWalkTable_eq, ← allOccurrences]
    cases h : p.allOccurrences depth with
    | none => rfl
    | some os =>
      have hrest := ih (s.round os)
      rw [h] at hrest
      change (if (s.round os).changed = true then p.inferRounds depth rounds (s.round os)
        else some (s.round os)) = _
      rw [hrest]
      rfl

end Tables
end FcLang.Pass1
