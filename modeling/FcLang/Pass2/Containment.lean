import FcLang.Types.Substitute
import Mathlib.Tactic

/-!
# Types of infinite size

`check_infinite_size` walks from each struct and union declaration along the
types that its fields and payloads embed by value, and reports an edge back to
a declaration that the walk is still in.
-/

namespace FcLang.Pass2
open Types

/-- A field of a struct or a variant of a union; `null` is the type of a variant
without payload. -/
structure Member where
  name : String
  type : Ty

/-- What the walk reads of a struct or union declaration: its C name, its
parameters, its fields or variants. -/
structure Aggregate where
  name : String
  isUnion : Bool
  params : List String
  members : List Member

inductive Decl where
  | struct (isExtern : Bool) (d : Aggregate)
  | union (d : Aggregate)
  | module (decls : List Decl)
  | other

def typeByvalAggregate : Ty → Option Ty
  | .stub name base args => some (.stub name base args)
  | .struct name template isTuple fields args => some (.struct name template isTuple fields args)
  | .union name template variants args => some (.union name template variants args)
  | .fixedArray elem _ _ => typeByvalAggregate elem
  | .option inner => typeByvalAggregate inner
  | .result inner => typeByvalAggregate inner
  | _ => none

/-- `byval_type_name`. A tuple over type variables has no name yet. -/
def byvalTypeName (t : Ty) : Option String :=
  match typeByvalAggregate t with
  | some (.stub name _ _) => some name
  | some (.struct name _ _ _ _) => if name = "" then none else some name
  | some (.union name _ _ _) => some name
  | _ => none

def collectAggregateDecls : List Decl → List Aggregate
  | [] => []
  | .struct isExtern d :: ds =>
    if isExtern then collectAggregateDecls ds else d :: collectAggregateDecls ds
  | .union d :: ds => d :: collectAggregateDecls ds
  | .module inner :: ds => collectAggregateDecls inner ++ collectAggregateDecls ds
  | .other :: ds => collectAggregateDecls ds

/-- `find_aggregate_decl`: the only declaration of that name. -/
def findAggregateDecl (udts : List Aggregate) (name : String) : Option ℕ :=
  match (List.range udts.length).filter fun i => (udts[i]?.map Aggregate.name) = some name with
  | [i] => some i
  | _ => none

/-- The declaration that a member embeds by value. -/
def Member.target (udts : List Aggregate) (m : Member) : Option ℕ :=
  (byvalTypeName m.type).bind (findAggregateDecl udts)

inductive Mark where
  | unvisited | onStack | done
  deriving DecidableEq

/-- An infinite-size error: the declaration it stands at, the member, the type it contains. -/
structure SizeError where
  isUnion : Bool
  owner : String
  member : String
  contained : String
  deriving DecidableEq

def SizeError.text (e : SizeError) : String :=
  "type '" ++ e.owner ++ "' has infinite size: " ++ (if e.isUnion then "variant '" else "field '") ++
    e.member ++ "' contains '" ++ e.contained ++
    "' by value, forming a cycle; use a pointer or slice to break it"

/-- The `state` array, and the errors reported so far. -/
structure Walk where
  state : ℕ → Mark
  errors : List SizeError

def Walk.set (w : Walk) (i : ℕ) (m : Mark) : Walk := { w with state := Function.update w.state i m }

def Walk.report (w : Walk) (d : Aggregate) (m : Member) : Walk :=
  { w with errors := w.errors ++ [⟨d.isUnion, d.name, m.name, (byvalTypeName m.type).getD ""⟩] }

mutual

def Walk.visitByvalContainment (udts : List Aggregate) (idx : ℕ) (w : Walk) : Option Walk := do
  let d ← udts[idx]?
  let w ← w.set idx .onStack |>.visitMembers udts d d.members
  return w.set idx .done
partial_fixpoint

/-- The loop over a declaration's fields or variants. -/
def Walk.visitMembers (udts : List Aggregate) (d : Aggregate) (ms : List Member) (w : Walk) :
    Option Walk :=
  match ms with
  | [] => some w
  | m :: ms =>
    match m.target udts with
    | none => w |>.visitMembers udts d ms
    | some j =>
      match w.state j with
      | .onStack => w.report d m |>.visitMembers udts d ms
      | .unvisited => do
        let w ← w |>.visitByvalContainment udts j
        w |>.visitMembers udts d ms
      | .done => w |>.visitMembers udts d ms
partial_fixpoint

end

/-- The loop over the declarations. -/
def visitAll (udts : List Aggregate) : List ℕ → Walk → Option Walk
  | [], w => some w
  | i :: is, w =>
    if w.state i = .unvisited then do
      let w ← w.visitByvalContainment udts i
      visitAll udts is w
    else visitAll udts is w

/-- `check_infinite_size`: the errors it reports. -/
def checkInfiniteSize (decls : List Decl) : Option (List SizeError) :=
  let udts := collectAggregateDecls decls
  (visitAll udts (List.range udts.length) ⟨fun _ => .unvisited, []⟩).map Walk.errors

end FcLang.Pass2
