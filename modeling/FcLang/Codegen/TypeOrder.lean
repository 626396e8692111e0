import FcLang.Lib.Toposort

/-!
# The order of type definitions

`emit_types` collects the types that a program uses and writes their C
definitions: first what needs no complete type, then the structs and unions in
topological order, each followed by the options and results that it completes.
Types stand here without stubs, and a struct, a union or a tuple is known by its
C name. The collector resolves a stub only where it stands directly in an
option, a result or a function type, so that an instance under two wrappers,
as in `box<i32>!?`, is not among the types of this model.
-/

namespace FcLang.Codegen.TypeOrder

inductive CType where
  /-- A primitive or an enum. -/
  | scalar (name : String)
  | anyPtr (isConst : Bool)
  | pointer (isConst : Bool) (pointee : CType)
  | slice (elem : CType)
  | option (inner : CType)
  | result (inner : CType)
  | func (params : List CType) (ret : CType) (isVariadic : Bool)
  | named (name : String)

/-- The type of a field or a payload; only there an array can stand. -/
inductive Member where
  | value (type : CType)
  | fixedArray (elem : CType)

def Member.type : Member → CType
  | value t | fixedArray t => t

/-- A struct or union to define: a declaration, an instance of a generic one, or a tuple. -/
structure SuDef where
  name : String
  isExtern : Bool
  members : List Member

/-- What `emit_types` goes through: definitions, and the types that declarations
and function bodies mention. -/
inductive Item where
  | defines (d : SuDef)
  | uses (t : CType)

mutual

/-- `type_ident_eq`. `bare` leaves the `const` of the types themselves aside, as
for the elements of a slice. -/
def typeIdentEq (bare : Bool) : CType → CType → Bool
  | .scalar n, .scalar m => n == m
  | .anyPtr c, .anyPtr d => bare || c == d
  | .pointer c t, .pointer d u => (bare || c == d) && typeIdentEq false t u
  | .slice t, .slice u => typeIdentEq true t u
  | .option t, .option u => typeIdentEq false t u
  | .result t, .result u => typeIdentEq false t u
  | .func ps r v, .func qs s w => v == w && typeIdentEqAll ps qs && typeIdentEq false r s
  | .named n, .named m => n == m
  | _, _ => false

def typeIdentEqAll : List CType → List CType → Bool
  | [], [] => true
  | t :: ts, u :: us => typeIdentEq false t u && typeIdentEqAll ts us
  | _, _ => false

end

structure TypeSets where
  slices : List CType
  options : List CType
  results : List CType
  fns : List CType

def typesetAdd (ts : List CType) (t : CType) : List CType :=
  if ts.any (typeIdentEq false · t) then ts else ts ++ [t]

/-- A plain pointer, `NULL` for none. -/
def isNullSentinel : CType → Bool
  | .option (.pointer _ _) | .option (.anyPtr _) => true
  | _ => false

def isStrType : CType → Bool
  | .slice (.scalar n) => n == "uint8_t"
  | _ => false

mutual

/-- `emit_type_ident`, or `emit_slice_elem_ident` with `bare`. -/
def typeIdent (bare : Bool) : CType → String
  | .scalar n => n
  | .anyPtr c => if !bare && c then "void_cptr" else "void_ptr"
  | .pointer c t => typeIdent false t ++ if !bare && c then "_cptr" else "_ptr"
  | .slice t => if isStrType (.slice t) then "fc_str" else "fc_slice_" ++ typeIdent true t
  | .option t => "fc_option_" ++ typeIdent false t
  | .result t => "fc_result_" ++ typeIdent false t
  | .func ps r v =>
    "fc_fn_" ++ (if ps.isEmpty then "v" else "_".intercalate (typeIdents ps)) ++ "__" ++
      typeIdent false r ++ if v then "_vararg" else ""
  | .named n => n

def typeIdents : List CType → List String
  | [] => []
  | t :: ts => typeIdent false t :: typeIdents ts

end

mutual

def collectTypesInType : CType → TypeSets → TypeSets
  | .scalar _, s | .anyPtr _, s | .named _, s => s
  | .pointer _ t, s => collectTypesInType t s
  | .slice t, s =>
    let s := collectTypesInType t s
    { s with slices := typesetAdd s.slices (.slice t) }
  | .option t, s =>
    let s := collectTypesInType t s
    if isNullSentinel (.option t) then s
    else { s with options := typesetAdd s.options (.option t) }
  | .result t, s =>
    let s := collectTypesInType t s
    { s with results := typesetAdd s.results (.result t) }
  | .func ps r v, s =>
    let s := collectTypesInType r (collectTypesInTypes ps s)
    { s with fns := typesetAdd s.fns (.func ps r v) }

def collectTypesInTypes : List CType → TypeSets → TypeSets
  | [], s => s
  | t :: ts, s => collectTypesInTypes ts (collectTypesInType t s)

end

/-- The type that the collector is given: a fixed array is read as a slice. -/
def Member.collected : Member → CType
  | value t => t
  | fixedArray t => .slice t

def Item.types : Item → List CType
  | .defines d => d.members.map Member.collected
  | .uses t => [t]

def collectTypes (items : List Item) : TypeSets :=
  collectTypesInTypes (items.flatMap Item.types) ⟨[], [], [], []⟩

/-- A C declaration that defines a type, or announces one. -/
inductive CDecl where
  | forward (name : String)
  | forwardWrapper (t : CType)
  | fnTypedef (t : CType)
  | body (t : CType)
  | suBody (name : String) (members : List Member)

/-- `opt_done` and `res_done`: whether the body of the wrapper is out. -/
def written (out : List CDecl) (t : CType) : Bool :=
  out.any fun d => match d with
    | .body u => typeIdentEq false u t
    | _ => false

def wrapInnerComplete (sets : TypeSets) (out : List CDecl) (defsDone : List String) :
    CType → Bool
  | .named n => defsDone.contains n
  | .option t =>
    match sets.options.find? (typeIdentEq false · (.option t)) with
    | some u => written out u
    | none => true
  | .result t =>
    match sets.results.find? (typeIdentEq false · (.result t)) with
    | some u => written out u
    | none => true
  | _ => true

/-- The type that an option or a result holds. -/
def CType.inner : CType → CType
  | option t | result t => t
  | t => t

def emitWrapperBody (sets : TypeSets) (defsDone : List String) (out : List CDecl) (t : CType) :
    List CDecl :=
  if written out t then out
  else if wrapInnerComplete sets out defsDone t.inner then out ++ [.body t]
  else out

/-- One round of `emit_wrapper_bodies`. -/
def wrapperRound (sets : TypeSets) (defsDone : List String) (out : List CDecl) : List CDecl :=
  (sets.options ++ sets.results).foldl (emitWrapperBody sets defsDone) out

/-- The loop goes on as long as a round writes something. -/
def TypeSets.emitWrapperBodies (sets : TypeSets) (defsDone : List String) (out : List CDecl) :
    Option (List CDecl) :=
  let out' := wrapperRound sets defsDone out
  if out'.length = out.length then some out else sets |>.emitWrapperBodies defsDone out'
partial_fixpoint

/-- `type_byval_aggregate`, by name. -/
def byvalName : CType → Option String
  | .named n => some n
  | .option t | .result t => byvalName t
  | _ => none

def sudefDeps (d : SuDef) : List String :=
  if d.isExtern then [] else d.members.filterMap fun m => byvalName m.type

/-- The definitions that `topo_visit_sudef` visits before the one at `idx`. -/
def sudefSuccs (defs : List SuDef) (idx : ℕ) : List ℕ :=
  match defs[idx]? with
  | none => []
  | some d => (sudefDeps d).filterMap fun dep =>
    (List.range defs.length).find? fun j => j != idx && (defs[j]?.map SuDef.name) == some dep

/-- The loop that calls `topo_visit_sudef` on each definition. -/
def sudefOrder (defs : List SuDef) : Option (List ℕ) :=
  Toposort.toposort (sudefSuccs defs) (List.range defs.length)

/-- A definition, and the wrappers that it completes. -/
def emitSuDef (sets : TypeSets) (st : List CDecl × List String) (d : SuDef) :
    Option (List CDecl × List String) := do
  let out := if d.isExtern then st.1 else st.1 ++ [.suBody d.name d.members]
  let defsDone := st.2 ++ [d.name]
  let out ← sets.emitWrapperBodies defsDone out
  return (out, defsDone)

def emitSuDefs (sets : TypeSets) : List SuDef → List CDecl × List String →
    Option (List CDecl × List String)
  | [], st => some st
  | d :: ds, st => do
    let st ← emitSuDef sets st d
    emitSuDefs sets ds st

def sudefs (items : List Item) : List SuDef :=
  items.filterMap fun i => match i with
    | .defines d => some d
    | .uses _ => none

/-- What comes before the option and result bodies. `str` is defined in the prelude. -/
def emitForwards (defs : List SuDef) (sets : TypeSets) : List CDecl :=
  (defs.filter fun d => !d.isExtern).map (fun d => .forward d.name) ++
    sets.options.map .forwardWrapper ++ sets.results.map .forwardWrapper ++
    (sets.slices.filter fun t => !isStrType t).map .forwardWrapper

def emitTypes (items : List Item) : Option (List CDecl) := do
  let defs := sudefs items
  let sets := collectTypes items
  let order ← sudefOrder defs
  let out := emitForwards defs sets ++ sets.fns.map .fnTypedef ++
    (sets.slices.filter fun t => !isStrType t).map .body
  let out ← sets.emitWrapperBodies [] out
  let (out, _) ← emitSuDefs sets (order.filterMap fun i => defs[i]?) (out, [])
  return out

section
variable (defs : List SuDef) (pre : List CDecl)

/-- A struct that a C header defines. -/
def IsExtern (n : String) : Prop := ∃ d ∈ defs, d.name = n ∧ d.isExtern = true

/-- The names in the spelling of the type are declared. -/
def CType.Declared : CType → Prop
  | scalar _ | anyPtr _ => True
  | pointer _ t => t.Declared
  | slice t => isStrType (.slice t) = true ∨
    ∃ u, CDecl.forwardWrapper u ∈ pre ∧ typeIdentEq false u (.slice t) = true
  | option t => if isNullSentinel (.option t) then t.Declared else
    ∃ u, CDecl.forwardWrapper u ∈ pre ∧ typeIdentEq false u (.option t) = true
  | result t => ∃ u, CDecl.forwardWrapper u ∈ pre ∧ typeIdentEq false u (.result t) = true
  | func ps r v => ∃ u, CDecl.fnTypedef u ∈ pre ∧ typeIdentEq false u (.func ps r v) = true
  | named n => IsExtern defs n ∨ CDecl.forward n ∈ pre

/-- A value of the type can be a member. -/
def CType.Complete : CType → Prop
  | scalar _ | anyPtr _ => True
  | pointer c t => (pointer c t).Declared defs pre
  | slice t => isStrType (.slice t) = true ∨
    ∃ u, CDecl.body u ∈ pre ∧ typeIdentEq false u (.slice t) = true
  | option t => if isNullSentinel (.option t) then t.Declared defs pre else
    ∃ u, CDecl.body u ∈ pre ∧ typeIdentEq false u (.option t) = true
  | result t => ∃ u, CDecl.body u ∈ pre ∧ typeIdentEq false u (.result t) = true
  | func ps r v => ∃ u, CDecl.fnTypedef u ∈ pre ∧ typeIdentEq false u (.func ps r v) = true
  | named n => IsExtern defs n ∨ ∃ ms, CDecl.suBody n ms ∈ pre

/-- C accepts the declaration after those of `pre`. -/
def CDecl.Accepted : CDecl → Prop
  | forward _ | forwardWrapper _ => True
  | fnTypedef (.func ps r _) => ∀ t ∈ r :: ps, t.Declared defs pre
  | body (.slice t) => t.Declared defs pre
  | body (.option t) | body (.result t) => t.Complete defs pre
  | fnTypedef _ | body _ => False
  | suBody _ ms => ∀ m ∈ ms, m.type.Complete defs pre

end

/-- The tag of the struct that a type is in C. -/
def CType.tag : CType → Option String
  | slice t => some (typeIdent false (.slice t) ++ "_s")
  | func _ _ _ => none
  | t => some (typeIdent false t)

def CDecl.typedefName : CDecl → Option String
  | forward n => some n
  | forwardWrapper t | fnTypedef t => some (typeIdent false t)
  | body _ | suBody _ _ => none

def CDecl.definedTag : CDecl → Option String
  | body t => t.tag
  | suBody n _ => some n
  | forward _ | forwardWrapper _ | fnTypedef _ => none

/-- They declare one typedef, or define one struct. -/
def CDecl.Clashes (a b : CDecl) : Prop :=
  (∃ n, a.typedefName = some n ∧ b.typedefName = some n) ∨
    ∃ n, a.definedTag = some n ∧ b.definedTag = some n

/-- Two declarations of one kind, for what `type_ident_eq` takes for one type. -/
def CDecl.same : CDecl → CDecl → Bool
  | forward n, forward m => n == m
  | forwardWrapper t, forwardWrapper u | fnTypedef t, fnTypedef u | body t, body u =>
    typeIdentEq false t u
  | suBody n _, suBody m _ => n == m
  | _, _ => false

end FcLang.Codegen.TypeOrder
