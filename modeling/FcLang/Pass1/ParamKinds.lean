import FcLang.Lib.Propagate
import Mathlib.Data.List.Basic

/-!
# The kinds of generic parameters

A parameter of a generic declaration is a type or a constant by where it occurs,
and an occurrence in a type argument takes the kind of the parameter it stands for.
Pass1 goes through every symbol table until no kind changes. The types are a graph
of nodes: a name without type arguments that stands for a type of the same module
has been replaced by that type's own node.
-/

namespace FcLang.Pass1
open Lib

inductive GenericKind where
  | type
  | const
  deriving DecidableEq, Repr

/-- `GP_UNKNOWN`, `GP_TYPE`, `GP_CONST` and `GP_CONFLICT`. -/
abbrev ParamKind := Mark GenericKind

/-- The address of a type node, `none` for the null pointer. -/
abbrev TypeRef := Option ℕ

/-- A size or a const argument as parsed: the variables in it, and every other node. -/
inductive SizeExpr where
  | typeVarRef (name : String)
  | other (children : List SizeExpr)

/-- A type node. `resolvedSym` is the declaration of the symbol a struct or a union
node is bound to. -/
inductive TypeNode where
  | typeVar (name : String)
  | pointer (pointee : TypeRef)
  | slice (elem : TypeRef)
  | option (inner : TypeRef)
  | result (inner : TypeRef)
  | fixedArray (elem sizeRef : TypeRef)
  | constExpr (expr : SizeExpr)
  | func (params : List TypeRef) (ret : TypeRef)
  | struct (name : String) (resolvedSym : Option ℕ) (fields typeArgs : List TypeRef)
  | union (name : String) (resolvedSym : Option ℕ) (variants typeArgs : List TypeRef)
  | stub (name : String) (typeArgs : List TypeRef)
  | other

/-- The callbacks of a walk over the variables of a type. -/
structure VarWalk (κ σ : Type) where
  visit : String → κ → σ → σ
  argKind : TypeNode → ℕ → σ → κ
  type : κ
  const : κ

section Walk
variable {κ σ : Type} (w : VarWalk κ σ) (types : ℕ → TypeNode)

mutual

def constExprWalkVars : SizeExpr → σ → σ
  | .typeVarRef name, s => w.visit name w.const s
  | .other children, s => constExprsWalkVars children s

def constExprsWalkVars : List SizeExpr → σ → σ
  | [], s => s
  | e :: es, s => constExprsWalkVars es (constExprWalkVars e s)

end

/-- `walk_vars`, to a depth: `none` is a walk that goes deeper. -/
def walkVars : ℕ → TypeRef → κ → σ → Option σ
  | _, none, _, s => some s
  | 0, some _, _, _ => none
  | depth + 1, some a, posKind, s =>
    let walkType := fun t s => walkVars depth t w.type s
    let each := fun (ts : List TypeRef) s => ts.foldlM (fun s t => walkType t s) s
    let args := fun (ts : List TypeRef) s =>
      ts.zipIdx.foldlM (fun s t => walkVars depth t.1 (w.argKind (types a) t.2 s) s) s
    match types a with
    | .typeVar name => some (w.visit name posKind s)
    | .pointer t => walkType t s
    | .slice t => walkType t s
    | .option t => walkType t s
    | .result t => walkType t s
    | .fixedArray elem sizeRef => (walkType elem s).bind (walkVars depth sizeRef w.const)
    | .constExpr e => some (constExprWalkVars w e s)
    | .func params ret => (each params s).bind (walkType ret)
    | .struct _ _ fields typeArgs => (each fields s).bind (args typeArgs)
    | .union _ _ variants typeArgs => (each variants s).bind (args typeArgs)
    | .stub _ typeArgs => args typeArgs s
    | .other => some s

end Walk

inductive DeclKind where
  | struct
  | union
  | letDecl
  | other
  deriving DecidableEq, Repr

/-- A declaration with its generic parameters. `memberTypes` are the types that are
walked: the fields of a struct, the payloads of a union, the parameters of a function. -/
structure GenericDecl where
  kind : DeclKind
  typeParams : List String
  isGeneric : Bool
  hasParamKinds : Bool
  memberTypes : List TypeRef

/-- A symbol, with the symbols of a module. Two symbols of one declaration share its
parameters and their kinds. -/
inductive Symbol where
  | mk (name : String) (decl : ℕ) (members : List Symbol)

def Symbol.name : Symbol → String
  | .mk name _ _ => name

def Symbol.decl : Symbol → ℕ
  | .mk _ decl _ => decl

/-- What kind inference starts from. A parameter is a declaration and an index. -/
structure Tables where
  types : ℕ → TypeNode
  decls : ℕ → GenericDecl
  symbols : List Symbol
  kinds : ℕ × ℕ → ParamKind

abbrev KindInfer := Marking (ℕ × ℕ) GenericKind

namespace Tables
variable (p : Tables)

def symtabLookupKind (name : String) (kind : DeclKind) : Option ℕ :=
  (p.symbols.find? fun s => s.name = name ∧ (p.decls s.decl).kind = kind).map Symbol.decl

def kindRefSym (name : String) : Option ℕ :=
  (p.symtabLookupKind name .struct).orElse fun _ => p.symtabLookupKind name .union

/-- The declaration that a type names. -/
def named : TypeNode → Option ℕ
  | .stub name _ => p.kindRefSym name
  | .struct name resolvedSym _ _ => resolvedSym.orElse fun _ => p.kindRefSym name
  | .union name resolvedSym _ _ => resolvedSym.orElse fun _ => p.kindRefSym name
  | _ => none

def kindMerge (owner : ℕ) (var : String) (k : Option GenericKind) (s : KindInfer) : KindInfer :=
  if !(p.decls owner).hasParamKinds then s
  else
    match (p.decls owner).typeParams.idxOf? var with
    | none => s
    | some i => s.merge (owner, i) k

def kindArgSlot (t : TypeNode) (i : ℕ) (s : KindInfer) : Option GenericKind :=
  match p.named t with
  | none => none
  | some r =>
    if !(p.decls r).isGeneric || i ≥ (p.decls r).typeParams.length then none
    else if !(p.decls r).hasParamKinds then some .type
    else (s.marks (r, i)).read

def kindWalk (owner : ℕ) : VarWalk (Option GenericKind) KindInfer where
  visit := p.kindMerge owner
  argKind := p.kindArgSlot
  type := some .type
  const := some .const

def isWalked (decl : ℕ) : Bool :=
  (p.decls decl).isGeneric && (p.decls decl).hasParamKinds

def kindWalkSym (depth decl : ℕ) (s : KindInfer) : Option KindInfer :=
  if !p.isWalked decl then some s
  else (p.decls decl).memberTypes.foldlM
    (fun s t => walkVars (p.kindWalk decl) p.types depth t (some .type) s) s

mutual

def kindWalkTable (depth : ℕ) : List Symbol → KindInfer → Option KindInfer
  | [], s => some s
  | sym :: table, s => (kindWalkEntry depth sym s).bind (kindWalkTable depth table)

/-- One symbol of a table, and the table of its members. -/
def kindWalkEntry (depth : ℕ) : Symbol → KindInfer → Option KindInfer
  | .mk _ decl members, s => (p.kindWalkSym depth decl s).bind (kindWalkTable depth members)

end

def finalKind (kind : DeclKind) : ParamKind → ParamKind
  | .conflict => .known .type
  | .unknown => if kind = .letDecl then .unknown else .known .type
  | k => k

mutual

def kindFinalizeTable : List Symbol → (ℕ × ℕ → ParamKind) → ℕ × ℕ → ParamKind
  | [], kinds => kinds
  | sym :: table, kinds => kindFinalizeTable table (kindFinalizeEntry sym kinds)

def kindFinalizeEntry : Symbol → (ℕ × ℕ → ParamKind) → ℕ × ℕ → ParamKind
  | .mk _ decl members, kinds => kindFinalizeTable members fun q =>
    if p.isWalked decl ∧ q.1 = decl ∧ q.2 < (p.decls decl).typeParams.length
    then finalKind (p.decls decl).kind (kinds q) else kinds q

end

/-- The rounds of the loop, to a number of them. -/
def inferRounds (depth : ℕ) : ℕ → KindInfer → Option KindInfer
  | 0, _ => none
  | rounds + 1, s =>
    (p.kindWalkTable depth p.symbols { s with changed := false }).bind fun s =>
      if s.changed then inferRounds depth rounds s else some s

/-- The kinds, and the parameters that were reported as used both ways. -/
structure Inferred where
  kinds : ℕ × ℕ → ParamKind
  conflicts : List (ℕ × ℕ)

def inferParamKinds (depth rounds : ℕ) : Option Inferred :=
  (p.inferRounds depth rounds ⟨p.kinds, false, []⟩).map fun s =>
    ⟨p.kindFinalizeTable p.symbols s.marks, s.conflicts⟩

end Tables
end FcLang.Pass1
