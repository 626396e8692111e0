import FcLang.Diag.Speculation
import FcLang.Pass2.Containment

/-!
# Module cycles

`check_module_cycles` records which top-level module refers to which, from the
symbols that the written types and expressions resolved to, and searches the
recorded graph for a cycle. What the scan reads of a declaration is kept here: the
sub-expressions of an expression stand in the order of `expr_for_each_child`.
-/

namespace FcLang.Pass2.Modules
open Pass2 (Mark)
open Diag (SrcLoc)

/-- The address of a symbol's declaration, where it has one. -/
structure Symbol where
  decl : Option ℕ
  deriving DecidableEq

mutual

inductive WrittenType where
  | null
  | pointer (pointee : WrittenType)
  | slice (elem : WrittenType)
  | option (inner : WrittenType)
  | result (inner : WrittenType)
  | fixedArray (elem sizeRef : WrittenType)
  | func (params : List WrittenType) (ret : WrittenType)
  | struct (resolved : Option Symbol) (typeArgs : List WrittenType) (isTuple : Bool)
      (fields : List WrittenType)
  | union (resolved : Option Symbol) (typeArgs : List WrittenType)
  | enum (resolved : Option Symbol)
  | stub (name : String) (typeArgs : List WrittenType)
  | constExpr (expr : WrittenExpr)
  | other

inductive WrittenExpr where
  | mk (loc : SrcLoc) (own : Own) (children : List WrittenExpr)

/-- What an expression refers to itself: a cast, an `alloc`, a literal and others of their kind
have a target type. -/
inductive Own where
  | ident (resolved companion : Option Symbol)
  | structLit (resolved : Option Symbol)
  | call (typeArgs : List WrittenType)
  | field (typeArgs : List WrittenType)
  | func (params : List Param)
  | target (type : WrittenType)
  | other

inductive Param where
  | mk (loc : SrcLoc) (type : WrittenType)

end

/-- A field of a struct or a variant of a union; the line is 0 where it has no location. -/
structure MemberType where
  loc : SrcLoc
  type : WrittenType

inductive WrittenDecl where
  | let (addr : ℕ) (loc : SrcLoc) (writtenInit init : Option WrittenExpr)
  | struct (addr : ℕ) (loc : SrcLoc) (fields : List MemberType) (asserts : List (Option WrittenExpr))
  | union (addr : ℕ) (loc : SrcLoc) (variants : List MemberType)
      (asserts : List (Option WrittenExpr))
  | externSym (addr : ℕ) (loc : SrcLoc) (type : WrittenType)
  | import (addr : ℕ) (loc : SrcLoc) (resolved companion module : Option Symbol)
  | module (addr : ℕ) (loc : SrcLoc) (name : String) (decls : List WrittenDecl)
  | other (addr : ℕ) (loc : SrcLoc)

/-- A top-level module. -/
structure Module where
  addr : ℕ
  loc : SrcLoc
  name : String
  decls : List WrittenDecl

structure DeclOwner where
  decl : ℕ
  module : ℕ
  deriving DecidableEq

/-- `deps` and `where` are one: an edge has the location of the first reference that made it. -/
structure ModuleGraph where
  symtab : String → Option Symbol
  mods : List Module
  owners : List DeclOwner
  deps : ℕ → ℕ → Option SrcLoc
  origin : ℕ
  loc : SrcLoc

mutual

def moduleGraphOwn (module : ℕ) : WrittenDecl → List DeclOwner
  | .let addr _ _ _ => [⟨addr, module⟩]
  | .struct addr _ _ _ => [⟨addr, module⟩]
  | .union addr _ _ _ => [⟨addr, module⟩]
  | .externSym addr _ _ => [⟨addr, module⟩]
  | .import addr _ _ _ _ => [⟨addr, module⟩]
  | .module addr _ _ decls => ⟨addr, module⟩ :: moduleGraphOwnAll module decls
  | .other addr _ => [⟨addr, module⟩]

def moduleGraphOwnAll (module : ℕ) : List WrittenDecl → List DeclOwner
  | [] => []
  | d :: ds => moduleGraphOwn module d ++ moduleGraphOwnAll module ds

end

def Module.owned (m : Module) (i : ℕ) : List DeclOwner := ⟨m.addr, i⟩ :: moduleGraphOwnAll i m.decls

/-- The owner of a declaration. Declarations have different addresses, so that the search in the
sorted array finds the one there is. -/
def ownerOf (owners : List DeclOwner) (target : Symbol) : Option ℕ :=
  target.decl.bind fun addr => (owners.find? fun o => o.decl = addr).map DeclOwner.module

/-- `module_graph_add` -/
def ModuleGraph.add (g : ModuleGraph) (target : Option Symbol) : ModuleGraph :=
  match target.bind (ownerOf g.owners) with
  | none => g
  | some module =>
    if module = g.origin then g
    else if (g.deps g.origin module).isSome then g
    else
      let row := Function.update (g.deps g.origin) module (some g.loc)
      { g with deps := Function.update g.deps g.origin row }

def ModuleGraph.atLoc (g : ModuleGraph) (loc : SrcLoc) : ModuleGraph := { g with loc := loc }

mutual

def noteTypeRefs (g : ModuleGraph) : WrittenType → ModuleGraph
  | .null => g
  | .pointer t => noteTypeRefs g t
  | .slice t => noteTypeRefs g t
  | .option t => noteTypeRefs g t
  | .result t => noteTypeRefs g t
  | .fixedArray elem sizeRef => noteTypeRefs (noteTypeRefs g elem) sizeRef
  | .func params ret => noteTypeRefs (noteTypeArgs g params) ret
  | .struct resolved typeArgs isTuple fields =>
    let g := noteTypeArgs (g.add resolved) typeArgs
    match isTuple with
    | true => noteTypeArgs g fields
    | false => g
  | .union resolved typeArgs => noteTypeArgs (g.add resolved) typeArgs
  | .enum resolved => g.add resolved
  | .stub name typeArgs => noteTypeArgs (g.add (g.symtab name)) typeArgs
  | .constExpr e => noteExprRefs g e
  | .other => g

def noteTypeArgs (g : ModuleGraph) : List WrittenType → ModuleGraph
  | [] => g
  | t :: ts => noteTypeArgs (noteTypeRefs g t) ts

def noteExprRefs (g : ModuleGraph) : WrittenExpr → ModuleGraph
  | .mk loc own children => noteChildren (noteOwnRefs (g.atLoc loc) own) children

def noteChildren (g : ModuleGraph) : List WrittenExpr → ModuleGraph
  | [] => g
  | e :: es => noteChildren (noteExprRefs g e) es

/-- The switch of `note_expr_refs`. -/
def noteOwnRefs (g : ModuleGraph) : Own → ModuleGraph
  | .ident resolved companion => (g.add resolved).add companion
  | .structLit resolved => g.add resolved
  | .call typeArgs => noteTypeArgs g typeArgs
  | .field typeArgs => noteTypeArgs g typeArgs
  | .func params => noteParams g params
  | .target type => noteTypeRefs g type
  | .other => g

def noteParams (g : ModuleGraph) : List Param → ModuleGraph
  | [] => g
  | .mk loc type :: ps => noteParams (noteTypeRefs (g.atLoc loc) type) ps

end

def noteMembers (g : ModuleGraph) : List MemberType → ModuleGraph
  | [] => g
  | m :: ms => noteMembers (noteTypeRefs (if m.loc.line ≠ 0 then g.atLoc m.loc else g) m.type) ms

def noteStaticAssertRefs (g : ModuleGraph) : List (Option WrittenExpr) → ModuleGraph
  | [] => g
  | none :: es => noteStaticAssertRefs g es
  | some e :: es => noteStaticAssertRefs (noteExprRefs g e) es

mutual

def noteDeclRefs (g : ModuleGraph) : WrittenDecl → ModuleGraph
  | .let _ loc writtenInit init =>
    match writtenInit <|> init with
    | none => g.atLoc loc
    | some e => noteExprRefs (g.atLoc loc) e
  | .struct _ loc fields asserts => noteStaticAssertRefs (noteMembers (g.atLoc loc) fields) asserts
  | .union _ loc variants asserts => noteStaticAssertRefs (noteMembers (g.atLoc loc) variants) asserts
  | .externSym _ loc type => noteTypeRefs (g.atLoc loc) type
  | .import _ loc resolved companion module =>
    (((g.atLoc loc).add resolved).add companion).add module
  | .module _ loc _ decls => noteDeclsRefs (g.atLoc loc) decls
  | .other _ loc => g.atLoc loc

def noteDeclsRefs (g : ModuleGraph) : List WrittenDecl → ModuleGraph
  | [] => g
  | d :: ds => noteDeclsRefs (noteDeclRefs g d) ds

end

/-- A step of a reported cycle: module `source` refers to module `target` at `loc`. -/
structure CycleStep where
  source : ℕ
  target : ℕ
  loc : SrcLoc
  deriving DecidableEq

structure CycleError where
  loc : SrcLoc
  last : String
  first : String
  steps : List CycleStep
  deriving DecidableEq

def moduleName (mods : List Module) (i : ℕ) : String := (mods[i]?.map Module.name).getD ""

def locText (l : SrcLoc) : String :=
  l.filename.getD "?" ++ ":" ++ toString l.line ++ ":" ++ toString l.col

/-- The text behind the first colon: `more` once a step is written. -/
def stepsText (mods : List Module) (more : Bool) : List CycleStep → String
  | [] => ""
  | s :: rest =>
    (if more then if rest.isEmpty then ", and" else "," else "") ++ " '" ++
      moduleName mods s.source ++ "' refers to '" ++ moduleName mods s.target ++ "' at " ++
      locText s.loc ++ stepsText mods true rest

def CycleError.text (mods : List Module) (e : CycleError) : String :=
  "circular reference between modules '" ++ e.last ++ "' and '" ++ e.first ++ "':" ++
    stepsText mods false e.steps

/-- `report_module_cycle`, closed by the edge from the first node of `path`, where the search
stands, to `v` further down. -/
def reportModuleCycle (g : ModuleGraph) (path : List ℕ) (u v : ℕ) : CycleError :=
  let cycle := v :: (path.takeWhile (· ≠ v)).reverse
  { loc := (g.mods[u]?.map Module.loc).getD ⟨none, 0, 0⟩
    last := moduleName g.mods u
    first := moduleName g.mods v
    steps := List.zipWith (fun a b => ⟨a, b, (g.deps a b).getD ⟨none, 0, 0⟩⟩) cycle
      (cycle.tail ++ [v]) }

/-- The array `color`. -/
structure Colors where
  color : ℕ → Mark

def Colors.set (c : Colors) (i : ℕ) (m : Mark) : Colors := ⟨Function.update c.color i m⟩

mutual

/-- `module_graph_find_cycle`. The path has the node the search stands at first. -/
def Colors.findCycle (g : ModuleGraph) (u : ℕ) (path : List ℕ) (c : Colors) :
    Option (Option CycleError × Colors) :=
  c.set u .onStack |>.tryEdges g u (u :: path) (List.range g.mods.length)
partial_fixpoint

/-- The loop over the other modules. -/
def Colors.tryEdges (g : ModuleGraph) (u : ℕ) (path vs : List ℕ) (c : Colors) :
    Option (Option CycleError × Colors) :=
  match vs with
  | [] => some (none, c.set u .done)
  | v :: vs =>
    if (g.deps u v).isNone then c |>.tryEdges g u path vs
    else
      match c.color v with
      | .onStack => some (some (reportModuleCycle g path u v), c)
      | .done => c |>.tryEdges g u path vs
      | .unvisited => do
        let r ← c |>.findCycle g v path
        match r with
        | (some e, c) => return (some e, c)
        | (none, c) => c |>.tryEdges g u path vs
partial_fixpoint

end

/-- The loop that starts a search at every module it has not seen. -/
def Colors.searchAll (g : ModuleGraph) : List ℕ → Colors → Option (Option CycleError)
  | [], _ => some none
  | u :: us, c =>
    if c.color u = .unvisited then do
      let r ← c.findCycle g u []
      match r with
      | (some e, _) => return some e
      | (none, c) => c.searchAll g us
    else c.searchAll g us

/-- Every declaration inside a top-level module. -/
def allOwners (mods : List Module) : List DeclOwner :=
  (mods.zipIdx.map fun m => m.1.owned m.2).flatten

/-- The modules of a program, as the symbol table lists them. -/
structure Program where
  symtab : String → Option Symbol
  mods : List Module
  distinct : ((allOwners mods).map DeclOwner.decl).Nodup

/-- The loop that scans every module. -/
def ModuleGraph.scan (g : ModuleGraph) : List (Module × ℕ) → ModuleGraph
  | [] => g
  | (m, i) :: rest => (noteDeclsRefs ({ g with origin := i }.atLoc m.loc) m.decls).scan rest

def Program.graph (p : Program) : ModuleGraph :=
  ModuleGraph.scan
    { symtab := p.symtab
      mods := p.mods
      owners := allOwners p.mods
      deps := fun _ _ => none
      origin := 0
      loc := ⟨none, 0, 0⟩ } p.mods.zipIdx

/-- `check_module_cycles`: the error it reports. -/
def checkModuleCycles (p : Program) : Option (Option CycleError) :=
  if p.mods.length < 2 then some none
  else (Colors.searchAll p.graph (List.range p.mods.length) ⟨fun _ => .unvisited⟩)

end FcLang.Pass2.Modules
