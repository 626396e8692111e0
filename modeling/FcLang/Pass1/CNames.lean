import FcLang.Pass1.Paths
import FcLang.Mono.Register

/-!
# The C names of a program

Registration gives every declaration the C name of its path, and the collision
check claims the names of the declarations that are emitted. The names of
generic instances are not claimed.
-/

namespace FcLang.Pass1
open Types

/-- A declaration. A let has a C name once registered, and a type's name is replaced by its C
name; an extern type also has the tag its header declares. -/
inductive Decl where
  | letDecl (name : String) (codegenName : Option String) (typeParamCount : ℕ) (hasInit : Bool)
  | struct (name : String) (typeParamCount : ℕ) (cName : Option String)
  | union (name : String) (typeParamCount : ℕ)
  | enum (name : String)
  | externSym (name : String)
  | module (name : String) (decls : List Decl)
  | other

mutual

/-- `register_module_members`: the declarations of a module whose path is `path`. -/
def register (path : List String) : Decl → Decl
  | .letDecl name _ n hasInit => .letDecl name (some (pathName (path ++ [name]))) n hasInit
  | .struct name n cName => .struct (pathName (path ++ [name])) n cName
  | .union name n => .union (pathName (path ++ [name])) n
  | .enum name => .enum (pathName (path ++ [name]))
  | .module name decls => .module name (registerAll (path ++ [name]) decls)
  | d => d

def registerAll (path : List String) : List Decl → List Decl
  | [] => []
  | d :: ds => register path d :: registerAll path ds

end

/-- A declaration at the top of a file, in a namespace. -/
structure TopDecl where
  ns : List String
  decl : Decl

/-- The entry point gets no C name. -/
def TopDecl.register (d : TopDecl) : Decl :=
  match d.decl with
  | .letDecl name codegenName n hasInit =>
    if name = "main" ∨ ¬hasInit then .letDecl name codegenName n hasInit
    else Pass1.register [] d.decl
  | decl => Pass1.register d.ns decl

mutual

/-- The declarations in the order of the walk. -/
def Decl.walk : Decl → List Decl
  | .module _ decls => walkAll decls
  | d => [d]

def walkAll : List Decl → List Decl
  | [] => []
  | d :: ds => d.walk ++ walkAll ds

end

/-- The declarations of a program, registered, in the order of the walk. -/
def walkProgram (decls : List TopDecl) : List Decl := walkAll (decls.map TopDecl.register)

/-- A generic declaration: its C name and its number of parameters. -/
def Decl.template : Decl → Option (String × ℕ)
  | .letDecl _ (some cname) n _ => some (cname, n)
  | .struct name n _ => some (name, n)
  | .union name n => some (name, n)
  | _ => none

/-- The C name that stands for a declared type. -/
def Decl.typeName : Decl → Option String
  | .struct name _ _ => some name
  | .union name _ => some name
  | .enum name => some name
  | _ => none

/-- What has a C name: an emitted declaration, an instance asked of the mono table, a tuple. -/
inductive Entity where
  | decl (cname : String)
  | inst (template : String) (typeArgs : List Ty)
  | tuple (elems : List Ty)

def Entity.cName : Entity → String
  | .decl cname => cname
  | .inst template typeArgs => mangleGenericName template typeArgs
  | .tuple elems => mangleGenericName (tupleCanonicalName elems) []

def Entity.identity : Entity → Option TypeId
  | .decl cname => some (.named cname [])
  | .inst template typeArgs => (identityAll typeArgs).map (.named template)
  | .tuple elems => (identityAll elems).map .tuple

/-- A name of the program as a type holds it: a declared type, or a template with its arguments. -/
def Known (decls : List TopDecl) (name : String) (args : List TypeId) : Prop :=
  if args = [] then name ∈ (walkProgram decls).filterMap Decl.typeName
  else (name, args.length) ∈ (walkProgram decls).filterMap Decl.template

/-- An instance over the declarations of the program. -/
inductive Entity.OfProgram (decls : List TopDecl) : Entity → Prop
  | inst {template : String} {typeArgs : List Ty} {ids : List TypeId}
      (hids : identityAll typeArgs = some ids) (hargs : typeArgs ≠ [])
      (hknown : AllNamed (Known decls) (.named template ids)) : OfProgram decls (.inst template typeArgs)
  | tuple {elems : List Ty} {ids : List TypeId} (hids : identityAll elems = some ids)
      (hknown : AllNamed (Known decls) (.tuple ids)) : OfProgram decls (.tuple elems)

mutual

/-- Every name of the declaration is an identifier. -/
def Decl.Lexed : Decl → Prop
  | .letDecl name _ _ _ => Identifier name
  | .struct name _ _ => Identifier name
  | .union name _ => Identifier name
  | .enum name => Identifier name
  | .externSym _ => True
  | .module name decls => Identifier name ∧ LexedAll decls
  | .other => True

def LexedAll : List Decl → Prop
  | [] => True
  | d :: ds => d.Lexed ∧ LexedAll ds

end

/-- A program as parsed, and the instances that monomorphization asks for. -/
structure Program where
  decls : List TopDecl
  instances : List Entity
  lexed : ∀ d ∈ decls, (∀ c ∈ d.ns, Identifier c) ∧ d.decl.Lexed
  unnamed : ∀ d ∈ decls, ∀ name codegenName n hasInit,
    d.decl = .letDecl name codegenName n hasInit → codegenName = none
  ofProgram : ∀ e ∈ instances, e.OfProgram decls

/-- Where a declaration gets a C name: its path and its number of type parameters. -/
structure Place where
  path : List String
  typeParamCount : ℕ

mutual

/-- The places of a declaration of the module whose path is `path`. -/
def Decl.places (path : List String) : Decl → List Place
  | .letDecl name _ n _ => [⟨path ++ [name], n⟩]
  | .struct name n _ => [⟨path ++ [name], n⟩]
  | .union name n => [⟨path ++ [name], n⟩]
  | .enum name => [⟨path ++ [name], 0⟩]
  | .externSym _ => []
  | .module name decls => placesAll (path ++ [name]) decls
  | .other => []

def placesAll (path : List String) : List Decl → List Place
  | [] => []
  | d :: ds => d.places path ++ placesAll path ds

end

def TopDecl.places (d : TopDecl) : List Place :=
  match d.decl with
  | .letDecl .. => d.decl.places []
  | decl => decl.places d.ns

def Program.places (p : Program) : List Place := p.decls.flatMap TopDecl.places

end FcLang.Pass1
