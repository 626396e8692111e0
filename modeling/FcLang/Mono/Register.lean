import FcLang.Types.Mangle
import FcLang.Types.Depth

/-!
# The table of generic instances

One call of `mono_register`: an instance is entered once under its C name, and
the guards against an infinite family of instances stop the table growing.
-/

namespace FcLang.Mono
open Types

def maxInstantiationDepth : ℕ := 128

def maxInstances : ℕ := 200000

def maxPerTemplate : ℕ := 2048

structure MonoInstance where
  genericName : String
  mangledName : String
  nsPrefix : Option String
  typeArgs : List Ty
  /-- The declaration of the template, by its C name. -/
  template : Option String
  typeParamNames : List String

inductive MonoError where
  | void (name : String)
  | infiniteConst (template : Option String)
  | infiniteDepth (template : Option String)
  | staticAssert (template : String)

/-- The table, and the errors reported so far. -/
structure MonoTable where
  entries : List MonoInstance
  errors : List MonoError

def typeIsVoid : Ty → Bool
  | .prim .void => true
  | _ => false

def typeIsConstArg : Ty → Bool
  | .constInt _ | .constExpr _ => true
  | _ => false

/-- The instances of a template, counted only when a const argument is present. -/
def templateCount (t : MonoTable) (template : Option String) (typeArgs : List Ty) : ℕ :=
  if template.isSome && typeArgs.any typeIsConstArg then
    t.entries.countP fun e => e.template = template
  else 0

/-- The source's name for what is registered, before its arguments. -/
def baseName (name : String) (nsPrefix : Option String) : String :=
  match nsPrefix with
  | some ns => ns ++ "__" ++ name
  | none => name

def MonoTable.fail (t : MonoTable) (err : MonoError) : MonoTable :=
  { t with errors := t.errors ++ [err] }

/-- `mono_register`. Whether the static assertions of a template hold at given
arguments is a parameter. Returns the C name of the instance. -/
def monoRegister (assertsHold : String → List Ty → Bool) (t : MonoTable) (name : String)
    (nsPrefix : Option String) (typeArgs : List Ty) (template : Option String)
    (typeParams : List String) : String × MonoTable :=
  if t.errors ≠ [] then (name, t)
  else
    let mangled := mangleGenericName (baseName name nsPrefix) typeArgs
    if t.entries.any fun e => e.mangledName = mangled then (mangled, t)
    else if typeArgs.any typeIsVoid then (mangled, t.fail (.void name))
    else if templateCount t template typeArgs ≥ maxPerTemplate then
      (mangled, t.fail (.infiniteConst template))
    else if maxArgDepth typeArgs 0 > maxInstantiationDepth || t.entries.length ≥ maxInstances then
      (mangled, t.fail (.infiniteDepth template))
    else if template.any fun tmpl => !assertsHold tmpl typeArgs then
      (mangled, t.fail (.staticAssert (template.getD name)))
    else
      (mangled, { t with entries := t.entries ++ [{
        genericName := name, mangledName := mangled, nsPrefix, typeArgs, template,
        typeParamNames := typeParams }] })

end FcLang.Mono
