import FcLang.Lib.Pieces
import FcLang.Types.Mangle

/-!
# What identifies a concrete type

The identity of a concrete type forgets how its node was resolved: a struct, a
union or a stub that names the same instance is the same type. The mangled name
of a type is a spelling of its identity.
-/

namespace FcLang.Types
open Pieces

/-- A concrete type. The elements of a slice of `u8` and the pointee of a pointer
to `u8` are not spelled, so these have their own identities. -/
inductive TypeId where
  | prim (kind : Prim)
  | str
  | cstr
  | const (t : TypeId)
  | pointer (t : TypeId)
  | slice (t : TypeId)
  | option (t : TypeId)
  | result (t : TypeId)
  | anyPtr
  | fixedArray (size : BitVec 64) (elem : TypeId)
  | constInt (value : BitVec 64)
  | func (params : List TypeId) (ret : TypeId) (isVariadic : Bool)
  | named (name : String) (args : List TypeId)
  | tuple (elems : List TypeId)

section Induction
variable {P : TypeId → Prop}

@[elab_as_elim, induction_eliminator]
theorem TypeId.induct (prim : ∀ kind, P (.prim kind)) (str : P .str) (cstr : P .cstr)
    (const : ∀ t, P t → P (.const t)) (pointer : ∀ t, P t → P (.pointer t))
    (slice : ∀ t, P t → P (.slice t)) (option : ∀ t, P t → P (.option t))
    (result : ∀ t, P t → P (.result t)) (anyPtr : P .anyPtr)
    (fixedArray : ∀ size elem, P elem → P (.fixedArray size elem))
    (constInt : ∀ value, P (.constInt value))
    (func : ∀ params ret isVariadic, (∀ t ∈ params, P t) → P ret → P (.func params ret isVariadic))
    (named : ∀ name args, (∀ t ∈ args, P t) → P (.named name args))
    (tuple : ∀ elems, (∀ t ∈ elems, P t) → P (.tuple elems)) (t : TypeId) : P t := by
  apply TypeId.rec (motive_1 := P) (motive_2 := fun ts => ∀ t ∈ ts, P t) <;> try assumption
  · exact fun t ht => absurd ht List.not_mem_nil
  · intro head tail hhead htail t ht
    cases ht with
    | head => exact hhead
    | tail _ hmem => exact htail t hmem

end Induction

def TypeId.constIf (c : Bool) (t : TypeId) : TypeId := if c then .const t else t

mutual

/-- The identity of a type; a type that is not concrete has none. -/
def identity : Ty → Option TypeId
  | .prim kind => some (.prim kind)
  | .pointer c t => (identity t).map fun i => .constIf c (if t.isUint8 then .cstr else .pointer i)
  | .slice c t => (identity t).map fun i => .constIf c (if t.isUint8 then .str else .slice i)
  | .option t => (identity t).map .option
  | .result t => (identity t).map .result
  | .func params ret isVariadic =>
    (identityAll params).bind fun ps => (identity ret).map fun r => .func ps r isVariadic
  | .struct name template isTuple fields typeArgs =>
    if isTuple then (identityAll fields).map .tuple
    else if typeArgs.isEmpty then some (.named name [])
    else (identityAll typeArgs).map (.named (template.getD name))
  | .union name template _ typeArgs =>
    if typeArgs.isEmpty then some (.named name [])
    else (identityAll typeArgs).map (.named (template.getD name))
  | .enum name => some (.named name [])
  | .anyPtr c => some (.constIf c .anyPtr)
  | .fixedArray elem size sizeRef =>
    match sizeRef with
    | .null => (identity elem).map (.fixedArray size)
    | _ => none
  | .constInt v => some (.constInt v)
  | .stub name baseName typeArgs => (identityAll typeArgs).map (.named (baseName.getD name))
  | .null | .typeVar _ | .constExpr _ | .error | .never | .unresolved => none

def identityAll : List Ty → Option (List TypeId)
  | [] => some []
  | t :: ts => (identity t).bind fun i => (identityAll ts).map (i :: ·)

end

/-- A 64-bit value in decimal, with a mark in front of a negative one. -/
def signedText (mark : Char) (v : BitVec 64) : List Char :=
  if v.toInt < 0 then mark :: Nat.toDigits 10 v.toInt.natAbs else Nat.toDigits 10 v.toInt.natAbs

/-- What follows the name of a template: nothing, or `__` and the arguments. -/
def argText (args : List (List Char)) : List Char :=
  if args.isEmpty then [] else '_' :: '_' :: encodeAll args

def tupleRoot : List Char := ['f', 'c', '_', 't', 'u', 'p', 'l', 'e']

mutual

/-- The text of a concrete type. -/
def spell : TypeId → List Char
  | .prim kind => kind.mangle.toList
  | .str => ['s', 't', 'r']
  | .cstr => ['c', 's', 't', 'r']
  | .const t => '_' :: '_' :: 'c' :: spell t
  | .pointer t => '_' :: '_' :: 'p' :: spell t
  | .slice t => '_' :: '_' :: 'l' :: spell t
  | .option t => '_' :: '_' :: 'o' :: spell t
  | .result t => '_' :: '_' :: 'r' :: spell t
  | .anyPtr => ['_', '_', 'y']
  | .fixedArray size elem => '_' :: '_' :: 'a' :: (signedText '-' size ++ '_' :: spell elem)
  | .constInt v => '_' :: '_' :: 'k' :: signedText 'n' v
  | .func params ret isVariadic =>
    '_' :: '_' :: 'f' :: (Nat.toDigits 10 params.length ++ '_' :: (encodeAll (spellAll params) ++
      (encode (spell ret) ++ if isVariadic then ['_', 'v'] else [])))
  | .named name args => name.toList ++ argText (spellAll args)
  | .tuple elems => tupleRoot ++ (Nat.toDigits 10 elems.length ++ argText (spellAll elems))

def spellAll : List TypeId → List (List Char)
  | [] => []
  | t :: ts => spell t :: spellAll ts

end

end FcLang.Types
