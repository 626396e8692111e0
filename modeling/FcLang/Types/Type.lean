import Mathlib.Data.List.Basic

/-!
# FC types

The compiler's type trees. Names are the C names that pass1 has given to the
declarations, and two of them are compared as strings because the compiler
interns them.
-/

namespace FcLang.Types

/-- The scalar primitive kinds. -/
inductive Prim where
  | int8 | int16 | int32 | int64
  | uint8 | uint16 | uint32 | uint64
  | isize | usize
  | float32 | float64
  | bool | void
  deriving DecidableEq, Repr

/-- `type_fixed_int_bits`, on a kind. -/
def Prim.fixedIntBits : Prim → ℕ
  | .int8 | .uint8 => 8
  | .int16 | .uint16 => 16
  | .int32 | .uint32 => 32
  | .int64 | .uint64 => 64
  | _ => 0

/-- `type_is_signed`, on a kind. -/
def Prim.isSigned : Prim → Bool
  | .int8 | .int16 | .int32 | .int64 | .isize => true
  | _ => false

/-- The prefix operators a const expression may hold. -/
inductive ConstUnary where
  | minus | tilde | bang
  deriving DecidableEq, Repr

/-- The binary operators a const expression may hold. -/
inductive ConstBinary where
  | eqeq | bangeq | lt | gt | lteq | gteq | ampamp | pipepipe
  | plus | minus | star | amp | pipe | caret | ltlt | gtgt | slash | percent
  deriving DecidableEq, Repr

/-- A const-generic expression: the node set that `const_expr_node_ok` admits. -/
inductive ConstExpr where
  | intLit (value : BitVec 64)
  | boolLit (value : Bool)
  | typeVarRef (name : String)
  | unaryPrefix (op : ConstUnary) (operand : ConstExpr)
  | binary (op : ConstBinary) (left right : ConstExpr)
  | cast (target : Prim) (operand : ConstExpr)
  deriving DecidableEq, Repr

/-- A type tree. `null` is the null pointer, which a function without a written
return type and a variant without a payload hold. Only pointers, slices and
`any*` carry a const qualifier. A struct, union or stub that names a generic
instance has type arguments; `template` is the C name of the template where the
node records it. A fixed array has a symbolic size in `sizeRef`, or `null` there
and its element count in `size`. -/
inductive Ty where
  | null
  | prim (kind : Prim)
  | pointer (isConst : Bool) (pointee : Ty)
  | slice (isConst : Bool) (elem : Ty)
  | option (inner : Ty)
  | result (inner : Ty)
  | func (params : List Ty) (ret : Ty) (isVariadic : Bool)
  | struct (name : String) (template : Option String) (isTuple : Bool) (fields typeArgs : List Ty)
  | union (name : String) (template : Option String) (variants typeArgs : List Ty)
  | enum (name : String)
  | anyPtr (isConst : Bool)
  | typeVar (name : String)
  | fixedArray (elem : Ty) (size : BitVec 64) (sizeRef : Ty)
  | constInt (value : BitVec 64)
  | constExpr (expr : ConstExpr)
  | stub (name : String) (baseName : Option String) (typeArgs : List Ty)
  | error
  | never
  | unresolved
  deriving Repr

section Induction
variable {P : Ty → Prop}

/-- Induction on type trees, with the hypothesis for every tree in a list. -/
@[elab_as_elim, induction_eliminator]
theorem Ty.induct (null : P .null) (prim : ∀ kind, P (.prim kind))
    (pointer : ∀ isConst pointee, P pointee → P (.pointer isConst pointee))
    (slice : ∀ isConst elem, P elem → P (.slice isConst elem))
    (option : ∀ inner, P inner → P (.option inner))
    (result : ∀ inner, P inner → P (.result inner))
    (func : ∀ params ret isVariadic, (∀ t ∈ params, P t) → P ret → P (.func params ret isVariadic))
    (struct : ∀ name template isTuple fields typeArgs, (∀ t ∈ fields, P t) →
      (∀ t ∈ typeArgs, P t) → P (.struct name template isTuple fields typeArgs))
    (union : ∀ name template variants typeArgs, (∀ t ∈ variants, P t) →
      (∀ t ∈ typeArgs, P t) → P (.union name template variants typeArgs))
    (enum : ∀ name, P (.enum name)) (anyPtr : ∀ isConst, P (.anyPtr isConst))
    (typeVar : ∀ name, P (.typeVar name))
    (fixedArray : ∀ elem size sizeRef, P elem → P sizeRef → P (.fixedArray elem size sizeRef))
    (constInt : ∀ value, P (.constInt value)) (constExpr : ∀ expr, P (.constExpr expr))
    (stub : ∀ name baseName typeArgs, (∀ t ∈ typeArgs, P t) → P (.stub name baseName typeArgs))
    (error : P .error) (never : P .never) (unresolved : P .unresolved) (t : Ty) : P t := by
  apply Ty.rec (motive_1 := P) (motive_2 := fun ts => ∀ t ∈ ts, P t) <;> try assumption
  · exact fun t ht => absurd ht List.not_mem_nil
  · intro head tail hhead htail t ht
    cases ht with
    | head => exact hhead
    | tail _ hmem => exact htail t hmem

end Induction
end FcLang.Types
