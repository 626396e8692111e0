import FcLang.Types.Type

/-!
# Equality of types

`types_equal` compares two trees, with or without the const qualifiers. Named
types are compared by name, tuples by their elements, and the error type equals
every type. The source compares two addresses first; on trees, that a node
equals itself is the theorem at the end.
-/

namespace FcLang.Types

def Ty.isNull : Ty → Bool
  | .null => true
  | _ => false

def typeUdtName : Ty → Option String
  | .stub name _ _ => some name
  | .struct name _ _ _ _ => some name
  | .union name _ _ _ => some name
  | .enum name => some name
  | _ => none

/-- A named type and another node: a stub may stand for a struct or a union. -/
def sameUdtName (a b : Ty) : Bool :=
  match typeUdtName a, typeUdtName b with
  | some na, some nb => na == nb
  | _, _ => false

mutual

def typesEqual (withConst : Bool) : Ty → Ty → Bool
  | .error, _ => true
  | .null, b => match b with
    | .null => true
    | _ => false
  | .prim k, b => match b with
    | .prim k' => k == k'
    | .error => true
    | _ => false
  | .pointer c t, b => match b with
    | .pointer c' t' => (!withConst || c == c') && typesEqual withConst t t'
    | .error => true
    | _ => false
  | .slice c t, b => match b with
    | .slice c' t' => (!withConst || c == c') && typesEqual withConst t t'
    | .error => true
    | _ => false
  | .anyPtr c, b => match b with
    | .anyPtr c' => !withConst || c == c'
    | .error => true
    | _ => false
  | .option t, b => match b with
    | .option t' => typesEqual withConst t t'
    | .error => true
    | _ => false
  | .result t, b => match b with
    | .result t' => typesEqual withConst t t'
    | .error => true
    | _ => false
  | .fixedArray elem size sizeRef, b => match b with
    | .fixedArray elem' size' sizeRef' =>
      if sizeRef.isNull && sizeRef'.isNull then size == size' && typesEqual withConst elem elem'
      else if sizeRef.isNull || sizeRef'.isNull then false
      else typesEqual true sizeRef sizeRef' && typesEqual withConst elem elem'
    | .error => true
    | _ => false
  | .constInt v, b => match b with
    | .constInt v' => v == v'
    | .error => true
    | _ => false
  | .constExpr e, b => match b with
    | .constExpr e' => e == e'
    | .error => true
    | _ => false
  | .struct name template isTuple fields typeArgs, b => match b with
    | .struct name' _ isTuple' fields' _ =>
      if isTuple || isTuple' then isTuple && isTuple' && typesEqualAll withConst fields fields'
      else name == name'
    | .error => true
    | b => sameUdtName (.struct name template isTuple fields typeArgs) b
  | .typeVar name, b => match b with
    | .typeVar name' => name == name'
    | .error => true
    | _ => false
  | .func params ret isVariadic, b => match b with
    | .func params' ret' isVariadic' =>
      isVariadic == isVariadic' && typesEqualAll withConst params params' &&
        typesEqual withConst ret ret'
    | .error => true
    | _ => false
  | .never, b => match b with
    | .never | .error => true
    | _ => false
  | .unresolved, b => match b with
    | .unresolved | .error => true
    | _ => false
  | a, b => match b with
    | .error => true
    | b => sameUdtName a b

def typesEqualAll (withConst : Bool) : List Ty → List Ty → Bool
  | [], [] => true
  | t :: ts, t' :: ts' => typesEqual withConst t t' && typesEqualAll withConst ts ts'
  | _, _ => false

end

def typeEq (a b : Ty) : Bool := typesEqual true a b

theorem typesEqualAll_refl {withConst : Bool} {ts : List Ty}
    (h : ∀ t ∈ ts, typesEqual withConst t t = true) : typesEqualAll withConst ts ts = true := by
  induction ts with
  | nil => rfl
  | cons t ts ih =>
    rw [typesEqualAll, h t List.mem_cons_self, Bool.true_and]
    exact ih fun u hu => h u (List.mem_cons_of_mem t hu)

theorem typesEqual_refl (withConst : Bool) (t : Ty) : typesEqual withConst t t = true := by
  induction t generalizing withConst with
  | func params ret isVariadic hparams hret =>
    simp [typesEqual, hret, typesEqualAll_refl fun t ht => hparams t ht withConst]
  | struct name template isTuple fields typeArgs hfields =>
    simp [typesEqual, typesEqualAll_refl fun t ht => hfields t ht withConst]
  | fixedArray elem size sizeRef helem href => simp [typesEqual, helem, href]
  | pointer isConst t ih => simp [typesEqual, ih]
  | slice isConst t ih => simp [typesEqual, ih]
  | option t ih => exact ih withConst
  | result t ih => exact ih withConst
  | _ => simp [typesEqual, sameUdtName, typeUdtName]

theorem typeEq_refl (t : Ty) : typeEq t t = true :=
  typesEqual_refl true t

end FcLang.Types
