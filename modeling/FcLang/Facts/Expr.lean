import FcLang.Facts.Values

/-!
# What is provable of a value

The expressions that `some` and `err` are built from, the four predicates that ask
about their values, and the values the emitted C gives them. An expression the
predicates do not look into is `other`, with any value the execution supplies.
`eval` is none where the program aborts, returns early or is not defined.
-/

namespace FcLang.Facts

def errorCodeBase : ℕ := 65536

/-- The declared codes end where i32 does. -/
def errorCodeLimit : ℕ := 2 ^ 31 - 1 - errorCodeBase

inductive PostfixOp where
  | bang | question
  deriving DecidableEq, Repr

/-- The value a literal is written with. -/
def IntTy.literal (t : IntTy) (value : BitVec 64) : ℤ :=
  if t.isSigned then value.toInt else value.toNat

/-- `check_int_literal_range`: the width of isize and usize is not known. -/
def IntTy.Accepts : IntTy → BitVec 64 → Prop
  | .fixed t, value => t.Fits (IntTy.literal (.fixed t) value)
  | _, _ => True

instance (t : IntTy) (value : BitVec 64) : Decidable (t.Accepts value) := by
  cases t <;> unfold IntTy.Accepts <;> infer_instance

/-- A minus sign stands before signed integers and floats. -/
inductive NegOk : Ty → Type where
  | int (t : IntTy) (isSigned : t.isSigned = true) : NegOk (.int t)
  | float (t : FloatTy) : NegOk (.float t)

/-- `checked`, `unchecked`, `unguarded` and `guarded`. -/
structure Marker where
  isOverflowAxis : Bool
  enable : Bool
  deriving DecidableEq, Repr

inductive Expr : Ty → Type where
  | intLit (t : IntTy) (value : BitVec 64) (inRange : t.Accepts value) : Expr (.int t)
  | errorConst (index : ℕ) (declared : index < errorCodeLimit) : Expr (.int (.fixed .int32))
  | dflt (target : Ty) : Expr target
  | neg {ty : Ty} (ok : NegOk ty) (operand : Expr ty) : Expr ty
  -- `&x`, `&x.f` and `&f`: a binding or a function, and the part of it at `offset`
  | addressOf (isCstr : Bool) (name : String) (offset : ℕ) : Expr (.pointer isCstr)
  -- `&*p` and `&p.f`
  | addressOfPointee (isCstr : Bool) (guards : List Marker) {p : Bool}
      (pointer : Expr (.pointer p)) (offset : ℕ) : Expr (.pointer isCstr)
  -- `&p[i]` and `&p[i].f`
  | addressOfElem (isCstr : Bool) (guards : List Marker) {p : Bool} {t : IntTy}
      (pointer : Expr (.pointer p)) (index : Expr (.int t)) (size offset : ℕ) :
      Expr (.pointer isCstr)
  -- `&s[i]` and `&s[i].f` of a slice
  | addressOfSliceElem (isCstr : Bool) (guards : List Marker) {t : IntTy} (slice : String)
      (index : Expr (.int t)) (size offset : ℕ) : Expr (.pointer isCstr)
  | cstringLit (text : String) : Expr (.pointer true)
  | unwrapOption {ty : Ty} (op : PostfixOp) (operand : Expr (.option ty)) : Expr ty
  | unwrapResult {ty : Ty} (op : PostfixOp) (operand : Expr (.result ty)) : Expr ty
  | cast {s t : Ty} (ok : CastOk s t) (operand : Expr s) : Expr t
  | ifExpr {ty : Ty} (cond : Expr .bool) (thenBody elseBody : Expr ty) : Expr ty
  | block {s ty : Ty} (first : Expr s) (rest : Expr ty) : Expr ty
  | guard {ty : Ty} (marker : Marker) (body : Expr ty) : Expr ty
  | someExpr {ty : Ty} (value : Expr ty) : Expr (.option ty)
  | okExpr {ty : Ty} (value : Expr ty) : Expr (.result ty)
  | errExpr (target : Ty) (code : Expr (.int (.fixed .int32))) : Expr (.result target)
  | other (ty : Ty) (text : String) : Expr ty

def Expr.intLitValue : {ty : Ty} → Expr ty → Option (BitVec 64)
  | _, .intLit _ value _ => some value
  | _, _ => none

def errorConstLiteral : {ty : Ty} → Expr ty → Option (BitVec 64)
  | _, .errorConst index _ => some (BitVec.ofNat 64 (errorCodeBase + index))
  | _, _ => none

def ptrValueProvablyNonnull : {ty : Ty} → Expr ty → Bool
  | _, .addressOf _ _ _ => true
  | _, .addressOfPointee _ _ _ _ => true
  | _, .addressOfElem _ _ _ _ _ _ => true
  | _, .addressOfSliceElem _ _ _ _ _ _ => true
  | _, .unwrapOption _ _ => true
  | _, .unwrapResult _ _ => true
  | _, .cstringLit _ => true
  | _, .cast _ operand =>
    match operand.intLitValue with
    | some value => value ≠ 0
    | none => ptrValueProvablyNonnull operand
  | _, _ => false

def ptrValueProvablyNull : {ty : Ty} → Expr ty → Bool
  | _, .dflt (.pointer _) => true
  | _, .cast _ operand =>
    match operand.intLitValue with
    | some value => value = 0
    | none => ptrValueProvablyNull operand
  | _, _ => false

def intValueProvablyNonzero : {ty : Ty} → Expr ty → Bool
  | _, .errorConst index declared =>
    match errorConstLiteral (.errorConst index declared) with
    | some value => value ≠ 0
    | none => false
  | _, .intLit _ value _ => value ≠ 0
  | _, .neg _ operand => intValueProvablyNonzero operand
  | _, .cast _ operand => intValueProvablyNonzero operand
  | _, _ => false

def intValueProvablyZero : {ty : Ty} → Expr ty → Bool
  | _, .errorConst index declared =>
    match errorConstLiteral (.errorConst index declared) with
    | some value => value = 0
    | none => false
  | _, .intLit _ value _ => value = 0
  | _, .dflt (.int _) => true
  | _, .neg _ operand => intValueProvablyZero operand
  | _, .cast _ operand => intValueProvablyZero operand
  | _, _ => false

/-- What an execution supplies to an expression. No part of an object or a function
has the null address; a slice may point anywhere. -/
structure Env (T : Target) extends Storage T where
  value : (ty : Ty) → String → Option (Val T ty)
  address : String → ℕ → T.Address
  address_ne (name : String) (offset : ℕ) : address name offset ≠ 0
  slice : String → Option (T.Address × ℕ)
  staticBytes : String → T.Address
  staticBytes_ne (text : String) : staticBytes text ≠ 0

variable {T : Target}

/-- `emit_unary_prefix` for a minus sign. -/
def emitNeg (c : Context) : {ty : Ty} → NegOk ty → Val T ty → Option (Val T ty)
  | _, .int t _, v =>
    if c.overflowChecked ∧ v.1 = (t.format T).least then none else some (T.wrap t (-v.1))
  | _, .float _, x => some (Flt.neg x)

def Context.mark (c : Context) (m : Marker) : Context :=
  if m.isOverflowAxis then { c with overflowChecked := m.enable }
  else { c with guardsSuppressed := !m.enable }

/-- The context within the markers, the outermost first. -/
def Context.under (c : Context) (guards : List Marker) : Context := guards.foldl Context.mark c

/-- The address so many bytes on. -/
def Target.advance (T : Target) (a : T.Address) (bytes : ℤ) : T.Address :=
  a + BitVec.ofInt T.pointerBits bytes

/-- The bytes from a pointer to a part of the element at `index`. -/
def partBytes (index : ℤ) (size offset : ℕ) : ℤ := index * size + offset

/-- `emit_expr` for the element of a slice: the index is an int64_t, and a guarded one
lies within the length. -/
def emitSliceElem (c : Context) {t : IntTy} (slice : T.Address × ℕ) (index : T.IntVal t)
    (size offset : ℕ) : Option T.Address :=
  if c.guardsSuppressed = false ∧ ¬(0 ≤ index.1 ∧ index.1 < slice.2) then none
  else some (T.advance slice.1 (partBytes (T.wrap (.fixed .int64) index.1).1 size offset))

/-- A postfix `!` or `?` on an option: the payload, or the program goes elsewhere. -/
def unwrap : (ty : Ty) → Val T (.option ty) → Option (Val T ty)
  | .pointer _, (a : T.Address) => if a = 0 then none else some a
  | .int _, v | .float _, v | .bool, v | .enum _, v | .str, v | .option _, v | .result _, v
  | .other, v => v

def unwrapTag {ty : Ty} (r : Val T (.result ty)) : Option (Val T ty) :=
  if r.1.1 ≠ 0 then none else some r.2

/-- The value of `some(v)`; a pointer is tested for null when `guarded`. -/
def buildSome (guarded : Bool) : (ty : Ty) → Val T ty → Option (Val T (.option ty))
  | .pointer _, (a : T.Address) => if guarded ∧ a = 0 then none else some a
  | .int _, v | .float _, v | .bool, v | .enum _, v | .str, v | .option _, v | .result _, v
  | .other, v => some (some v)

/-- The value of `err(T, code)`; the code is tested for zero when `guarded`. -/
def buildErr (guarded : Bool) (target : Ty) (code : T.IntVal (.fixed .int32)) :
    Option (Val T (.result target)) :=
  if guarded ∧ code.1 = 0 then none else some (code, .zero target)

/-- Whether the emitted C reads the option as none. -/
def ReadsNone : (ty : Ty) → Val T (.option ty) → Prop
  | .pointer _, a => a = (0 : T.Address)
  | .int _, v | .float _, v | .bool, v | .enum _, v | .str, v | .option _, v | .result _, v
  | .other, v => v = none

def ReadsOk {ty : Ty} (r : Val T (.result ty)) : Prop := r.1.1 = 0

def eval (σ : Env T) (c : Context) : {ty : Ty} → Expr ty → Option (Val T ty)
  | _, .intLit t value _ => some (T.wrap t (t.literal value))
  | _, .errorConst index _ => some (T.wrap (.fixed .int32) (errorCodeBase + index : ℕ))
  | _, .dflt target => some (.zero target)
  | _, .neg ok operand => (eval σ c operand).bind (emitNeg c ok)
  | _, .addressOf _ name offset => some (σ.address name offset)
  | _, .addressOfPointee _ guards pointer offset =>
    (eval σ (c.under guards) pointer).map fun a => T.advance a offset
  | _, .addressOfElem _ guards pointer index size offset =>
    (eval σ (c.under guards) pointer).bind fun a =>
      (eval σ (c.under guards) index).map fun i => T.advance a (partBytes i.1 size offset)
  | _, .addressOfSliceElem _ guards slice index size offset =>
    (σ.slice slice).bind fun s =>
      (eval σ (c.under guards) index).bind fun i =>
        emitSliceElem (c.under guards) s i size offset
  | _, .cstringLit text => some (σ.staticBytes text)
  | ty, .unwrapOption _ operand => (eval σ c operand).bind (unwrap ty)
  | _, .unwrapResult _ operand => (eval σ c operand).bind unwrapTag
  | _, .cast ok operand => (eval σ c operand).bind (emitCast σ.toStorage c ok)
  | _, .ifExpr cond thenBody elseBody =>
    (eval σ c cond).bind fun (b : Bool) => if b then eval σ c thenBody else eval σ c elseBody
  | _, .block first rest => (eval σ c first).bind fun _ => eval σ c rest
  | _, .guard marker body => eval σ (c.mark marker) body
  | .option ty, .someExpr value =>
    (eval σ c value).bind (buildSome (!(c.constContext || ptrValueProvablyNonnull value)) ty)
  | _, .okExpr value => (eval σ c value).map fun v => (T.wrap (.fixed .int32) 0, v)
  | _, .errExpr target code =>
    (eval σ c code).bind (buildErr (!(c.constContext || intValueProvablyNonzero code)) target)
  | ty, .other _ text => σ.value ty text

end FcLang.Facts
