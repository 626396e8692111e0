import FcLang.Lib.CExpr
import FcLang.Codegen.IntExpr

/-!
# The C of integer expressions

`emit_expr` on the expressions of `IntExpr`, outside `checked` and `unguarded`
and outside constant initializers. The counter is `g_temp_counter`, from which
the temporaries of statement expressions take their names. An int64_t is the
`long` of an LP64 target.
-/

namespace FcLang.Codegen

inductive Name where
  | ident (name : String)
  | nv (id : ℕ)
  | dv (id : ℕ)
  | sq (id : ℕ)
  deriving DecidableEq, Repr

abbrev Code := CExpr Name

def emitType : IntTy → CType
  | .int8 => .schar
  | .int16 => .short
  | .int32 => .int
  | .int64 => .long
  | .uint8 => .uchar
  | .uint16 => .ushort
  | .uint32 => .uint
  | .uint64 => .ulong

def Ty.emitType : Ty → CType
  | .bool => .bool
  | .int t => Codegen.emitType t

def unsignedCounterpart : IntTy → CType
  | .int8 | .uint8 => .uchar
  | .int16 | .uint16 => .ushort
  | .int32 | .uint32 => .uint
  | .int64 | .uint64 => .ulong

def typeIsSubint : IntTy → Bool
  | .int8 | .uint8 | .int16 | .uint16 => true
  | _ => false

def shiftMaskFor : IntTy → ℕ
  | .int8 | .uint8 => 7
  | .int16 | .uint16 => 15
  | .int32 | .uint32 => 31
  | .int64 | .uint64 => 63

/-- A decimal number in the text of the emitter itself. -/
def num (n : ℕ) : Code := .lit false .none n

/-- `INT64_C` and `UINT64_C` append the suffixes of `long`. -/
def emitIntLit (t : IntTy) (value : ℤ) (hex : Bool) : Code :=
  let hex := hex && decide (0 ≤ value)
  let num (suffix : CSuffix) : Code :=
    if value < 0 then .neg (.lit hex suffix value.natAbs) else .lit hex suffix value.natAbs
  match t with
  | .int64 =>
    if value = -2 ^ 63 then
      .bin .sub (.neg (.lit false .ll 9223372036854775807)) (.lit false .none 1)
    else num .l
  | .uint64 => num .ul
  | _ => num .none

def IntOp.toC : IntOp → COp
  | .plus => .add
  | .minus => .sub
  | .star => .mul
  | .slash => .div
  | .percent => .mod
  | .amp => .band
  | .pipe => .bor
  | .caret => .bxor

def CmpOp.toC : CmpOp → COp
  | .eqeq => .eq
  | .bangeq => .ne
  | .lt => .lt
  | .gt => .gt
  | .lteq => .le
  | .gteq => .ge

def IntOp.isDivmod : IntOp → Bool
  | .slash | .percent => true
  | _ => false

def emitIntArith (op : IntOp) (t : IntTy) (l r : Code) : Option Code :=
  let ut := unsignedCounterpart t
  if typeIsSubint t then
    let body := .bin op.toC (.cast .uint (.cast ut l)) (.cast .uint (.cast ut r))
    some (.cast (emitType t) (if t.signed then .cast ut body else body))
  else if t.signed then some (.cast (emitType t) (.bin op.toC (.cast ut l) (.cast ut r)))
  else none

def emitShift (op : ShiftOp) (t : IntTy) (l r : Code) : Code :=
  let count := .bin .band r (num (shiftMaskFor t))
  match op with
  | .ltlt => .cast (emitType t) (.bin .shl (.cast (unsignedCounterpart t) l) count)
  | .gtgt => .bin .shr l count

def emitIntDivmod (op : IntOp) (t : IntTy) (tid : ℕ) (l r : Code) : Code :=
  let ct := emitType t
  let nv : Code := .var (.nv tid) ct
  let dv : Code := .var (.dv tid) ct
  let minusOne := .bin .eq dv (.neg (num 1))
  let body :=
    if t.signed = false then .bin op.toC nv dv
    else if op = .percent then .cond minusOne (.cast ct (num 0)) (.cast ct (.bin .mod nv dv))
    else
      .cond minusOne (.cast ct (.neg (.cast (unsignedCounterpart t) nv)))
        (.cast ct (.bin .div nv dv))
  .decl (.nv tid) ct l (.decl (.dv tid) ct r (.abortIf (.bin .eq dv (num 0)) body))

def emitBinaryOp (op : IntOp) (t : IntTy) (l r : Code) : Code :=
  if op.isArith then (emitIntArith op t l r).getD (.bin op.toC l r) else .bin op.toC l r

/-- A literal operand of `^` goes out in hex. -/
def emitBinaryOperand {ty : Ty} (isXor : Bool) (operand : Expr ty) (plain : Code) : Code :=
  match isXor, operand with
  | true, .intLit t value _ => emitIntLit t value true
  | _, _ => plain

namespace Expr

def hasSideEffects : {ty : Ty} → Expr ty → Bool
  | _, .intLit .. | _, .charLit _ | _, .ident .. | _, .dflt _ => false
  | _, .ifExpr .. => true
  | _, .neg _ a | _, .tilde a | _, .cast _ a => a.hasSideEffects
  | _, .binary _ a b | _, .shift _ a b | _, .compare _ a b => a.hasSideEffects || b.hasSideEffects

def seqIsAtom : {ty : Ty} → Expr ty → Bool
  | _, .intLit .. | _, .charLit _ | _, .dflt _ => true
  | _, _ => false

/-- Two integer literals are compared by their 64-bit patterns. -/
def structurallyEqual : {s t : Ty} → Expr s → Expr t → Bool
  | _, _, .intLit _ v _, .intLit _ w _ => v % 2 ^ 64 = w % 2 ^ 64
  | _, _, .charLit v, .charLit w => v = w
  | _, _, .ident x _, .ident y _ => x = y
  | _, _, .neg _ a, .neg _ b => a.structurallyEqual b
  | _, _, .tilde a, .tilde b => a.structurallyEqual b
  | _, _, .binary op a b, .binary op' a' b' =>
    op = op' && a.structurallyEqual a' && b.structurallyEqual b'
  | _, _, .shift op a b, .shift op' a' b' =>
    op = op' && a.structurallyEqual a' && b.structurallyEqual b'
  | _, _, .compare op a b, .compare op' a' b' =>
    op = op' && a.structurallyEqual a' && b.structurallyEqual b'
  | _, _, .cast t a, .cast t' b => t = t' && a.structurallyEqual b
  | _, _, _, _ => false

/-- Whether the left operand goes to a temporary: some operand has side effects
or a comparison compares a value with itself, and the operand is no atom. -/
def hoists {s t : Ty} (selfCompare : Bool) (a : Expr s) (b : Expr t) : Bool :=
  (a.hasSideEffects || b.hasSideEffects || selfCompare) && !a.seqIsAtom

end Expr

/-- The operands of a binary operator in source order, the left one in a
temporary where `hoist` asks for it. -/
def emitOrdered (hoist : Bool) (t : CType) (left right : ℕ → Code × ℕ) (op : Code → Code → Code)
    (n : ℕ) : Code × ℕ :=
  if hoist then
    let l := left (n + 1)
    let r := right l.2
    (.decl (.sq n) t l.1 (op (.var (.sq n) t) r.1), r.2)
  else
    let l := left n
    let r := right l.2
    (op l.1 r.1, r.2)

def emitExpr : {ty : Ty} → Expr ty → ℕ → Code × ℕ
  | _, .intLit t value _, n => (emitIntLit t value false, n)
  | _, .charLit value, n => (.chr value, n)
  | _, .ident name ty, n => (.var (.ident name) ty.emitType, n)
  | _, .dflt _, n => (num 0, n)
  | _, .ifExpr cond a b, n =>
    let c := emitExpr cond n
    let a := emitExpr a c.2
    let b := emitExpr b a.2
    (.cond c.1 a.1 b.1, b.2)
  | .int t, .neg _ a, n =>
    let a := emitExpr a n
    (.cast (emitType t) (.neg (.cast (unsignedCounterpart t) a.1)), a.2)
  | .int t, .tilde a, n =>
    let a := emitExpr a n
    (if typeIsSubint t then .cast (emitType t) (.compl a.1) else .compl a.1, a.2)
  | .int t, .binary op a b, n =>
    if op.isDivmod then
      let l := emitExpr a (n + 1)
      let r := emitExpr b l.2
      (emitIntDivmod op t n l.1 r.1, r.2)
    else
      emitOrdered (Expr.hoists false a b) (emitType t)
        (fun n => (emitBinaryOperand (op = .caret) a (emitExpr a n).1, (emitExpr a n).2))
        (fun n => (emitBinaryOperand (op = .caret) b (emitExpr b n).1, (emitExpr b n).2))
        (emitBinaryOp op t) n
  | .int t, .shift op a b, n =>
    emitOrdered (Expr.hoists false a b) (emitType t) (emitExpr a) (emitExpr b) (emitShift op t) n
  | _, @Expr.compare t op a b, n =>
    emitOrdered (Expr.hoists (a.structurallyEqual b) a b) (emitType t) (emitExpr a) (emitExpr b)
      (.bin op.toC) n
  | _, .cast target a, n =>
    let a := emitExpr a n
    (.cast (emitType target) a.1, a.2)

end FcLang.Codegen
