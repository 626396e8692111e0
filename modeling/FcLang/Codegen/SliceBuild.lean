import FcLang.Codegen.SliceAccess
import FcLang.Const.Typed

/-!
# Slice construction

Every way to build a slice that the emitter has: literals with elements and from
raw parts, subslices and the forms of alloc and alloca. What each of them stores
as a length is traced through the checks of pass2, the guards of the emitted
code, the asserts of its helpers and the allocator.
-/

namespace FcLang.Codegen
open Types (Bindings ConstExpr constMaskExtend constExprEval)

/-- A length that keeps the invariant every bounds check relies on. -/
structure SliceLen (r : LenRepr) where
  len : ℤ
  nonneg : 0 ≤ len
  le_max : len ≤ r.lenMax

/-- How a program is compiled and run. Without `asserts` it is built with `-DNDEBUG`. -/
structure Build where
  target : Target
  asserts : Bool

namespace Build

def lenRepr (b : Build) : LenRepr := b.target.lenRepr

def ptrWidth (b : Build) : PtrWidth := b.target.ptrWidth

/-- The largest object of the target, `PTRDIFF_MAX`. -/
def objectMax (b : Build) : ℕ := 2 ^ (b.ptrWidth.bits - 1) - 1

def toSize (b : Build) (z : ℤ) : ℕ := (z % 2 ^ b.ptrWidth.bits).toNat

end Build

/-- Which requests for `bytes` bytes succeed. No object is larger than `PTRDIFF_MAX`. -/
structure Allocator (b : Build) where
  grants : ℕ → Bool
  refuses_huge : ∀ bytes, b.objectMax < bytes → grants bytes = false

structure Scalar (w : PtrWidth) where
  type : ScalarTy
  value : ℤ
  fits : (type.format w).Fits value

/-- The len expression of a raw-parts literal. `folds` says whether pass2 can
evaluate an expression that is neither a literal nor a cast of one. -/
inductive LenExpr (w : PtrWidth) where
  | intLit (v : Scalar w)
  | cast (target : ScalarTy) (operand : LenExpr w)
  | other (v : Scalar w) (folds : Bool)

/-- A type whose values widen to i64. -/
def ScalarTy.canWiden : ScalarTy → Bool
  | .fixed .uint64 | .isize | .usize => false
  | _ => true

def ScalarTy.fixedBits : ScalarTy → ℕ
  | .fixed t => t.bits
  | _ => 0

namespace LenExpr
variable {w : PtrWidth}

def type : LenExpr w → ScalarTy
  | .intLit v => v.type
  | .cast target _ => target
  | .other v _ => v.type

def value : LenExpr w → ℤ
  | .intLit v => v.value
  | .cast target e => (target.format w).wrap e.value
  | .other v _ => v.value

/-- `slice_len_literal_value`, as an int64_t. -/
def sliceLenLiteralValue : LenExpr w → Option ℤ
  | .intLit v => some (IntTy.int64.wrap v.value)
  | .cast (.fixed t) e =>
    e.sliceLenLiteralValue.map fun z => (constMaskExtend (.ofInt 64 z) t.bits t.signed).toInt
  | .cast _ _ => none
  | .other _ _ => none

/-- `const_fold_expr` makes it a literal that `const_read_scalar` can read. -/
def folds : LenExpr w → Bool
  | .intLit v => v.type.fixedBits ≠ 0
  | .cast target e => target.fixedBits ≠ 0 && e.folds
  | .other _ folds => folds

/-- The emitter's own test for a literal, after pass2 has widened the expression. -/
def isLitForCodegen (e : LenExpr w) : Bool :=
  let widened := if e.type = .fixed .int64 then e else .cast (.fixed .int64) e
  match widened with
  | .intLit _ | .cast _ (.intLit _) => true
  | _ => false

end LenExpr

structure ElemSize (b : Build) where
  bytes : ℕ
  pos : 0 < bytes
  le_max : bytes ≤ b.objectMax

/-- What comes of a construct: rejected at compile time, stopped, no allocation
or a slice with a stored length. -/
inductive Outcome where
  | rejected
  | stopped (s : Stop)
  | none
  | built (len : ℤ)
  deriving DecidableEq, Repr

/-- `static_length_error`. -/
def staticLengthOk (r : LenRepr) (n : ℤ) : Bool := 0 ≤ n ∧ n ≤ r.lenMax

section Constructs
variable (b : Build)

def storeLen (z : ℤ) : Outcome := .built (b.lenRepr.lenT.convert z)

/-- A raw-parts literal `T[] { ptr = .., len = len }`. -/
def rawParts (inConst : Bool) (len : LenExpr b.ptrWidth) : Outcome :=
  if !len.type.canWiden then .rejected
  else
    let v := len.value
    let judged := match len.sliceLenLiteralValue with
      | some z => some z
      | none => if inConst && len.folds then some v else none
    if judged.any fun z => !staticLengthOk b.lenRepr z then .rejected
    else if inConst then storeLen b v
    else
      let lenNonneg := len.sliceLenLiteralValue.isSome || !(len.type.format b.ptrWidth).signed
      let guard := !lenNonneg
      let cap := b.lenRepr.bits < 64 && !len.isLitForCodegen
      if guard && v < 0 then .stopped .abort
      else if cap && v > b.lenRepr.lenMax then .stopped .abort
      else storeLen b v

/-- The size of a literal with elements: a literal, or in a generic body an
expression over const parameters under the bindings of the instance. -/
inductive SizeExpr where
  | literal (value : BitVec 64) (isSigned : Bool)
  | symbolic {t : IntTy} (e : Const.Expr (.int t)) (σ : Bindings)

def fcToSize (z : ℤ) : Except Stop ℕ :=
  if b.asserts && (z < 0 || z ≥ 2 ^ b.ptrWidth.bits) then .error .abort else .ok (b.toSize z)

/-- `__builtin_alloca`, which is undefined beyond the size of any object. -/
def alloca (bytes : ℕ) (k : Outcome) : Outcome :=
  if b.objectMax < bytes then .stopped .undefined else k

/-- A literal size is judged by `check_array_lit`. -/
def literalSizeOk (value : BitVec 64) (isSigned : Bool) : Bool :=
  !(!isSigned && value.toInt < 0) && staticLengthOk b.lenRepr value.toInt

/-- `T[n] { .. }`. A symbolic size is judged in 64 bits and emitted at its own
type, where it also sizes the storage. -/
def arrayLit (elem : ElemSize b) : SizeExpr → Outcome
  | .literal value isSigned =>
    if !literalSizeOk b value isSigned then .rejected else storeLen b value.toInt
  | .symbolic e σ =>
    match e.erase.map (constExprEval σ) with
    | some (.value v) =>
      if !staticLengthOk b.lenRepr v.toInt then .rejected
      else match (e.subst σ).eval with
        | none => .stopped .abort
        | some n => match fcToSize b n with
          | .error s => .stopped s
          | .ok m => alloca b (m * elem.bytes % 2 ^ b.ptrWidth.bits) (storeLen b n)
    | _ => .rejected

/-- `s[lo..hi]`, under `unguarded` without the test. -/
def subslice (charSigned guarded : Bool) (operand : SliceLen b.lenRepr)
    (lo hi : Option (Scalar b.ptrWidth)) : Outcome :=
  let env : AccessName → Option ℤ
    | .operand "s" => some operand.len
    | .operand "lo" => lo.map Scalar.value
    | .operand "hi" => hi.map Scalar.value
    | _ => none
  let bound (name : String) (v : Scalar b.ptrWidth) : Bound :=
    (v.type, .var (.operand name) (v.type.emitType b.ptrWidth))
  if guarded then
    match (emitSlice b.lenRepr 0 .len (.var (.operand "s") b.lenRepr.lenT)
        (lo.map (bound "lo")) (hi.map (bound "hi"))).eval charSigned env with
    | .ok n => .built n
    | .error s => .stopped s
  else
    let lo := (lo.map fun v => CType.long.convert v.value).getD 0
    let hi := (hi.map fun v => CType.long.convert v.value).getD operand.len
    match CType.long.result (hi - lo) with
    | .ok n => storeLen b n
    | .error s => .stopped s

def allocSized (a : Allocator b) (elem : ElemSize b) (count : Scalar b.ptrWidth) : Outcome :=
  let n := CType.long.convert count.value
  if b.lenRepr.bits < 64 && n > b.lenRepr.lenMax then .none
  else if b.asserts && (n < 0 || n ≥ 2 ^ b.ptrWidth.bits) then .stopped .abort
  else
    let units := if n > 0 then b.toSize n else 1
    if a.grants (units * elem.bytes) then storeLen b n else .none

def allocaSized (elem : ElemSize b) (count : Scalar b.ptrWidth) : Outcome :=
  let n := CType.long.convert count.value
  if b.lenRepr.bits < 64 && n > b.lenRepr.lenMax then .stopped .abort
  else match fcToSize b n with
    | .error s => .stopped s
    | .ok m => alloca b (m * elem.bytes % 2 ^ b.ptrWidth.bits) (storeLen b n)

/-- What `emit_alloc` asks the allocator for, given the value it reads from the size's node: a
zeroed array, or room for the elements that are written out. -/
def litBytes (elem : ElemSize b) (size : ℤ) (elemCount : ℕ) : ℕ :=
  let n := CType.int.convert size
  if elemCount = 0 then b.toSize (if size > 0 then n else 1) * elem.bytes
  else b.toSize n * elem.bytes % 2 ^ b.ptrWidth.bits

/-- `alloc(T[N] { elems })`, where `N` is cast to `int`. -/
def allocArrayLit (a : Allocator b) (elem : ElemSize b) (size : BitVec 64) (isSigned : Bool)
    (elemCount : ℕ) : Outcome :=
  if !literalSizeOk b size isSigned then .rejected
  else if 0 < elemCount && elemCount ≠ size.toNat then .rejected
  else if a.grants (litBytes b elem size.toInt elemCount) then
    storeLen b (CType.int.convert size.toInt)
  else .none

/-- `alloc((T[N] { elems }))` with a symbolic size. The size is judged, but the emitter takes
`word` for it, what the node of the size holds where a literal has its value. -/
def allocSymbolicLit (a : Allocator b) (elem : ElemSize b) {t : IntTy} (e : Const.Expr (.int t))
    (σ : Bindings) (word : BitVec 64) (elemCount : ℕ) : Outcome :=
  match e.erase.map (constExprEval σ) with
  | some (.value v) =>
    if !staticLengthOk b.lenRepr v.toInt then .rejected
    else if 0 < elemCount && elemCount ≠ v.toInt then .rejected
    else
      let bytes := litBytes b elem word.toInt elemCount
      if !a.grants bytes then .none
      -- The elements are stored one by one, whatever was allocated.
      else if bytes < elemCount * elem.bytes then .stopped .undefined
      else storeLen b (CType.int.convert word.toInt)
  | _ => .rejected

def allocCopy (a : Allocator b) (elem : ElemSize b) (operand : SliceLen b.lenRepr) : Outcome :=
  let n := operand.len
  if b.asserts && (n < 0 || n ≥ 2 ^ b.ptrWidth.bits) then .stopped .abort
  else
    let units := if n > 0 then b.toSize n else 1
    if a.grants (units * elem.bytes % 2 ^ b.ptrWidth.bits) then storeLen b n else .none

/-- `alloc("..")`, by the number of bytes of the literal. -/
def allocString (a : Allocator b) (length : ℕ) : Outcome :=
  if !staticLengthOk b.lenRepr length then .rejected
  else if a.grants (max length 1) then storeLen b length
  else .none

/-- The buffer of an interpolated string of at most `n` bytes, of which `snprintf`
says that it wrote `written`. -/
def interpBuffer (a : Allocator b) (n written : ℤ) : Outcome :=
  if b.lenRepr.bits < 64 && n > b.lenRepr.lenMax then .stopped .abort
  else match fcToSize b (n + 1) with
    | .error s => .stopped s
    | .ok m =>
      if a.grants m then storeLen b (if 0 ≤ written ∧ written ≤ n then written else n)
      else .none

def sharesTotal : List ℕ → ℤ
  | [] => 0
  | share :: shares => share + sharesTotal shares

/-- `alloc("..%d{x}..")` by the shares of its segments, which are added as longs. -/
def allocInterpString (a : Allocator b) (shares : List ℕ) (written : ℤ) : Outcome :=
  match CType.long.result (sharesTotal shares) with
  | .error s => .stopped s
  | .ok n => interpBuffer b a n written

end Constructs

inductive Construct (b : Build) where
  | rawParts (inConst : Bool) (len : LenExpr b.ptrWidth)
  | arrayLit (elem : ElemSize b) (size : SizeExpr)
  | subslice (guarded : Bool) (operand : SliceLen b.lenRepr) (lo hi : Option (Scalar b.ptrWidth))
  | alloc (elem : ElemSize b) (count : Scalar b.ptrWidth)
  | alloca (elem : ElemSize b) (count : Scalar b.ptrWidth)
  | allocArrayLit (elem : ElemSize b) (size : BitVec 64) (isSigned : Bool) (elemCount : ℕ)
      (elemCount_lt : elemCount < 2 ^ 31)
  | allocSymbolicLit (elem : ElemSize b) {t : IntTy} (e : Const.Expr (.int t)) (σ : Bindings)
      (word : BitVec 64) (elemCount : ℕ)
  | allocCopy (elem : ElemSize b) (operand : SliceLen b.lenRepr)
  | allocString (length : ℕ)
  | allocInterpString (shares : List ℕ) (written : ℤ)

namespace Construct
variable {b : Build}

def outcome (charSigned : Bool) (a : Allocator b) : Construct b → Outcome
  | .rawParts inConst len => Codegen.rawParts b inConst len
  | .arrayLit elem size => Codegen.arrayLit b elem size
  | .subslice guarded operand lo hi => Codegen.subslice b charSigned guarded operand lo hi
  | .alloc elem count => allocSized b a elem count
  | .alloca elem count => allocaSized b elem count
  | .allocArrayLit elem size isSigned elemCount _ =>
    Codegen.allocArrayLit b a elem size isSigned elemCount
  | .allocSymbolicLit elem e σ word elemCount =>
    Codegen.allocSymbolicLit b a elem e σ word elemCount
  | .allocCopy elem operand => Codegen.allocCopy b a elem operand
  | .allocString length => Codegen.allocString b a length
  | .allocInterpString shares written => Codegen.allocInterpString b a shares written

/-- Whatever the allocator grants, a slice that is built has a length of the range. -/
def BuildsInRange (c : Construct b) : Prop :=
  ∀ charSigned a len, c.outcome charSigned a = .built len → 0 ≤ len ∧ len ≤ b.lenRepr.lenMax

end Construct

end FcLang.Codegen
