import FcLang.Codegen.IntExpr
import FcLang.Lib.FloatFormat

/-!
# Scalar values and casts

The types a cast passes through and the values the emitted C holds in them. The
width of isize, usize and a pointer is the target's. An option of a pointer is
the pointer itself, null for none.
-/

namespace FcLang.Facts

structure Target where
  pointerBits : ℕ
  wide : 1 < pointerBits

def target64 : Target := ⟨64, by decide⟩

inductive IntTy where
  | fixed (t : Codegen.IntTy)
  | isize
  | usize
  deriving DecidableEq, Repr

namespace IntTy

def format (T : Target) : IntTy → Format
  | .fixed t => t.format
  | .isize => ⟨T.pointerBits, true⟩
  | .usize => ⟨T.pointerBits, false⟩

def isSigned : IntTy → Bool
  | .fixed t => t.signed
  | .isize => true
  | .usize => false

/-- `type_can_widen`, between integers. -/
def canWiden : IntTy → IntTy → Bool
  | .fixed .int8, .fixed t => t = .int8 ∨ t = .int16 ∨ t = .int32 ∨ t = .int64
  | .fixed .int16, .fixed t => t = .int16 ∨ t = .int32 ∨ t = .int64
  | .fixed .int32, .fixed t => t = .int32 ∨ t = .int64
  | .fixed .uint8, .fixed t => t ≠ .int8
  | .fixed .uint16, .fixed t => t ≠ .int8 ∧ t ≠ .uint8 ∧ t ≠ .int16
  | .fixed .uint32, .fixed t => t = .uint32 ∨ t = .uint64 ∨ t = .int64
  | s, t => s = t

end IntTy

inductive FloatTy where
  | float32 | float64
  deriving DecidableEq, Repr

def FloatTy.format : FloatTy → FloatFormat
  | .float32 => .binary32
  | .float64 => .binary64

/-- `pointer` is a `T*` or `any*`; a `u8*` is a `cstr`. The types of `other` have
no cast but the one to themselves. -/
inductive Ty where
  | int (t : IntTy)
  | float (t : FloatTy)
  | bool
  | enum (repr : IntTy)
  | pointer (isCstr : Bool)
  | str
  | option (inner : Ty)
  | result (inner : Ty)
  | other
  deriving DecidableEq, Repr

variable {T : Target}

abbrev Target.IntVal (T : Target) (t : IntTy) := {z : ℤ // (t.format T).Fits z}

abbrev Target.Address (T : Target) := BitVec T.pointerBits

theorem IntTy.wide (t : IntTy) : 1 < (t.format T).bits := by
  cases t with
  | fixed t =>
    change 1 < t.format.bits
    cases t <;> decide
  | isize => exact T.wide
  | usize => exact T.wide

def Target.wrap (T : Target) (t : IntTy) (z : ℤ) : T.IntVal t :=
  ⟨(t.format T).wrap z, Format.fits_wrap (lt_trans one_pos t.wide) z⟩

def Target.saturate (T : Target) (t : IntTy) (x : Flt) : T.IntVal t :=
  ⟨x.saturate (t.format T), Flt.fits_saturate t.wide x⟩

/-- A str is known by its length, a result by its tag and its payload. -/
def Val (T : Target) : Ty → Type
  | .int t => T.IntVal t
  | .float _ => Flt
  | .bool => Bool
  | .enum repr => T.IntVal repr
  | .pointer _ => T.Address
  | .str => ℕ
  | .option (.pointer _) => T.Address
  | .option inner => Option (Val T inner)
  | .result inner => T.IntVal (.fixed .int32) × Val T inner
  | .other => Unit

/-- What zero-filled storage holds. -/
def Val.zero : (ty : Ty) → Val T ty
  | .int t => T.wrap t 0
  | .float _ => .finite 0
  | .bool => false
  | .enum repr => T.wrap repr 0
  | .pointer _ => (0 : T.Address)
  | .str => (0 : ℕ)
  | .option (.pointer _) => (0 : T.Address)
  | .option (.int _) | .option (.float _) | .option .bool | .option (.enum _) | .option .str
  | .option (.option _) | .option (.result _) | .option .other => none
  | .result inner => (T.wrap (.fixed .int32) 0, Val.zero inner)
  | .other => ()

/-- The number 0 or the null pointer. -/
def Val.IsZero : (ty : Ty) → Val T ty → Prop
  | .int _, v => v.1 = 0
  | .float _, v => v = Flt.finite 0
  | .bool, (v : Bool) => v = false
  | .enum _, v => v.1 = 0
  | .pointer _, v => v = (0 : T.Address)
  | _, _ => False

/-- The casts pass2 accepts, the widenings it inserts included. -/
inductive CastOk : Ty → Ty → Type where
  | same (ty : Ty) : CastOk ty ty
  | intToInt (s t : IntTy) : CastOk (.int s) (.int t)
  | enumToInt (repr t : IntTy) : CastOk (.enum repr) (.int t)
  | boolToInt (t : IntTy) : CastOk .bool (.int t)
  | floatToInt (s : FloatTy) (t : IntTy) : CastOk (.float s) (.int t)
  | intToFloat (s : IntTy) (t : FloatTy) : CastOk (.int s) (.float t)
  | enumToFloat (repr : IntTy) (t : FloatTy) : CastOk (.enum repr) (.float t)
  | boolToFloat (t : FloatTy) : CastOk .bool (.float t)
  | floatToFloat (s t : FloatTy) : CastOk (.float s) (.float t)
  | pointerToPointer (s t : Bool) : CastOk (.pointer s) (.pointer t)
  | pointerToInt (s : Bool) (t : IntTy) (pointerWidth : t = .isize ∨ t = .usize) :
      CastOk (.pointer s) (.int t)
  | intToPointer (s : IntTy) (t : Bool) (pointerWidth : s = .isize ∨ s = .usize) :
      CastOk (.int s) (.pointer t)
  | strToCstr (bufferSize : ℕ) : CastOk .str (.pointer true)
  | cstrToStr : CastOk (.pointer true) .str

/-- The lexical contexts an expression is emitted in. -/
structure Context where
  overflowChecked : Bool
  guardsSuppressed : Bool
  constContext : Bool
  deriving DecidableEq

/-- What an execution supplies: the address of a cast's hoisted buffer, and the
length `strlen` finds. It is defined for no null pointer, and a length too wide to
store aborts. -/
structure Storage (T : Target) where
  buffer : T.Address
  buffer_ne : buffer ≠ 0
  strlen : T.Address → Option ℕ
  strlen_null : strlen 0 = none

/-- `emit_checked_int_narrow` and the bare conversion. -/
def castInt (c : Context) {s : IntTy} (t : IntTy) (v : T.IntVal s) : Option (T.IntVal t) :=
  if c.overflowChecked ∧ ¬s.canWiden t then
    if h : (t.format T).Fits v.1 then some ⟨v.1, h⟩ else none
  else some (T.wrap t v.1)

/-- `float_to_int_emit`, and the bare conversion that `unguarded` leaves, which is
defined only in range. -/
def castFloat (c : Context) (t : IntTy) : Flt → Option (T.IntVal t)
  | x =>
    if c.guardsSuppressed then
      match x with
      | .finite q => if h : (t.format T).Fits (Flt.trunc q) then some ⟨Flt.trunc q, h⟩ else none
      | _ => none
    else some (T.saturate t x)

def truth (b : Bool) : ℤ := if b then 1 else 0

def roundTo (t : FloatTy) : Flt → Flt
  | .finite q => t.format.round q
  | x => x

/-- `emit_cast`: the value of a cast, none where it aborts or is not defined. -/
def emitCast (m : Storage T) (c : Context) : {s t : Ty} → CastOk s t → Val T s → Option (Val T t)
  | _, _, .same _, v => some v
  | _, _, .intToInt _ t, v => castInt c t v
  | _, _, .enumToInt _ t, v => castInt c t v
  | _, _, .boolToInt t, v => some (T.wrap t (truth v))
  | _, _, .floatToInt _ t, v => castFloat c t v
  | _, _, .intToFloat _ t, v => some (t.format.round v.1)
  | _, _, .enumToFloat _ t, v => some (t.format.round v.1)
  | _, _, .boolToFloat t, v => some (t.format.round (truth v))
  | _, _, .floatToFloat _ t, v => some (roundTo t v)
  | _, _, .pointerToPointer _ _, v => some v
  | _, _, .pointerToInt _ t _, v => some (T.wrap t (BitVec.toNat v))
  | _, _, .intToPointer _ _ _, v => some (BitVec.ofInt T.pointerBits v.1)
  | _, _, .strToCstr n, (v : ℕ) => if c.overflowChecked ∧ n - 1 < v then none else some m.buffer
  | _, _, .cstrToStr, v => m.strlen v

end FcLang.Facts
