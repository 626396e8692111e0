import FcLang.Lib.IntFormat
import FcLang.Types.Type

/-!
# Integer expressions

The expressions pass2 accepts over the integer types of fixed width: both
operands of an operator have one type, a shift count may have its own, and a
minus sign stands before signed operands only. `eval` is the meaning the
language gives them. Every result wraps to its type, and the only way not to
have a value is a zero divisor.
-/

namespace FcLang.Codegen
open FcLang.Types

inductive IntTy where
  | int8 | int16 | int32 | int64
  | uint8 | uint16 | uint32 | uint64
  deriving DecidableEq, Repr

def IntTy.prim : IntTy → Prim
  | .int8 => .int8
  | .int16 => .int16
  | .int32 => .int32
  | .int64 => .int64
  | .uint8 => .uint8
  | .uint16 => .uint16
  | .uint32 => .uint32
  | .uint64 => .uint64

namespace IntTy

def bits (t : IntTy) : ℕ := t.prim.fixedIntBits

def signed (t : IntTy) : Bool := t.prim.isSigned

def format (t : IntTy) : Format := ⟨t.bits, t.signed⟩

def wrap (t : IntTy) (z : ℤ) : ℤ := t.format.wrap z

def Fits (t : IntTy) (z : ℤ) : Prop := t.format.Fits z

instance (t : IntTy) (z : ℤ) : Decidable (t.Fits z) := by
  unfold Fits
  infer_instance

theorem bits_pos (t : IntTy) : 0 < t.format.bits := by
  cases t <;> decide

theorem fits_wrap (t : IntTy) (z : ℤ) : t.Fits (t.wrap z) := Format.fits_wrap t.bits_pos z

theorem wrap_of_fits {t : IntTy} {z : ℤ} (h : t.Fits z) : t.wrap z = z :=
  Format.wrap_of_fits t.bits_pos h

theorem fits_zero (t : IntTy) : t.Fits 0 := by
  cases t <;> decide

end IntTy

inductive Ty where
  | bool
  | int (t : IntTy)
  deriving DecidableEq, Repr

/-- What a variable of the type holds when its storage was given `z`. A bool is
0 or 1. -/
def Ty.read : Ty → ℤ → ℤ
  | .bool, z => if z = 0 then 0 else 1
  | .int t, z => t.wrap z

inductive IntOp where
  | plus | minus | star | slash | percent | amp | pipe | caret
  deriving DecidableEq, Repr

inductive ShiftOp where
  | ltlt | gtgt
  deriving DecidableEq, Repr

inductive CmpOp where
  | eqeq | bangeq | lt | gt | lteq | gteq
  deriving DecidableEq, Repr

inductive Expr : Ty → Type where
  | intLit (t : IntTy) (value : ℤ) (inRange : t.Fits value) : Expr (.int t)
  | charLit (value : UInt8) : Expr (.int .uint8)
  | ident (name : String) (ty : Ty) : Expr ty
  | dflt (target : IntTy) : Expr (.int target)
  | ifExpr {t : IntTy} (cond : Expr .bool) (thenBody elseBody : Expr (.int t)) : Expr (.int t)
  | neg {t : IntTy} (isSigned : t.signed = true) (operand : Expr (.int t)) : Expr (.int t)
  | tilde {t : IntTy} (operand : Expr (.int t)) : Expr (.int t)
  | binary {t : IntTy} (op : IntOp) (left right : Expr (.int t)) : Expr (.int t)
  | shift {t s : IntTy} (op : ShiftOp) (left : Expr (.int t)) (right : Expr (.int s)) : Expr (.int t)
  | compare {t : IntTy} (op : CmpOp) (left right : Expr (.int t)) : Expr .bool
  | cast {s : IntTy} (target : IntTy) (operand : Expr (.int s)) : Expr (.int target)

/-- `+`, `-` and `*` without a bound. -/
def IntOp.exact : IntOp → ℤ → ℤ → ℤ
  | .plus, x, y => x + y
  | .minus, x, y => x - y
  | .star, x, y => x * y
  | _, _, _ => 0

def IntOp.isArith : IntOp → Bool
  | .plus | .minus | .star => true
  | _ => false

def IntOp.apply (t : IntTy) (x y : ℤ) : IntOp → Option ℤ
  | .slash => if y = 0 then none else some (t.wrap (x.tdiv y))
  | .percent => if y = 0 then none else some (x.tmod y)
  | .amp => some (Int.land x y)
  | .pipe => some (Int.lor x y)
  | .caret => some (Int.xor x y)
  | op => some (t.wrap (op.exact x y))

/-- A shift count counts modulo the width of the operand. -/
def ShiftOp.apply (t : IntTy) (x y : ℤ) : ShiftOp → ℤ
  | .ltlt => t.wrap (x * 2 ^ (y % t.bits).toNat)
  | .gtgt => x / 2 ^ (y % t.bits).toNat

def CmpOp.holds : CmpOp → ℤ → ℤ → Bool
  | .eqeq, x, y => x = y
  | .bangeq, x, y => x ≠ y
  | .lt, x, y => x < y
  | .gt, x, y => x > y
  | .lteq, x, y => x ≤ y
  | .gteq, x, y => x ≥ y

def Ty.Fits : Ty → ℤ → Prop
  | .bool, z => z = 0 ∨ z = 1
  | .int t, z => t.Fits z

theorem IntOp.apply_fits {t : IntTy} {op : IntOp} {x y z : ℤ} (hx : t.Fits x) (hy : t.Fits y)
    (h : op.apply t x y = some z) : t.Fits z := by
  cases op with
  | slash =>
    simp only [IntOp.apply] at h
    split at h <;> cases h
    exact t.fits_wrap _
  | percent =>
    simp only [IntOp.apply] at h
    split at h <;> cases h
    exact Format.Fits.tmod hx y
  | amp =>
    cases h
    exact Format.Fits.land hx hy
  | pipe =>
    cases h
    exact Format.Fits.lor hx hy
  | caret =>
    cases h
    exact Format.Fits.xor hx hy
  | plus | minus | star =>
    cases h
    exact t.fits_wrap _

theorem ShiftOp.apply_fits {t : IntTy} (op : ShiftOp) {x : ℤ} (hx : t.Fits x) (y : ℤ) :
    t.Fits (op.apply t x y) := by
  cases op with
  | ltlt => exact t.fits_wrap _
  | gtgt => exact Format.Fits.ediv hx (by positivity)

namespace Expr

/-- The value under the contents `ρ` of the variables, or none when a zero
divisor aborts the program. -/
def eval (ρ : String → ℤ) : {ty : Ty} → Expr ty → Option ℤ
  | _, .intLit _ value _ => some value
  | _, .charLit value => some value.toNat
  | _, .ident name ty => some (ty.read (ρ name))
  | _, .dflt _ => some 0
  | _, .ifExpr c a b => do
    let z ← c.eval ρ
    if z ≠ 0 then a.eval ρ else b.eval ρ
  | .int t, .neg _ a => (a.eval ρ).map fun z => t.wrap (-z)
  | .int t, .tilde a => (a.eval ρ).map fun z => t.wrap (-z - 1)
  | .int t, .binary op a b => do
    let x ← a.eval ρ
    let y ← b.eval ρ
    op.apply t x y
  | .int t, .shift op a b => do
    let x ← a.eval ρ
    let y ← b.eval ρ
    some (op.apply t x y)
  | _, .compare op a b => do
    let x ← a.eval ρ
    let y ← b.eval ρ
    some (if op.holds x y then 1 else 0)
  | _, .cast target a => (a.eval ρ).map target.wrap

theorem eval_fits {ρ : String → ℤ} {ty : Ty} (e : Expr ty) {z : ℤ} (h : e.eval ρ = some z) :
    ty.Fits z := by
  induction e generalizing z with
  | intLit t value inRange =>
    cases h
    exact inRange
  | charLit value =>
    cases h
    exact (Format.fits_unsigned (f := IntTy.uint8.format) rfl).mpr
      ⟨by positivity, by exact_mod_cast value.toNat_lt⟩
  | ident name ty =>
    cases h
    cases ty with
    | bool =>
      change (if _ then _ else _ : ℤ) = 0 ∨ (if _ then _ else _ : ℤ) = 1
      split <;> simp
    | int t => exact t.fits_wrap _
  | dflt t =>
    cases h
    exact IntTy.fits_zero t
  | ifExpr c a b ihc iha ihb =>
    obtain ⟨w, -, h⟩ := Option.bind_eq_some_iff.mp h
    split at h
    · exact iha h
    · exact ihb h
  | neg _ a ih =>
    obtain ⟨w, -, rfl⟩ := Option.map_eq_some_iff.mp h
    exact IntTy.fits_wrap _ _
  | tilde a ih =>
    obtain ⟨w, -, rfl⟩ := Option.map_eq_some_iff.mp h
    exact IntTy.fits_wrap _ _
  | binary op a b iha ihb =>
    obtain ⟨x, hx, h⟩ := Option.bind_eq_some_iff.mp h
    obtain ⟨y, hy, h⟩ := Option.bind_eq_some_iff.mp h
    exact IntOp.apply_fits (iha hx) (ihb hy) h
  | shift op a b iha ihb =>
    obtain ⟨x, hx, h⟩ := Option.bind_eq_some_iff.mp h
    obtain ⟨y, hy, h⟩ := Option.bind_eq_some_iff.mp h
    cases h
    exact op.apply_fits (iha hx) y
  | compare op a b iha ihb =>
    obtain ⟨x, hx, h⟩ := Option.bind_eq_some_iff.mp h
    obtain ⟨y, hy, h⟩ := Option.bind_eq_some_iff.mp h
    cases h
    split <;> simp [Ty.Fits]
  | cast target a ih =>
    obtain ⟨w, -, rfl⟩ := Option.map_eq_some_iff.mp h
    exact target.fits_wrap _

end Expr

end FcLang.Codegen
