import FcLang.Codegen.IntExpr
import FcLang.Types.ConstEval

/-!
# Constant expressions

The constant expressions pass2 accepts over the fixed-width integers and bool. A
char is an unsigned byte. A widening that pass2 inserts is a cast. `eval` is what
the language says the expression is worth when it runs: `&&` and `||` leave their
right operand alone when the left one decides.
-/

namespace FcLang.Const
open Types (Prim ConstUnary ConstBinary Bindings)
open Codegen (IntTy Ty IntOp ShiftOp CmpOp)

inductive LogicOp where
  | ampamp | pipepipe
  deriving DecidableEq, Repr

/-- A prefix operator with the type of its operand and its own. -/
inductive UnOp : Ty → Ty → Type where
  | minus {t : IntTy} (isSigned : t.signed = true) : UnOp (.int t) (.int t)
  | tilde {t : IntTy} : UnOp (.int t) (.int t)
  | bang : UnOp .bool .bool

/-- A binary operator with the types of its operands and its own. -/
inductive BinOp : Ty → Ty → Ty → Type where
  | arith {t : IntTy} (op : IntOp) : BinOp (.int t) (.int t) (.int t)
  | shift {t s : IntTy} (op : ShiftOp) : BinOp (.int t) (.int s) (.int t)
  | compare {t : IntTy} (op : CmpOp) : BinOp (.int t) (.int t) .bool
  | equal (op : CmpOp) (isEquality : op = .eqeq ∨ op = .bangeq) : BinOp .bool .bool .bool
  | logic (op : LogicOp) : BinOp .bool .bool .bool

/-- A cast pass2 accepts: any scalar to an integer, or a bool to bool. -/
inductive CastTo : Ty → Ty → Type where
  | int {s : Ty} (target : IntTy) : CastTo s (.int target)
  | bool : CastTo .bool .bool

inductive Expr : Ty → Type where
  | intLit (t : IntTy) (value : ℤ) (inRange : t.Fits value) : Expr (.int t)
  | boolLit (value : Bool) : Expr .bool
  | charLit (value : UInt8) : Expr (.int .uint8)
  /-- A reference to an earlier module constant, with that constant's initializer. -/
  | ident {ty : Ty} (name : String) (init : Expr ty) : Expr ty
  | typeVarRef (name : String) : Expr (.int .int32)
  | unaryPrefix {s ty : Ty} (op : UnOp s ty) (operand : Expr s) : Expr ty
  | binary {s s' ty : Ty} (op : BinOp s s' ty) (left : Expr s) (right : Expr s') : Expr ty
  | cast {s ty : Ty} (target : CastTo s ty) (operand : Expr s) : Expr ty

namespace UnOp

def token {s ty : Ty} : UnOp s ty → ConstUnary
  | .minus _ => .minus
  | .tilde => .tilde
  | .bang => .bang

def apply {s ty : Ty} : UnOp s ty → ℤ → ℤ
  | .minus (t := t) _, z => t.wrap (-z)
  | .tilde (t := t), z => t.wrap (-z - 1)
  | .bang, z => if z = 0 then 1 else 0

end UnOp

def arithToken : IntOp → ConstBinary
  | .plus => .plus
  | .minus => .minus
  | .star => .star
  | .slash => .slash
  | .percent => .percent
  | .amp => .amp
  | .pipe => .pipe
  | .caret => .caret

def shiftToken : ShiftOp → ConstBinary
  | .ltlt => .ltlt
  | .gtgt => .gtgt

def cmpToken : CmpOp → ConstBinary
  | .eqeq => .eqeq
  | .bangeq => .bangeq
  | .lt => .lt
  | .gt => .gt
  | .lteq => .lteq
  | .gteq => .gteq

def logicToken : LogicOp → ConstBinary
  | .ampamp => .ampamp
  | .pipepipe => .pipepipe

namespace BinOp

def token {s s' ty : Ty} : BinOp s s' ty → ConstBinary
  | .arith op => arithToken op
  | .shift op => shiftToken op
  | .compare op => cmpToken op
  | .equal op _ => cmpToken op
  | .logic op => logicToken op

/-- The result on two values, or none when the right one is a zero divisor. -/
def apply {s s' ty : Ty} (x y : ℤ) : BinOp s s' ty → Option ℤ
  | .arith (t := t) op => op.apply t x y
  | .shift (t := t) op => some (op.apply t x y)
  | .compare op => some (if op.holds x y then 1 else 0)
  | .equal op _ => some (if op.holds x y then 1 else 0)
  | .logic .ampamp => some (if x ≠ 0 ∧ y ≠ 0 then 1 else 0)
  | .logic .pipepipe => some (if x ≠ 0 ∨ y ≠ 0 then 1 else 0)

/-- The left operand's value leaves the right operand unevaluated. -/
def decides {s s' ty : Ty} : BinOp s s' ty → ℤ → Bool
  | .logic .ampamp, x => x = 0
  | .logic .pipepipe, x => x ≠ 0
  | _, _ => false

def divides {s s' ty : Ty} : BinOp s s' ty → Bool
  | .arith .slash | .arith .percent => true
  | _ => false

end BinOp

def CastTo.apply {s ty : Ty} : CastTo s ty → ℤ → ℤ
  | .int target, z => target.wrap z
  | .bool, z => z

namespace Expr
variable {s s' ty : Ty}

/-- The value, or none when a zero divisor stops the evaluation. A const
parameter has no value of its own. -/
def eval : {ty : Ty} → Expr ty → Option ℤ
  | _, .intLit _ value _ => some value
  | _, .boolLit value => some (if value then 1 else 0)
  | _, .charLit value => some value.toNat
  | _, .ident _ init => init.eval
  | _, .typeVarRef _ => none
  | _, .unaryPrefix op e => e.eval.map op.apply
  | _, .binary op l r => do
    let x ← l.eval
    if op.decides x then some x
    else
      let y ← r.eval
      op.apply x y
  | _, .cast target e => e.eval.map target.apply

/-- The value a binding gives a const parameter, where it is an i32. -/
def boundTo (σ : Bindings) (name : String) : Option (Expr (.int .int32)) :=
  match Types.constParamValue name σ with
  | .value v => if h : IntTy.int32.Fits v.toInt then some (.intLit .int32 v.toInt h) else none
  | _ => none

/-- The tree with the bound values in the places of the parameters. -/
def subst (σ : Bindings) : {ty : Ty} → Expr ty → Expr ty
  | _, .typeVarRef name => (boundTo σ name).getD (.typeVarRef name)
  | _, .unaryPrefix op e => .unaryPrefix op (e.subst σ)
  | _, .binary op l r => .binary op (l.subst σ) (r.subst σ)
  | _, .cast target e => .cast target (e.subst σ)
  | _, e => e

theorem eval_unaryPrefix (op : UnOp s ty) (e : Expr s) :
    (unaryPrefix op e).eval = e.eval.map op.apply :=
  rfl

theorem eval_cast (target : CastTo s ty) (e : Expr s) :
    (cast target e).eval = e.eval.map target.apply :=
  rfl

end Expr

theorem UnOp.apply_fits {s ty : Ty} (op : UnOp s ty) (z : ℤ) : ty.Fits (op.apply z) := by
  cases op with
  | minus _ => exact IntTy.fits_wrap _ _
  | tilde => exact IntTy.fits_wrap _ _
  | bang =>
    simp only [apply]
    split <;> simp [Ty.Fits]

theorem BinOp.apply_fits {s s' ty : Ty} (op : BinOp s s' ty) {x y z : ℤ} (hx : s.Fits x)
    (hy : s'.Fits y) (h : op.apply x y = some z) : ty.Fits z := by
  have truth : ∀ b : Prop, [Decidable b] → Ty.bool.Fits (if b then 1 else 0) := fun b _ => by
    split <;> simp [Ty.Fits]
  cases op with
  | arith op => exact op.apply_fits hx hy h
  | shift op =>
    cases h
    exact op.apply_fits hx y
  | compare op | equal op =>
    cases h
    exact truth _
  | logic op =>
    cases op with
    | ampamp | pipepipe =>
      cases h
      exact truth _

theorem CastTo.apply_fits {s ty : Ty} (c : CastTo s ty) {z : ℤ} (hz : s.Fits z) :
    ty.Fits (c.apply z) := by
  cases c with
  | int target => exact target.fits_wrap z
  | bool => exact hz

/-- An operator that its left operand decides has that operand's value. -/
theorem BinOp.apply_of_decides {s s' ty : Ty} (op : BinOp s s' ty) {x : ℤ} (hx : s.Fits x) (y : ℤ)
    (h : op.decides x = true) : op.apply x y = some x := by
  cases op with
  | arith op => cases h
  | shift op => cases h
  | compare op => cases h
  | equal op => cases h
  | logic op =>
    cases op with
    | ampamp =>
      simp only [decides, decide_eq_true_eq] at h
      simp [apply, h]
    | pipepipe =>
      simp only [decides, decide_eq_true_eq] at h
      simp [apply, hx.resolve_left h]

/-- Only a decided operator has a result that is not a value of its own. -/
theorem BinOp.decides_fits {s s' ty : Ty} (op : BinOp s s' ty) {x : ℤ} (hx : s.Fits x)
    (h : op.decides x = true) : ty.Fits x := by
  cases op with
  | logic op => exact hx
  | arith op => cases h
  | shift op => cases h
  | compare op => cases h
  | equal op => cases h

theorem BinOp.apply_eq_none {s s' ty : Ty} (op : BinOp s s' ty) (x y : ℤ) :
    op.apply x y = none ↔ op.divides = true ∧ y = 0 := by
  cases op with
  | arith op =>
    cases op <;> simp [apply, divides, IntOp.apply]
  | shift op => simp [apply, divides]
  | compare op => simp [apply, divides]
  | equal op => simp [apply, divides]
  | logic op => cases op <;> simp [apply, divides]

theorem Expr.eval_fits {ty : Ty} (e : Expr ty) {z : ℤ} (h : e.eval = some z) : ty.Fits z := by
  induction e generalizing z with
  | intLit t value inRange =>
    cases h
    exact inRange
  | boolLit value =>
    cases h
    split <;> simp [Ty.Fits]
  | charLit value =>
    cases h
    exact (Format.fits_unsigned (f := IntTy.uint8.format) rfl).mpr
      ⟨by positivity, by exact_mod_cast value.toNat_lt⟩
  | ident name init ih => exact ih h
  | typeVarRef name => cases h
  | unaryPrefix op e ih =>
    obtain ⟨w, -, rfl⟩ := Option.map_eq_some_iff.mp h
    exact op.apply_fits w
  | binary op l r ihl ihr =>
    obtain ⟨x, hx, h⟩ := Option.bind_eq_some_iff.mp h
    split at h
    · cases h
      exact op.decides_fits (ihl hx) ‹_›
    · obtain ⟨y, hy, h⟩ := Option.bind_eq_some_iff.mp h
      exact op.apply_fits (ihl hx) (ihr hy) h
  | cast c e ih =>
    obtain ⟨w, hw, rfl⟩ := Option.map_eq_some_iff.mp h
    exact c.apply_fits (ih hw)

end FcLang.Const
