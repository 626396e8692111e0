import FcLang.Types.Type

/-!
# Const-generic expressions

Evaluation in the 64-bit domain of const arguments and sizes, under the
bindings of an instance.
-/

namespace FcLang.Types

/-- Type variables and what they are bound to, `null` where a variable is not bound yet. -/
abbrev Bindings := List (String × Ty)

def constMaskExtend (v : BitVec 64) (width : ℕ) (isSigned : Bool) : BitVec 64 :=
  if width ≥ 64 then v
  else if isSigned then (v.truncate width).signExtend 64
  else (v.truncate width).zeroExtend 64

def ConstBinary.yieldsBool : ConstBinary → Bool
  | .eqeq | .bangeq | .lt | .gt | .lteq | .gteq | .ampamp | .pipepipe => true
  | _ => false

def constUnaryOp (op : ConstUnary) (v : BitVec 64) (width : ℕ) (isSigned : Bool) : BitVec 64 :=
  match op with
  | .minus => constMaskExtend (0 - v) width isSigned
  | .tilde => constMaskExtend (~~~v) width isSigned
  | .bang => if v = 0 then 1 else 0

/-- `none` is the division by zero. -/
def constBinaryOp (op : ConstBinary) (l r : BitVec 64) (width : ℕ) (isSigned : Bool) :
    Option (BitVec 64) :=
  let truth := fun b : Bool => some (if b then 1 else 0)
  let lt := if isSigned then l.slt r else l.ult r
  let gt := if isSigned then r.slt l else r.ult l
  let lv := constMaskExtend l width isSigned
  let rv := constMaskExtend r width isSigned
  let shift := (rv &&& BitVec.ofNat 64 (width - 1)).toNat
  let res := fun v => some (constMaskExtend v width isSigned)
  match op with
  | .eqeq => truth (l == r)
  | .bangeq => truth (l != r)
  | .lt => truth lt
  | .gt => truth gt
  | .lteq => truth !gt
  | .gteq => truth !lt
  | .ampamp => truth (l != 0 && r != 0)
  | .pipepipe => truth (l != 0 || r != 0)
  | .plus => res (lv + rv)
  | .minus => res (lv - rv)
  | .star => res (lv * rv)
  | .amp => res (lv &&& rv)
  | .pipe => res (lv ||| rv)
  | .caret => res (lv ^^^ rv)
  | .ltlt => res (lv <<< shift)
  | .gtgt => res (if isSigned then lv.sshiftRight shift else lv >>> shift)
  | .slash => if rv = 0 then none else res (if isSigned then lv.sdiv rv else lv / rv)
  | .percent => if rv = 0 then none else res (if isSigned then lv.srem rv else lv % rv)

def constCastValue (target : Prim) (v : BitVec 64) : Option (BitVec 64) :=
  if target.fixedIntBits = 0 then none
  else some (constMaskExtend v target.fixedIntBits target.isSigned)

inductive ConstError where
  | boundToType
  | divisionByZero
  | moduloByZero
  | castTarget
  /-- The binding read is the null pointer. -/
  | unbound
  deriving DecidableEq, Repr

def ConstError.message : ConstError → String
  | .boundToType => "generic parameter used as a constant is bound to a type"
  | .divisionByZero => "division by zero in const-generic expression"
  | .moduloByZero => "modulo by zero in const-generic expression"
  | .castTarget => "cast in a const-generic expression must target a fixed-width integer type"
  | .unbound => ""

/-- The value, or no value yet because a parameter is still symbolic, or a hard failure. -/
inductive ConstOutcome where
  | value (v : BitVec 64)
  | symbolic
  | failed (err : ConstError)
  deriving DecidableEq, Repr

def ConstOutcome.andThen (o : ConstOutcome) (f : BitVec 64 → ConstOutcome) : ConstOutcome :=
  match o with
  | .value v => f v
  | o => o

def constParamValue (name : String) (σ : Bindings) : ConstOutcome :=
  match σ.lookup name with
  | none => .symbolic
  | some (.constInt v) => .value v
  | some (.typeVar _) | some (.constExpr _) => .symbolic
  | some .null => .failed .unbound
  | some _ => .failed .boundToType

def constExprEval (σ : Bindings) : ConstExpr → ConstOutcome
  | .intLit v => .value v
  | .boolLit b => .value (if b then 1 else 0)
  | .typeVarRef name => constParamValue name σ
  | .unaryPrefix op e => (constExprEval σ e).andThen fun v => .value (constUnaryOp op v 64 true)
  | .binary op l r =>
    (constExprEval σ l).andThen fun lv => (constExprEval σ r).andThen fun rv =>
      match constBinaryOp op lv rv 64 true with
      | some v => .value v
      | none => .failed (if op = .slash then .divisionByZero else .moduloByZero)
  | .cast target e => (constExprEval σ e).andThen fun v =>
      match constCastValue target v with
      | some v => .value v
      | none => .failed .castTarget

/-- The value of a const argument or of a symbolic size. -/
def constTypeEval (t : Ty) (σ : Bindings) : ConstOutcome :=
  match t with
  | .constInt v => .value v
  | .typeVar name => constParamValue name σ
  | .constExpr e => constExprEval σ e
  | _ => .symbolic

end FcLang.Types
