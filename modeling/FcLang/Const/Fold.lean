import FcLang.Const.Operators

/-!
# Folding constant expressions

`const_fold_expr` folds the operands first, both of them for `&&` and `||` too,
and then the node if its operands became literals. A division by zero is
reported and its node stays.
-/

namespace FcLang.Const
open Types (ConstUnary ConstBinary constMaskExtend constUnaryOp constBinaryOp)
open Codegen (IntTy Ty)

inductive Dir where
  | operand | left | right
  deriving DecidableEq, Repr

/-- The place of a node in a tree. -/
abbrev Loc := List Dir

/-- The width a scalar of the type is read at. -/
def width : Ty → ℕ
  | .bool => 8
  | .int t => t.bits

def isSigned : Ty → Bool
  | .bool => false
  | .int t => t.signed

section Literals
variable {ty : Ty}

/-- The value of a literal node, or none at any other node. -/
def constReadScalar : {ty : Ty} → Expr ty → Option (BitVec 64)
  | .int t, .intLit _ value _ => some (constMaskExtend (word value) t.bits t.signed)
  | _, .boolLit value => some (if value then 1 else 0)
  | _, .charLit value => some (BitVec.ofNat 64 value.toNat)
  | _, _ => none

/-- `const_make_int` and `const_make_bool`. Every caller has extended `v` to 64 bits
from the width of the type. -/
def constMake (ty : Ty) (v : BitVec 64) : Expr ty :=
  match ty with
  | .bool => .boolLit (v != 0)
  | .int t => .intLit t (t.wrap v.toInt) (t.fits_wrap _)

end Literals

/-- What `try_eval_const` makes of a node. -/
inductive Tried (ty : Ty) where
  | literal (v : Expr ty)
  | notEvaluable
  | divisionByZero

def tryEvalUnary {s ty : Ty} (op : UnOp s ty) (operand : Expr s) : Tried ty :=
  match constReadScalar operand with
  | none => .notEvaluable
  | some a =>
    let isBool := op.token = .bang
    let w := if isBool then 1 else width ty
    .literal (constMake ty (constUnaryOp op.token a w (!isBool && isSigned ty)))

def tryEvalCast {s ty : Ty} (target : CastTo s ty) (operand : Expr s) : Tried ty :=
  match constReadScalar operand, target with
  | some a, .int t => .literal (constMake (.int t) (constMaskExtend a t.bits t.signed))
  | _, _ => .notEvaluable

/-- A comparison is made at the type of its operands, read from the left one. -/
def tryEvalBinary {s s' ty : Ty} (op : BinOp s s' ty) (left : Expr s) (right : Expr s') : Tried ty :=
  match constReadScalar left, constReadScalar right with
  | some a, some b =>
    let isBool := op.token.yieldsBool
    let w := if isBool then width s else width ty
    let sg := if isBool then isSigned s else isSigned ty
    match constBinaryOp op.token a b w sg with
    | some r => .literal (constMake ty r)
    | none => .divisionByZero
  | _, _ => .notEvaluable

/-- The tree that folding gave, or none for a tree that is not constant, and the
nodes it reported a division by zero at. -/
structure Folding (ty : Ty) where
  result : Option (Expr ty)
  reports : List Loc

namespace Folding
variable {s s' ty : Ty}

def unary (op : UnOp s ty) (e : Folding s) : Folding ty where
  result := e.result.map fun e =>
    match tryEvalUnary op e with
    | .literal v => v
    | _ => .unaryPrefix op e
  reports := e.reports.map (.operand :: ·)

def cast (target : CastTo s ty) (e : Folding s) : Folding ty where
  result := e.result.map fun e =>
    match tryEvalCast target e with
    | .literal v => v
    | _ => .cast target e
  reports := e.reports.map (.operand :: ·)

def binary (op : BinOp s s' ty) (l : Folding s) (r : Folding s') : Folding ty :=
  let inner := l.reports.map (.left :: ·) ++ r.reports.map (.right :: ·)
  match l.result, r.result with
  | some l, some r =>
    match tryEvalBinary op l r with
    | .literal v => ⟨some v, inner⟩
    | .notEvaluable => ⟨some (.binary op l r), inner⟩
    | .divisionByZero => ⟨some (.binary op l r), [] :: inner⟩
  | _, _ => ⟨none, inner⟩

end Folding

def isConstExpr : {ty : Ty} → Expr ty → Bool
  | _, .intLit _ _ _ | _, .boolLit _ | _, .charLit _ => true
  | _, .ident _ _ | _, .typeVarRef _ => false
  | _, .unaryPrefix _ e => isConstExpr e
  | _, .binary op l r => !op.divides && isConstExpr l && isConstExpr r
  | _, .cast _ e => isConstExpr e

/-- The reports made while an earlier constant was folded belong to its own declaration. -/
def constFoldExpr : {ty : Ty} → Expr ty → Folding ty
  | _, .ident _ init => ⟨(constFoldExpr init).result.filter (isConstExpr ·), []⟩
  | _, .typeVarRef _ => ⟨none, []⟩
  | _, .unaryPrefix op e => (constFoldExpr e).unary op
  | _, .binary op l r => (constFoldExpr l).binary op (constFoldExpr r)
  | _, .cast target e => (constFoldExpr e).cast target
  | _, e => ⟨some e, []⟩

section Literals
variable {s s' ty : Ty}

section Kept

theorem constReadScalar_ident (name : String) (init : Expr ty) :
    constReadScalar (.ident name init) = none := by
  cases ty <;> rfl

theorem constReadScalar_unaryPrefix (op : UnOp s ty) (e : Expr s) :
    constReadScalar (.unaryPrefix op e) = none := by
  cases ty <;> rfl

theorem constReadScalar_binary (op : BinOp s s' ty) (l : Expr s) (r : Expr s') :
    constReadScalar (.binary op l r) = none := by
  cases ty <;> rfl

theorem constReadScalar_cast (target : CastTo s ty) (e : Expr s) :
    constReadScalar (.cast target e) = none := by
  cases ty <;> rfl

end Kept

theorem isSome_constReadScalar (e : Expr ty) {a : BitVec 64} (h : constReadScalar e = some a) :
    ∃ z, e.eval = some z ∧ a = word z := by
  cases e with
  | intLit t value inRange =>
    simp only [constReadScalar, Option.some.injEq] at h
    exact ⟨value, rfl, by rw [← h, constMaskExtend_of_fits inRange]⟩
  | boolLit value =>
    cases h
    exact ⟨_, rfl, word_truth value⟩
  | charLit value =>
    cases h
    exact ⟨value.toNat, rfl, (BitVec.ofInt_natCast _ _).symm⟩
  | ident name init => cases (constReadScalar_ident name init).symm.trans h
  | typeVarRef _ => cases h
  | unaryPrefix op e => cases (constReadScalar_unaryPrefix op e).symm.trans h
  | binary op l r => cases (constReadScalar_binary op l r).symm.trans h
  | cast target e => cases (constReadScalar_cast target e).symm.trans h

theorem isConstExpr_of_literal {e : Expr ty} {a : BitVec 64} (h : constReadScalar e = some a) :
    isConstExpr e = true := by
  cases e with
  | intLit _ _ _ => rfl
  | boolLit _ => rfl
  | charLit _ => rfl
  | ident name init => cases (constReadScalar_ident name init).symm.trans h
  | typeVarRef _ => cases h
  | unaryPrefix op e => cases (constReadScalar_unaryPrefix op e).symm.trans h
  | binary op l r => cases (constReadScalar_binary op l r).symm.trans h
  | cast target e => cases (constReadScalar_cast target e).symm.trans h

theorem eval_constMake {z : ℤ} (hz : ty.Fits z) : (constMake ty (word z)).eval = some z := by
  cases ty with
  | bool => obtain rfl | rfl := hz <;> rfl
  | int t => exact congrArg some (word_toInt hz)

theorem constReadScalar_constMake {z : ℤ} (hz : ty.Fits z) :
    constReadScalar (constMake ty (word z)) = some (word z) := by
  cases ty with
  | bool => obtain rfl | rfl := hz <;> rfl
  | int t =>
    simp only [constMake, constReadScalar, word_toInt hz, constMaskExtend_of_fits hz]

/-- The word of a literal is the word of its value. -/
theorem constReadScalar_eq {e : Expr ty} {a : BitVec 64} {z : ℤ} (h : constReadScalar e = some a)
    (hz : e.eval = some z) : a = word z := by
  obtain ⟨z', hz', rfl⟩ := isSome_constReadScalar e h
  rw [hz, Option.some.injEq] at hz'
  rw [hz']

end Literals

section Try
variable {s s' ty : Ty}

theorem UnOp.evaluatedAt_fold (op : UnOp s ty) :
    op.EvaluatedAt (if op.token = .bang then 1 else width ty)
      (!(decide (op.token = .bang)) && isSigned ty) := by
  cases op with
  | minus _ => exact ⟨rfl, rfl⟩
  | tilde => exact ⟨rfl, rfl⟩
  | bang => trivial

theorem BinOp.evaluatedAt_fold (op : BinOp s s' ty) :
    op.EvaluatedAt (if op.token.yieldsBool then width s else width ty)
      (if op.token.yieldsBool then isSigned s else isSigned ty) := by
  cases op with
  | arith op => cases op <;> exact ⟨rfl, rfl⟩
  | shift op => cases op <;> exact ⟨rfl, rfl⟩
  | compare op => cases op <;> exact ⟨rfl, rfl⟩
  | equal op h => trivial
  | logic op => trivial

theorem tryEvalUnary_eq (op : UnOp s ty) {e : Expr s} {a : BitVec 64} {z : ℤ}
    (h : constReadScalar e = some a) (hz : e.eval = some z) :
    tryEvalUnary op e = .literal (constMake ty (word (op.apply z))) := by
  simp only [tryEvalUnary, h, constReadScalar_eq h hz]
  rw [constUnaryOp_word op.evaluatedAt_fold (e.eval_fits hz)]

theorem tryEvalUnary_notEvaluable (op : UnOp s ty) {e : Expr s} (h : constReadScalar e = none) :
    tryEvalUnary op e = .notEvaluable := by
  simp only [tryEvalUnary, h]

theorem tryEvalCast_eq {t : IntTy} {e : Expr s} {a : BitVec 64} {z : ℤ}
    (h : constReadScalar e = some a) (hz : e.eval = some z) :
    tryEvalCast (.int t) e = .literal (constMake (.int t) (word (t.wrap z))) := by
  simp only [tryEvalCast, h, constReadScalar_eq h hz, constMaskExtend_word]

theorem tryEvalCast_notEvaluable (target : CastTo s ty) {e : Expr s}
    (h : constReadScalar e = none) : tryEvalCast target e = .notEvaluable := by
  simp only [tryEvalCast, h]

theorem tryEvalCast_bool (e : Expr .bool) : tryEvalCast .bool e = .notEvaluable := by
  cases h : constReadScalar e with
  | none => exact tryEvalCast_notEvaluable .bool h
  | some a => simp only [tryEvalCast, h]

theorem tryEvalBinary_eq (op : BinOp s s' ty) {l : Expr s} {r : Expr s'} {a b : BitVec 64} {x y : ℤ}
    (hl : constReadScalar l = some a) (hx : l.eval = some x)
    (hr : constReadScalar r = some b) (hy : r.eval = some y) :
    tryEvalBinary op l r = match op.apply x y with
      | some z => .literal (constMake ty (word z))
      | none => .divisionByZero := by
  simp only [tryEvalBinary, hl, hr, constReadScalar_eq hl hx, constReadScalar_eq hr hy]
  rw [constBinaryOp_word op.evaluatedAt_fold (l.eval_fits hx) (r.eval_fits hy)]
  cases op.apply x y with
  | none => rfl
  | some z => rfl

theorem tryEvalBinary_notEvaluable (op : BinOp s s' ty) {l : Expr s} {r : Expr s'}
    (h : constReadScalar l = none ∨ constReadScalar r = none) :
    tryEvalBinary op l r = .notEvaluable := by
  obtain h | h := h
  · simp [tryEvalBinary, h]
  · simp only [tryEvalBinary, h]
    split <;> simp_all

end Try

end FcLang.Const
