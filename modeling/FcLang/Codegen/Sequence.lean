import FcLang.Lib.Unsequenced

/-!
# The order of operands

C evaluates the operands of an operator, of a call and of an initializer list in
any order; FC evaluates them from left to right. The emitter gives operands
temporaries in a statement expression where the order shows.
-/

namespace FcLang.Codegen.Sequence
open Unsequenced

/-- An expression, as far as the order of its parts goes. `R` are the operations
that only read, `F` what may have effects, and either may abort. A `place` is an
assignment's target under `&`. What fills a buffer of its own is left out: a slice
literal with elements, an interpolated string, a copy to a `cstr`, a lambda's
captures and an allocation's initializer. -/
inductive Expr (V R F : Type*) where
  -- a literal, a size, a top-level function or an extern constant
  | atom (value : V)
  -- `topLevelFunction` for a top-level variable of function type, a `let mut` one too
  | ident (topLevelFunction : Bool) (o : R)
  -- a prefix operator, a cast, a field and the like
  | operation (o : R) (operand : Expr V R F)
  -- `guards` is the answer of `int_divmod_guards`
  | binary (o : R) (guards : Bool) (left right : Expr V R F)
  | ampamp (left right : Expr V R F)
  | pipepipe (left right : Expr V R F)
  -- A struct or a tuple. With a fixed array among the fields they are stored one by one, and
  -- the copy of an array, with its length check, is an operation on the field.
  | literal (o : R) (hasFixedArray : Bool) (fields : List (Expr V R F))
  | index (o : R) (object index : Expr V R F)
  | pointerIndex (o : R) (object index : Expr V R F)
  -- the object and the bounds that are written
  | slice (o : R) (operands : List (Expr V R F))
  -- a slice from its parts; `checked` when its length is tested at run time
  | sliceLit (o : R) (checked : Bool) (ptr len : Expr V R F)
  | call (f : F) (args : List (Expr V R F))
  | callIndirect (f : F) (callee : Expr V R F) (args : List (Expr V R F))
  -- an allocation of a size, `free`, an atomic load, `err` or `?`
  | effect (f : F) (operand : Expr V R F)
  | atomicStore (f : F) (ptr value : Expr V R F)
  | assign (f : F) (fixedArray : Bool) (place value : Expr V R F)
  | ifThen (cond thenBody elseBody : Expr V R F)
  -- a statement in an expression
  | control (f : F)

variable {σ V R F : Type*}

namespace Expr

mutual

/-- From left to right. -/
def eval (M : Meaning σ V R F) : Expr V R F → σ → Outcome V σ
  | atom v, s => (some v, s)
  | ident _ o, s => M.run (.inl o) [] s
  | operation o e, s => (e.eval M s).andThen fun v => M.run (.inl o) [v]
  | binary o _ l r, s =>
    (l.eval M s).andThen fun a s => (r.eval M s).andThen fun b => M.run (.inl o) [a, b]
  | ampamp l r, s => (l.eval M s).andThen fun a s =>
    if M.truth a then r.eval M s else (some (M.ofBool false), s)
  | pipepipe l r, s => (l.eval M s).andThen fun a s =>
    if M.truth a then (some (M.ofBool true), s) else r.eval M s
  | literal o _ es, s => (evalAll M es s).andThen fun vs => M.run (.inl o) vs
  | index o object i, s =>
    (object.eval M s).andThen fun a s => (i.eval M s).andThen fun b => M.run (.inl o) [a, b]
  | pointerIndex o object i, s =>
    (object.eval M s).andThen fun a s => (i.eval M s).andThen fun b => M.run (.inl o) [a, b]
  | slice o es, s => (evalAll M es s).andThen fun vs => M.run (.inl o) vs
  | sliceLit o _ ptr len, s =>
    (ptr.eval M s).andThen fun a s => (len.eval M s).andThen fun b => M.run (.inl o) [a, b]
  | call f es, s => (evalAll M es s).andThen fun vs => M.run (.inr f) vs
  | callIndirect f callee es, s => (callee.eval M s).andThen fun a s =>
    (evalAll M es s).andThen fun vs => M.run (.inr f) (a :: vs)
  | effect f e, s => (e.eval M s).andThen fun v => M.run (.inr f) [v]
  | atomicStore f ptr value, s =>
    (ptr.eval M s).andThen fun a s => (value.eval M s).andThen fun b => M.run (.inr f) [a, b]
  | assign f _ place value, s =>
    (place.eval M s).andThen fun a s => (value.eval M s).andThen fun b => M.run (.inr f) [a, b]
  | ifThen c a b, s => (c.eval M s).andThen fun v s => if M.truth v then a.eval M s else b.eval M s
  | control f, s => M.run (.inr f) [] s

def evalAll (M : Meaning σ V R F) : List (Expr V R F) → σ → Outcome (List V) σ
  | [], s => (some [], s)
  | e :: es, s =>
    (e.eval M s).andThen fun v s => (evalAll M es s).andThen fun vs s => (some (v :: vs), s)

end

/-- `seq_is_atom` -/
def isAtom : Expr V R F → Bool
  | atom _ => true
  | ident topLevelFunction _ => topLevelFunction
  | _ => false

def isConstant : Expr V R F → Bool
  | atom _ => true
  | _ => false

mutual

/-- `expr_has_side_effects` -/
def hasSideEffects : Expr V R F → Bool
  | atom _ | ident _ _ => false
  | operation _ e => e.hasSideEffects
  | binary _ _ l r | ampamp l r | pipepipe l r => l.hasSideEffects || r.hasSideEffects
  | literal _ _ es | slice _ es => anySideEffects es
  | index _ l r | pointerIndex _ l r | sliceLit _ _ l r => l.hasSideEffects || r.hasSideEffects
  | call _ _ | callIndirect _ _ _ | effect _ _ | atomicStore _ _ _ | assign _ _ _ _ => true
  | ifThen _ _ _ | control _ => true

def anySideEffects : List (Expr V R F) → Bool
  | [] => false
  | e :: es => e.hasSideEffects || anySideEffects es

end

end Expr

/-- Two operands whose order cannot show. -/
def Expr.Indifferent (l r : Expr V R F) : Prop :=
  l.isConstant = true ∨ r.isConstant = true ∨ l.hasSideEffects = false ∧ r.hasSideEffects = false

/-- An atom that reads a variable stays where it stands, so nothing behind it may change it. -/
def Expr.Undisturbed (l r : Expr V R F) : Prop :=
  l.isAtom = true → l.isConstant = true ∨ r.hasSideEffects = false

namespace Expr

mutual

/-- In an index into a pointer, in an atomic store and in a raw slice literal that is not
sequenced, the order of the two operands does not show, and no top-level variable of function
type is an operand of a sequenced form in front of effects. -/
def Settled : Expr V R F → Prop
  | atom _ | ident _ _ | control _ => True
  | operation _ e | effect _ e => e.Settled
  | ampamp l r | pipepipe l r | index _ l r | assign _ _ l r => l.Settled ∧ r.Settled
  | binary _ guards l r => l.Settled ∧ r.Settled ∧ (guards = true ∨ l.Undisturbed r)
  | pointerIndex _ l r | atomicStore _ l r => l.Settled ∧ r.Settled ∧ l.Indifferent r
  | sliceLit _ checked l r => l.Settled ∧ r.Settled ∧
    (checked = true ∨ l.hasSideEffects = true ∧ r.hasSideEffects = true ∨ l.Indifferent r)
  | literal _ hasFixedArray es =>
    SettledAll es ∧ (hasFixedArray = true ∨ es.Pairwise Undisturbed)
  | call _ es => SettledAll es ∧ es.Pairwise Undisturbed
  | slice _ es => SettledAll es
  | callIndirect _ e es => e.Settled ∧ SettledAll es ∧ es.Pairwise Undisturbed
  | ifThen c a b => c.Settled ∧ a.Settled ∧ b.Settled

def SettledAll : List (Expr V R F) → Prop
  | [] => True
  | e :: es => e.Settled ∧ SettledAll es

end

end Expr

/-- A temporary: its number, and which of the temporaries with that number it is. -/
structure Temp where
  id : ℕ
  slot : ℕ
  deriving DecidableEq

abbrev Text (V R F : Type*) := Term Temp V R F

/-- An operand to emit; `text` is given the counter of temporaries and moves it on. -/
structure Operand (V R F : Type*) where
  isAtom : Bool
  hasSideEffects : Bool
  text : ℕ → Text V R F × ℕ

def Expr.operand (e : Expr V R F) (text : ℕ → Text V R F × ℕ) : Operand V R F :=
  ⟨e.isAtom, e.hasSideEffects, text⟩

/-- Temporaries to bind, the operands that are left, and the counter after them. -/
structure Prepared (V R F : Type*) where
  binds : List (Temp × Text V R F)
  operands : List (Text V R F)
  next : ℕ

/-- `({ T x = t; ... body })` -/
def wrap (binds : List (Temp × Text V R F)) (body : Text V R F) : Text V R F :=
  binds.foldr (fun b r => .bind b.1 b.2 r) body

def Prepared.emit (p : Prepared V R F) (o : R ⊕ F) : Text V R F × ℕ :=
  (wrap p.binds (.apply o p.operands), p.next)

def inPlace : List (Operand V R F) → ℕ → Prepared V R F
  | [], c => ⟨[], [], c⟩
  | x :: xs, c =>
    let p := inPlace xs (x.text c).2
    ⟨[], (x.text c).1 :: p.operands, p.next⟩

/-- Every operand in a temporary of one number. -/
def inTemps (id slot : ℕ) : List (Operand V R F) → ℕ → Prepared V R F
  | [], c => ⟨[], [], c⟩
  | x :: xs, c =>
    let p := inTemps id (slot + 1) xs (x.text c).2
    ⟨(⟨id, slot⟩, (x.text c).1) :: p.binds, .temp ⟨id, slot⟩ :: p.operands, p.next⟩

/-- `seq_hoist`, and the operands as they are then emitted: the last one stays. -/
def seqHoist : List (Operand V R F) → ℕ → Prepared V R F
  | [], c => ⟨[], [], c⟩
  | [x], c => ⟨[], [(x.text c).1], (x.text c).2⟩
  | x :: y :: xs, c =>
    if x.isAtom then
      let p := seqHoist (y :: xs) c
      ⟨p.binds, (x.text c).1 :: p.operands, p.next⟩
    else
      let p := seqHoist (y :: xs) (x.text (c + 1)).2
      ⟨(⟨c, 0⟩, (x.text (c + 1)).1) :: p.binds, .temp ⟨c, 0⟩ :: p.operands, p.next⟩

def seqNeeded (xs : List (Operand V R F)) : Bool := xs.any Operand.hasSideEffects

def seqOperands (xs : List (Operand V R F)) (c : ℕ) : Prepared V R F :=
  if 2 ≤ xs.length ∧ seqNeeded xs = true then seqHoist xs c else inPlace xs c

def binaryNeedsSeq (guards selfCompare : Bool) (l r : Operand V R F) : Bool :=
  !guards && (seqNeeded [l, r] || selfCompare)

/-- `emit_binary`. An integer division with a guard gives both operands a temporary. -/
def emitBinary (o : R) (guards selfCompare : Bool) (l r : Operand V R F) (c : ℕ) :
    Text V R F × ℕ :=
  if binaryNeedsSeq guards selfCompare l r then (seqHoist [l, r] c).emit (.inl o)
  else if guards then (inTemps c 0 [l, r] (c + 1)).emit (.inl o)
  else (inPlace [l, r] c).emit (.inl o)

/-- The raw slice literal: the two parts in order when the length is tested, or
when both have effects. -/
def emitSliceLit (o : R) (checked : Bool) (ptr len : Operand V R F) (c : ℕ) : Text V R F × ℕ :=
  if checked || (ptr.hasSideEffects && len.hasSideEffects) then
    (inTemps c 0 [ptr, len] (c + 1)).emit (.inl o)
  else (inPlace [ptr, len] c).emit (.inl o)

def emitAssign (f : F) (fixedArray : Bool) (place value : Operand V R F) (c : ℕ) :
    Text V R F × ℕ :=
  if fixedArray || value.hasSideEffects || place.hasSideEffects then
    (inTemps c 0 [place, value] (c + 1)).emit (.inr f)
  else (inPlace [place, value] c).emit (.inr f)

/-- `emit_call` through a function value: the callee first. -/
def emitIndirect (f : F) (callee : Operand V R F) (args : List (Operand V R F)) (c : ℕ) :
    Text V R F × ℕ :=
  let p := seqOperands args (callee.text (c + 1)).2
  (⟨(⟨c, 0⟩, (callee.text (c + 1)).1) :: p.binds, .temp ⟨c, 0⟩ :: p.operands, p.next⟩ :
    Prepared V R F).emit (.inr f)

section
variable (ofBool : Bool → V) (selfCompare : R → Expr V R F → Expr V R F → Bool)

mutual

/-- `emit_expr`, outside a constant context; `selfCompare` is what
`binary_is_self_compare` answers. -/
def emitExpr : Expr V R F → ℕ → Text V R F × ℕ
  | .atom v, c => (.value v, c)
  | .ident _ o, c => (.apply (.inl o) [], c)
  | .operation o e, c => (inPlace [e.operand (emitExpr e)] c).emit (.inl o)
  | .binary o guards l r, c =>
    emitBinary o guards (selfCompare o l r) (l.operand (emitExpr l)) (r.operand (emitExpr r)) c
  | .ampamp l r, c =>
    let (t, c) := emitExpr l c
    let (u, c) := emitExpr r c
    (.ternary t u (.value (ofBool false)), c)
  | .pipepipe l r, c =>
    let (t, c) := emitExpr l c
    let (u, c) := emitExpr r c
    (.ternary t (.value (ofBool true)) u, c)
  | .literal o hasFixedArray es, c =>
    if hasFixedArray then (inTemps c 0 (operands es) (c + 1)).emit (.inl o)
    else (seqOperands (operands es) c).emit (.inl o)
  | .index o object i, c =>
    let xs := [object.operand (emitExpr object), i.operand (emitExpr i)]
    (inTemps c 0 xs (c + 1)).emit (.inl o)
  | .pointerIndex o object i, c =>
    (inPlace [object.operand (emitExpr object), i.operand (emitExpr i)] c).emit (.inl o)
  | .slice o es, c => (inTemps c 0 (operands es) (c + 1)).emit (.inl o)
  | .sliceLit o checked ptr len, c =>
    emitSliceLit o checked (ptr.operand (emitExpr ptr)) (len.operand (emitExpr len)) c
  | .call f es, c => (seqOperands (operands es) c).emit (.inr f)
  | .callIndirect f callee es, c =>
    emitIndirect f (callee.operand (emitExpr callee)) (operands es) c
  | .effect f e, c => (inPlace [e.operand (emitExpr e)] c).emit (.inr f)
  | .atomicStore f ptr value, c =>
    (inPlace [ptr.operand (emitExpr ptr), value.operand (emitExpr value)] c).emit (.inr f)
  | .assign f fixedArray place value, c =>
    emitAssign f fixedArray (place.operand (emitExpr place)) (value.operand (emitExpr value)) c
  | .ifThen cond a b, c =>
    let (t, c) := emitExpr cond c
    let (u, c) := emitExpr a c
    let (w, c) := emitExpr b c
    (.ternary t u w, c)
  | .control f, c => (.apply (.inr f) [], c)

def operands : List (Expr V R F) → List (Operand V R F)
  | [] => []
  | e :: es => e.operand (emitExpr e) :: operands es

end

end

end FcLang.Codegen.Sequence
