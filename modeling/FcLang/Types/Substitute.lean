import FcLang.Types.ConstEval

/-!
# Substitution in types

A hard failure of a const expression is stashed once. The flag that is threaded
through a substitution says that one is stashed; only the failure that sets it
poisons its own type, as in the source.
-/

namespace FcLang.Types

def constExprSubst (σ : Bindings) : ConstExpr → ConstExpr
  | .typeVarRef name =>
    match σ.lookup name with
    | some (.constInt v) => .intLit v
    | some (.typeVar name') => .typeVarRef name'
    | some (.constExpr e) => e
    | _ => .typeVarRef name
  | .unaryPrefix op e => .unaryPrefix op (constExprSubst σ e)
  | .binary op l r => .binary op (constExprSubst σ l) (constExprSubst σ r)
  | .cast target e => .cast target (constExprSubst σ e)
  | e => e

/-- `type_substitute` at a const expression. -/
def substituteConst (σ : Bindings) (e : ConstExpr) (pending : Bool) : Ty × Bool :=
  match constTypeEval (.constExpr e) σ with
  | .value v => (.constInt v, pending)
  | .symbolic => (.constExpr (constExprSubst σ e), pending)
  | .failed _ => if pending then (.constExpr (constExprSubst σ e), pending) else (.error, true)

/-- `type_substitute` at a leaf, or at the node that a symbolic size refers to. -/
def substituteLeaf (σ : Bindings) (t : Ty) (pending : Bool) : Ty × Bool :=
  match t with
  | .typeVar name => ((σ.lookup name).getD t, pending)
  | .constExpr e => substituteConst σ e pending
  | t => (t, pending)

/-- A fixed array whose element type is already substituted. -/
def substituteSize (σ : Bindings) (elem : Ty) (size : BitVec 64) (sizeRef : Ty) (pending : Bool) :
    Ty × Bool :=
  match sizeRef with
  | .null => (.fixedArray elem size .null, pending)
  | _ =>
    let symbolic :=
      match substituteLeaf σ sizeRef pending with
      | (.error, pending) => (.error, pending)
      | (ref, pending) => (.fixedArray elem 0 ref, pending)
    match constTypeEval sizeRef σ with
    | .value v => (.fixedArray elem v .null, pending)
    | .symbolic => symbolic
    | .failed _ => if pending then symbolic else (.error, true)

mutual

/-- `type_substitute`. -/
def substitute (σ : Bindings) : Ty → Bool → Ty × Bool
  | .pointer c t, p => (substitute σ t p).map (.pointer c) id
  | .slice c t, p => (substitute σ t p).map (.slice c) id
  | .option t, p => (substitute σ t p).map .option id
  | .result t, p => (substitute σ t p).map .result id
  | .fixedArray elem size sizeRef, p =>
    let (elem, p) := substitute σ elem p
    substituteSize σ elem size sizeRef p
  | .func params ret isVariadic, p =>
    let (params, p) := substituteAll σ params p
    (substitute σ ret p).map (.func params · isVariadic) id
  | .struct name template isTuple fields typeArgs, p =>
    let (fields, p) := substituteAll σ fields p
    (substituteAll σ typeArgs p).map (.struct name template isTuple fields) id
  | .union name template variants typeArgs, p =>
    let (variants, p) := substituteAll σ variants p
    (substituteAll σ typeArgs p).map (.union name template variants) id
  | .stub name baseName typeArgs, p => (substituteAll σ typeArgs p).map (.stub name baseName) id
  | t, p => substituteLeaf σ t p

def substituteAll (σ : Bindings) : List Ty → Bool → List Ty × Bool
  | [], p => ([], p)
  | t :: ts, p =>
    let (t, p) := substitute σ t p
    (substituteAll σ ts p).map (t :: ·) id

end

end FcLang.Types
