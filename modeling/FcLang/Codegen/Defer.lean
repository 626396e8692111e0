import FcLang.Lib.Exec

/-!
# Deferred expressions

A `defer` schedules an expression for the end of its block, however the block
ends. C has no such thing: the emitter keeps the scopes that are open, and in
front of every way to leave them it writes their deferred expressions out, under
the markers that stand around the exit.
-/

namespace FcLang.Codegen.Defer

/-- The type of a statement: `void`, `never`, or that of a value. -/
inductive Kind where
  | void | never | value
  deriving DecidableEq

/-- What happens without statements: a value, or (`inr`) a failed `?`, which returns. -/
abbrev Run (σ V : Type) := σ → Exec ((V ⊕ V) × σ)

abbrev Action (σ : Type) := σ → Exec σ

/-- `g_guards_suppressed` and `g_overflow_checked` -/
structure Context where
  guardsSuppressed : Bool
  overflowChecked : Bool
  deriving DecidableEq

/-- Guards are on and overflow is unchecked at every function boundary. -/
def Context.initial : Context := ⟨false, false⟩

/-- `checked`, `unchecked`, `unguarded` and `guarded`. -/
structure Marker where
  isOverflowAxis : Bool
  enable : Bool
  deriving DecidableEq

def Context.mark (c : Context) (m : Marker) : Context :=
  if m.isOverflowAxis then { c with overflowChecked := m.enable }
  else { c with guardsSuppressed := !m.enable }

abbrev Operation (σ V : Type) := Context → Run σ V

/-- A deferred expression; pass 2 lets it transfer no control. -/
abbrev Deferred (σ : Type) := Context → Action σ

mutual

/-- Expressions, as far as statements stand in them. -/
inductive Expr (σ V : Type) where
  | plain (kind : Kind) (op : Operation σ V)
  -- a `let`, an assignment or an operation on the value of an expression with statements
  | apply (kind : Kind) (e : Expr σ V) (op : V → Operation σ V)
  | block (kind : Kind) (stmts : List (Stmt σ V))
  -- a lone branch is the block of it, a missing one the empty block
  | ifExpr (kind : Kind) (cond : Expr σ V) (thenBody elseBody : List (Stmt σ V))
  | loop (kind : Kind) (body : List (Stmt σ V))
  -- over a slice: the number of rounds, and what a round binds
  | forLoop (iter : Expr σ V) (count : V → ℕ) (bind : V → ℕ → σ → σ) (body : List (Stmt σ V))
  | forRange (start stop : Expr σ V) (count : V → V → ℕ) (bind : V → V → ℕ → σ → σ)
      (body : List (Stmt σ V))
  | match (kind : Kind) (subject : Expr σ V) (arms : List (Arm σ V))
  | guard (m : Marker) (body : Expr σ V)

inductive Stmt (σ V : Type) where
  | expr (e : Expr σ V)
  | ret (value : Expr σ V)
  | retVoid
  | brk (value : Expr σ V)
  | brkVoid
  | cont
  | defer (d : Deferred σ)

/-- The pattern with its guard, which bind, and the body. -/
inductive Arm (σ V : Type) where
  | mk (test : V → Operation σ V) (body : List (Stmt σ V))

end

variable {σ V : Type}

def Expr.kind : Expr σ V → Kind
  | plain kind _ | apply kind _ _ | block kind _ | ifExpr kind _ _ _ | loop kind _
  | «match» kind _ _ => kind
  | forLoop _ _ _ _ | forRange _ _ _ _ _ => .void
  | guard _ body => body.kind

def Stmt.kind : Stmt σ V → Kind
  | expr e => e.kind
  | defer _ => .void
  | ret _ | retVoid | brk _ | brkVoid | cont => .never

/-- The type of a block is the type of its last statement. -/
def lastKind : List (Stmt σ V) → Kind
  | [] => .void
  | [s] => s.kind
  | _ :: s :: rest => lastKind (s :: rest)

/-- How an expression ends. -/
inductive Flow (V : Type) where
  | next (v : V)
  | ret (v : V)
  | brk (v : V)
  | cont

/-- Goes on with the value, if there is one. -/
def andThen (r : Exec (Flow V × σ)) (k : V → σ → Exec (Flow V × σ)) : Exec (Flow V × σ) :=
  r >>= fun p => match p with
    | (.next v, s) => k v s
    | (f, s) => .ret (f, s)

def runAll : List (Action σ) → σ → Exec σ
  | [], s => .ret s
  | d :: ds, s => d s >>= runAll ds

/-- Ends with `f` once the deferred expressions have run. -/
def endWith (ds : List (Action σ)) (f : Flow V) (s : σ) : Exec (Flow V × σ) :=
  runAll ds s >>= fun s => .ret (f, s)

variable [Inhabited V]

/-- What has no value has the value `default`. -/
def Kind.keep (kind : Kind) (v : V) : V := if kind = .value then v else default

/-- An expression of type `void` or `never` drops the value of its branch or arm. -/
def Kind.drop (kind : Kind) (r : Exec (Flow V × σ)) : Exec (Flow V × σ) :=
  andThen r fun v s => .ret (.next (kind.keep v), s)

/-- An operation, and what it still runs before a failed `?` returns. -/
def Run.exec (kind : Kind) (run : Run σ V) (ds : List (Action σ)) (s : σ) :
    Exec (Flow V × σ) :=
  run s >>= fun p => match p with
    | (.inl v, s) => .ret (.next (kind.keep v), s)
    | (.inr v, s) => endWith ds (.ret v) s

/-- A statement of a block, and the statements after it. -/
def blockThen (ds : List (Action σ)) (r : Exec (Flow V × σ)) (final : Bool)
    (rest : σ → Exec (Flow V × σ)) : Exec (Flow V × σ) :=
  r >>= fun p => match p with
    | (.next v, s) => if final then endWith ds (.next v) s else rest s
    | (f, s) => endWith ds f s

/-- A round of a loop, and the rounds after it. -/
def roundThen (kind : Kind) (r : Exec (Flow V × σ)) (again : σ → Exec (Flow V × σ)) :
    Exec (Flow V × σ) :=
  r >>= fun p => match p with
    | (.next _, s) | (.cont, s) => again s
    | (.brk v, s) => .ret (.next (kind.keep v), s)
    | (.ret v, s) => .ret (.ret v, s)

/-- `while (1)`, for at most `n` rounds. -/
def forever (kind : Kind) (body : σ → Exec (Flow V × σ)) : ℕ → σ → Exec (Flow V × σ)
  | 0, _ => .timeout
  | n + 1, s => roundThen kind (body s) (forever kind body n)

/-- The rounds of a `for` loop that are left. -/
def rounds (body : ℕ → σ → Exec (Flow V × σ)) : List ℕ → σ → Exec (Flow V × σ)
  | [], s => .ret (.next default, s)
  | i :: is, s => roundThen .void (body i s) (rounds body is)

section Source
variable (truth : V → Bool) (budget : ℕ)

mutual

/-- An expression within the markers `c`; a loop is cut off after `budget` rounds. -/
def Expr.eval (c : Context) : Expr σ V → σ → Exec (Flow V × σ)
  | .plain kind op, s => Run.exec kind (op c) [] s
  | .apply kind e op, s => andThen (e.eval c s) fun v => Run.exec kind (op v c) []
  | .block _ stmts, s => evalStmts c stmts [] s
  | .ifExpr kind e a b, s => andThen (e.eval c s) fun v s =>
    kind.drop (if truth v then evalStmts c a [] s else evalStmts c b [] s)
  | .loop kind body, s => forever kind (evalStmts c body []) budget s
  | .forLoop iter count bind body, s => andThen (iter.eval c s) fun v =>
    rounds (fun i s => evalStmts c body [] (bind v i s)) (List.range (count v))
  | .forRange start stop count bind body, s =>
    andThen (start.eval c s) fun v s => andThen (stop.eval c s) fun w =>
      rounds (fun i s => evalStmts c body [] (bind v w i s)) (List.range (count v w))
  | .match kind subject arms, s => andThen (subject.eval c s) (evalArms c kind arms)
  | .guard m body, s => body.eval (c.mark m) s

def Stmt.eval (c : Context) : Stmt σ V → σ → Exec (Flow V × σ)
  | .expr e, s => e.eval c s
  | .ret e, s => andThen (e.eval c s) fun v s => .ret (.ret v, s)
  | .retVoid, s => .ret (.ret default, s)
  | .brk e, s => andThen (e.eval c s) fun v s => .ret (.brk v, s)
  | .brkVoid, s => .ret (.brk default, s)
  | .cont, s => .ret (.cont, s)
  | .defer _, s => .ret (.next default, s)

/-- The statements of a block that are left. The deferred expressions so far
run when the block is left, the last one first, each within the markers around it. -/
def evalStmts (c : Context) : List (Stmt σ V) → List (Action σ) → σ → Exec (Flow V × σ)
  | [], ds, s => endWith ds (.next default) s
  | .defer d :: rest, ds, s => evalStmts c rest (d c :: ds) s
  | st :: rest, ds, s => blockThen ds (st.eval c s) rest.isEmpty (evalStmts c rest ds)

/-- The first arm whose test succeeds. The arms are exhaustive. -/
def evalArms (c : Context) (kind : Kind) : List (Arm σ V) → V → σ → Exec (Flow V × σ)
  | [], _, _ => .abort
  | .mk test body :: arms, v, s => andThen (Run.exec .value (test v c) [] s) fun b s =>
    if truth b then kind.drop (evalStmts c body [] s) else evalArms c kind arms v s

end

end Source

/-- What becomes of a value in a statement: `return v`, `_loop_result = v;
break`, an assignment to a named temporary, `v`, or `(void)v`. -/
inductive Use where
  | ret | brk | store | value | cast
  deriving DecidableEq

def Use.flow : Use → V → Flow V
  | .ret, v => .ret v
  | .brk, v => .brk v
  | .store, v | .value, v => .next v
  | .cast, _ => .next default

mutual

inductive CExpr (σ V : Type) where
  -- before a failed `?` returns, it runs the deferred expressions
  | plain (kind : Kind) (run : Run σ V) (ds : List (Action σ))
  | apply (kind : Kind) (e : CExpr σ V) (run : V → Run σ V) (ds : List (Action σ))
  -- `({ ... })`
  | block (stmts : List (CStmt σ V))
  | cond (c a b : CExpr σ V)
  -- a statement expression around an `if` whose branches may set the result
  | select (c : CExpr σ V) (a b : List (CStmt σ V))
  | ifStmt (c : CExpr σ V) (a b : List (CStmt σ V))
  | while (kind : Kind) (body : List (CStmt σ V))
  | forLoop (iter : CExpr σ V) (count : V → ℕ) (bind : V → ℕ → σ → σ) (body : List (CStmt σ V))
  -- the end goes to a temporary before the loop is entered
  | forRange (stop start : CExpr σ V) (count : V → V → ℕ) (bind : V → V → ℕ → σ → σ)
      (body : List (CStmt σ V))
  | match (kind : Kind) (subject : CExpr σ V) (arms : List (CArm σ V))

inductive CStmt (σ V : Type) where
  | use (u : Use) (e : CExpr σ V)
  -- the value goes to a temporary of this type, then the deferred expressions run
  | save (kind : Kind) (e : CExpr σ V) (ds : List (Action σ)) (u : Use)
  | run (ds : List (Action σ))
  | ret
  | brk
  | cont

inductive CArm (σ V : Type) where
  | mk (test : V → Run σ V) (ds : List (Action σ)) (body : List (CStmt σ V))

end

/-- A C statement, which has no value to cast or store. -/
def CExpr.isStatement : CExpr σ V → Bool
  | ifStmt _ _ _ | forLoop _ _ _ _ | forRange _ _ _ _ _ => true
  | .while kind _ => kind != .value
  | _ => false

section Target
variable (truth : V → Bool) (budget : ℕ)

mutual

def CExpr.exec : CExpr σ V → σ → Exec (Flow V × σ)
  | .plain kind run ds, s => Run.exec kind run ds s
  | .apply kind e run ds, s => andThen (e.exec s) fun v => Run.exec kind (run v) ds
  | .block stmts, s => execStmts stmts default s
  | .cond c a b, s => andThen (c.exec s) fun v s => if truth v then a.exec s else b.exec s
  | .select c a b, s => andThen (c.exec s) fun v s =>
    if truth v then execStmts a default s else execStmts b default s
  | .ifStmt c a b, s => andThen (c.exec s) fun v s =>
    Kind.drop .void (if truth v then execStmts a default s else execStmts b default s)
  | .while kind body, s => forever kind (execStmts body default) budget s
  | .forLoop iter count bind body, s => andThen (iter.exec s) fun v =>
    rounds (fun i s => execStmts body default (bind v i s)) (List.range (count v))
  | .forRange stop start count bind body, s =>
    andThen (stop.exec s) fun w s => andThen (start.exec s) fun v =>
      rounds (fun i s => execStmts body default (bind v w i s)) (List.range (count v w))
  | .match kind subject arms, s => andThen (subject.exec s) (execArms kind arms)

def CStmt.exec : CStmt σ V → σ → Exec (Flow V × σ)
  | .use u e, s =>
    -- `(void)(if (c) ...)` and the like are not C
    if e.isStatement && u != .value then .abort
    else andThen (e.exec s) fun v s => .ret (u.flow v, s)
  | .save kind e ds u, s =>
    -- a variable has no type `void`
    if kind = .value then andThen (e.exec s) fun v s => endWith ds (u.flow v) s else .abort
  | .run ds, s => endWith ds (.next default) s
  | .ret, s => .ret (.ret default, s)
  | .brk, s => .ret (.brk default, s)
  | .cont, s => .ret (.cont, s)

/-- The value is the last statement's. -/
def execStmts : List (CStmt σ V) → V → σ → Exec (Flow V × σ)
  | [], v, s => .ret (.next v, s)
  | c :: cs, _, s => andThen (c.exec s) (execStmts cs)

def execArms (kind : Kind) : List (CArm σ V) → V → σ → Exec (Flow V × σ)
  | [], _, _ => .abort
  | .mk test ds body :: arms, v, s => andThen (Run.exec .value (test v) ds s) fun b s =>
    if truth b then kind.drop (execStmts body default s) else execArms kind arms v s

end

end Target

/-- A scope that is open: its deferred expressions so far, the last one first. -/
structure DeferScope (δ : Type) where
  defers : List δ
  isLoop : Bool

section
variable {δ : Type}

def emitDefersToLoop : List (DeferScope δ) → List δ
  | [] => []
  | ds :: parent => if ds.isLoop then ds.defers else ds.defers ++ emitDefersToLoop parent

def emitDefersToFunc (chain : List (DeferScope δ)) : List δ := chain.flatMap DeferScope.defers

def hasPendingDefers (chain : List (DeferScope δ)) : Bool :=
  chain.any fun ds => !ds.defers.isEmpty

end

/-- `emit_scope_defers`: the deferred expressions as they are emitted within these markers. -/
def emitScopeDefers (c : Context) (ds : List (Deferred σ)) : List (Action σ) := ds.map (· c)

def emitDefers (ds : List (Action σ)) : List (CStmt σ V) :=
  if ds.isEmpty then [] else [.run ds]

/-- What a block does with the value of its last statement. -/
inductive TailMode where
  | value | discard | ret | assign
  deriving DecidableEq

/-- What is emitted as a C statement, not as an expression. -/
def emitsStatement : Expr σ V → Bool
  | .forLoop _ _ _ _ | .forRange _ _ _ _ _ => true
  | .ifExpr kind _ _ _ | .loop kind _ => kind != .value
  | _ => false

/-- `defer_emits_statement`: also within markers. -/
def deferEmitsStatement : Expr σ V → Bool
  | .guard _ body => deferEmitsStatement body
  | e => emitsStatement e

/-- The deferred expressions of the block are in front of its last statement's
value, or after a statement that never ends. -/
def alreadyHandled (tail : TailMode) (last : Stmt σ V) : Bool :=
  last.kind != .void && match last with
    | .ret _ | .retVoid => tail != .ret
    | _ => true

/-- How a block uses the temporary for its value. -/
def TailMode.blkUse (tail : TailMode) : Use := if tail = .value then .value else .cast

/-- A statement that is an expression, emitted as `e` within the markers `c`. -/
def emitExprStmt (tail : TailMode) (chain : List (DeferScope (Deferred σ))) (c : Context)
    (own : List (Deferred σ)) (final : Bool) (isStatement : Bool) (kind : Kind) (e : CExpr σ V) :
    CStmt σ V :=
  if isStatement then .use .value e
  else if final && tail == .assign && kind == .value then
    if own.isEmpty then .use .store e else .save kind e (emitScopeDefers c own) .store
  else if final && tail == .ret && kind == .value then
    if hasPendingDefers chain then
      .save kind e (emitScopeDefers c (emitDefersToFunc chain)) .ret
    else .use .ret e
  else if tail != .ret && final && kind != .void && !own.isEmpty then
    .save kind e (emitScopeDefers c own) tail.blkUse
  else if kind != .void && (!final || tail != .value) then .use .cast e
  else .use .value e

/-- A branch of an `if` with a value, emitted as statements and as a statement
expression: the value is stored, unless there is none. -/
def emitBranchInto (kind : Kind) (stmts value : List (CStmt σ V)) : List (CStmt σ V) :=
  if kind = .never then stmts else [.use .store (.block value)]

mutual

/-- An expression inside the open scopes `chain` and the markers `c`. -/
def emitExpr (chain : List (DeferScope (Deferred σ))) (c : Context) : Expr σ V → CExpr σ V
  | .plain kind op => .plain kind (op c) (emitScopeDefers c (emitDefersToFunc chain))
  | .apply kind e op =>
    .apply kind (emitExpr chain c e) (fun v => op v c)
      (emitScopeDefers c (emitDefersToFunc chain))
  | .block _ stmts => .block (emitBlockStmts .value false chain c [] stmts)
  | .ifExpr kind e a b =>
    if kind ≠ .value then
      .ifStmt (emitExpr chain c e) (emitBlockStmts .discard false chain c [] a)
        (emitBlockStmts .discard false chain c [] b)
    else if lastKind a ≠ .never ∧ lastKind b ≠ .never then
      .cond (emitExpr chain c e) (.block (emitBlockStmts .value false chain c [] a))
        (.block (emitBlockStmts .value false chain c [] b))
    else .select (emitExpr chain c e)
      (emitBranchInto (lastKind a) (emitBlockStmts .discard false chain c [] a)
        (emitBlockStmts .value false chain c [] a))
      (emitBranchInto (lastKind b) (emitBlockStmts .discard false chain c [] b)
        (emitBlockStmts .value false chain c [] b))
  | .loop kind body => .while kind (emitBlockStmts .discard true chain c [] body)
  | .forLoop iter count bind body =>
    .forLoop (emitExpr chain c iter) count bind (emitBlockStmts .discard true chain c [] body)
  | .forRange start stop count bind body =>
    .forRange (emitExpr chain c stop) (emitExpr chain c start) count bind
      (emitBlockStmts .discard true chain c [] body)
  | .match kind subject arms => .match kind (emitExpr chain c subject) (emitArms kind chain c arms)
  | .guard m body => emitExpr chain (c.mark m) body

/-- A statement of the block with these deferred expressions. -/
def emitStmt (tail : TailMode) (chain : List (DeferScope (Deferred σ))) (c : Context)
    (own : List (Deferred σ)) (final : Bool) : Stmt σ V → List (CStmt σ V)
  | .expr e =>
    [emitExprStmt tail chain c own final (emitsStatement e) e.kind (emitExpr chain c e)]
  | .ret e =>
    if hasPendingDefers chain then
      [.save e.kind (emitExpr chain c e) (emitScopeDefers c (emitDefersToFunc chain)) .ret]
    else [.use .ret (emitExpr chain c e)]
  | .retVoid => emitDefers (emitScopeDefers c (emitDefersToFunc chain)) ++ [.ret]
  | .brk e =>
    if hasPendingDefers chain then
      [.save e.kind (emitExpr chain c e) (emitScopeDefers c (emitDefersToLoop chain)) .brk]
    else [.use .brk (emitExpr chain c e)]
  | .brkVoid => emitDefers (emitScopeDefers c (emitDefersToLoop chain)) ++ [.brk]
  | .cont => emitDefers (emitScopeDefers c (emitDefersToLoop chain)) ++ [.cont]
  | .defer _ => []

/-- The statements of a block that are left, inside the scopes `outer`. -/
def emitBlockStmts (tail : TailMode) (isLoop : Bool) (outer : List (DeferScope (Deferred σ)))
    (c : Context) : List (Deferred σ) → List (Stmt σ V) → List (CStmt σ V)
  | own, [] => emitDefers (emitScopeDefers c own)
  | own, .defer d :: rest => emitBlockStmts tail isLoop outer c (d :: own) rest
  | own, s :: rest =>
    emitStmt tail (⟨own, isLoop⟩ :: outer) c own rest.isEmpty s ++
      if rest.isEmpty && alreadyHandled tail s then []
      else emitBlockStmts tail isLoop outer c own rest

def emitArms (kind : Kind) (chain : List (DeferScope (Deferred σ))) (c : Context) :
    List (Arm σ V) → List (CArm σ V)
  | [] => []
  | .mk test body :: arms =>
    .mk (fun v => test v c) (emitScopeDefers c (emitDefersToFunc chain))
      (emitBlockStmts (if kind = .value then .assign else .discard) false chain c [] body) ::
      emitArms kind chain c arms

end

end FcLang.Codegen.Defer
