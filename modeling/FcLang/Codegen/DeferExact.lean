import FcLang.Codegen.Defer

/-!
# The emitted code runs the deferred expressions of the source

An emitted expression does what the expression does and then, where that
transfers control, runs the deferred expressions of the scopes it leaves. A
block says how its last value is used on top of that. A function body leaves no
scope, so what is emitted for it means what it means, unless a deferred
expression means something else within the markers of an exit, or the order of
the two ends of a range shows.
-/

namespace FcLang.Codegen.Defer

variable {σ V : Type} [Inhabited V]

/-- A deferred expression that waits, and the markers it stands within. -/
abbrev Waiting (σ : Type) := Deferred σ × Context

def Waiting.action (d : Waiting σ) : Action σ := d.1 d.2

/-- Deferred expressions that mean within `c` what they mean where they stand. -/
def SameWithin (c : Context) (ds : List (Waiting σ)) : Prop := ∀ d ∈ ds, d.1 c = d.action

section
variable {δ ε : Type}

def DeferScope.map (f : δ → ε) (ds : DeferScope δ) : DeferScope ε := ⟨ds.defers.map f, ds.isLoop⟩

end

/-- The scope of a block within the markers `c`. -/
def DeferScope.within (c : Context) (own : List (Deferred σ)) (isLoop : Bool) :
    DeferScope (Waiting σ) := ⟨own.map fun d => (d, c), isLoop⟩

/-- The scopes as the emitter keeps them. -/
def written (chain : List (DeferScope (Waiting σ))) : List (DeferScope (Deferred σ)) :=
  chain.map (DeferScope.map Prod.fst)

/-- The scopes with what their deferred expressions do where they stand. -/
def actions (chain : List (DeferScope (Waiting σ))) : List (DeferScope (Action σ)) :=
  chain.map (DeferScope.map Waiting.action)

/-- The operation of an expression of type `never` does not give a value. -/
def Kind.Admits (kind : Kind) (run : Run σ V) : Prop :=
  kind = .never → ∀ s v s', run s ≠ .ret (.inl v, s')

/-- It is a `?` that can fail. -/
def Run.Fails (run : Run σ V) : Prop := ∃ s v s', run s = .ret (.inr v, s')

def Run.Accepted (kind : Kind) (chain : List (DeferScope (Waiting σ))) (c : Context)
    (run : Run σ V) : Prop :=
  kind.Admits run ∧ (run.Fails → SameWithin c (emitDefersToFunc chain))

/-- What can be saved before deferred expressions run: not a `match`, block or
call of type `never`, which would need a variable of type `void`. -/
def Stmt.Savable : Stmt σ V → Prop
  | .expr e => e.kind = .never → emitsStatement e
  | _ => True

section
variable (truth : V → Bool) (budget : ℕ)

/-- It changes nothing and transfers no control. -/
def Expr.Reads (c : Context) (e : Expr σ V) : Prop :=
  ∀ s, e.eval truth budget c s = .abort ∨ ∃ v, e.eval truth budget c s = .ret (.next v, s)

def Expr.IsConstant (c : Context) (e : Expr σ V) : Prop :=
  ∃ v, ∀ s, e.eval truth budget c s = .ret (.next v, s)

/-- The two ends of a range whose order does not show. -/
def Expr.Indifferent (c : Context) (start stop : Expr σ V) : Prop :=
  start.IsConstant truth budget c ∨ stop.IsConstant truth budget c ∨
    start.Reads truth budget c ∧ stop.Reads truth budget c

mutual

/-- Types are as pass 2 gives them, and operands have values. Inside the scopes `chain` and the
markers `c`, what transfers control leaves deferred expressions that mean the same within `c`,
and what is returned past any of them is a value. -/
def Expr.Accepted (chain : List (DeferScope (Waiting σ))) (c : Context) : Expr σ V → Prop
  | .plain kind op => (op c).Accepted kind chain c
  | .apply kind e op => e.kind = .value ∧ e.Accepted chain c ∧ ∀ v, (op v c).Accepted kind chain c
  | .block kind stmts => kind = lastKind stmts ∧ AcceptedStmts false false chain c [] stmts
  | .ifExpr kind e a b => e.kind = .value ∧ e.Accepted chain c ∧
    (AcceptedStmts false false chain c [] a ∧ AcceptedStmts false false chain c [] b) ∧
    (kind = .never → lastKind a = .never ∧ lastKind b = .never)
  | .loop kind body => kind ≠ .never ∧ AcceptedStmts false true chain c [] body
  | .forLoop iter _ _ body =>
    iter.kind = .value ∧ iter.Accepted chain c ∧ AcceptedStmts false true chain c [] body
  | .forRange start stop _ _ body => (start.kind = .value ∧ start.Accepted chain c) ∧
    (stop.kind = .value ∧ stop.Accepted chain c) ∧ start.Indifferent truth budget c stop ∧
    AcceptedStmts false true chain c [] body
  | .match kind subject arms =>
    subject.kind = .value ∧ subject.Accepted chain c ∧ AcceptedArms kind chain c arms
  | .guard m body =>
    body.Accepted chain (c.mark m) ∧ (body.kind = .never → deferEmitsStatement body = false)

def Stmt.Accepted (chain : List (DeferScope (Waiting σ))) (c : Context) : Stmt σ V → Prop
  | .expr e => e.Accepted chain c
  | .ret e => e.Accepted chain c ∧ (hasPendingDefers chain = true → e.kind = .value) ∧
    deferEmitsStatement e = false ∧ SameWithin c (emitDefersToFunc chain)
  | .brk e => e.Accepted chain c ∧ e.kind = .value ∧ SameWithin c (emitDefersToLoop chain)
  | .retVoid => SameWithin c (emitDefersToFunc chain)
  | .brkVoid | .cont => SameWithin c (emitDefersToLoop chain)
  | .defer _ => True

/-- The statements of a block that are left; `own` are the deferred expressions of
the block so far. -/
def AcceptedStmts (isBody isLoop : Bool) (outer : List (DeferScope (Waiting σ))) (c : Context)
    (own : List (Deferred σ)) : List (Stmt σ V) → Prop
  | [] => True
  | .defer d :: rest => AcceptedStmts isBody isLoop outer c (d :: own) rest
  | s :: rest => s.Accepted (.within c own isLoop :: outer) c ∧
    (rest.isEmpty = true → own.isEmpty = false → isBody = false → s.Savable) ∧
    AcceptedStmts isBody isLoop outer c own rest

def AcceptedArms (kind : Kind) (chain : List (DeferScope (Waiting σ))) (c : Context) :
    List (Arm σ V) → Prop
  | [] => True
  | .mk test body :: arms => (∀ v, (test v c).Fails → SameWithin c (emitDefersToFunc chain)) ∧
    AcceptedStmts false false chain c [] body ∧ (kind = .never → lastKind body = .never) ∧
    AcceptedArms kind chain c arms

end

end

omit [Inhabited V] in
@[simp] theorem endWith_nil (f : Flow V) (s : σ) : endWith [] f s = .ret (f, s) := rfl

theorem runAll_append (ds es : List (Action σ)) :
    runAll (ds ++ es) = fun s => runAll ds s >>= runAll es := by
  induction ds with
  | nil => rfl
  | cons d ds ih =>
    funext s
    rw [List.cons_append, runAll, runAll, ih, Exec.bind_assoc]

omit [Inhabited V] in
theorem endWith_append (ds es : List (Action σ)) (f : Flow V) (s : σ) :
    endWith (ds ++ es) f s = endWith ds f s >>= fun p => endWith es p.1 p.2 := by
  simp [endWith, runAll_append]

/-- Goes on with the value, or runs the deferred expressions of the scopes that
the transfer leaves. -/
def orLeave (chain : List (DeferScope (Action σ))) (k : V → σ → Exec (Flow V × σ))
    (p : Flow V × σ) : Exec (Flow V × σ) :=
  match p.1 with
  | .next v => k v p.2
  | .ret v => endWith (emitDefersToFunc chain) (.ret v) p.2
  | .brk v => endWith (emitDefersToLoop chain) (.brk v) p.2
  | .cont => endWith (emitDefersToLoop chain) .cont p.2

/-- With the value itself. -/
def done (v : V) (s : σ) : Exec (Flow V × σ) := .ret (.next v, s)

/-- What becomes of the value of a block whose last statement has this type. -/
def TailMode.flow (tail : TailMode) (kind : Kind) (v : V) : Flow V :=
  match tail with
  | .value | .assign => .next v
  | .discard => .next default
  | .ret => if kind = .value then .ret v else .next default

omit [Inhabited V] in
@[simp] theorem andThen_done (r : Exec (Flow V × σ)) : andThen r done = r := by
  rcases r with ⟨f, s⟩ | _ | _
  · cases f <;> rfl
  · rfl
  · rfl

omit [Inhabited V] in
@[simp] theorem andThen_ret_next (v : V) (s : σ) (k : V → σ → Exec (Flow V × σ)) :
    andThen (.ret (.next v, s)) k = k v s := rfl

omit [Inhabited V] in
theorem andThen_endWith {f : Flow V} (hf : ∀ v, f ≠ .next v) (ds : List (Action σ)) (s : σ)
    (k : V → σ → Exec (Flow V × σ)) : andThen (endWith ds f s) k = endWith ds f s := by
  cases f with
  | next v => exact absurd rfl (hf v)
  | _ => simp [andThen, endWith]

omit [Inhabited V] in
/-- A transfer that runs deferred expressions is still a transfer. -/
theorem andThen_orLeave (r : Exec (Flow V × σ)) (chain : List (DeferScope (Action σ)))
    (j k : V → σ → Exec (Flow V × σ)) : andThen (r >>= orLeave chain j) k =
      r >>= orLeave chain fun v s => andThen (j v s) k := by
  rcases r with ⟨f, s⟩ | _ | _
  · cases f with
    | next v => rfl
    | _ => exact andThen_endWith (by simp) _ _ _
  · rfl
  · rfl

omit [Inhabited V] in
theorem orLeave_andThen (r : Exec (Flow V × σ)) (chain : List (DeferScope (Action σ)))
    (j k : V → σ → Exec (Flow V × σ)) : andThen r j >>= orLeave chain k =
      r >>= orLeave chain fun v s => j v s >>= orLeave chain k := by
  rcases r with ⟨f, s⟩ | _ | _
  · cases f <;> rfl
  · rfl
  · rfl

omit [Inhabited V] in
/-- Only values that the run can give matter. -/
theorem bind_orLeave_congr {r : Exec (Flow V × σ)} {chain : List (DeferScope (Action σ))}
    {j k : V → σ → Exec (Flow V × σ)}
    (h : ∀ v s, r = .ret (.next v, s) → j v s = k v s) :
    r >>= orLeave chain j = r >>= orLeave chain k := by
  rcases r with ⟨f, s⟩ | _ | _
  · cases f with
    | next v => exact h v s rfl
    | _ => rfl
  · rfl
  · rfl

omit [Inhabited V] in
/-- The deferred expressions of a scope run first, then those of the scopes around it. -/
theorem orLeave_own (own : List (Action σ)) (isLoop : Bool) (outer : List (DeferScope (Action σ)))
    (j k : V → σ → Exec (Flow V × σ)) {f : Flow V} (hf : ∀ v, f ≠ .next v) (s : σ) :
    orLeave (⟨own, isLoop⟩ :: outer) j (f, s) =
      endWith own f s >>= orLeave (⟨[], isLoop⟩ :: outer) k := by
  have hfun : endWith own f s >>= (fun p => endWith (emitDefersToFunc outer) p.1 p.2) =
      endWith (emitDefersToFunc (⟨own, isLoop⟩ :: outer)) f s := by
    simp only [emitDefersToFunc, List.flatMap_cons, endWith_append]
  have hloop : endWith own f s >>= (fun p => endWith (emitDefersToLoop (⟨[], isLoop⟩ :: outer))
      p.1 p.2) = endWith (emitDefersToLoop (⟨own, isLoop⟩ :: outer)) f s := by
    cases isLoop with
    | true => simp [emitDefersToLoop]
    | false => simp [emitDefersToLoop, endWith_append]
  cases f with
  | next v => exact absurd rfl (hf v)
  | ret v =>
    simp only [orLeave, ← hfun]
    simp [endWith, orLeave, emitDefersToFunc]
  | brk v =>
    simp only [orLeave, ← hloop]
    simp [endWith, orLeave]
  | cont =>
    simp only [orLeave, ← hloop]
    simp [endWith, orLeave]

omit [Inhabited V] in
/-- A scope that has deferred nothing does not count, except for a `break` of its loop. -/
theorem orLeave_nil (outer : List (DeferScope (Action σ))) (k : V → σ → Exec (Flow V × σ)) :
    orLeave (⟨[], false⟩ :: outer) k = orLeave outer k := by
  funext p
  obtain ⟨f, s⟩ := p
  cases f <;> simp [orLeave, emitDefersToFunc, emitDefersToLoop]

section
variable {δ ε : Type}

theorem hasPendingDefers_cons (own : List δ) (isLoop : Bool)
    (outer : List (DeferScope δ)) : hasPendingDefers (⟨own, isLoop⟩ :: outer) =
      (!own.isEmpty || hasPendingDefers outer) := rfl

/-- Without deferred expressions that wait, leaving runs nothing. -/
theorem emitDefers_of_not_pending {chain : List (DeferScope δ)}
    (h : hasPendingDefers chain = false) :
    emitDefersToFunc chain = [] ∧ emitDefersToLoop chain = [] := by
  induction chain with
  | nil => exact ⟨rfl, rfl⟩
  | cons ds outer ih =>
    obtain ⟨own, isLoop⟩ := ds
    simp only [hasPendingDefers_cons, Bool.or_eq_false_iff, Bool.not_eq_false',
      List.isEmpty_iff] at h
    obtain ⟨rfl, ho⟩ := h
    obtain ⟨hf, hl⟩ := ih ho
    simp [emitDefersToFunc, emitDefersToLoop, hl]
    simpa [emitDefersToFunc] using hf

theorem emitDefersToFunc_map (f : δ → ε) (chain : List (DeferScope δ)) :
    emitDefersToFunc (chain.map (DeferScope.map f)) = (emitDefersToFunc chain).map f := by
  rw [emitDefersToFunc, emitDefersToFunc, List.flatMap_map, List.map_flatMap]
  rfl

theorem emitDefersToLoop_map (f : δ → ε) (chain : List (DeferScope δ)) :
    emitDefersToLoop (chain.map (DeferScope.map f)) = (emitDefersToLoop chain).map f := by
  induction chain with
  | nil => rfl
  | cons ds outer ih =>
    rw [List.map_cons, emitDefersToLoop, emitDefersToLoop, ih, DeferScope.map]
    split_ifs
    · rfl
    · rw [List.map_append]

theorem hasPendingDefers_map (f : δ → ε) (chain : List (DeferScope δ)) :
    hasPendingDefers (chain.map (DeferScope.map f)) = hasPendingDefers chain := by
  simp [hasPendingDefers, DeferScope.map, Function.comp_def]

end

/-- Within markers that do not matter, what is written out does what it does in its place. -/
theorem emitScopeDefers_of_same {c : Context} {ds : List (Waiting σ)} (h : SameWithin c ds) :
    emitScopeDefers c (ds.map Prod.fst) = ds.map Waiting.action := by
  rw [emitScopeDefers, List.map_map]
  exact List.map_congr_left h

theorem emitScopeDefers_toFunc {c : Context} {chain : List (DeferScope (Waiting σ))}
    (h : SameWithin c (emitDefersToFunc chain)) :
    emitScopeDefers c (emitDefersToFunc (written chain)) = emitDefersToFunc (actions chain) := by
  rw [written, actions, emitDefersToFunc_map, emitDefersToFunc_map, emitScopeDefers_of_same h]

theorem emitScopeDefers_toLoop {c : Context} {chain : List (DeferScope (Waiting σ))}
    (h : SameWithin c (emitDefersToLoop chain)) :
    emitScopeDefers c (emitDefersToLoop (written chain)) = emitDefersToLoop (actions chain) := by
  rw [written, actions, emitDefersToLoop_map, emitDefersToLoop_map, emitScopeDefers_of_same h]

theorem written_cons (c : Context) (own : List (Deferred σ)) (isLoop : Bool)
    (outer : List (DeferScope (Waiting σ))) :
    written (.within c own isLoop :: outer) = ⟨own, isLoop⟩ :: written outer := by
  simp [written, DeferScope.within, DeferScope.map, Function.comp_def]

theorem actions_cons (c : Context) (own : List (Deferred σ)) (isLoop : Bool)
    (outer : List (DeferScope (Waiting σ))) :
    actions (.within c own isLoop :: outer) =
      ⟨emitScopeDefers c own, isLoop⟩ :: actions outer := by
  simp [actions, DeferScope.within, DeferScope.map, Function.comp_def, Waiting.action,
    emitScopeDefers]

section
variable {truth : V → Bool} {budget : ℕ}

omit [Inhabited V] in
theorem lastKind_cons (st : Stmt σ V) (rest : List (Stmt σ V)) :
    lastKind (st :: rest) = if rest.isEmpty then st.kind else lastKind rest := by
  cases rest with
  | nil => rfl
  | cons s rest => rfl

theorem evalStmts_cons {st : Stmt σ V} (hd : ∀ d, st ≠ .defer d) (rest : List (Stmt σ V))
    (c : Context) (ds : List (Action σ)) (s : σ) : evalStmts truth budget c (st :: rest) ds s =
      blockThen ds (st.eval truth budget c s) rest.isEmpty (evalStmts truth budget c rest ds) := by
  rw [evalStmts]
  exact hd

theorem acceptedStmts_cons {st : Stmt σ V} (hd : ∀ d, st ≠ .defer d) {rest : List (Stmt σ V)}
    {isBody isLoop : Bool} {outer : List (DeferScope (Waiting σ))} {c : Context}
    {own : List (Deferred σ)} :
    AcceptedStmts truth budget isBody isLoop outer c own (st :: rest) ↔
      st.Accepted truth budget (.within c own isLoop :: outer) c ∧
      (rest.isEmpty = true → own.isEmpty = false → isBody = false → st.Savable) ∧
      AcceptedStmts truth budget isBody isLoop outer c own rest := by
  rw [AcceptedStmts]
  exact hd

omit [Inhabited V] in
theorem emitBlockStmts_cons {st : Stmt σ V} (hd : ∀ d, st ≠ .defer d) (rest : List (Stmt σ V))
    (tail : TailMode) (isLoop : Bool) (outer : List (DeferScope (Deferred σ))) (c : Context)
    (own : List (Deferred σ)) : emitBlockStmts tail isLoop outer c own (st :: rest) =
      emitStmt tail (⟨own, isLoop⟩ :: outer) c own rest.isEmpty st ++
        if rest.isEmpty && alreadyHandled tail st then []
        else emitBlockStmts tail isLoop outer c own rest := by
  rw [emitBlockStmts]
  exact hd

/-- An expression of this type can have the value. -/
def Kind.Fits (kind : Kind) (v : V) : Prop := kind ≠ .never ∧ (kind = .void → v = default)

theorem Kind.fits_keep {kind : Kind} (h : kind ≠ .never) (v : V) : kind.Fits (kind.keep v) :=
  ⟨h, fun hv => by simp [Kind.keep, hv]⟩

omit [Inhabited V] in
theorem andThen_eq_next {r : Exec (Flow V × σ)} {k : V → σ → Exec (Flow V × σ)} {v : V} {s : σ} :
    andThen r k = .ret (.next v, s) ↔
      ∃ w s₁, r = .ret (.next w, s₁) ∧ k w s₁ = .ret (.next v, s) := by
  rcases r with ⟨f, s₁⟩ | _ | _
  · cases f <;> simp [andThen]
  · simp [andThen]
  · simp [andThen]

omit [Inhabited V] in
theorem endWith_eq_next {ds : List (Action σ)} {f : Flow V} {v : V} {s s' : σ}
    (h : endWith ds f s = .ret (.next v, s')) : f = .next v := by
  obtain ⟨s₁, -, h⟩ := Exec.bind_eq_ret.1 h
  cases h
  rfl

theorem Kind.drop_eq_next {kind : Kind} {r : Exec (Flow V × σ)} {v : V} {s : σ}
    (h : kind.drop r = .ret (.next v, s)) : ∃ w, r = .ret (.next w, s) ∧ v = kind.keep w := by
  obtain ⟨w, s₁, hr, h⟩ := andThen_eq_next.1 h
  cases h
  exact ⟨w, hr, rfl⟩

theorem Run.exec_fits {kind : Kind} {run : Run σ V} (ha : kind.Admits run)
    {ds : List (Action σ)} {s s' : σ} {v : V}
    (h : Run.exec kind run ds s = .ret (.next v, s')) : kind.Fits v := by
  obtain ⟨⟨r, s₁⟩, hr, h⟩ := Exec.bind_eq_ret.1 h
  cases r with
  | inl w =>
    cases h
    exact Kind.fits_keep (fun hn => ha hn _ _ _ hr) w
  | inr w => cases endWith_eq_next h

theorem forever_fits {kind : Kind} (hk : kind ≠ .never) {body : σ → Exec (Flow V × σ)} {n : ℕ}
    {s s' : σ} {v : V} (h : forever kind body n s = .ret (.next v, s')) : kind.Fits v := by
  induction n generalizing s with
  | zero => cases h
  | succ n ih =>
    obtain ⟨⟨f, s₁⟩, -, h⟩ := Exec.bind_eq_ret.1 h
    cases f with
    | next w => exact ih h
    | cont => exact ih h
    | ret w => cases h
    | brk w =>
      cases h
      exact Kind.fits_keep hk w

theorem rounds_fits {body : ℕ → σ → Exec (Flow V × σ)} {is : List ℕ} {s s' : σ} {v : V}
    (h : rounds body is s = .ret (.next v, s')) : Kind.Fits .void v := by
  induction is generalizing s with
  | nil =>
    cases h
    exact ⟨by simp, fun _ => rfl⟩
  | cons i is ih =>
    obtain ⟨⟨f, s₁⟩, -, h⟩ := Exec.bind_eq_ret.1 h
    cases f with
    | next w => exact ih h
    | cont => exact ih h
    | ret w => cases h
    | brk w =>
      cases h
      exact Kind.fits_keep (by simp) w

mutual

/-- The value of an expression is one of its type. -/
theorem Expr.eval_fits : ∀ (e : Expr σ V) {c : Context} {chain : List (DeferScope (Waiting σ))}
    {s s' : σ} {v : V}, e.Accepted truth budget chain c →
    e.eval truth budget c s = .ret (.next v, s') → e.kind.Fits v
  | .plain kind op, c, chain, s, s', v, ha, h => by
    rw [Expr.Accepted] at ha
    rw [Expr.eval] at h
    exact Run.exec_fits ha.1 h
  | .apply kind e op, c, chain, s, s', v, ha, h => by
    rw [Expr.Accepted] at ha
    rw [Expr.eval, andThen_eq_next] at h
    obtain ⟨w, s₁, -, h⟩ := h
    exact Run.exec_fits (ha.2.2 w).1 h
  | .block kind stmts, c, chain, s, s', v, ha, h => by
    rw [Expr.Accepted] at ha
    rw [Expr.eval] at h
    exact ha.1 ▸ evalStmts_fits stmts ha.2 h
  | .ifExpr kind e a b, c, chain, s, s', v, ha, h => by
    rw [Expr.Accepted] at ha
    obtain ⟨-, -, ⟨haa, hab⟩, hn⟩ := ha
    rw [Expr.eval, andThen_eq_next] at h
    obtain ⟨w, s₁, -, h⟩ := h
    obtain ⟨x, hx, rfl⟩ := Kind.drop_eq_next h
    refine Kind.fits_keep (fun hk => ?_) x
    split at hx
    · exact (evalStmts_fits a haa hx).1 (hn hk).1
    · exact (evalStmts_fits b hab hx).1 (hn hk).2
  | .loop kind body, c, chain, s, s', v, ha, h => by
    rw [Expr.Accepted] at ha
    rw [Expr.eval] at h
    exact forever_fits ha.1 h
  | .forLoop iter count bind body, c, chain, s, s', v, _, h => by
    rw [Expr.eval, andThen_eq_next] at h
    obtain ⟨w, s₁, -, h⟩ := h
    exact rounds_fits h
  | .forRange start stop count bind body, c, chain, s, s', v, _, h => by
    rw [Expr.eval, andThen_eq_next] at h
    obtain ⟨w, s₁, -, h⟩ := h
    obtain ⟨x, s₂, -, h⟩ := andThen_eq_next.1 h
    exact rounds_fits h
  | .match kind subject arms, c, chain, s, s', v, ha, h => by
    rw [Expr.Accepted] at ha
    rw [Expr.eval, andThen_eq_next] at h
    obtain ⟨w, s₁, -, h⟩ := h
    exact evalArms_fits kind arms ha.2.2 h
  | .guard m body, c, chain, s, s', v, ha, h => by
    rw [Expr.Accepted] at ha
    rw [Expr.eval] at h
    exact body.eval_fits ha.1 h

theorem Stmt.eval_fits : ∀ (st : Stmt σ V) {c : Context} {chain : List (DeferScope (Waiting σ))}
    {s s' : σ} {v : V}, st.Accepted truth budget chain c →
    st.eval truth budget c s = .ret (.next v, s') → st.kind.Fits v
  | .expr e, c, chain, s, s', v, ha, h => by
    rw [Stmt.Accepted] at ha
    rw [Stmt.eval] at h
    exact e.eval_fits ha h
  | .ret e, c, chain, s, s', v, _, h | .brk e, c, chain, s, s', v, _, h => by
    rw [Stmt.eval, andThen_eq_next] at h
    obtain ⟨w, s₁, -, h⟩ := h
    cases h
  | .retVoid, c, chain, s, s', v, _, h | .brkVoid, c, chain, s, s', v, _, h
  | .cont, c, chain, s, s', v, _, h => by
    rw [Stmt.eval] at h
    cases h
  | .defer d, c, chain, s, s', v, _, h => by
    rw [Stmt.eval] at h
    cases h
    exact ⟨by simp [Stmt.kind], fun _ => rfl⟩

theorem evalStmts_fits : ∀ (stmts : List (Stmt σ V)) {isBody isLoop : Bool} {c : Context}
    {outer : List (DeferScope (Waiting σ))} {own : List (Deferred σ)} {ds : List (Action σ)}
    {s s' : σ} {v : V}, AcceptedStmts truth budget isBody isLoop outer c own stmts →
    evalStmts truth budget c stmts ds s = .ret (.next v, s') → (lastKind stmts).Fits v
  | [], _, _, c, _, _, ds, s, s', v, _, h => by
    rw [evalStmts] at h
    cases endWith_eq_next h
    exact ⟨by simp [lastKind], fun _ => rfl⟩
  | st :: rest, _, _, c, _, _, ds, s, s', v, ha, h => by
    by_cases hd : ∃ d, st = .defer d
    · obtain ⟨d, rfl⟩ := hd
      rw [AcceptedStmts] at ha
      rw [evalStmts] at h
      have hf := evalStmts_fits rest ha h
      rw [lastKind_cons]
      cases rest with
      | nil => exact hf
      | cons st rest => exact hf
    · rw [not_exists] at hd
      obtain ⟨hst, -, hr⟩ := (acceptedStmts_cons hd).1 ha
      rw [evalStmts_cons hd, blockThen, Exec.bind_eq_ret] at h
      obtain ⟨⟨f, s₁⟩, hf, h⟩ := h
      rw [lastKind_cons]
      cases f with
      | next w =>
        dsimp only at h
        split_ifs at h ⊢
        · cases endWith_eq_next h
          exact st.eval_fits hst hf
        · exact evalStmts_fits rest hr h
      | _ => cases endWith_eq_next h

theorem evalArms_fits (kind : Kind) : ∀ (arms : List (Arm σ V)) {c : Context}
    {chain : List (DeferScope (Waiting σ))} {w : V} {s s' : σ} {v : V},
    AcceptedArms truth budget kind chain c arms →
    evalArms truth budget c kind arms w s = .ret (.next v, s') → kind.Fits v
  | [], c, chain, w, s, s', v, _, h => by
    rw [evalArms] at h
    cases h
  | .mk test body :: arms, c, chain, w, s, s', v, ha, h => by
    rw [AcceptedArms] at ha
    obtain ⟨-, hb, hn, har⟩ := ha
    rw [evalArms, andThen_eq_next] at h
    obtain ⟨b, s₁, -, h⟩ := h
    split at h
    · obtain ⟨x, hx, rfl⟩ := Kind.drop_eq_next h
      exact Kind.fits_keep (fun hk => (evalStmts_fits body hb hx).1 (hn hk)) x
    · exact evalArms_fits kind arms har h

end

/-- A failed `?` returns past the deferred expressions of all the scopes. -/
theorem Run.exec_emitted {kind : Kind} {run : Run σ V} {chain : List (DeferScope (Waiting σ))}
    {c : Context} (h : run.Fails → SameWithin c (emitDefersToFunc chain)) (s : σ) :
    Run.exec kind run (emitScopeDefers c (emitDefersToFunc (written chain))) s =
      Run.exec kind run [] s >>= orLeave (actions chain) done := by
  unfold Run.exec
  rcases hrun : run s with ⟨v | v, s'⟩ | _ | _
  · rfl
  · rw [emitScopeDefers_toFunc (h ⟨s, v, s', hrun⟩)]
    rfl
  · rfl
  · rfl

theorem Kind.drop_emitted (kind : Kind) (r : Exec (Flow V × σ))
    (chain : List (DeferScope (Action σ)))
    {k : V → σ → Exec (Flow V × σ)} (hk : ∀ v s, kind.drop (k v s) = done (kind.keep v) s) :
    kind.drop (r >>= orLeave chain k) = kind.drop r >>= orLeave chain done := by
  rw [Kind.drop, Kind.drop, andThen_orLeave, orLeave_andThen]
  exact bind_orLeave_congr fun v s _ => hk v s

/-- The round of a loop leaves the loop by `return` only. -/
theorem roundThen_emitted (kind : Kind) (r : Exec (Flow V × σ))
    (chain : List (DeferScope (Action σ)))
    (k : V → σ → Exec (Flow V × σ)) (hk : ∀ v s, ∃ w, k v s = done w s)
    {again again' : σ → Exec (Flow V × σ)}
    (h : ∀ s, again' s = again s >>= orLeave chain done) :
    roundThen kind (r >>= orLeave (⟨[], true⟩ :: chain) k) again' =
      roundThen kind r again >>= orLeave chain done := by
  rcases r with ⟨f, s⟩ | _ | _
  · cases f with
    | next v =>
      obtain ⟨w, hw⟩ := hk v s
      simpa [roundThen, orLeave, hw, done] using h s
    | cont => simpa [roundThen, orLeave, emitDefersToLoop] using h s
    | brk v => simp [roundThen, orLeave, emitDefersToLoop, done]
    | ret v => simp [roundThen, orLeave, emitDefersToFunc, endWith]
  · rfl
  · rfl

theorem forever_emitted (kind : Kind) {body body' : σ → Exec (Flow V × σ)}
    (chain : List (DeferScope (Action σ))) {k : V → σ → Exec (Flow V × σ)}
    (hk : ∀ v s, ∃ w, k v s = done w s)
    (h : ∀ s, body' s = body s >>= orLeave (⟨[], true⟩ :: chain) k) (n : ℕ) (s : σ) :
    forever kind body' n s = forever kind body n s >>= orLeave chain done := by
  induction n generalizing s with
  | zero => rfl
  | succ n ih =>
    rw [forever, forever, h]
    exact roundThen_emitted kind _ chain k hk ih

theorem rounds_emitted {body body' : ℕ → σ → Exec (Flow V × σ)}
    (chain : List (DeferScope (Action σ)))
    {k : V → σ → Exec (Flow V × σ)} (hk : ∀ v s, ∃ w, k v s = done w s)
    (h : ∀ i s, body' i s = body i s >>= orLeave (⟨[], true⟩ :: chain) k) (is : List ℕ) (s : σ) :
    rounds body' is s = rounds body is s >>= orLeave chain done := by
  induction is generalizing s with
  | nil => rfl
  | cons i is ih =>
    rw [rounds, rounds, h]
    exact roundThen_emitted .void _ chain k hk ih

omit [Inhabited V] in
theorem andThen_assoc (r : Exec (Flow V × σ)) (j k : V → σ → Exec (Flow V × σ)) :
    andThen (andThen r j) k = andThen r fun v s => andThen (j v s) k := by
  rcases r with ⟨f, s⟩ | _ | _
  · cases f <;> rfl
  · rfl
  · rfl

theorem execStmts_append (as bs : List (CStmt σ V)) (v : V) (s : σ) :
    execStmts truth budget (as ++ bs) v s =
      andThen (execStmts truth budget as v s) (execStmts truth budget bs) := by
  induction as generalizing v s with
  | nil =>
    rw [List.nil_append, execStmts, andThen_ret_next]
  | cons c cs ih =>
    rw [List.cons_append, execStmts, execStmts, andThen_assoc]
    exact congrArg (andThen _) (funext fun v => funext fun s => ih v s)

theorem execStmts_one (c : CStmt σ V) (v : V) (s : σ) :
    execStmts truth budget [c] v s = c.exec truth budget s := by
  rw [execStmts]
  have hd : execStmts truth budget ([] : List (CStmt σ V)) = done := by
    funext v s
    rw [execStmts, done]
  rw [hd, andThen_done]

theorem execStmts_emitDefers (ds : List (Action σ)) (s : σ) :
    execStmts truth budget (emitDefers ds) default s =
      endWith ds (.next (default : V)) s := by
  rw [emitDefers]
  split
  · rename_i h
    rw [execStmts, List.isEmpty_iff.1 h, endWith_nil]
  · rw [execStmts_one, CStmt.exec]

/-- The value of the last statement of a block, if it is handled there, is used
after the block's deferred expressions; other values are dropped. -/
def stmtThen (tail : TailMode) (own : List (Action σ)) (kind : Kind) (handled : Bool) (v : V)
    (s : σ) : Exec (Flow V × σ) :=
  if handled then endWith own (tail.flow kind v) s else .ret (.next default, s)

theorem exec_use {e : CExpr σ V} {u : Use} (h : e.isStatement = true → u = .value) (s : σ) :
    (CStmt.use u e).exec truth budget s =
      andThen (e.exec truth budget s) fun v s => .ret (u.flow v, s) := by
  rw [CStmt.exec]
  split_ifs with hu
  · rw [Bool.and_eq_true, bne_iff_ne] at hu
    exact absurd (h hu.1) hu.2
  · rfl

section Emitted
variable {e : CExpr σ V} {r : Exec (Flow V × σ)} {s : σ} {chain : List (DeferScope (Action σ))}
  {k : V → σ → Exec (Flow V × σ)} {u : Use}

theorem exec_use_emitted {kind : Kind} (he : e.exec truth budget s = r >>= orLeave chain done)
    (hfits : ∀ v s', r = .ret (.next v, s') → kind.Fits v)
    (hvalue : e.isStatement = true → u = .value)
    (h : ∀ (v : V) (s' : σ), kind.Fits v → Exec.ret (u.flow v, s') = k v s') :
    (CStmt.use u e).exec truth budget s = r >>= orLeave chain k := by
  rw [exec_use hvalue, he, andThen_orLeave]
  exact bind_orLeave_congr fun v s' hv => h v s' (hfits v s' hv)

theorem exec_save_emitted {ds : List (Action σ)}
    (he : e.exec truth budget s = r >>= orLeave chain done)
    (h : ∀ (v : V) (s' : σ), endWith ds (u.flow v) s' = k v s') :
    (CStmt.save .value e ds u).exec truth budget s = r >>= orLeave chain k := by
  rw [CStmt.exec, if_pos rfl, he, andThen_orLeave]
  exact bind_orLeave_congr fun v s' _ => h v s'

end Emitted

theorem exec_emitExprStmt {tail : TailMode} {own : List (Deferred σ)} {isLoop : Bool}
    {outer : List (DeferScope (Waiting σ))} {c : Context} {final isStatement : Bool} {kind : Kind}
    {e : CExpr σ V} {r : Exec (Flow V × σ)} {s : σ}
    (he : e.exec truth budget s = r >>= orLeave (actions (.within c own isLoop :: outer)) done)
    (hfits : ∀ v s', r = .ret (.next v, s') → kind.Fits v)
    (hstmt : isStatement = true → kind ≠ .value)
    (hplain : e.isStatement = true → isStatement = true ∨ kind = .void)
    (hsave : final = true → own.isEmpty = false → tail ≠ .ret → kind = .never → isStatement = true)
    (houter : tail = .ret → outer = []) :
    (emitExprStmt tail (⟨own, isLoop⟩ :: written outer) c own final isStatement kind e).exec
        truth budget s =
      r >>= orLeave (actions (.within c own isLoop :: outer))
        (stmtThen tail (emitScopeDefers c own) kind (final && kind != .void)) := by
  have huse (u : Use) (hu : u = .value ∨ isStatement = false ∧ kind ≠ .void)
      (h : ∀ (v : V) (s' : σ), kind.Fits v → Exec.ret (u.flow v, s') =
        stmtThen tail (emitScopeDefers c own) kind (final && kind != .void) v s') :
      (CStmt.use u e).exec truth budget s =
        r >>= orLeave (actions (.within c own isLoop :: outer))
          (stmtThen tail (emitScopeDefers c own) kind (final && kind != .void)) := by
    have hvalue : e.isStatement = true → u = .value := fun hs => hu.resolve_right fun hne =>
      (hplain hs).elim (fun h => absurd (hne.1.symm.trans h) Bool.false_ne_true) hne.2
    exact exec_use_emitted he hfits hvalue h
  unfold emitExprStmt
  split_ifs with h₁ h₂ h₃ h₄ h₅ h₆ h₇
  · -- only what has no value is a C statement
    refine huse .value (.inl rfl) fun v s' hv => ?_
    cases kind with
    | value => exact absurd rfl (hstmt h₁)
    | never => exact absurd rfl hv.1
    | void => simp [stmtThen, Use.flow, hv.2 rfl]
  · simp only [Bool.and_eq_true, beq_iff_eq] at h₂
    obtain ⟨⟨rfl, rfl⟩, rfl⟩ := h₂
    refine huse .store (.inr ⟨by simpa using h₁, by simp⟩) fun v s' _ => ?_
    simp [stmtThen, List.isEmpty_iff.1 h₃, TailMode.flow, Use.flow, emitScopeDefers]
  · simp only [Bool.and_eq_true, beq_iff_eq] at h₂
    obtain ⟨⟨rfl, rfl⟩, rfl⟩ := h₂
    exact exec_save_emitted he fun v s' => by simp [stmtThen, TailMode.flow, Use.flow]
  · simp only [Bool.and_eq_true, beq_iff_eq] at h₄
    obtain ⟨⟨rfl, rfl⟩, rfl⟩ := h₄
    refine exec_save_emitted he fun v s' => ?_
    simp [stmtThen, TailMode.flow, Use.flow, houter rfl, emitDefersToFunc, written]
  · simp only [Bool.and_eq_true, beq_iff_eq] at h₄
    obtain ⟨⟨rfl, rfl⟩, rfl⟩ := h₄
    refine huse .ret (.inr ⟨by simpa using h₁, by simp⟩) fun v s' _ => ?_
    have ho : own = [] := by simpa [houter rfl, hasPendingDefers, written] using h₅
    simp [stmtThen, TailMode.flow, Use.flow, ho, emitScopeDefers]
  · simp only [Bool.and_eq_true, bne_iff_ne, Bool.not_eq_true'] at h₆
    obtain ⟨⟨⟨ht, rfl⟩, hv⟩, ho⟩ := h₆
    have hk : kind = .value := by
      cases kind with
      | value => rfl
      | void => exact absurd rfl hv
      | never => exact absurd (hsave rfl ho ht rfl) h₁
    subst hk
    refine exec_save_emitted he fun v s' => ?_
    cases tail with
    | assign => simp at h₂
    | ret => exact absurd rfl ht
    | value => simp [stmtThen, TailMode.flow, TailMode.blkUse, Use.flow]
    | discard => simp [stmtThen, TailMode.flow, TailMode.blkUse, Use.flow]
  · have hvoid : kind ≠ .void := by
      rintro rfl
      simp at h₇
    refine huse .cast (.inr ⟨by simpa using h₁, hvoid⟩) fun v s' hv => ?_
    cases final with
    | false => simp [stmtThen, Use.flow]
    | true =>
      have hk : kind = .value := by
        cases kind with
        | value => rfl
        | void => exact absurd rfl hvoid
        | never => exact absurd rfl hv.1
      subst hk
      cases tail with
      | assign => simp at h₂
      | ret => simp at h₄
      | value => simp at h₇
      | discard =>
        have ho : own = [] := by simpa using h₆
        simp [stmtThen, TailMode.flow, Use.flow, ho, emitScopeDefers]
  · refine huse .value (.inl rfl) fun v s' hv => ?_
    cases kind with
    | void => simp [stmtThen, Use.flow, hv.2 rfl]
    | never => exact absurd rfl hv.1
    | value =>
      simp only [bne_iff_ne, ne_eq, reduceCtorEq, not_false_eq_true, Bool.and_eq_true,
        Bool.or_eq_true, Bool.not_eq_true', true_and, not_or, Bool.not_eq_false,
        Decidable.not_not] at h₇
      obtain ⟨rfl, rfl⟩ := h₇
      have ho : own = [] := by simpa using h₆
      simp [stmtThen, TailMode.flow, Use.flow, ho, emitScopeDefers]

omit [Inhabited V] in
theorem emitsStatement_kind {e : Expr σ V} (h : emitsStatement e = true) : e.kind ≠ .value := by
  cases e with
  | forLoop iter count bind body => simp [Expr.kind]
  | forRange start stop count bind body => simp [Expr.kind]
  | ifExpr kind c a b => simpa [emitsStatement, Expr.kind] using h
  | loop kind body => simpa [emitsStatement, Expr.kind] using h
  | _ => simp [emitsStatement] at h

omit [Inhabited V] in
theorem deferEmitsStatement_kind : ∀ {e : Expr σ V}, deferEmitsStatement e = true → e.kind ≠ .value
  | .guard m body, h => by
    rw [deferEmitsStatement] at h
    exact deferEmitsStatement_kind (e := body) h
  | .plain _ _, h | .apply _ _ _, h | .block _ _, h | .ifExpr _ _ _ _, h | .loop _ _, h
  | .forLoop _ _ _ _, h | .forRange _ _ _ _ _, h | .match _ _ _, h => emitsStatement_kind h

omit [Inhabited V] in
theorem emitExpr_isStatement (chain : List (DeferScope (Deferred σ))) :
    ∀ (e : Expr σ V) (c : Context), (emitExpr chain c e).isStatement = deferEmitsStatement e
  | .guard m body, c => by
    rw [emitExpr, deferEmitsStatement]
    exact emitExpr_isStatement chain body (c.mark m)
  | .ifExpr kind e a b, c => by
    rw [emitExpr, deferEmitsStatement, emitsStatement]
    · split_ifs with hk hn
      · simp [CExpr.isStatement, hk]
      · simp [CExpr.isStatement, Decidable.not_not.1 hk]
      · simp [CExpr.isStatement, Decidable.not_not.1 hk]
    · simp
  | .plain _ _, c | .apply _ _ _, c | .block _ _, c | .loop _ _, c | .forLoop _ _ _ _, c
  | .forRange _ _ _ _ _, c | .match _ _ _, c => by
    rw [emitExpr]
    rfl

/-- Within markers, only what is `void` is a C statement. -/
theorem statement_cases {e : Expr σ V} {chain : List (DeferScope (Waiting σ))} {c : Context}
    (ha : e.Accepted truth budget chain c) (h : deferEmitsStatement e = true) :
    emitsStatement e = true ∨ e.kind = .void := by
  cases e with
  | guard m body =>
    rw [Expr.Accepted] at ha
    rw [deferEmitsStatement] at h
    cases hk : body.kind with
    | void => exact .inr hk
    | value => exact absurd hk (deferEmitsStatement_kind h)
    | never => exact absurd (ha.2 hk) (by simp [h])
  | _ => exact .inl h

omit [Inhabited V] in
/-- What is not handled with the last statement has no value. -/
theorem kind_of_not_handled {tail : TailMode} {st : Stmt σ V}
    (h : alreadyHandled tail st = false) : st.kind = .void ∨ st.kind = .never := by
  cases hk : st.kind with
  | void => exact .inl rfl
  | never => exact .inr rfl
  | value =>
    cases st with
    | expr e => simp [alreadyHandled, hk] at h
    | _ => simp [Stmt.kind] at hk

omit [Inhabited V] in
theorem endWith_orLeave (ds : List (Action σ)) (v : V) (s : σ)
    (chain : List (DeferScope (Action σ)))
    (f : V → Flow V) : endWith ds (.next v) s >>= orLeave chain (fun v s => .ret (f v, s)) =
      endWith ds (f v) s := by
  simp [endWith, orLeave]

omit [Inhabited V] in
theorem blockThen_orLeave (own : List (Action σ)) (r : Exec (Flow V × σ)) (final : Bool)
    (rest : σ → Exec (Flow V × σ)) (isLoop : Bool) (outer : List (DeferScope (Action σ)))
    (k : V → σ → Exec (Flow V × σ)) :
    blockThen own r final rest >>= orLeave (⟨[], isLoop⟩ :: outer) k =
      r >>= orLeave (⟨own, isLoop⟩ :: outer) fun v s =>
        (if final then endWith own (.next v) s else rest s) >>=
          orLeave (⟨[], isLoop⟩ :: outer) k := by
  rcases r with ⟨f, s⟩ | _ | _
  · cases f with
    | next v => rfl
    | _ => exact (orLeave_own own isLoop outer k k (by simp) s).symm
  · rfl
  · rfl

/-- A transfer runs the deferred expressions of the scopes it leaves, if any wait. -/
theorem exec_transfer (ds : List (Action σ)) {c : CStmt σ V} {f : Flow V}
    (hc : ∀ s, c.exec truth budget s = .ret (f, s)) (s : σ) :
    execStmts truth budget (emitDefers ds ++ [c]) default s = endWith ds f s := by
  rw [execStmts_append, execStmts_emitDefers]
  rcases h : runAll ds s with s' | _ | _
  · simp [endWith, h, execStmts_one, hc]
  · simp [endWith, h, andThen]
  · simp [endWith, h, andThen]

/-- A transfer with a value runs them after the value is computed. -/
theorem exec_transfer_value {pending : Bool} {chain : List (DeferScope (Action σ))}
    {ds : List (Action σ)} (hds : pending = false → ds = []) {e : CExpr σ V} {kind : Kind}
    (hk : pending = true → kind = .value) {r : Exec (Flow V × σ)} {s : σ}
    (he : e.exec truth budget s = r >>= orLeave chain done) (hstmt : e.isStatement = false)
    (u : Use) :
    execStmts truth budget (if pending then [.save kind e ds u] else [.use u e])
      default s = r >>= orLeave chain fun v s => endWith ds (u.flow v) s := by
  split
  · rename_i hp
    rw [execStmts_one, CStmt.exec, if_pos (hk hp), he, andThen_orLeave]
    rfl
  · rename_i hp
    rw [execStmts_one, exec_use (fun h => absurd (hstmt.symm.trans h) Bool.false_ne_true), he,
      andThen_orLeave, hds (by simpa using hp)]
    rfl

@[simp] theorem Kind.drop_value (r : Exec (Flow V × σ)) : Kind.drop .value r = r := andThen_done r

theorem Kind.drop_of_ne {kind : Kind} (hk : kind ≠ .value) (r : Exec (Flow V × σ)) :
    kind.drop r = Kind.drop .void r := by
  simp [Kind.drop, Kind.keep, hk]

/-- The value of a branch or an arm is dropped or kept as its type says. -/
theorem Kind.drop_tail {kind : Kind} {tail : TailMode}
    (ht : tail = if kind = .value then .assign else .discard) (k : Kind) (v : V) (s : σ) :
    kind.drop (.ret (tail.flow k v, s)) = done (kind.keep v) s := by
  subst ht
  split
  · rename_i hk
    simp [Kind.drop, TailMode.flow, done]
  · rename_i hk
    simp [Kind.drop, TailMode.flow, done, Kind.keep, hk]

/-- A branch of an `if` with a value. -/
theorem exec_emitBranchInto {kind : Kind} {stmts value : List (CStmt σ V)}
    {chain : List (DeferScope (Action σ))} {r : Exec (Flow V × σ)} {s : σ}
    (hfits : ∀ v s', r = .ret (.next v, s') → kind.Fits v)
    (hstmts : execStmts truth budget stmts default s =
      r >>= orLeave (⟨[], false⟩ :: chain) fun v s => .ret (TailMode.discard.flow kind v, s))
    (hvalue : execStmts truth budget value default s =
      r >>= orLeave (⟨[], false⟩ :: chain) fun v s => .ret (TailMode.value.flow kind v, s)) :
    execStmts truth budget (emitBranchInto kind stmts value) default s =
      r >>= orLeave chain done := by
  rw [orLeave_nil] at hstmts hvalue
  unfold emitBranchInto
  split
  · rename_i hk
    rw [hstmts]
    exact bind_orLeave_congr fun v s' hv => absurd hk (hfits v s' hv).1
  · rw [execStmts_one, exec_use (by simp [CExpr.isStatement]), CExpr.exec, hvalue,
      andThen_orLeave]
    rfl

/-- The two ends of such a range may be evaluated in either order. -/
theorem Expr.Indifferent.comm {c : Context} {start stop : Expr σ V}
    (h : start.Indifferent truth budget c stop) (k : V → V → σ → Exec (Flow V × σ)) (s : σ) :
    andThen (start.eval truth budget c s)
        (fun v s => andThen (stop.eval truth budget c s) fun w => k v w) =
      andThen (stop.eval truth budget c s)
        fun w s => andThen (start.eval truth budget c s) fun v => k v w := by
  rcases h with ⟨v, hv⟩ | ⟨w, hw⟩ | ⟨hstart, hstop⟩
  · simp only [hv, andThen_ret_next]
  · simp only [hw, andThen_ret_next]
  · rcases hstart s with hs | ⟨v, hs⟩
    · rcases hstop s with ht | ⟨w, ht⟩
      · rw [hs, ht]
        rfl
      · rw [hs, ht, andThen_ret_next, hs]
        rfl
    · rcases hstop s with ht | ⟨w, ht⟩
      · rw [hs, ht, andThen_ret_next, ht]
        rfl
      · rw [hs, ht, andThen_ret_next, andThen_ret_next, hs, ht, andThen_ret_next, andThen_ret_next]

mutual

/-- An emitted expression does what the expression does. Where that transfers
control, it then runs the deferred expressions of the scopes it leaves. -/
theorem exec_emitExpr : ∀ (e : Expr σ V) {chain : List (DeferScope (Waiting σ))} {c : Context},
    e.Accepted truth budget chain c → ∀ s, (emitExpr (written chain) c e).exec truth budget s =
      e.eval truth budget c s >>= orLeave (actions chain) done
  | .plain kind op, chain, c, ha, s => by
    rw [Expr.Accepted] at ha
    rw [emitExpr, CExpr.exec, Expr.eval]
    exact Run.exec_emitted ha.2 s
  | .apply kind e op, chain, c, ha, s => by
    rw [Expr.Accepted] at ha
    obtain ⟨-, he, hop⟩ := ha
    rw [emitExpr, CExpr.exec, Expr.eval, exec_emitExpr e he, andThen_orLeave, orLeave_andThen]
    exact bind_orLeave_congr fun v s' _ => Run.exec_emitted (hop v).2 s'
  | .block kind stmts, chain, c, ha, s => by
    rw [Expr.Accepted] at ha
    rw [emitExpr, CExpr.exec, Expr.eval, exec_emitBlockStmts stmts .value [] ha.2 (by simp)]
    exact congrArg _ (orLeave_nil _ _)
  | .ifExpr kind e a b, chain, c, ha, s => by
    rw [Expr.Accepted] at ha
    obtain ⟨-, he, ⟨haa, hab⟩, -⟩ := ha
    rw [emitExpr, Expr.eval]
    split_ifs with hk hn
    · rw [CExpr.exec, exec_emitExpr e he, andThen_orLeave, orLeave_andThen]
      refine bind_orLeave_congr fun v s' _ => ?_
      rw [Kind.drop_of_ne hk, done, andThen_ret_next]
      split
      · rw [exec_emitBlockStmts a .discard [] haa (by simp), orLeave_nil]
        exact Kind.drop_emitted _ _ _ (Kind.drop_tail (by simp) _)
      · rw [exec_emitBlockStmts b .discard [] hab (by simp), orLeave_nil]
        exact Kind.drop_emitted _ _ _ (Kind.drop_tail (by simp) _)
    · rw [CExpr.exec, exec_emitExpr e he, andThen_orLeave, orLeave_andThen]
      refine bind_orLeave_congr fun v s' _ => ?_
      rw [Decidable.not_not.1 hk, Kind.drop_value, done, andThen_ret_next]
      split
      · rw [CExpr.exec, exec_emitBlockStmts a .value [] haa (by simp), orLeave_nil]
        rfl
      · rw [CExpr.exec, exec_emitBlockStmts b .value [] hab (by simp), orLeave_nil]
        rfl
    · rw [CExpr.exec, exec_emitExpr e he, andThen_orLeave, orLeave_andThen]
      refine bind_orLeave_congr fun v s' _ => ?_
      rw [Decidable.not_not.1 hk, Kind.drop_value, done, andThen_ret_next]
      split
      · exact exec_emitBranchInto (fun v s' hv => evalStmts_fits a haa hv)
          (exec_emitBlockStmts a .discard [] haa (by simp) s')
          (exec_emitBlockStmts a .value [] haa (by simp) s')
      · exact exec_emitBranchInto (fun v s' hv => evalStmts_fits b hab hv)
          (exec_emitBlockStmts b .discard [] hab (by simp) s')
          (exec_emitBlockStmts b .value [] hab (by simp) s')
  | .loop kind body, chain, c, ha, s => by
    rw [Expr.Accepted] at ha
    rw [emitExpr, CExpr.exec, Expr.eval]
    exact forever_emitted kind _ (fun v s => ⟨_, rfl⟩)
      (exec_emitBlockStmts body .discard [] ha.2 (by simp)) budget s
  | .forLoop iter count bind body, chain, c, ha, s => by
    rw [Expr.Accepted] at ha
    obtain ⟨-, hiter, hbody⟩ := ha
    rw [emitExpr, CExpr.exec, Expr.eval, exec_emitExpr iter hiter, andThen_orLeave,
      orLeave_andThen]
    refine bind_orLeave_congr fun v s' _ => ?_
    exact rounds_emitted _ (fun v s => ⟨_, rfl⟩)
      (fun i s => exec_emitBlockStmts body .discard [] hbody (by simp) _) _ s'
  | .forRange start stop count bind body, chain, c, ha, s => by
    rw [Expr.Accepted] at ha
    obtain ⟨⟨-, hstart⟩, ⟨-, hstop⟩, horder, hbody⟩ := ha
    rw [emitExpr, CExpr.exec, Expr.eval, horder.comm, exec_emitExpr stop hstop, andThen_orLeave,
      orLeave_andThen]
    refine bind_orLeave_congr fun w s' _ => ?_
    rw [done, andThen_ret_next, exec_emitExpr start hstart, andThen_orLeave, orLeave_andThen]
    refine bind_orLeave_congr fun v s' _ => ?_
    exact rounds_emitted _ (fun v s => ⟨_, rfl⟩)
      (fun i s => exec_emitBlockStmts body .discard [] hbody (by simp) _) _ s'
  | .match kind subject arms, chain, c, ha, s => by
    rw [Expr.Accepted] at ha
    obtain ⟨-, hsubject, harms⟩ := ha
    rw [emitExpr, CExpr.exec, Expr.eval, exec_emitExpr subject hsubject, andThen_orLeave,
      orLeave_andThen]
    exact bind_orLeave_congr fun v s' _ => exec_emitArms kind arms harms v s'
  | .guard m body, chain, c, ha, s => by
    rw [Expr.Accepted] at ha
    rw [emitExpr, Expr.eval]
    exact exec_emitExpr body ha.1 s

theorem exec_emitStmt : ∀ (st : Stmt σ V) {tail : TailMode} {own : List (Deferred σ)}
    {isLoop : Bool} {outer : List (DeferScope (Waiting σ))} {c : Context} (final : Bool),
    st.Accepted truth budget (.within c own isLoop :: outer) c →
    (final = true → own.isEmpty = false → tail ≠ .ret → st.Savable) →
    (tail = .ret → outer = []) → ∀ s,
    execStmts truth budget (emitStmt tail (⟨own, isLoop⟩ :: written outer) c own final st)
        default s =
      st.eval truth budget c s >>= orLeave (actions (.within c own isLoop :: outer))
        (stmtThen tail (emitScopeDefers c own) st.kind (final && alreadyHandled tail st))
  | .expr e, tail, own, isLoop, outer, c, final, ha, hs, ho, s => by
    rw [Stmt.Accepted] at ha
    have he := exec_emitExpr e ha s
    rw [written_cons] at he
    rw [emitStmt, execStmts_one, Stmt.eval]
    rw [exec_emitExprStmt he (fun v s' hv => e.eval_fits ha hv) emitsStatement_kind
      (fun h => statement_cases ha ((emitExpr_isStatement _ e c).symm.trans h))
      (fun hf hown ht => hs hf hown ht) ho]
    simp [Stmt.kind, alreadyHandled]
  | .ret e, tail, own, isLoop, outer, c, final, ha, hs, ho, s => by
    rw [Stmt.Accepted] at ha
    obtain ⟨hacc, hk, hstmt, hsame⟩ := ha
    have he := exec_emitExpr e hacc s
    rw [← written_cons, emitStmt, Stmt.eval, orLeave_andThen, emitScopeDefers_toFunc hsame,
      exec_transfer_value (fun h => ?_) (fun h => hk ?_) he
      ((emitExpr_isStatement _ e c).trans hstmt)]
    · rfl
    · rw [written, hasPendingDefers_map] at h
      rw [actions, emitDefersToFunc_map, (emitDefers_of_not_pending h).1, List.map_nil]
    · rwa [written, hasPendingDefers_map] at h
  | .brk e, tail, own, isLoop, outer, c, final, ha, hs, ho, s => by
    rw [Stmt.Accepted] at ha
    obtain ⟨hacc, hk, hsame⟩ := ha
    have he := exec_emitExpr e hacc s
    have hstmt : deferEmitsStatement e = false :=
      Bool.eq_false_of_not_eq_true fun h => deferEmitsStatement_kind h hk
    rw [← written_cons, emitStmt, Stmt.eval, orLeave_andThen, emitScopeDefers_toLoop hsame,
      exec_transfer_value (fun h => ?_) (fun _ => hk) he ((emitExpr_isStatement _ e c).trans hstmt)]
    · rfl
    · rw [written, hasPendingDefers_map] at h
      rw [actions, emitDefersToLoop_map, (emitDefers_of_not_pending h).2, List.map_nil]
  | .retVoid, tail, own, isLoop, outer, c, final, ha, hs, ho, s => by
    rw [Stmt.Accepted] at ha
    rw [← written_cons, emitStmt, Stmt.eval, emitScopeDefers_toFunc ha,
      exec_transfer _ (fun s => by rw [CStmt.exec])]
    rfl
  | .brkVoid, tail, own, isLoop, outer, c, final, ha, hs, ho, s => by
    rw [Stmt.Accepted] at ha
    rw [← written_cons, emitStmt, Stmt.eval, emitScopeDefers_toLoop ha,
      exec_transfer _ (fun s => by rw [CStmt.exec])]
    rfl
  | .cont, tail, own, isLoop, outer, c, final, ha, hs, ho, s => by
    rw [Stmt.Accepted] at ha
    rw [← written_cons, emitStmt, Stmt.eval, emitScopeDefers_toLoop ha,
      exec_transfer _ (fun s => by rw [CStmt.exec])]
    rfl
  | .defer d, tail, own, isLoop, outer, c, final, ha, hs, ho, s => by
    rw [emitStmt, Stmt.eval, execStmts]
    simp [orLeave, stmtThen, alreadyHandled, Stmt.kind]

/-- An emitted block does what the block does; what becomes of its value comes on top. -/
theorem exec_emitBlockStmts : ∀ (stmts : List (Stmt σ V)) (tail : TailMode)
    (own : List (Deferred σ)) {isLoop : Bool} {outer : List (DeferScope (Waiting σ))}
    {c : Context}, AcceptedStmts truth budget (tail == .ret) isLoop outer c own stmts →
    (tail = .ret → outer = []) → ∀ s,
    execStmts truth budget (emitBlockStmts tail isLoop (written outer) c own stmts) default s =
      evalStmts truth budget c stmts (emitScopeDefers c own) s >>=
        orLeave (⟨[], isLoop⟩ :: actions outer)
          fun v s => .ret (tail.flow (lastKind stmts) v, s)
  | [], tail, own, isLoop, outer, c, _, _, s => by
    rw [emitBlockStmts, execStmts_emitDefers, evalStmts, endWith_orLeave]
    cases tail <;> rfl
  | st :: rest, tail, own, isLoop, outer, c, ha, ho, s => by
    by_cases hd : ∃ d, st = .defer d
    · obtain ⟨d, rfl⟩ := hd
      rw [AcceptedStmts] at ha
      rw [emitBlockStmts, evalStmts, exec_emitBlockStmts rest tail (d :: own) ha ho, lastKind_cons]
      cases rest with
      | nil => rfl
      | cons st rest => rfl
    · rw [not_exists] at hd
      obtain ⟨hst, hsave, hrest⟩ := (acceptedStmts_cons hd).1 ha
      rw [emitBlockStmts_cons hd, execStmts_append, evalStmts_cons hd, blockThen_orLeave,
        exec_emitStmt st rest.isEmpty hst
          (fun hr hown ht => hsave hr hown (by simp [ht])) ho, actions_cons, andThen_orLeave]
      refine bind_orLeave_congr fun v s' hv => ?_
      have hfits := st.eval_fits hst hv
      rw [lastKind_cons]
      by_cases hr : rest.isEmpty = true
      · obtain rfl := List.isEmpty_iff.1 hr
        cases hh : alreadyHandled tail st with
        | true =>
          have hdone : execStmts truth budget ([] : List (CStmt σ V)) = done := by
            funext v s
            rw [execStmts, done]
          simp [stmtThen, hdone, endWith_orLeave]
        | false =>
          have hk : st.kind = .void := (kind_of_not_handled hh).resolve_right hfits.1
          cases hfits.2 hk
          simp only [List.isEmpty_nil, Bool.and_false, stmtThen, Bool.false_eq_true, if_false,
            if_true, andThen_ret_next, emitBlockStmts, execStmts_emitDefers, endWith_orLeave, hk]
          cases tail <;> rfl
      · simp only [hr, Bool.false_and, stmtThen, Bool.false_eq_true, if_false, andThen_ret_next]
        exact exec_emitBlockStmts rest tail own hrest ho s'

theorem exec_emitArms (kind : Kind) : ∀ (arms : List (Arm σ V))
    {chain : List (DeferScope (Waiting σ))} {c : Context},
    AcceptedArms truth budget kind chain c arms → ∀ v s,
    execArms truth budget kind (emitArms kind (written chain) c arms) v s =
      evalArms truth budget c kind arms v s >>= orLeave (actions chain) done
  | [], chain, c, _, v, s => by
    rw [emitArms, execArms, evalArms]
    rfl
  | .mk test body :: arms, chain, c, ha, v, s => by
    rw [AcceptedArms] at ha
    obtain ⟨htest, hbody, -, harms⟩ := ha
    rw [emitArms, execArms, evalArms, Run.exec_emitted (htest v), andThen_orLeave, orLeave_andThen]
    refine bind_orLeave_congr fun b s' _ => ?_
    rw [done, andThen_ret_next]
    split
    · have ht : (if kind = .value then TailMode.assign else .discard) ≠ .ret := by split <;> simp
      rw [exec_emitBlockStmts body _ [] (beq_eq_false_iff_ne.2 ht ▸ hbody) (fun h => absurd h ht),
        orLeave_nil, Kind.drop_emitted _ _ _ (Kind.drop_tail rfl _)]
      rfl
    · exact exec_emitArms kind arms harms v s'

end

end

end FcLang.Codegen.Defer
