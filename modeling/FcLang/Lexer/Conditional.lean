import FcLang.Lexer.Token

/-!
# The conditional compilation filter

A NEWLINE ends a condition for every function of the evaluator, so the
evaluator is given the tokens before it. Each function returns the tokens it
leaves. The filter walks the raw tokens once; a directive skips the rest of its
line.
-/

namespace FcLang.Lexer

structure Flag where
  name : List UInt8
  value : Option (List UInt8)
  deriving DecidableEq

def flagLookup (flags : List Flag) (name : List UInt8) : Option Flag :=
  flags.find? fun f => f.name = name

abbrev CondEval := List Token → Run (Bool × List Token)

/-- Whether the value of a flag is the content of a string literal, quotes taken off. -/
def valueMatches (f : Option Flag) (str : Token) : Bool :=
  match f.bind Flag.value with
  | some value => str.text.length = value.length + 2 ∧ (str.text.drop 1).take value.length = value
  | none => false

def evalPrimary (flags : List Flag) (directive : Token) (evalOr : CondEval) : CondEval
  | [] => directive.fatal "unexpected end of #if expression"
  | t :: rest =>
    if t.kind = .lparen then do
      let (v, rest) ← evalOr rest
      match rest with
      | close :: rest =>
        if close.kind = .rparen then .ok (v, rest) else t.fatal "expected ')' in #if expression"
      | [] => t.fatal "expected ')' in #if expression"
    else if t.kind = .ident then
      let f := flagLookup flags t.text
      match rest with
      | op :: operand =>
        if op.kind = .eqEq ∨ op.kind = .bangEq then
          match operand with
          | str :: rest =>
            if str.kind = .stringLit then
              let eq := valueMatches f str
              .ok (if op.kind = .eqEq then eq else !eq, rest)
            else t.fatal "expected string literal after '==' or '!=' in #if expression"
          | [] => t.fatal "expected string literal after '==' or '!=' in #if expression"
        else .ok (f.isSome, op :: operand)
      | [] => .ok (f.isSome, [])
    else t.fatal "expected identifier, '!', or '(' in #if expression"

def evalUnary (primary : CondEval) : CondEval
  | t :: rest =>
    if t.kind = .bang then do
      let (v, rest) ← evalUnary primary rest
      .ok (!v, rest)
    else primary (t :: rest)
  | [] => primary []

/-- The loop of `eval_and` and `eval_or`: both operands are always evaluated. -/
def evalChain (op : TokenKind) (combine : Bool → Bool → Bool) (operand : CondEval) :
    ℕ → Bool → CondEval
  | 0, _, _ => .error .budget
  | fuel + 1, left, t :: rest =>
    if t.kind = op then do
      let (right, rest) ← operand rest
      evalChain op combine operand fuel (combine left right) rest
    else .ok (left, t :: rest)
  | _ + 1, left, [] => .ok (left, [])

def evalAnd (unary : CondEval) : CondEval := fun ts => do
  let (left, rest) ← unary ts
  evalChain .ampAmp and unary (rest.length + 1) left rest

/-- The budget bounds how deep parentheses nest. -/
def evalOr (flags : List Flag) (directive : Token) : ℕ → CondEval
  | 0, _ => .error .budget
  | fuel + 1, ts => do
    let operand := evalAnd (evalUnary (evalPrimary flags directive (evalOr flags directive fuel)))
    let (left, rest) ← operand ts
    evalChain .pipePipe or operand (rest.length + 1) left rest

def evalCondExpr (flags : List Flag) (directive : Token) (expr : List Token) : Run Bool :=
  if expr = [] then directive.fatal "#if requires an expression"
  else do
    let (result, rest) ← evalOr flags directive (expr.length + 1) expr
    match rest with
    | t :: _ => t.fatal "unexpected token in #if expression"
    | [] => .ok result

/-- One level of the state stack: whether the current branch is included, and whether a branch of
this level has been taken. -/
structure Level where
  active : Bool
  done : Bool
  deriving DecidableEq

def maxCondDepth : ℕ := 32

def isActive : List Level → Bool
  | [] => true
  | level :: _ => level.active

def parentActive : List Level → Bool
  | _ :: parent :: _ => parent.active
  | _ => true

@[simp] theorem parentActive_cons (level : Level) (below : List Level) :
    parentActive (level :: below) = isActive below := by
  cases below <;> rfl

/-- The tokens of a directive's expression: what is left of its line. -/
def exprLine (rest : List Token) : List Token := rest.takeWhile fun t => t.kind ≠ .newline

/-- What a directive skips after an expression of `n` tokens: these and the newline behind them. -/
def skipLine (n : ℕ) (rest : List Token) : ℕ :=
  match rest[n]? with
  | some t => if t.kind = .newline then n + 1 else n
  | none => n

def filterLoop (flags : List Flag) (endLine : ℕ) : List Token → ℕ → List Level → Run (List Token)
  | [], _, [] => .ok []
  | [], _, _ :: _ => diagFatal endLine 1 "unclosed #if (missing #end)"
  | _ :: rest, skip + 1, stack => filterLoop flags endLine rest skip stack
  | t :: rest, 0, stack =>
    if t.kind = .hashIf then
      if t.col ≠ 1 then t.fatal "#if must appear at column 1"
      else if stack.length + 1 ≥ maxCondDepth then t.fatal "too many nested #if directives"
      else do
        let cond ← evalCondExpr flags t (exprLine rest)
        filterLoop flags endLine rest (skipLine (exprLine rest).length rest)
          (⟨isActive stack && cond, cond⟩ :: stack)
    else if t.kind = .hashElseIf then
      if t.col ≠ 1 then t.fatal "#else if must appear at column 1"
      else match stack with
        | [] => t.fatal "#else if without matching #if"
        | level :: below => do
          let cond ← evalCondExpr flags t (exprLine rest)
          filterLoop flags endLine rest (skipLine (exprLine rest).length rest)
            (⟨parentActive stack && !level.done && cond, level.done || cond⟩ :: below)
    else if t.kind = .hashElse then
      if t.col ≠ 1 then t.fatal "#else must appear at column 1"
      else match stack with
        | [] => t.fatal "#else without matching #if"
        | level :: below =>
          filterLoop flags endLine rest (skipLine 0 rest)
            (⟨parentActive stack && !level.done, true⟩ :: below)
    else if t.kind = .hashEnd then
      if t.col ≠ 1 then t.fatal "#end must appear at column 1"
      else match stack with
        | [] => t.fatal "#end without matching #if"
        | _ :: below => filterLoop flags endLine rest (skipLine 0 rest) below
    else do
      let out ← filterLoop flags endLine rest 0 stack
      .ok (if isActive stack then t :: out else out)

def filterConditionals (flags : List Flag) (tokens : List Token) : Run (List Token) :=
  filterLoop flags ((tokens.getLast?.map Token.line).getD 0) tokens 0 []

/-- Whatever is evaluated takes up a token. -/
def CondEval.Shrinks (f : CondEval) : Prop := ∀ ts v rest, f ts = .ok (v, rest) →
  rest.length < ts.length

/-- The budget suffices for fewer than `n` tokens. -/
def CondEval.Enough (n : ℕ) (f : CondEval) : Prop := ∀ ts : List Token, ts.length < n →
  f ts ≠ .error .budget

section Budget
variable {flags : List Flag} {directive : Token} {f : CondEval} {n : ℕ}

theorem evalPrimary_shrinks (hf : f.Shrinks) : (evalPrimary flags directive f).Shrinks := by
  intro ts v rest h
  cases ts with
  | nil => cases h
  | cons t ts =>
    unfold evalPrimary at h
    dsimp only at h
    by_cases hparen : t.kind = .lparen
    · rw [if_pos hparen] at h
      obtain ⟨⟨v', rest'⟩, hrun, h⟩ := Run.bind_eq_ok.mp h
      have hlt := hf _ _ _ hrun
      cases rest' with
      | nil => cases h
      | cons close rest' =>
        dsimp only at h
        split_ifs at h
        · cases h
          simp only [List.length_cons] at hlt ⊢
          omega
        · cases h
    · rw [if_neg hparen] at h
      split_ifs at h
      · cases ts with
        | nil => cases h; simp
        | cons op operand =>
          dsimp only at h
          by_cases hop : op.kind = .eqEq ∨ op.kind = .bangEq
          · rw [if_pos hop] at h
            cases operand with
            | nil => cases h
            | cons str operand =>
              dsimp only at h
              by_cases hstr : str.kind = .stringLit
              · rw [if_pos hstr] at h
                cases h
                simp only [List.length_cons]
                omega
              · rw [if_neg hstr] at h
                cases h
          · rw [if_neg hop] at h
            cases h
            simp
      · cases h

theorem evalUnary_shrinks (hf : f.Shrinks) : (evalUnary f).Shrinks := by
  intro ts
  induction ts with
  | nil => exact hf []
  | cons t ts ih =>
    intro v rest h
    unfold evalUnary at h
    split_ifs at h
    · obtain ⟨⟨v', rest'⟩, hrun, h⟩ := Run.bind_eq_ok.mp h
      cases h
      exact (ih _ _ hrun).trans (Nat.lt_succ_self _)
    · exact hf _ _ _ h

theorem evalChain_le {op : TokenKind} {combine : Bool → Bool → Bool} (hf : f.Shrinks) {fuel : ℕ}
    {left : Bool} {ts : List Token} {v : Bool} {rest : List Token}
    (h : evalChain op combine f fuel left ts = .ok (v, rest)) : rest.length ≤ ts.length := by
  induction fuel generalizing left ts with
  | zero => cases h
  | succ fuel ih =>
    cases ts with
    | nil => cases h; exact le_rfl
    | cons t ts =>
      unfold evalChain at h
      split_ifs at h
      · obtain ⟨⟨right, rest'⟩, hrun, h⟩ := Run.bind_eq_ok.mp h
        have hlt := hf _ _ _ hrun
        have hle := ih h
        rw [List.length_cons]
        omega
      · cases h
        exact le_rfl

theorem evalChain_shrinks {op : TokenKind} {combine : Bool → Bool → Bool} (hf : f.Shrinks)
    {ts rest : List Token} {v : Bool}
    (h : (do
      let (left, rest) ← f ts
      evalChain op combine f (rest.length + 1) left rest) = .ok (v, rest)) :
    rest.length < ts.length := by
  obtain ⟨⟨left, rest'⟩, hrun, h⟩ := Run.bind_eq_ok.mp h
  exact (evalChain_le hf h).trans_lt (hf _ _ _ hrun)

theorem evalAnd_shrinks (hf : f.Shrinks) : (evalAnd f).Shrinks :=
  fun _ _ _ h => evalChain_shrinks hf h

theorem evalOr_shrinks (fuel : ℕ) : (evalOr flags directive fuel).Shrinks := by
  induction fuel with
  | zero => intro ts v rest h; cases h
  | succ fuel ih =>
    have hunary : (evalUnary (evalPrimary flags directive (evalOr flags directive fuel))).Shrinks :=
      evalUnary_shrinks (evalPrimary_shrinks ih)
    exact fun _ _ _ h => evalChain_shrinks (evalAnd_shrinks hunary) h

theorem evalPrimary_enough (hf : f.Enough n) : (evalPrimary flags directive f).Enough (n + 1) := by
  intro ts hlen
  cases ts with
  | nil => exact Token.fatal_ne_budget _ _
  | cons t ts =>
    unfold evalPrimary
    dsimp only
    split_ifs
    · apply Run.bind_ne_budget (hf ts (by simpa using hlen))
      rintro ⟨v, rest⟩ -
      cases rest with
      | nil => exact Token.fatal_ne_budget _ _
      | cons close rest =>
        dsimp only
        split_ifs
        · simp
        · exact Token.fatal_ne_budget _ _
    · cases ts with
      | nil => simp
      | cons op operand =>
        dsimp only
        by_cases hop : op.kind = .eqEq ∨ op.kind = .bangEq
        · rw [if_pos hop]
          cases operand with
          | nil => exact Token.fatal_ne_budget _ _
          | cons str operand =>
            dsimp only
            by_cases hstr : str.kind = .stringLit
            · rw [if_pos hstr]
              simp
            · rw [if_neg hstr]
              exact Token.fatal_ne_budget _ _
        · rw [if_neg hop]
          simp
    · exact Token.fatal_ne_budget _ _

theorem evalUnary_enough (hf : f.Enough n) : (evalUnary f).Enough n := by
  intro ts
  induction ts with
  | nil => exact hf []
  | cons t ts ih =>
    intro hlen
    unfold evalUnary
    split_ifs
    · apply Run.bind_ne_budget (ih (by rw [List.length_cons] at hlen; omega))
      rintro ⟨v, rest⟩ -
      simp
    · exact hf _ hlen

theorem evalChain_ne_budget {op : TokenKind} {combine : Bool → Bool → Bool} (hf : f.Shrinks)
    (hn : f.Enough n) {fuel : ℕ} {left : Bool} {ts : List Token} (hfuel : ts.length < fuel)
    (hlen : ts.length < n) : evalChain op combine f fuel left ts ≠ .error .budget := by
  induction fuel generalizing left ts with
  | zero => omega
  | succ fuel ih =>
    cases ts with
    | nil => simp [evalChain]
    | cons t ts =>
      rw [List.length_cons] at hfuel hlen
      unfold evalChain
      split_ifs
      · apply Run.bind_ne_budget (hn ts (by omega))
        rintro ⟨right, rest⟩ hrun
        have hlt := hf _ _ _ hrun
        exact ih (by omega) (by omega)
      · simp

theorem evalChain_enough {op : TokenKind} {combine : Bool → Bool → Bool} (hf : f.Shrinks)
    (hn : f.Enough n) {ts : List Token} (hlen : ts.length < n) :
    (do
      let (left, rest) ← f ts
      evalChain op combine f (rest.length + 1) left rest) ≠ .error .budget := by
  apply Run.bind_ne_budget (hn ts hlen)
  rintro ⟨left, rest⟩ hrun
  have hlt := hf _ _ _ hrun
  exact evalChain_ne_budget hf hn (Nat.lt_succ_self _) (by omega)

theorem evalOr_enough (fuel : ℕ) : (evalOr flags directive fuel).Enough fuel := by
  induction fuel with
  | zero => intro ts hlen; omega
  | succ fuel ih =>
    have hunary : (evalUnary (evalPrimary flags directive (evalOr flags directive fuel))).Shrinks :=
      evalUnary_shrinks (evalPrimary_shrinks (evalOr_shrinks fuel))
    have henough : (evalUnary (evalPrimary flags directive (evalOr flags directive fuel))).Enough
        (fuel + 1) := evalUnary_enough (evalPrimary_enough ih)
    exact fun ts hlen => evalChain_enough (evalAnd_shrinks hunary)
      (fun ts hlen => evalChain_enough hunary henough hlen) hlen

/-- The evaluator's budget is never spent. -/
theorem evalCondExpr_ne_budget (expr : List Token) :
    evalCondExpr flags directive expr ≠ .error .budget := by
  unfold evalCondExpr
  split_ifs
  · exact Token.fatal_ne_budget _ _
  · apply Run.bind_ne_budget (evalOr_enough (expr.length + 1) expr (Nat.lt_succ_self _))
    rintro ⟨v, rest⟩ -
    cases rest with
    | nil => simp
    | cons t rest => exact Token.fatal_ne_budget _ _

theorem filterLoop_ne_budget {endLine : ℕ} (ts : List Token) (skip : ℕ) (stack : List Level) :
    filterLoop flags endLine ts skip stack ≠ .error .budget := by
  induction ts generalizing skip stack with
  | nil =>
    cases stack with
    | nil => simp [filterLoop]
    | cons level below => simp [filterLoop, diagFatal]
  | cons t rest ih =>
    cases skip with
    | succ skip => exact ih skip stack
    | zero =>
      unfold filterLoop
      split_ifs
      · exact Token.fatal_ne_budget _ _
      · exact Token.fatal_ne_budget _ _
      · exact Run.bind_ne_budget (evalCondExpr_ne_budget _) fun cond _ => ih _ _
      · exact Token.fatal_ne_budget _ _
      · cases stack with
        | nil => exact Token.fatal_ne_budget _ _
        | cons level below =>
          exact Run.bind_ne_budget (evalCondExpr_ne_budget _) fun cond _ => ih _ _
      · exact Token.fatal_ne_budget _ _
      · cases stack with
        | nil => exact Token.fatal_ne_budget _ _
        | cons level below => exact ih _ _
      · exact Token.fatal_ne_budget _ _
      · cases stack with
        | nil => exact Token.fatal_ne_budget _ _
        | cons level below => exact ih _ _
      · exact Run.bind_ne_budget (ih _ _) fun out _ => by simp
      · exact Run.bind_ne_budget (ih _ _) fun out _ => by simp

end Budget

end FcLang.Lexer
