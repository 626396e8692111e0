import FcLang.Lexer.CondGrammar

/-!
# The evaluator at positions

The evaluator of the source walks a position over all tokens and asks at every
step whether the line has ended. It does what the evaluator of a line does, and
its position stays on the line.
-/

namespace FcLang.Lexer

/-- The rest of the line at a position. -/
def lineAt (tokens : List Token) (pos : ℕ) : List Token := exprLine (tokens.drop pos)

namespace Cursor
variable (flags : List Flag) (directive : Token) (tokens : List Token)

abbrev Reader := ℕ → Run (Bool × ℕ)

/-- The token at a position, none where `at_expr_end` holds. -/
def exprToken (pos : ℕ) : Option Token :=
  match tokens[pos]? with
  | some t => if t.kind = .newline then none else some t
  | none => none

/-- The rounds that a loop or a recursion over the rest of the line may take. -/
def budget (pos : ℕ) : ℕ := (lineAt tokens pos).length + 1

def evalPrimary (evalOr : Reader) : Reader := fun pos =>
  match exprToken tokens pos with
  | none => directive.fatal "unexpected end of #if expression"
  | some t =>
    if t.kind = .lparen then do
      let (v, pos) ← evalOr (pos + 1)
      match exprToken tokens pos with
      | some close =>
        if close.kind = .rparen then .ok (v, pos + 1) else t.fatal "expected ')' in #if expression"
      | none => t.fatal "expected ')' in #if expression"
    else if t.kind = .ident then
      let f := flagLookup flags t.text
      match exprToken tokens (pos + 1) with
      | some op =>
        if op.kind = .eqEq ∨ op.kind = .bangEq then
          match exprToken tokens (pos + 2) with
          | some str =>
            if str.kind = .stringLit then
              let eq := valueMatches f str
              .ok (if op.kind = .eqEq then eq else !eq, pos + 3)
            else t.fatal "expected string literal after '==' or '!=' in #if expression"
          | none => t.fatal "expected string literal after '==' or '!=' in #if expression"
        else .ok (f.isSome, pos + 1)
      | none => .ok (f.isSome, pos + 1)
    else t.fatal "expected identifier, '!', or '(' in #if expression"

def evalUnary (primary : Reader) : ℕ → Reader
  | 0, _ => .error .budget
  | fuel + 1, pos =>
    match exprToken tokens pos with
    | some t =>
      if t.kind = .bang then do
        let (v, pos) ← evalUnary primary fuel (pos + 1)
        .ok (!v, pos)
      else primary pos
    | none => primary pos

/-- The loop of `eval_and` and `eval_or`. -/
def evalChain (op : TokenKind) (combine : Bool → Bool → Bool) (operand : Reader) :
    ℕ → Bool → Reader
  | 0, _, _ => .error .budget
  | fuel + 1, left, pos =>
    match exprToken tokens pos with
    | some t =>
      if t.kind = op then do
        let (right, pos) ← operand (pos + 1)
        evalChain op combine operand fuel (combine left right) pos
      else .ok (left, pos)
    | none => .ok (left, pos)

def evalAnd (unary : Reader) : Reader := fun pos => do
  let (left, pos) ← unary pos
  evalChain tokens .ampAmp and unary (budget tokens pos) left pos

def evalOr : ℕ → Reader
  | 0, _ => .error .budget
  | fuel + 1, pos => do
    let primary := evalPrimary flags directive tokens (evalOr fuel)
    let unary : Reader := fun pos => evalUnary tokens primary (budget tokens pos) pos
    let (left, pos) ← evalAnd tokens unary pos
    evalChain tokens .pipePipe or (evalAnd tokens unary) (budget tokens pos) left pos

/-- `i` is the position of the directive, and then that of the last token of its expression. -/
def evalCondExpr (i : ℕ) : Run (Bool × ℕ) :=
  match exprToken tokens (i + 1) with
  | none => directive.fatal "#if requires an expression"
  | some _ => do
    let (result, pos) ← evalOr flags directive tokens (budget tokens (i + 1)) (i + 1)
    match exprToken tokens pos with
    | some t => t.fatal "unexpected token in #if expression"
    | none => .ok (result, pos - 1)

section Line
variable {tokens : List Token} {pos : ℕ} {t : Token}

theorem lineAt_none (h : exprToken tokens pos = none) : lineAt tokens pos = [] := by
  unfold lineAt exprLine
  unfold exprToken at h
  cases ht : tokens[pos]? with
  | none =>
    rw [List.drop_eq_nil_of_le (List.getElem?_eq_none_iff.mp ht)]
    rfl
  | some t =>
    obtain ⟨hlt, rfl⟩ := List.getElem?_eq_some_iff.mp ht
    rw [ht] at h
    dsimp only at h
    split_ifs at h with hkind
    rw [List.drop_eq_getElem_cons hlt, List.takeWhile_cons_of_neg (by simp [hkind])]

theorem lineAt_some (h : exprToken tokens pos = some t) :
    lineAt tokens pos = t :: lineAt tokens (pos + 1) := by
  unfold lineAt exprLine
  unfold exprToken at h
  cases ht : tokens[pos]? with
  | none =>
    rw [ht] at h
    cases h
  | some t' =>
    obtain ⟨hlt, rfl⟩ := List.getElem?_eq_some_iff.mp ht
    rw [ht] at h
    dsimp only at h
    split_ifs at h with hkind
    cases h
    rw [List.drop_eq_getElem_cons hlt, List.takeWhile_cons_of_pos (by simp [hkind])]

/-- Where the line ends that a position is on. -/
def lineEnd (tokens : List Token) (pos : ℕ) : ℕ := pos + (lineAt tokens pos).length

theorem lineEnd_succ (h : exprToken tokens pos = some t) :
    lineEnd tokens (pos + 1) = lineEnd tokens pos := by
  unfold lineEnd
  rw [lineAt_some h, List.length_cons]
  omega

end Line

/-- A run over positions does what a run over the rest of the line does, on the same line. -/
def Follows (tokens : List Token) (pos : ℕ) :
    Run (Bool × ℕ) → Run (Bool × List Token) → Prop
  | .ok (v, pos'), y => y = .ok (v, lineAt tokens pos') ∧ lineEnd tokens pos' = lineEnd tokens pos
  | .error e, y => y = .error e

def Tracks (tokens : List Token) (g : Reader) (f : CondEval) : Prop :=
  ∀ pos, Follows tokens pos (g pos) (f (lineAt tokens pos))

section Follows
variable {flags : List Flag} {directive : Token} {tokens : List Token} {pos : ℕ}

theorem Follows.bind {x : Run (Bool × ℕ)} {y : Run (Bool × List Token)}
    {k : Bool × ℕ → Run (Bool × ℕ)} {k' : Bool × List Token → Run (Bool × List Token)}
    (h : Follows tokens pos x y) (hk : ∀ v pos', lineEnd tokens pos' = lineEnd tokens pos →
      Follows tokens pos' (k (v, pos')) (k' (v, lineAt tokens pos'))) :
    Follows tokens pos (x >>= k) (y >>= k') := by
  cases x with
  | error e =>
    cases h
    exact rfl
  | ok r =>
    obtain ⟨v, pos'⟩ := r
    obtain ⟨rfl, hend⟩ := h
    have hgo := hk v pos' hend
    change Follows tokens pos (k (v, pos')) (k' (v, lineAt tokens pos'))
    cases hkv : k (v, pos') with
    | error e =>
      rw [hkv] at hgo
      exact hgo
    | ok r' =>
      rw [hkv] at hgo
      exact ⟨hgo.1, hgo.2.trans hend⟩

theorem Follows.fatal (t : Token) (message : String) :
    Follows tokens pos (t.fatal message) (t.fatal message) := rfl

theorem Follows.ok {v : Bool} {pos' : ℕ} (h : lineEnd tokens pos' = lineEnd tokens pos) :
    Follows tokens pos (.ok (v, pos')) (.ok (v, lineAt tokens pos')) := ⟨rfl, h⟩

theorem Follows.shift {pos' : ℕ} {x : Run (Bool × ℕ)} {y : Run (Bool × List Token)}
    (h : Follows tokens pos' x y) (hend : lineEnd tokens pos' = lineEnd tokens pos) :
    Follows tokens pos x y := by
  cases x with
  | error e => exact h
  | ok r => exact ⟨h.1, h.2.trans hend⟩

theorem evalPrimary_tracks {g : Reader} {f : CondEval} (h : Tracks tokens g f) :
    Tracks tokens (evalPrimary flags directive tokens g) (Lexer.evalPrimary flags directive f) := by
  intro pos
  unfold evalPrimary Lexer.evalPrimary
  cases ht : exprToken tokens pos with
  | none =>
    rw [lineAt_none ht]
    exact .fatal _ _
  | some t =>
    have hend := lineEnd_succ ht
    rw [lineAt_some ht]
    dsimp only
    by_cases hparen : t.kind = .lparen
    · rw [if_pos hparen, if_pos hparen]
      refine ((h (pos + 1)).bind fun v pos' _ => ?_).shift hend
      dsimp only
      cases hclose : exprToken tokens pos' with
      | none =>
        rw [lineAt_none hclose]
        exact .fatal _ _
      | some close =>
        rw [lineAt_some hclose]
        dsimp only
        split_ifs
        · exact .ok (lineEnd_succ hclose)
        · exact .fatal _ _
    · rw [if_neg hparen, if_neg hparen]
      split_ifs
      · cases hop : exprToken tokens (pos + 1) with
        | none =>
          rw [lineAt_none hop]
          have hrest := Follows.ok (v := (flagLookup flags t.text).isSome) hend
          rw [lineAt_none hop] at hrest
          exact hrest
        | some op =>
          rw [lineAt_some hop]
          dsimp only
          by_cases hkind : op.kind = .eqEq ∨ op.kind = .bangEq
          · rw [if_pos hkind, if_pos hkind]
            cases hstr : exprToken tokens (pos + 2) with
            | none =>
              rw [lineAt_none hstr]
              exact .fatal _ _
            | some str =>
              rw [lineAt_some hstr]
              dsimp only
              by_cases hlit : str.kind = .stringLit
              · rw [if_pos hlit, if_pos hlit]
                exact .ok (((lineEnd_succ hstr).trans (lineEnd_succ hop)).trans hend)
              · rw [if_neg hlit, if_neg hlit]
                exact .fatal _ _
          · rw [if_neg hkind, if_neg hkind]
            have hrest := Follows.ok (v := (flagLookup flags t.text).isSome) hend
            rw [lineAt_some hop] at hrest
            exact hrest
      · exact .fatal _ _

theorem evalUnary_follows {g : Reader} {f : CondEval} (h : Tracks tokens g f) (fuel : ℕ) {pos : ℕ}
    (hfuel : (lineAt tokens pos).length < fuel) :
    Follows tokens pos (evalUnary tokens g fuel pos) (Lexer.evalUnary f (lineAt tokens pos)) := by
  induction fuel generalizing pos with
  | zero => omega
  | succ fuel ih =>
    unfold evalUnary
    cases ht : exprToken tokens pos with
    | none =>
      have hgo := h pos
      rw [lineAt_none ht] at hgo ⊢
      exact hgo
    | some t =>
      have hgo := h pos
      rw [lineAt_some ht] at hgo hfuel ⊢
      dsimp only
      unfold Lexer.evalUnary
      split_ifs
      · refine ((ih (by rw [List.length_cons] at hfuel; omega)).bind fun v pos' _ => ?_).shift
          (lineEnd_succ ht)
        exact .ok rfl
      · exact hgo

theorem evalChain_follows {op : TokenKind} {combine : Bool → Bool → Bool} {g : Reader}
    {f : CondEval} (h : Tracks tokens g f) (fuel : ℕ) (left : Bool) (pos : ℕ) :
    Follows tokens pos (evalChain tokens op combine g fuel left pos)
      (Lexer.evalChain op combine f fuel left (lineAt tokens pos)) := by
  induction fuel generalizing left pos with
  | zero => exact rfl
  | succ fuel ih =>
    unfold evalChain
    cases ht : exprToken tokens pos with
    | none =>
      have hok : Follows tokens pos (.ok (left, pos)) (.ok (left, lineAt tokens pos)) := .ok rfl
      rw [lineAt_none ht] at hok ⊢
      exact hok
    | some t =>
      have hok : Follows tokens pos (.ok (left, pos)) (.ok (left, lineAt tokens pos)) := .ok rfl
      rw [lineAt_some ht] at hok ⊢
      dsimp only
      unfold Lexer.evalChain
      split_ifs
      · exact ((h (pos + 1)).bind fun right pos' _ => ih _ pos').shift (lineEnd_succ ht)
      · exact hok

theorem evalAnd_tracks {g : Reader} {f : CondEval} (h : Tracks tokens g f) :
    Tracks tokens (evalAnd tokens g) (Lexer.evalAnd f) :=
  fun pos => (h pos).bind fun left pos' _ => evalChain_follows h _ left pos'

theorem evalOr_tracks (fuel : ℕ) :
    Tracks tokens (evalOr flags directive tokens fuel) (Lexer.evalOr flags directive fuel) := by
  induction fuel with
  | zero => exact fun pos => rfl
  | succ fuel ih =>
    have hunary : Tracks tokens
        (fun pos => evalUnary tokens
          (evalPrimary flags directive tokens (evalOr flags directive tokens fuel))
          (budget tokens pos) pos)
        (Lexer.evalUnary (Lexer.evalPrimary flags directive (Lexer.evalOr flags directive fuel))) :=
      fun pos => evalUnary_follows (evalPrimary_tracks ih) _ (Nat.lt_succ_self _)
    have hand := evalAnd_tracks hunary
    exact fun pos => (hand pos).bind fun left pos' _ => evalChain_follows hand _ left pos'

end Follows

/-- The evaluator of the tokens is the evaluator of the line behind the directive, and moves to
the last token of that line. -/
theorem evalCondExpr_eq (flags : List Flag) (directive : Token) (tokens : List Token) (i : ℕ) :
    evalCondExpr flags directive tokens i =
      (Lexer.evalCondExpr flags directive (lineAt tokens (i + 1))).map
        (·, i + (lineAt tokens (i + 1)).length) := by
  have htracks : Follows tokens (i + 1)
      (evalOr flags directive tokens (budget tokens (i + 1)) (i + 1))
      (Lexer.evalOr flags directive ((lineAt tokens (i + 1)).length + 1)
        (lineAt tokens (i + 1))) := evalOr_tracks _ _
  unfold evalCondExpr Lexer.evalCondExpr
  cases ht : exprToken tokens (i + 1) with
  | none =>
    rw [lineAt_none ht]
    rfl
  | some t =>
    have hne : lineAt tokens (i + 1) ≠ [] := by simp [lineAt_some ht]
    rw [if_neg hne]
    dsimp only
    cases hrun : evalOr flags directive tokens (budget tokens (i + 1)) (i + 1) with
    | error e =>
      rw [hrun] at htracks
      rw [show Lexer.evalOr _ _ _ _ = _ from htracks]
      rfl
    | ok r =>
      obtain ⟨v, pos⟩ := r
      rw [hrun] at htracks
      obtain ⟨hline, hend⟩ := htracks
      rw [hline]
      change (match exprToken tokens pos with
        | some t => t.fatal "unexpected token in #if expression"
        | none => .ok (v, pos - 1)) = _
      cases hpos : exprToken tokens pos with
      | none =>
        have hpos' : pos - 1 = i + (lineAt tokens (i + 1)).length := by
          rw [lineEnd, lineEnd, lineAt_none hpos, List.length_nil] at hend
          omega
        rw [lineAt_none hpos, hpos']
        rfl
      | some t' =>
        rw [lineAt_some hpos]
        rfl

end Cursor

theorem evalCondExpr_ok_iff {flags : List Flag} {directive : Token} {line : List Token} {v : Bool} :
    evalCondExpr flags directive line = .ok v ↔
      ∃ t : CondTree (.chain .or), t.tokens = line ∧ (v = true ↔ t.Holds flags) := by
  rw [← @evalOr_line_iff flags directive]
  unfold evalCondExpr
  by_cases hnil : line = []
  · rw [if_pos hnil, hnil]
    refine iff_of_false (fun h => nomatch h) fun h => ?_
    obtain ⟨t, ht, -⟩ := evalOr_line_iff.mp h
    exact t.tokens_ne_nil ht
  · rw [if_neg hnil, Run.bind_eq_ok]
    constructor
    · rintro ⟨⟨w, rest⟩, hrun, h⟩
      cases rest with
      | nil =>
        cases h
        exact hrun
      | cons t rest => cases h
    · intro hrun
      exact ⟨_, hrun, rfl⟩

/-- The evaluator of conditions accepts the lines that derive from the grammar and gives the value
of their derivation, of which there is one; it ends on the last token of the line, whatever the
tokens, and depends on nothing outside the line. -/
theorem evalCondExpr_exact (flags : List Flag) (directive : Token) (tokens : List Token) (i : ℕ) :
    (∀ v i', Cursor.evalCondExpr flags directive tokens i = .ok (v, i') ↔
      (∃ t : CondTree (.chain .or), t.tokens = lineAt tokens (i + 1) ∧
        (v = true ↔ t.Holds flags)) ∧ i' = i + (lineAt tokens (i + 1)).length) ∧
    (∀ t t' : CondTree (.chain .or), t.tokens = t'.tokens → t = t') ∧
    Cursor.evalCondExpr flags directive tokens i ≠ .error .budget ∧
    ∀ tokens', lineAt tokens' (i + 1) = lineAt tokens (i + 1) →
      Cursor.evalCondExpr flags directive tokens' i =
        Cursor.evalCondExpr flags directive tokens i := by
  refine ⟨fun v i' => ?_, fun t t' h => ?_, ?_, fun tokens' h => ?_⟩
  · rw [Cursor.evalCondExpr_eq, ← @evalCondExpr_ok_iff flags directive]
    cases evalCondExpr flags directive (lineAt tokens (i + 1)) with
    | error e => simp [Except.map]
    | ok w => simp [Except.map, eq_comm]
  · exact (t.unique (congrArg (· ++ []) h) (.nil _) (.nil _)).1
  · rw [Cursor.evalCondExpr_eq]
    cases h : evalCondExpr flags directive (lineAt tokens (i + 1)) with
    | error e =>
      intro he
      cases he
      exact evalCondExpr_ne_budget _ h
    | ok w => simp [Except.map]
  · rw [Cursor.evalCondExpr_eq, Cursor.evalCondExpr_eq, h]

end FcLang.Lexer
