import Mathlib.Data.List.TakeWhile
import FcLang.Lexer.Token

/-!
# The layout pass

Columns become INDENT, DEDENT and NEWLINE tokens. The indent stack is kept
without its base frame at column 1, so its length is the depth. Inside brackets
newlines are dropped.
-/

namespace FcLang.Lexer
open TokenKind

/-- An open block: its column, and whether it is a match block at the column of its enclosing
block. -/
structure Frame where
  col : ℕ
  isMatch : Bool
  deriving DecidableEq

structure Layout where
  out : List Token
  stack : List Frame
  lastKind : TokenKind
  sawDeclKeyword : Bool
  bracketDepth : ℕ

def maxIndent : ℕ := 128

def topCol : List Frame → ℕ
  | [] => 1
  | frame :: _ => frame.col

def layoutToken (kind : TokenKind) (t : Token) : Token := ⟨kind, [], t.line, t.col⟩

def isAlwaysBlockFormer (k : TokenKind) : Bool :=
  k ∈ [arrow, kwWith, kwThen, kwElse, kwLoop, kwDo, kwGuarded, kwUnguarded, kwChecked, kwUnchecked]

def isDeclKeyword (k : TokenKind) : Bool :=
  k ∈ [kwLet, kwStruct, kwUnion, kwEnum, kwError, kwModule]

def TokenKind.Opens (k : TokenKind) : Prop := k = lparen ∨ k = lbracket ∨ k = lbrace

def TokenKind.Closes (k : TokenKind) : Prop := k = rparen ∨ k = rbracket ∨ k = rbrace

instance (k : TokenKind) : Decidable k.Opens := inferInstanceAs (Decidable (_ ∨ _))

instance (k : TokenKind) : Decidable k.Closes := inferInstanceAs (Decidable (_ ∨ _))

/-- The bracket depth behind a token. -/
def bracketStep (depth : ℕ) (k : TokenKind) : ℕ :=
  if k.Opens then depth + 1 else if k.Closes then depth - 1 else depth

theorem bracketStep_opens {k : TokenKind} (h : k.Opens) (depth : ℕ) :
    bracketStep depth k = depth + 1 := if_pos h

theorem bracketStep_closes {k : TokenKind} (h : k.Closes) (depth : ℕ) :
    bracketStep depth k = depth - 1 := by
  rcases h with rfl | rfl | rfl <;> rfl

theorem bracketStep_plain {k : TokenKind} (ho : ¬k.Opens) (hc : ¬k.Closes) (depth : ℕ) :
    bracketStep depth k = depth := by
  rw [bracketStep, if_neg ho, if_neg hc]

/-- Match blocks that the next line ends: how many, and the frames that stay open. -/
def closeMatch (next : Token) : List Frame → ℕ × List Frame
  | [] => (0, [])
  | frame :: below =>
    if frame.isMatch ∧ next.col ≤ frame.col then
      if next.col = frame.col ∧ next.kind = pipe then (0, frame :: below)
      else
        let r := closeMatch next below
        (r.1 + 1, r.2)
    else (0, frame :: below)

/-- Blocks deeper than the next line. -/
def closeDeeper (next : Token) : List Frame → ℕ × List Frame
  | [] => (0, [])
  | frame :: below =>
    if next.col < frame.col then
      let r := closeDeeper next below
      (r.1 + 1, r.2)
    else (0, frame :: below)

def emitDedents (t : Token) (n : ℕ) (out : List Token) : List Token :=
  out ++ List.replicate n (layoutToken dedent t)

/-- A newline, unless nothing or one of `after` comes before it. -/
def emitNewline (t : Token) (after : List TokenKind) (out : List Token) : List Token :=
  match out.getLast? with
  | some last => if last.kind ∈ after then out else out ++ [layoutToken newline t]
  | none => out

def openBlock (next : Token) (isMatch : Bool) (s : Layout) : Run Layout :=
  if s.stack.length + 1 ≥ maxIndent then diagFatalSimple "indentation too deep"
  else .ok { s with
    stack := ⟨next.col, isMatch⟩ :: s.stack
    out := s.out ++ [layoutToken indent next] }

/-- A newline outside brackets, before the token `next` of the next line. -/
def layoutNewline (t next : Token) (s : Layout) : Run Layout :=
  let blockFormer := isAlwaysBlockFormer s.lastKind || s.lastKind = eq && s.sawDeclKeyword
  let closed := closeMatch next s.stack
  let s := { s with
    sawDeclKeyword := false
    stack := closed.2
    out := emitDedents t closed.1 s.out }
  if blockFormer ∧ next.col > topCol s.stack then openBlock next false s
  else if s.lastKind = kwWith ∧ next.col = topCol s.stack ∧ next.kind = pipe then
    openBlock next true s
  else if next.col = topCol s.stack then
    .ok { s with out := emitNewline t [indent, newline] s.out }
  else if next.col < topCol s.stack then
    let deeper := closeDeeper next s.stack
    let landed := closeMatch next deeper.2
    let out := emitDedents t landed.1 (emitDedents t deeper.1 s.out)
    if next.col ≠ topCol landed.2 then
      next.fatal ("inconsistent indentation (col " ++ toString next.col ++
        " does not match any block)")
    else .ok { s with stack := landed.2, out := emitNewline t [newline] out }
  -- a continuation line
  else .ok s

def emitToken (t : Token) (s : Layout) : Layout :=
  { s with
    out := s.out ++ [t]
    lastKind := t.kind
    sawDeclKeyword := s.sawDeclKeyword || isDeclKeyword t.kind
    bracketDepth := bracketStep s.bracketDepth t.kind }

def layoutLoop : List Token → ℕ → Layout → Run Layout
  | [], _, s => .ok s
  | _ :: rest, skip + 1, s => layoutLoop rest skip s
  | t :: rest, 0, s =>
    if t.kind = newline then
      let blank := (rest.takeWhile fun t => t.kind = newline).length
      if s.bracketDepth > 0 then layoutLoop rest blank s
      else match rest[blank]? with
        | none => layoutLoop rest blank s
        | some next =>
          if next.kind = eof then layoutLoop rest blank s
          else do
            let s ← layoutNewline t next s
            layoutLoop rest blank s
    else if t.kind = eof then layoutLoop rest 0 s
    else layoutLoop rest 0 (emitToken t s)

def Layout.init : Layout := ⟨[], [], eof, false, 0⟩

/-- The pass over the tokens the filter leaves, the last of which stands at the end of the file. -/
def layout (raw : List Token) : Run (List Token) := do
  let s ← layoutLoop raw 0 Layout.init
  let rawEof := (raw.getLast?).getD ⟨eof, [], 0, 0⟩
  .ok (emitDedents rawEof s.stack.length s.out ++ [layoutToken eof rawEof])

/-- Built by the pass: at a depth of open blocks and inside a number of brackets. Blocks open and
close outside brackets. -/
inductive Laid : List Token → ℕ → ℕ → Prop where
  | nil : Laid [] 0 0
  | token {out : List Token} {depth brackets : ℕ} (t : Token) (ht : t.kind.OfSource)
      (hnl : t.kind ≠ newline) : Laid out depth brackets →
      Laid (out ++ [t]) depth (bracketStep brackets t.kind)
  | newline {out : List Token} {depth brackets : ℕ} (t : Token) :
      Laid out depth brackets → Laid (out ++ [layoutToken .newline t]) depth brackets
  | indent {out : List Token} {depth : ℕ} (t : Token) :
      Laid out depth 0 → Laid (out ++ [layoutToken .indent t]) (depth + 1) 0
  | dedent {out : List Token} {depth : ℕ} (t : Token) :
      Laid out (depth + 1) 0 → Laid (out ++ [layoutToken .dedent t]) depth 0

def indents (ts : List Token) : ℕ := ts.countP fun t => t.kind = indent

def dedents (ts : List Token) : ℕ := ts.countP fun t => t.kind = dedent

/-- What is left when the tokens of the layout pass are removed. -/
def lineTokens (ts : List Token) : List Token :=
  ts.filter fun t => t.kind ≠ indent ∧ t.kind ≠ dedent ∧ t.kind ≠ newline

/-- The bracket depth behind a list of tokens, a closer without an opener counting for nothing. -/
def bracketsAfter (ts : List Token) : ℕ := ts.foldl (fun depth t => bracketStep depth t.kind) 0

section Laid
variable {out : List Token} {depth brackets : ℕ}

theorem Laid.indents_eq (h : Laid out depth brackets) : indents out = dedents out + depth := by
  induction h with
  | nil => rfl
  | token t ht hnl _ ih => simp_all [indents, dedents]
  | newline t _ ih => simp_all [indents, dedents, layoutToken]
  | indent t _ ih =>
    simp only [indents, dedents, List.countP_append, layoutToken] at ih ⊢
    simp
    omega
  | dedent t _ ih =>
    simp only [indents, dedents, List.countP_append, layoutToken] at ih ⊢
    simp
    omega

theorem Laid.of_snoc {t : Token} (h : Laid (out ++ [t]) depth brackets) :
    ∃ depth' brackets', Laid out depth' brackets' := by
  generalize hts : out ++ [t] = ts at h
  cases h with
  | nil => simp at hts
  | token _ _ _ h => exact ⟨_, _, (List.append_inj_left' hts rfl) ▸ h⟩
  | newline _ h => exact ⟨_, _, (List.append_inj_left' hts rfl) ▸ h⟩
  | indent _ h => exact ⟨_, _, (List.append_inj_left' hts rfl) ▸ h⟩
  | dedent _ h => exact ⟨_, _, (List.append_inj_left' hts rfl) ▸ h⟩

theorem Laid.of_append {rest : List Token} (h : Laid (out ++ rest) depth brackets) :
    ∃ depth' brackets', Laid out depth' brackets' := by
  induction rest using List.reverseRecOn generalizing depth brackets with
  | nil => exact ⟨depth, brackets, by rwa [List.append_nil] at h⟩
  | append_singleton rest t ih =>
    rw [← List.append_assoc] at h
    obtain ⟨_, _, h'⟩ := h.of_snoc
    exact ih h'

theorem Laid.dedents_le (h : Laid out depth brackets) {ts : List Token} (hts : ts <+: out) :
    dedents ts ≤ indents ts := by
  obtain ⟨rest, rfl⟩ := hts
  obtain ⟨_, _, h'⟩ := h.of_append
  have := h'.indents_eq
  omega

theorem Laid.bracketsAfter_eq (h : Laid out depth brackets) : bracketsAfter out = brackets := by
  induction h with
  | nil => rfl
  | token t ht hnl _ ih => rw [← ih]; simp [bracketsAfter]
  | newline t _ ih => rw [← ih]; simp [bracketsAfter, layoutToken, bracketStep, Opens, Closes]
  | indent t _ ih => rw [← ih]; simp [bracketsAfter, layoutToken, bracketStep, Opens, Closes]
  | dedent t _ ih => rw [← ih]; simp [bracketsAfter, layoutToken, bracketStep, Opens, Closes]

/-- A block opens or closes outside brackets. -/
theorem Laid.outside {t : Token} {rest : List Token}
    (h : Laid (out ++ t :: rest) depth brackets) (ht : t.kind = .indent ∨ t.kind = .dedent) :
    bracketsAfter out = 0 := by
  rw [← List.singleton_append, ← List.append_assoc] at h
  obtain ⟨_, _, h'⟩ := h.of_append
  generalize hts : out ++ [t] = ts at h'
  cases h' with
  | nil => simp at hts
  | token u hu _ h' =>
    obtain ⟨rfl, hut⟩ := List.append_inj' hts rfl
    cases hut
    rcases ht with ht | ht <;> simp [ht] at hu
  | newline u h' =>
    obtain ⟨rfl, hut⟩ := List.append_inj' hts rfl
    cases hut
    simp [layoutToken] at ht
  | indent u h' =>
    obtain ⟨rfl, -⟩ := List.append_inj' hts rfl
    exact h'.bracketsAfter_eq
  | dedent u h' =>
    obtain ⟨rfl, -⟩ := List.append_inj' hts rfl
    exact h'.bracketsAfter_eq

theorem Laid.ne_eof (h : Laid out depth brackets) {t : Token} (ht : t ∈ out) : t.kind ≠ eof := by
  induction h with
  | nil => simp at ht
  | token u hu _ _ ih =>
    rcases List.mem_append.mp ht with ht | ht
    · exact ih ht
    · obtain rfl := List.mem_singleton.mp ht
      exact hu.2.2
  | newline u _ ih | indent u _ ih | dedent u _ ih =>
    rcases List.mem_append.mp ht with ht | ht
    · exact ih ht
    · obtain rfl := List.mem_singleton.mp ht
      simp [layoutToken]

theorem Laid.emitDedents {n : ℕ} (t : Token) (h : Laid out (n + depth) 0) :
    Laid (Lexer.emitDedents t n out) depth 0 := by
  induction n generalizing out with
  | zero =>
    rw [Nat.zero_add] at h
    simpa [Lexer.emitDedents] using h
  | succ n ih =>
    rw [Nat.add_right_comm] at h
    have hrest := ih (h.dedent t)
    simpa [Lexer.emitDedents, List.replicate_succ] using hrest

theorem Laid.emitNewline (t : Token) (after : List TokenKind) (h : Laid out depth brackets) :
    Laid (Lexer.emitNewline t after out) depth brackets := by
  unfold Lexer.emitNewline
  cases out.getLast? with
  | none => exact h
  | some last =>
    dsimp only
    split_ifs
    · exact h
    · exact h.newline t

end Laid

@[simp] theorem lineTokens_append (ts us : List Token) :
    lineTokens (ts ++ us) = lineTokens ts ++ lineTokens us := List.filter_append ..

theorem lineTokens_emitDedents (t : Token) (n : ℕ) (out : List Token) :
    lineTokens (emitDedents t n out) = lineTokens out := by
  simp [emitDedents, lineTokens, layoutToken]

theorem lineTokens_emitNewline (t : Token) (after : List TokenKind) (out : List Token) :
    lineTokens (emitNewline t after out) = lineTokens out := by
  unfold emitNewline
  cases out.getLast? with
  | none => rfl
  | some last =>
    dsimp only
    split_ifs <;> simp [lineTokens, layoutToken]

theorem closeMatch_length (next : Token) (stack : List Frame) :
    (closeMatch next stack).1 + (closeMatch next stack).2.length = stack.length := by
  induction stack with
  | nil => rfl
  | cons frame below ih =>
    unfold closeMatch
    split_ifs
    · simp
    · rw [List.length_cons]
      dsimp only
      omega
    · simp

theorem closeDeeper_length (next : Token) (stack : List Frame) :
    (closeDeeper next stack).1 + (closeDeeper next stack).2.length = stack.length := by
  induction stack with
  | nil => rfl
  | cons frame below ih =>
    unfold closeDeeper
    split_ifs
    · rw [List.length_cons]
      dsimp only
      omega
    · simp

/-- What every step keeps: the output is laid out at the depth of the stack, and a step that
handles newlines adds no other token. -/
def Layout.Inv (s : Layout) : Prop := Laid s.out s.stack.length s.bracketDepth

theorem openBlock_inv {next : Token} {isMatch : Bool} {s s' : Layout}
    (hs : Laid s.out s.stack.length 0) (h : openBlock next isMatch s = .ok s') :
    Laid s'.out s'.stack.length 0 ∧ s'.bracketDepth = s.bracketDepth ∧
      lineTokens s'.out = lineTokens s.out := by
  unfold openBlock at h
  split_ifs at h
  · cases h
  · cases h
    exact ⟨hs.indent next, rfl, by simp [lineTokens, layoutToken]⟩

theorem layoutNewline_inv {t next : Token} {s s' : Layout} (hs : Laid s.out s.stack.length 0)
    (h : layoutNewline t next s = .ok s') :
    Laid s'.out s'.stack.length 0 ∧ s'.bracketDepth = s.bracketDepth ∧
      lineTokens s'.out = lineTokens s.out := by
  unfold layoutNewline at h
  dsimp only at h
  rw [← closeMatch_length next s.stack] at hs
  have hclosed := hs.emitDedents t
  have hline := lineTokens_emitDedents t (closeMatch next s.stack).1 s.out
  split_ifs at h
  · obtain ⟨hlaid, hdepth, hout⟩ := openBlock_inv hclosed h
    exact ⟨hlaid, hdepth, hout.trans hline⟩
  · obtain ⟨hlaid, hdepth, hout⟩ := openBlock_inv hclosed h
    exact ⟨hlaid, hdepth, hout.trans hline⟩
  · cases h
    exact ⟨hclosed.emitNewline t _, rfl, (lineTokens_emitNewline _ _ _).trans hline⟩
  · cases h
  · cases h
    rw [← closeDeeper_length next (closeMatch next s.stack).2] at hclosed
    have hdeeper := hclosed.emitDedents t
    rw [← closeMatch_length next (closeDeeper next (closeMatch next s.stack).2).2] at hdeeper
    refine ⟨(hdeeper.emitDedents t).emitNewline t _, rfl, ?_⟩
    rw [lineTokens_emitNewline, lineTokens_emitDedents, lineTokens_emitDedents, hline]
  · cases h
    exact ⟨hclosed, rfl, hline⟩

/-- The tokens of the source that are on a line. -/
def onLines (ts : List Token) : List Token := ts.filter fun t => t.kind ≠ newline ∧ t.kind ≠ eof

theorem layoutLoop_inv (ts : List Token) (skip : ℕ) {s s' : Layout}
    (hts : ∀ t ∈ ts, t.kind.OfSource ∨ t.kind = eof)
    (hskip : ∀ t ∈ ts.take skip, t.kind = newline) (hs : s.Inv)
    (h : layoutLoop ts skip s = .ok s') :
    s'.Inv ∧ lineTokens s'.out = lineTokens s.out ++ onLines ts := by
  induction ts generalizing skip s with
  | nil =>
    cases skip <;>
    · cases h
      exact ⟨hs, by simp [onLines]⟩
  | cons t rest ih =>
    have hrest : ∀ t ∈ rest, t.kind.OfSource ∨ t.kind = eof :=
      fun u hu => hts u (List.mem_cons_of_mem t hu)
    cases skip with
    | succ skip =>
      rw [List.take_succ_cons] at hskip
      have ht := hskip t List.mem_cons_self
      obtain ⟨hinv, hout⟩ := ih skip hrest (fun u hu => hskip u (List.mem_cons_of_mem t hu)) hs h
      exact ⟨hinv, by rw [hout]; simp [onLines, ht]⟩
    | zero =>
      have hblank : ∀ u ∈ rest.take (rest.takeWhile fun t => t.kind = newline).length,
          u.kind = newline := by
        intro u hu
        rw [← List.prefix_iff_eq_take.mp (List.takeWhile_prefix _)] at hu
        simpa using List.mem_takeWhile_imp hu
      unfold layoutLoop at h
      by_cases hnl : t.kind = newline
      · rw [if_pos hnl] at h
        dsimp only at h
        have hcons : onLines (t :: rest) = onLines rest := by simp [onLines, hnl]
        rw [hcons]
        by_cases hdepth : s.bracketDepth > 0
        · rw [if_pos hdepth] at h
          exact ih _ hrest hblank hs h
        · rw [if_neg hdepth] at h
          split at h
          · exact ih _ hrest hblank hs h
          · split_ifs at h
            · exact ih _ hrest hblank hs h
            · obtain ⟨s₁, hstep, h⟩ := Run.bind_eq_ok.mp h
              have hzero : s.bracketDepth = 0 := by omega
              unfold Layout.Inv at hs
              rw [hzero] at hs
              obtain ⟨hlaid, hdepth₁, hline⟩ := layoutNewline_inv hs hstep
              rw [hzero] at hdepth₁
              have hs₁ : s₁.Inv := by
                unfold Layout.Inv
                rwa [hdepth₁]
              obtain ⟨hinv, hout⟩ := ih _ hrest hblank hs₁ h
              exact ⟨hinv, by rw [hout, hline]⟩
      · rw [if_neg hnl] at h
        by_cases heof : t.kind = eof
        · rw [if_pos heof] at h
          obtain ⟨hinv, hout⟩ := ih 0 hrest (by simp) hs h
          exact ⟨hinv, by rw [hout]; simp [onLines, heof]⟩
        · rw [if_neg heof] at h
          have hsource := (hts t List.mem_cons_self).resolve_right heof
          have hs₁ : (emitToken t s).Inv := Laid.token t hsource hnl hs
          obtain ⟨hinv, hout⟩ := ih 0 hrest (by simp) hs₁ h
          refine ⟨hinv, ?_⟩
          rw [hout]
          simp [emitToken, lineTokens, onLines, hnl, heof, hsource.1, hsource.2.1]

end FcLang.Lexer
