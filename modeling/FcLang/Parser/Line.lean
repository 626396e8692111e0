import FcLang.Parser.Print

/-!
# What a printed line is made of

`Good` collects what holds at every token of a printed expression: which kinds
occur, what may follow an operator, and that every parenthesis and bracket
opened from there on is closed. It passes to what is left of the line, so it
holds wherever the parser stands. No scan runs past such a line, and none finds
a brace.
-/

namespace FcLang.Parser
open Lexer (TokenKind)

/-- Closing less opening delimiters. -/
def excess (opening closing : TokenKind) : List Tok → ℤ
  | [] => 0
  | t :: ts =>
    (if t.kind = opening then -1 else if t.kind = closing then 1 else 0) + excess opening closing ts

@[simp] theorem excess_nil (o c : TokenKind) : excess o c [] = 0 := rfl

theorem excess_cons (o c : TokenKind) (t : Tok) (ts : List Tok) :
    excess o c (t :: ts) = (if t.kind = o then -1 else if t.kind = c then 1 else 0) + excess o c ts :=
  rfl

theorem excess_append (o c : TokenKind) (u w : List Tok) :
    excess o c (u ++ w) = excess o c u + excess o c w := by
  induction u with
  | nil => simp
  | cons t u ih => simp only [List.cons_append, excess_cons, ih, add_assoc]

/-- The kinds that a printed expression is made of. -/
def inLine : TokenKind → Bool
  | .ident | .intLit | .floatLit | .stringLit | .cstringLit | .charLit | .kwTrue | .kwFalse
  | .plus | .minus | .star | .slash | .percent | .amp | .pipe | .caret | .tilde | .bang | .eq
  | .eqEq | .bangEq | .lt | .gt | .ltEq | .gtEq | .ltLt | .gtGt | .ampAmp | .pipePipe | .question
  | .dot | .dotDot | .comma | .lparen | .rparen | .lbracket | .rbracket => true
  | _ => false

/-- What may follow a printed expression: the end of its line or statement, or
a `)` that was opened before it. -/
def endsLine : TokenKind → Bool
  | .newline | .dedent | .eof | .semicolon | .rparen => true
  | _ => false

def isUnaryKind : TokenKind → Bool
  | .minus | .bang | .tilde | .amp | .star => true
  | _ => false

/-- The kinds that begin a name, a literal or a parenthesis. -/
def beginsAtom : TokenKind → Bool
  | .ident | .intLit | .floatLit | .stringLit | .cstringLit | .charLit | .kwTrue | .kwFalse
  | .lparen => true
  | _ => false

/-- Prefix operators and then an atom. -/
def operandNext : List Tok → Bool
  | [] => false
  | t :: ts => (isUnaryKind t.kind && operandNext ts) || beginsAtom t.kind

/-- The kinds that never end an operand, so that one follows. -/
def expectsOperand : TokenKind → Bool
  | .plus | .minus | .star | .slash | .percent | .amp | .pipe | .caret | .tilde | .eqEq | .bangEq
  | .lt | .gt | .ltEq | .gtEq | .ltLt | .gtGt | .ampAmp | .pipePipe => true
  | _ => false

/-- A name that heads no generic declaration and names no built-in type. -/
def PlainName (g : List Name) (name : Name) : Prop := name ∉ g ∧ typeFromName name = none

/-- What holds at a token, given what is left of the line after it. -/
structure Sound (g : List Name) (t : Tok) (ts : List Tok) : Prop where
  kind : inLine t.kind = true
  name : t.kind = .ident → PlainName g t.text
  member : t.kind = .dot → peekAt ts 0 = .ident
  operand : expectsOperand t.kind = true → operandNext ts = true
  bracket : t.kind = .lbracket → ts ≠ [] ∧ peekAt ts 0 ≠ .rbracket
  parens : 0 ≤ excess .lparen .rparen (t :: ts)
  brackets : 0 ≤ excess .lbracket .rbracket (t :: ts)

def Good (g : List Name) : List Tok → Prop
  | [] => True
  | t :: ts => Sound g t ts ∧ Good g ts

section
variable {g : List Name} {K w : List Tok}

@[simp] theorem good_nil : Good g [] := trivial

theorem Good.suffix {u : List Tok} (h : Good g w) (hu : u <:+ w) : Good g u := by
  obtain ⟨v, rfl⟩ := hu
  induction v with
  | nil => exact h
  | cons t v ih => exact ih h.2

theorem Good.parens (h : Good g w) : 0 ≤ excess .lparen .rparen w := by
  cases w with
  | nil => simp
  | cons t w => exact h.1.parens

theorem Good.brackets (h : Good g w) : 0 ≤ excess .lbracket .rbracket w := by
  cases w with
  | nil => simp
  | cons t w => exact h.1.brackets

@[simp] theorem peekAt_cons_zero (t : Tok) (ts : List Tok) : peekAt (t :: ts) 0 = t.kind := rfl

@[simp] theorem peekAt_cons_succ (t : Tok) (ts : List Tok) (n : ℕ) :
    peekAt (t :: ts) (n + 1) = peekAt ts n := rfl

/-- The kinds that stand on a line or right after it. -/
def onLine (k : TokenKind) : Bool := inLine k || endsLine k

theorem Good.peek (h : Good g w) (hK : endsLine (peekAt K 0) = true) :
    onLine (peekAt (w ++ K) 0) = true := by
  cases w with
  | nil => simp only [List.nil_append, onLine, hK, Bool.or_true]
  | cons t w => simp only [List.cons_append, peekAt_cons_zero, onLine, h.1.kind, Bool.true_or]

/-- A kind of a class is none outside it. -/
theorem kind_ne {p : TokenKind → Bool} {k k' : TokenKind} (h : p k = true) (h' : p k' = false) :
    k ≠ k' := by
  rintro rfl
  exact Bool.false_ne_true (h'.symm.trans h)

/-- `ts` is what is left of the line, and what follows the line. -/
def Within (w K ts : List Tok) : Prop := ∃ w', w' <:+ w ∧ ts = w' ++ K

theorem Within.cons {t : Tok} {ts : List Tok} (h : Within w K ts) : Within (t :: w) K ts := by
  obtain ⟨w', hw', rfl⟩ := h
  exact ⟨w', hw'.trans (List.suffix_cons t w), rfl⟩

theorem Within.refl : Within w K (w ++ K) := ⟨w, List.suffix_rfl, rfl⟩

theorem Within.trans {ts us : List Tok} (h : Within w K ts)
    (hu : ∀ w', w' <:+ w → ts = w' ++ K → Within w' K us) : Within w K us := by
  obtain ⟨w', hw', rfl⟩ := h
  obtain ⟨v, hv, rfl⟩ := hu w' hw' rfl
  exact ⟨v, hv.trans hw', rfl⟩

theorem Within.peek {ts : List Tok} (h : Within w K ts) (hw : Good g w)
    (hK : endsLine (peekAt K 0) = true) : onLine (peekAt ts 0) = true := by
  obtain ⟨w', hw', rfl⟩ := h
  exact (hw.suffix hw').peek hK

/-- An open group closes before the line ends. -/
theorem skipGroup_within {o c : TokenKind} {d : ℤ} (hd : 0 < d)
    (hw : ∀ t ∈ w, inLine t.kind = true) (hx : d ≤ excess o c w) :
    Within w K (skipGroup o c d (w ++ K)) := by
  induction w generalizing d with
  | nil => simp only [excess_nil] at hx; omega
  | cons t w ih =>
    have hw' := fun u hu => hw u (List.mem_cons_of_mem t hu)
    have heof : t.kind ≠ .eof := kind_ne (hw t List.mem_cons_self) rfl
    rw [excess_cons] at hx
    by_cases ho : t.kind = o
    · rw [List.cons_append, skipGroup, if_pos ho, if_pos (by omega)]
      rw [if_pos ho] at hx
      exact (ih (by omega) hw' (by omega)).cons
    · by_cases hc : t.kind = c
      · rw [if_neg ho, if_pos hc] at hx
        rw [List.cons_append, skipGroup, if_neg ho, if_pos hc]
        by_cases h1 : 0 < d - 1
        · rw [if_pos h1]
          exact (ih h1 hw' (by omega)).cons
        · rw [if_neg h1]
          exact Within.refl.cons
      · rw [if_neg ho, if_neg hc] at hx
        rw [List.cons_append, skipGroup, if_neg ho, if_neg hc, if_neg heof, if_pos hd]
        exact (ih hd hw' (by omega)).cons

theorem Good.kinds (h : Good g w) : ∀ t ∈ w, inLine t.kind = true := by
  induction w with
  | nil => simp
  | cons t w ih =>
    intro u hu
    rcases List.mem_cons.mp hu with rfl | hu
    · exact h.1.kind
    · exact ih h.2 u hu

/-- A group that opens on the line also closes on it. -/
theorem skipGroup_opened {o c : TokenKind} {t : Tok} (ht : t.kind = o)
    (h : Good g (t :: w)) (hx : 0 ≤ excess o c (t :: w)) :
    Within w K (skipGroup o c 0 (t :: w ++ K)) := by
  rw [List.cons_append, skipGroup, if_pos ht, if_pos (by decide)]
  rw [excess_cons, if_pos ht] at hx
  exact skipGroup_within (by decide) h.2.kinds (by omega)

theorem Within.not_brackets {ts : List Tok} (h : Within w K ts) (hw : Good g w)
    (hK : endsLine (peekAt K 0) = true) : atSliceLitBrackets ts = false := by
  obtain ⟨v, hv, rfl⟩ := h
  have hgood := hw.suffix hv
  cases v with
  | nil =>
    have : peekAt K 0 ≠ .lbracket := kind_ne hK rfl
    simp [atSliceLitBrackets, this]
  | cons t v =>
    by_cases ht : t.kind = .lbracket
    · have hin := skipGroup_opened (K := K) ht hgood hgood.1.brackets
      have hne : _ ≠ TokenKind.lbrace := kind_ne (hin.peek hgood.2 hK) rfl
      rw [atSliceLitBrackets, beq_eq_false_iff_ne.mpr hne, Bool.and_false]
    · simp [atSliceLitBrackets, ht]

theorem Within.not_structLit {ts : List Tok} (h : Within w K ts) (hw : Good g w)
    (hK : endsLine (peekAt K 0) = true) : atStructLitBrace ts = false := by
  have : _ ≠ TokenKind.lbrace := kind_ne (h.peek hw hK) rfl
  simp [atStructLitBrace, this]

/-- A type-argument scan ends on the line, if it ends. -/
theorem typeargScan_within {depth paren : ℕ} {ts : List Tok} (hw : Good g w)
    (hK : endsLine (peekAt K 0) = true) (hp : (paren : ℤ) ≤ excess .lparen .rparen w)
    (h : typeargScan depth paren (w ++ K) = some ts) : Within w K ts := by
  induction w generalizing depth paren with
  | nil =>
    cases depth with
    | zero =>
      simp only [typeargScan] at h
      split at h
      · cases h
        exact Within.refl
      · cases h
    | succ depth =>
      have h0 : paren = 0 := by simp only [excess_nil] at hp; omega
      cases K with
      | nil => simp [typeargScan] at h
      | cons k K =>
        subst h0
        rw [peekAt_cons_zero] at hK
        simp only [List.nil_append, typeargScan] at h
        cases hk : k.kind <;> simp [hk, endsLine, isTypeArgToken] at hK h
  | cons t w ih =>
    cases depth with
    | zero =>
      simp only [typeargScan] at h
      split at h
      · cases h
        exact Within.refl
      · cases h
    | succ depth =>
      rw [excess_cons] at hp
      rw [List.cons_append, typeargScan] at h
      by_cases hl : t.kind = .lparen
      · rw [if_pos hl] at h hp
        exact (ih hw.2 (by push_cast; omega) h).cons
      rw [if_neg hl] at h hp
      by_cases hr : t.kind = .rparen
      · rw [if_pos hr] at h hp
        by_cases h0 : paren = 0
        · simp [h0] at h
        · rw [if_neg h0] at h
          exact (ih hw.2 (by push_cast [Nat.one_le_iff_ne_zero.mpr h0]; omega) h).cons
      rw [if_neg hr] at h hp
      split at h
      · split at h
        · cases h
        · exact (ih hw.2 (by omega) h).cons
      · split at h
        · exact (ih hw.2 (by omega) h).cons
        · split at h
          · exact (ih hw.2 (by omega) h).cons
          · split at h
            · split at h
              · cases h
              · exact (ih hw.2 (by omega) h).cons
            · split at h
              · exact (ih hw.2 (by omega) h).cons
              · cases h

theorem structLitTypeargScan_line (hw : Good g w) (hK : endsLine (peekAt K 0) = true) :
    structLitTypeargScan (w ++ K) = false := by
  unfold structLitTypeargScan
  split
  · rename_i after h
    exact (typeargScan_within hw hK (by simpa using hw.parens) h).not_structLit hw hK
  · rfl

/-- The members of a dotted name are read along the line. -/
theorem skipMembers_consumes (hw : Good g w) (hK : endsLine (peekAt K 0) = true) :
    ∃ u w', w = u ++ w' ∧ skipMembers (w ++ K) = w' ++ K ∧ excess .lparen .rparen u = 0 := by
  induction hn : w.length using Nat.strong_induction_on generalizing w with
  | _ n ih =>
    cases w with
    | nil =>
      refine ⟨[], [], rfl, ?_, rfl⟩
      cases K with
      | nil => rfl
      | cons k K =>
        cases K with
        | nil => rfl
        | cons k' K =>
          rw [peekAt_cons_zero] at hK
          have hdot : k.kind ≠ .dot := kind_ne hK rfl
          rw [List.nil_append, skipMembers, if_neg (by simp [hdot])]
    | cons t w =>
      by_cases ht : t.kind = .dot
      · cases w with
        | nil =>
          have := hw.1.member ht
          simp [peekAt, eofTok] at this
        | cons u w =>
          have hu : u.kind = .ident := hw.1.member ht
          obtain ⟨v, w', rfl, hskip, hv⟩ :=
            ih w.length (by simp only [List.length_cons] at hn; omega) hw.2.2 rfl
          refine ⟨t :: u :: v, w', rfl, ?_, ?_⟩
          · rw [List.cons_append, List.cons_append, skipMembers, if_pos ⟨ht, hu⟩, hskip]
          · simp [excess_cons, ht, hu, hv]
      · refine ⟨[], t :: w, rfl, ?_, rfl⟩
        cases hwK : w ++ K with
        | nil => simp [skipMembers, hwK]
        | cons u ts => rw [List.cons_append, hwK, skipMembers, if_neg (by simp [ht])]

theorem skipMembers_within (hw : Good g w) (hK : endsLine (peekAt K 0) = true) :
    Within w K (skipMembers (w ++ K)) := by
  obtain ⟨u, w', rfl, hskip, -⟩ := skipMembers_consumes hw hK
  exact ⟨w', List.suffix_append u w', hskip⟩

theorem skipMarks_within (hK : endsLine (peekAt K 0) = true) :
    Within w K (skipMarks (w ++ K)) := by
  unfold skipMarks
  induction w with
  | nil =>
    cases K with
    | nil => exact Within.refl
    | cons k K =>
      rw [peekAt_cons_zero] at hK
      have hk : k.isTypeMark = false := by
        cases hkind : k.kind <;> simp [Tok.isTypeMark, hkind, endsLine] at hK ⊢
      rw [List.nil_append, List.dropWhile_cons_of_neg (by simp [hk])]
      exact Within.refl
  | cons t w ih =>
    by_cases ht : t.isTypeMark = true
    · rw [List.cons_append, List.dropWhile_cons_of_pos ht]
      exact ih.cons
    · rw [List.cons_append, List.dropWhile_cons_of_neg ht]
      exact Within.refl

/-- No slice literal begins on a printed line. -/
theorem atSliceLiteral_line {t : Tok} (ht : t.kind = .ident) (hw : Good g (t :: w))
    (hK : endsLine (peekAt K 0) = true) : atSliceLiteral (t :: w ++ K) = false := by
  have hhead : (t :: w ++ K).dropWhile (·.kind == .kwConst) = t :: (w ++ K) := by
    rw [List.cons_append, List.dropWhile_cons_of_neg (by simp [ht])]
  have hmembers := skipMembers_within hw.2 hK
  unfold atSliceLiteral scanTypeHead
  rw [hhead]
  simp only [ht, reduceCtorEq, if_false, if_true]
  cases hrest : skipMembers (w ++ K) with
  | nil => simp [atSliceLitBrackets, peekAt, eofTok]
  | cons u args =>
    obtain ⟨v, hv, huv⟩ := hrest ▸ hmembers
    have hgood := hw.2.suffix hv
    simp only
    split
    · rename_i after hafter
      split at hafter
      · rename_i hlt
        cases hafter
        cases v with
        | nil =>
          rw [List.nil_append] at huv
          rw [← huv, peekAt_cons_zero] at hK
          exact absurd hlt (kind_ne hK rfl)
        | cons u' v =>
          rw [List.cons_append, List.cons.injEq] at huv
          obtain ⟨rfl, rfl⟩ := huv
          cases hscan : typeargScan 1 0 (v ++ K) with
          | none =>
            simp only [Option.getD_none]
            exact (skipMarks_within (w := u :: v) hK).not_brackets hgood hK
          | some ts =>
            simp only [Option.getD_some]
            obtain ⟨v', hv', rfl⟩ :=
              typeargScan_within hgood.2 hK (by simpa using hgood.2.parens) hscan
            exact (skipMarks_within hK).not_brackets (hgood.2.suffix hv') hK
      · cases hafter
        rw [huv]
        exact (skipMarks_within hK).not_brackets hgood hK
    · rfl

end

theorem Literal.inLine_tok (l : Literal) : inLine l.tok.kind = true ∧ beginsAtom l.tok.kind = true ∧
    expectsOperand l.tok.kind = false ∧
    l.tok.kind ∉ [TokenKind.ident, .dot, .lbracket, .rbracket, .lparen, .rparen] := by
  cases l with
  | bool value => cases value <;> simp [Literal.tok, inLine, beginsAtom, expectsOperand]
  | _ => simp [Literal.tok, inLine, beginsAtom, expectsOperand]

theorem PrefixOp.kind_spec (op : PrefixOp) : inLine op.kind = true ∧ isUnaryKind op.kind = true ∧
    op.kind ∉ [TokenKind.ident, .dot, .lbracket, .rbracket, .lparen, .rparen] := by
  cases op <;> simp [PrefixOp.kind, inLine, isUnaryKind]

theorem PostfixOp.kind_spec (op : PostfixOp) : inLine op.kind = true ∧
    expectsOperand op.kind = false ∧
    op.kind ∉ [TokenKind.ident, .dot, .lbracket, .rbracket, .lparen, .rparen] := by
  cases op <;> simp [PostfixOp.kind, inLine, expectsOperand]

theorem BinaryOp.kind_spec (op : BinaryOp) : inLine op.kind = true ∧
    expectsOperand op.kind = true ∧
    op.kind ∉ [TokenKind.ident, .dot, .lbracket, .rbracket, .lparen, .rparen] := by
  cases op <;> simp [BinaryOp.kind, inLine, expectsOperand]

section
variable {g : List Name} {K w : List Tok}

/-- A token that opens and closes nothing and names nothing. -/
theorem good_plain {t : Tok} (hk : inLine t.kind = true)
    (hn : t.kind ∉ [TokenKind.ident, .dot, .lbracket, .rbracket, .lparen, .rparen])
    (ho : expectsOperand t.kind = true → operandNext w = true) (hw : Good g w) :
    Good g (t :: w) := by
  simp only [List.mem_cons, List.not_mem_nil, or_false, not_or] at hn
  refine ⟨⟨hk, fun h => absurd h hn.1, fun h => absurd h hn.2.1, ho, fun h => absurd h hn.2.2.1,
    ?_, ?_⟩, hw⟩
  · simpa [excess_cons, hn] using hw.parens
  · simpa [excess_cons, hn] using hw.brackets

theorem excess_plain {t : Tok}
    (hn : t.kind ∉ [TokenKind.ident, .dot, .lbracket, .rbracket, .lparen, .rparen]) :
    excess .lparen .rparen (t :: w) = excess .lparen .rparen w ∧
      excess .lbracket .rbracket (t :: w) = excess .lbracket .rbracket w := by
  simp only [List.mem_cons, List.not_mem_nil, or_false, not_or] at hn
  simp [excess_cons, hn]

/-- A run of tokens that a good line may follow, and that closes what it opens. -/
structure Balanced (g : List Name) (ts : List Tok) : Prop where
  good : ∀ {w}, Good g w → Good g (ts ++ w)
  parens : excess .lparen .rparen ts = 0
  brackets : excess .lbracket .rbracket ts = 0

theorem Balanced.nil : Balanced g [] := ⟨fun h => h, rfl, rfl⟩

theorem Balanced.append {u v : List Tok} (hu : Balanced g u) (hv : Balanced g v) :
    Balanced g (u ++ v) := by
  refine ⟨fun h => ?_, ?_, ?_⟩
  · rw [List.append_assoc]
    exact hu.good (hv.good h)
  · rw [excess_append, hu.parens, hv.parens, add_zero]
  · rw [excess_append, hu.brackets, hv.brackets, add_zero]

theorem Balanced.plain {t : Tok} {u : List Tok} (hk : inLine t.kind = true)
    (hn : t.kind ∉ [TokenKind.ident, .dot, .lbracket, .rbracket, .lparen, .rparen])
    (ho : expectsOperand t.kind = true → ∀ w, operandNext (u ++ w) = true) (hu : Balanced g u) :
    Balanced g (t :: u) := by
  refine ⟨fun {w} h => good_plain hk hn (fun he => ho he w) (hu.good h), ?_, ?_⟩
  · rw [(excess_plain hn).1, hu.parens]
  · rw [(excess_plain hn).2, hu.brackets]

theorem Balanced.name {name : Name} {u : List Tok} (hname : PlainName g name) (hu : Balanced g u) :
    Balanced g (⟨.ident, name⟩ :: u) := by
  refine ⟨fun h => ⟨⟨rfl, fun _ => hname, by simp, nofun, by simp, ?_, ?_⟩,
    hu.good h⟩, ?_, ?_⟩
  · simpa [excess_cons] using (hu.good h).parens
  · simpa [excess_cons] using (hu.good h).brackets
  · simpa [excess_cons] using hu.parens
  · simpa [excess_cons] using hu.brackets

theorem Balanced.member {name : Name} (hname : PlainName g name) :
    Balanced g [mark .dot, ⟨.ident, name⟩] := by
  have hbase := Balanced.name hname (Balanced.nil (g := g))
  refine ⟨fun {w} h => ⟨⟨rfl, by simp, by simp, nofun, by simp, ?_, ?_⟩,
    hbase.good h⟩, ?_, ?_⟩
  · simpa [excess_cons] using (hbase.good h).parens
  · simpa [excess_cons] using (hbase.good h).brackets
  · simp [excess_cons]
  · simp [excess_cons]

theorem good_rparen (hw : Good g w) : Good g (mark .rparen :: w) := by
  refine ⟨⟨rfl, by simp, by simp, nofun, by simp, ?_, ?_⟩, hw⟩
  · have := hw.parens
    simp only [excess_cons, mark_kind, reduceCtorEq, if_false, if_true]
    omega
  · simpa [excess_cons] using hw.brackets

theorem good_rbracket (hw : Good g w) : Good g (mark .rbracket :: w) := by
  refine ⟨⟨rfl, by simp, by simp, nofun, by simp, ?_, ?_⟩, hw⟩
  · simpa [excess_cons] using hw.parens
  · have := hw.brackets
    simp only [excess_cons, mark_kind, reduceCtorEq, if_false, if_true]
    omega

theorem Balanced.group {u : List Tok} (hu : Balanced g u) :
    Balanced g (mark .lparen :: (u ++ [mark .rparen])) := by
  constructor
  · intro w h
    rw [List.cons_append, List.append_assoc, List.cons_append, List.nil_append]
    have hin := hu.good (good_rparen h)
    refine ⟨⟨rfl, by simp, by simp, nofun, by simp, ?_, ?_⟩, hin⟩
    · have := h.parens
      simp only [excess_cons, excess_append, mark_kind, reduceCtorEq, if_false, if_true, hu.parens]
      omega
    · simpa [excess_cons] using hin.brackets
  · simp [excess_cons, excess_append, hu.parens]
  · simp [excess_cons, excess_append, hu.brackets]

theorem Balanced.bracketed {u : List Tok} (hu : Balanced g u)
    (hne : ∀ w, peekAt (u ++ mark .rbracket :: w) 0 ≠ .rbracket) :
    Balanced g (mark .lbracket :: (u ++ [mark .rbracket])) := by
  constructor
  · intro w h
    rw [List.cons_append, List.append_assoc, List.cons_append, List.nil_append]
    have hin := hu.good (good_rbracket h)
    refine ⟨⟨rfl, by simp, by simp, nofun, fun _ => ⟨by simp, hne w⟩, ?_, ?_⟩,
      hin⟩
    · simpa [excess_cons] using hin.parens
    · have := h.brackets
      simp only [excess_cons, excess_append, mark_kind, reduceCtorEq, if_false, if_true, hu.brackets]
      omega
  · simp [excess_cons, excess_append, hu.parens]
  · simp [excess_cons, excess_append, hu.brackets]

/-- The kind that an operand begins with. -/
theorem kind_of_operandNext {ts : List Tok} (h : operandNext ts = true) :
    (isUnaryKind (peekAt ts 0) || beginsAtom (peekAt ts 0)) = true := by
  cases ts with
  | nil => simp [operandNext] at h
  | cons t ts =>
    rw [operandNext] at h
    rw [peekAt_cons_zero]
    cases hu : isUnaryKind t.kind <;> simp_all

/-- An operand is next, so nothing is that no operand begins with. -/
theorem ne_of_operandNext {ts : List Tok} {k : TokenKind} (h : operandNext ts = true)
    (hk : (isUnaryKind k || beginsAtom k) = false) : peekAt ts 0 ≠ k := by
  rintro rfl
  exact Bool.false_ne_true (hk.symm.trans (kind_of_operandNext h))

namespace Written

theorem operandNext_toks (e : Written) (w : List Tok) : operandNext (e.toks ++ w) = true := by
  induction e generalizing w with
  | ident name => simp [toks, operandNext, beginsAtom]
  | lit l => simp [toks, operandNext, l.inLine_tok.2.1]
  | paren e ih => simp [toks, operandNext, beginsAtom]
  | unary op e ih => simp [toks, operandNext, op.kind_spec.2.1, ih]
  | suffixed op e ih => simpa [toks] using ih _
  | field e name ih => simpa [toks] using ih _
  | index e i ih _ => simpa [toks] using ih _
  | slice e lo hi ih _ _ => simpa [toks] using ih _
  | call e args ih _ => simpa [toks] using ih _
  | binary op l r ih _ => simpa [toks] using ih _
  | assign l r ih _ => simpa [toks] using ih _

theorem balanced_bound {o : Option Written} (h : ∀ x ∈ o, x.Names (PlainName g) → Balanced g x.toks)
    (hn : BoundNames (PlainName g) o) : Balanced g (boundToks o) := by
  cases o with
  | none => exact Balanced.nil
  | some x => exact h x rfl hn

theorem balanced_args {es : List Written}
    (h : ∀ x ∈ es, x.Names (PlainName g) → Balanced g x.toks)
    (hn : ArgNames (PlainName g) es) : Balanced g (argToks es) := by
  induction es with
  | nil => exact Balanced.nil
  | cons e es ih =>
    have he := h e List.mem_cons_self hn.1
    cases es with
    | nil => simpa [argToks] using he
    | cons e' es =>
      have hrest := ih (fun x hx => h x (List.mem_cons_of_mem e hx)) hn.2
      exact he.append (hrest.plain rfl (by simp) (nofun))

theorem balanced (e : Written) (hn : e.Names (PlainName g)) : Balanced g e.toks := by
  induction e with
  | ident name => exact Balanced.nil.name hn
  | lit l =>
    obtain ⟨hk, _, ho, hnot⟩ := l.inLine_tok
    exact Balanced.nil.plain hk hnot (by simp [ho])
  | paren e ih => exact (ih hn).group
  | unary op e ih =>
    obtain ⟨hk, _, hnot⟩ := op.kind_spec
    exact (ih hn).plain hk hnot fun _ => e.operandNext_toks
  | suffixed op e ih =>
    obtain ⟨hk, ho, hnot⟩ := op.kind_spec
    exact (ih hn).append (Balanced.nil.plain hk hnot (by simp [ho]))
  | field e name ih => exact (ih hn.1).append (Balanced.member hn.2)
  | index e i ihe ihi =>
    exact (ihe hn.1).append
      ((ihi hn.2).bracketed fun w => ne_of_operandNext (i.operandNext_toks _) rfl)
  | slice e lo hi ihe ihlo ihhi =>
    have hbounds : Balanced g (boundToks lo ++ mark .dotDot :: boundToks hi) :=
      (balanced_bound ihlo hn.2.1).append
        ((balanced_bound ihhi hn.2.2).plain rfl (by simp) (nofun))
    have hne : ∀ w, peekAt (boundToks lo ++ mark .dotDot :: boundToks hi ++ mark .rbracket :: w) 0 ≠
        .rbracket := by
      intro w
      cases lo with
      | none => simp [boundToks]
      | some x => simpa [boundToks] using ne_of_operandNext (x.operandNext_toks _) rfl
    have := (ihe hn.1).append (hbounds.bracketed hne)
    simpa [toks] using this
  | call e args ihe iha => exact (ihe hn.1).append (balanced_args iha hn.2).group
  | binary op l r ihl ihr =>
    obtain ⟨hk, _, hnot⟩ := op.kind_spec
    exact (ihl hn.1).append ((ihr hn.2).plain hk hnot fun _ => r.operandNext_toks)
  | assign l r ihl ihr =>
    exact (ihl hn.1).append ((ihr hn.2).plain rfl (by simp) (nofun))

end Written
end
end FcLang.Parser
