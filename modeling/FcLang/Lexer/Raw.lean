import FcLang.Lexer.Scan

/-!
# Raw token streams

What the scanner returns: tokens that are not layout tokens, ending in the only
end-of-file token.
-/

namespace FcLang.Lexer
open Scanner

/-- At most `n` characters are left; what is pending is a format specifier. -/
structure Scanner.Below (n : ℕ) (s : Scanner) : Prop where
  length_le : s.rest.length ≤ n
  spec : ∀ t ∈ s.fmtSpec, t.kind = .fmtSpec

/-- A scan needs no budget; it returns a token of the source and leaves at most `n` characters. -/
def Scans (n : ℕ) (x : Run (Token × Scanner)) : Prop :=
  x ≠ .error .budget ∧ ∀ t s, x = .ok (t, s) → t.kind.OfSource ∧ s.Below n

section Advance
variable {n : ℕ} {s : Scanner}

theorem Scanner.advance_rest (s : Scanner) : s.advance.rest = s.rest.tail := by
  unfold advance
  cases hrest : s.rest with
  | nil => simp [hrest]
  | cons c rest =>
    dsimp only
    split_ifs <;> rfl

theorem Scanner.advance_fmtSpec (s : Scanner) : s.advance.fmtSpec = s.fmtSpec := by
  unfold advance
  cases s.rest with
  | nil => rfl
  | cons c rest =>
    dsimp only
    split_ifs <;> rfl

theorem Scanner.advanceBy_fmtSpec (s : Scanner) (k : ℕ) : (s.advanceBy k).fmtSpec = s.fmtSpec := by
  induction k generalizing s with
  | zero => rfl
  | succ k ih => exact (ih s.advance).trans s.advance_fmtSpec

theorem Scanner.advanceBy_length (s : Scanner) (k : ℕ) :
    (s.advanceBy k).rest.length ≤ s.rest.length := by
  induction k generalizing s with
  | zero => exact le_rfl
  | succ k ih =>
    apply (ih s.advance).trans
    rw [advance_rest, List.length_tail]
    exact Nat.sub_le _ _

theorem Scanner.Below.advanceBy (h : s.Below n) (k : ℕ) : (s.advanceBy k).Below n := by
  constructor
  · exact (s.advanceBy_length k).trans h.length_le
  · rw [advanceBy_fmtSpec]
    exact h.spec

theorem Scanner.Below.advance (h : s.Below n) : s.advance.Below n := h.advanceBy 1

theorem Scanner.Below.skipWhile (h : s.Below n) (p : UInt8 → Bool) : (s.skipWhile p).Below n :=
  h.advanceBy _

theorem Scanner.Below.scanDigits (h : s.Below n) (p : UInt8 → Bool) :
    (Lexer.scanDigits s p).2.Below n := h.advanceBy _

theorem Scanner.Below.scanExponent (h : s.Below n) (marker : UInt8) :
    (Lexer.scanExponent s marker).2.Below n := by
  unfold Lexer.scanExponent
  dsimp only
  split_ifs
  · exact h
  · exact h
  · exact h.advance.advance.scanDigits _
  · exact h.advance.scanDigits _

theorem Scanner.Below.ite {c : Prop} [Decidable c] {x y : Bool × Scanner} (hx : x.2.Below n)
    (hy : y.2.Below n) : (if c then x else y).2.Below n := by
  split_ifs
  · exact hx
  · exact hy

theorem Scanner.advance_below (hspec : s.fmtSpec = none) :
    s.advance.Below (s.rest.length - 1) := by
  constructor
  · rw [advance_rest, List.length_tail]
  · simp [advance_fmtSpec, hspec]

end Advance

section Scans
variable {n : ℕ} {start s : Scanner}

theorem Scans.ok {t : Token} (ht : t.kind.OfSource) (hs : s.Below n) : Scans n (.ok (t, s)) := by
  refine ⟨by simp, ?_⟩
  rintro t' s' h
  cases h
  exact ⟨ht, hs⟩

theorem Scans.fatal (line col : ℕ) (message : String) : Scans n (diagFatal line col message) := by
  refine ⟨by simp [diagFatal], ?_⟩
  rintro t s h
  cases h

theorem Scans.errorToken (message : String) : Scans n (start.errorToken message) :=
  .fatal _ _ _

theorem Scans.ite {c : Prop} [Decidable c] {x y : Run (Token × Scanner)} (hx : Scans n x)
    (hy : Scans n y) : Scans n (if c then x else y) := by
  split_ifs
  · exact hx
  · exact hy

theorem checkKeyword_ofSource (text : List UInt8) : (checkKeyword text).OfSource := by
  unfold checkKeyword
  cases hfind : keywords.find? fun kw => bytes kw.1 = text with
  | none => decide
  | some kw =>
    have hall : ∀ kw ∈ keywords, kw.2.OfSource := by decide
    exact hall kw (List.mem_of_find?_eq_some hfind)

theorem scanIdentifier_scans (h : s.Below n) : Scans n (scanIdentifier start s) :=
  .ite (.fatal _ _ _) (.ok (checkKeyword_ofSource _) (h.skipWhile _))

theorem finishSuffixed_scans (h : s.Below n) {lead : List UInt8} {kind : TokenKind}
    {suffixes : List String} (hk : kind.OfSource) :
    Scans n (finishSuffixed start s lead kind suffixes) :=
  .ite (.ite (.ok hk (h.skipWhile _)) (.errorToken _)) (.ok hk h)

theorem finishInt_scans (h : s.Below n) : Scans n (finishInt start s) :=
  finishSuffixed_scans h (by decide)

theorem finishFloat_scans (h : s.Below n) : Scans n (finishFloat start s) :=
  finishSuffixed_scans h (by decide)

theorem scanHex_scans (h : s.Below n) : Scans n (scanHex start s) := by
  have hfrac := h.scanDigits isXDigit
  have hexp := fun c [Decidable c] => ((hfrac.advance.scanDigits isXDigit).ite (c := c)
    (y := (false, (scanDigits s isXDigit).2)) hfrac).scanExponent 'p'.toUInt8
  exact .ite (.fatal _ _ _) (.ite (.ite (.fatal _ _ _) (finishFloat_scans (hexp _)))
    (.ite (.errorToken _) (finishInt_scans (hexp _))))

theorem scanNumberBody_scans (h : s.Below n) : Scans n (scanNumberBody start s) := by
  have hdigits := h.scanDigits isDigit
  have hdot : ∀ c [Decidable c], (if c then (scanDigits (scanDigits s isDigit).2.advance isDigit).2
      else (scanDigits s isDigit).2).Below n := by
    intro c _
    split_ifs
    · exact hdigits.advance.scanDigits _
    · exact hdigits
  exact .ite (scanHex_scans h.advance)
    (.ite (.ite (finishInt_scans (h.advance.scanDigits _)) (.errorToken _))
      (.ite (.ite (finishInt_scans (h.advance.scanDigits _)) (.errorToken _))
        (.ite (.ite (finishFloat_scans ((hdot _).scanExponent _)) (.errorToken _))
          (.ite (finishFloat_scans (hdot _)) (finishInt_scans (hdot _))))))

theorem scanNumber_scans (h : s.Below n) : Scans n (scanNumber start s) := by
  unfold scanNumber
  have hbody : Scans n (scanNumberBody start s) := scanNumberBody_scans h
  cases hrun : scanNumberBody start s with
  | error e =>
    rw [hrun] at hbody
    refine ⟨by simpa [bind, Except.bind] using hbody.1, ?_⟩
    rintro t s' ⟨⟩
  | ok r =>
    obtain ⟨hk, hs⟩ := hbody.2 r.1 r.2 hrun
    exact .ite (.errorToken _) (.ok hk hs)

theorem scanStringBody_scans (h : s.Below n) {kind : TokenKind} (hk : kind.OfSource) :
    Scans n (scanStringBody start s kind) := by
  unfold scanStringBody
  dsimp only
  have htext := h.advanceBy (textRun 0 s.rest).1
  cases (textRun 0 s.rest).2 with
  | badEscape message => exact .errorToken _
  | unterminated => exact .errorToken _
  | interpolation specLen =>
    have hopen := htext.advance.advanceBy (specLen + 1)
    exact .ite (.errorToken _) (.ok hk ⟨hopen.length_le, by rintro t ⟨⟩; simp⟩)
  | quote =>
    refine .ite (.ok (by simp) htext.advance) (.ok ?_ htext.advance)
    dsimp only [makeToken]
    split_ifs <;> simp

theorem finishChar_scans (h : s.Below n) : Scans n (finishChar start s) :=
  .ite (.errorToken _) (.ok (by simp [makeToken]) h.advance)

theorem scanCharLit_scans (h : start.advance.Below n) : Scans n (scanCharLit start) := by
  unfold scanCharLit
  dsimp only
  refine .ite ?_ (.ite (.errorToken _) (finishChar_scans h.advance))
  cases scanEscape start.advance.advance.rest with
  | error message => exact .errorToken _
  | ok k => exact finishChar_scans (h.advance.advanceBy k)

theorem scanApostrophe_scans (hstart : start.advance.Below n) (h : s.Below n) :
    Scans n (scanApostrophe start s) :=
  .ite (scanCharLit_scans hstart) (.ite (.ite (scanCharLit_scans hstart)
    (.ite (.fatal _ _ _) (.ok (by simp [makeToken]) (h.skipWhile _)))) (scanCharLit_scans hstart))

theorem forall_mem_ite {α : Type} {P : α → Prop} {c : Prop} [Decidable c] {x y : Option α}
    (hx : ∀ a ∈ x, P a) (hy : ∀ a ∈ y, P a) : ∀ a ∈ if c then x else y, P a := by
  split_ifs
  · exact hx
  · exact hy

theorem operator_ofSource (c next third : UInt8) :
    ∀ op ∈ operator c next third, op.1.OfSource := by
  unfold operator
  dsimp only
  repeat' apply forall_mem_ite
  all_goals simp

theorem scanDirective_scans (h : s.Below n) : Scans n (scanDirective start s) := by
  have hname := (h.skipWhile fun c => c = ' '.toUInt8).skipWhile isAlpha
  exact .ite (.ok (by simp [makeToken]) hname) (.ite (.ite (.ok (by simp [makeToken])
    ((hname.skipWhile _).advanceBy 2)) (.ok (by simp [makeToken]) hname))
    (.ite (.ok (by simp [makeToken]) hname) (.errorToken _)))

/-- Following braces moves nothing else. -/
theorem trackBrace_eq_some {s₀ : Scanner} (h : trackBrace start = some s₀) :
    s₀.rest = start.rest ∧ s₀.fmtSpec = start.fmtSpec := by
  unfold trackBrace at h
  cases hinterp : start.interp with
  | nil =>
    rw [hinterp] at h
    cases h
    exact ⟨rfl, rfl⟩
  | cons depth outer =>
    rw [hinterp] at h
    dsimp only at h
    split_ifs at h <;>
    · cases h
      exact ⟨rfl, rfl⟩

/-- Outside a pending specifier, a token takes up a character. -/
theorem scanToken_scans (hspec : start.fmtSpec = none) (hrest : start.rest ≠ []) :
    Scans (start.rest.length - 1) (scanToken start) := by
  unfold scanToken
  rw [hspec]
  dsimp only
  rw [if_neg hrest]
  cases hbrace : trackBrace start with
  | none =>
    have hbelow := advance_below hspec
    apply scanStringBody_scans _ (by simp)
    exact ⟨hbelow.length_le, hbelow.spec⟩
  | some s₀ =>
    obtain ⟨hrest₀, hspec₀⟩ := trackBrace_eq_some hbrace
    have hbelow := advance_below (hspec₀.trans hspec)
    rw [hrest₀] at hbelow
    have hcstring : TokenKind.cinterpStart.OfSource := by decide
    have hstring : TokenKind.interpStart.OfSource := by decide
    refine .ite (.ite (scanStringBody_scans hbelow.advance hcstring) (scanIdentifier_scans hbelow))
      (.ite (scanNumber_scans hbelow) (.ite (scanApostrophe_scans hbelow hbelow)
        (.ite (scanStringBody_scans hbelow hstring)
          (.ite (.ok (by simp [makeToken]) hbelow) ?_))))
    cases hop : operator s₀.peek s₀.advance.peek s₀.advance.peekNext with
    | none => exact .ite (scanDirective_scans hbelow) (.errorToken _)
    | some op => exact .ok (operator_ofSource _ _ _ op hop) (hbelow.advanceBy _)

end Scans

/-- What the scanner makes of a text: tokens of the source, and the end of the file. -/
def IsRaw (ts : List Token) : Prop :=
  ∃ (body : List Token) (last : Token), ts = body ++ [last] ∧ last.kind = .eof ∧ last.text = [] ∧
    ∀ t ∈ body, t.kind.OfSource

/-- What is left to scan, a pending specifier counted. -/
def Scanner.remaining (s : Scanner) : ℕ := 2 * s.rest.length + if s.fmtSpec.isSome then 1 else 0

theorem skipTrivia_ok {s s' : Scanner} (h : skipTrivia s = .ok s') :
    s'.rest.length ≤ s.rest.length ∧ s'.fmtSpec = s.fmtSpec := by
  unfold skipTrivia at h
  dsimp only at h
  split at h
  · cases h
    exact ⟨s.advanceBy_length _, s.advanceBy_fmtSpec _⟩
  · cases h
  · cases h

/-- One token: the end of the file, or one that leaves less to scan. -/
theorem scanToken_ok {s s' : Scanner} {t : Token} (hs : ∀ t ∈ s.fmtSpec, t.kind = .fmtSpec)
    (h : scanToken s = .ok (t, s')) :
    t.kind = .eof ∧ t.text = [] ∨ t.kind.OfSource ∧ s'.remaining < s.remaining ∧
      ∀ t ∈ s'.fmtSpec, t.kind = .fmtSpec := by
  cases hspec : s.fmtSpec with
  | some spec =>
    right
    unfold scanToken at h
    rw [hspec] at h
    cases h
    refine ⟨by simp [hs t hspec], ?_, by simp⟩
    simp [Scanner.remaining, hspec]
  | none =>
    by_cases hrest : s.rest = []
    · left
      unfold scanToken at h
      rw [hspec] at h
      dsimp only at h
      rw [if_pos hrest] at h
      cases h
      exact ⟨rfl, by simp [makeToken, textTo, hrest]⟩
    · right
      obtain ⟨hk, hlen, hspec'⟩ := (scanToken_scans hspec hrest).2 t s' h
      have hpos := List.length_pos_iff.mpr hrest
      refine ⟨hk, ?_, hspec'⟩
      unfold Scanner.remaining
      rw [hspec]
      split_ifs <;> simp <;> omega

theorem rawLoop_isRaw (fuel : ℕ) {s : Scanner} {ts : List Token}
    (hs : ∀ t ∈ s.fmtSpec, t.kind = .fmtSpec) (h : rawLoop fuel s = .ok ts) : IsRaw ts := by
  induction fuel generalizing s ts with
  | zero => cases h
  | succ fuel ih =>
    obtain ⟨s₁, hskip, h⟩ := Run.bind_eq_ok.mp h
    obtain ⟨⟨t, s₂⟩, hscan, h⟩ := Run.bind_eq_ok.mp h
    rw [← (skipTrivia_ok hskip).2] at hs
    dsimp only at h
    rcases scanToken_ok hs hscan with ⟨hk, htext⟩ | ⟨hk, -, hspec⟩
    · rw [if_pos hk] at h
      cases h
      exact ⟨[], t, rfl, hk, htext, by simp⟩
    · rw [if_neg hk.2.2] at h
      obtain ⟨rest, hrest, h⟩ := Run.bind_eq_ok.mp h
      cases h
      obtain ⟨body, last, rfl, hlast, htext, hbody⟩ :=
        ih (s := { s₂ with prevPrevKind := s₂.prevKind, prevKind := t.kind }) hspec hrest
      refine ⟨t :: body, last, rfl, hlast, htext, ?_⟩
      intro u hu
      rcases List.mem_cons.mp hu with rfl | hu
      · exact hk
      · exact hbody u hu

theorem scanToken_ne_budget (s : Scanner) : scanToken s ≠ .error .budget := by
  cases hspec : s.fmtSpec with
  | some spec => simp [scanToken, hspec]
  | none =>
    by_cases hrest : s.rest = []
    · simp [scanToken, hspec, hrest]
    · exact (scanToken_scans hspec hrest).1

theorem rawLoop_ne_budget (fuel : ℕ) {s : Scanner} (hs : ∀ t ∈ s.fmtSpec, t.kind = .fmtSpec)
    (hfuel : s.remaining < fuel) : rawLoop fuel s ≠ .error .budget := by
  induction fuel generalizing s with
  | zero => omega
  | succ fuel ih =>
    unfold rawLoop
    apply Run.bind_ne_budget
    · unfold skipTrivia
      dsimp only
      split <;> simp [diagFatal]
    · intro s₁ hskip
      obtain ⟨hlen, hspec⟩ := skipTrivia_ok hskip
      rw [← hspec] at hs
      have hremaining : s₁.remaining ≤ s.remaining := by
        unfold Scanner.remaining
        rw [hspec]
        omega
      apply Run.bind_ne_budget (scanToken_ne_budget s₁)
      rintro ⟨t, s₂⟩ hscan
      dsimp only
      rcases scanToken_ok hs hscan with ⟨hk, -⟩ | ⟨hk, hless, hspec₂⟩
      · rw [if_pos hk]
        simp
      · rw [if_neg hk.2.2]
        have hrest : Scanner.remaining { s₂ with prevPrevKind := s₂.prevKind, prevKind := t.kind } =
            s₂.remaining := rfl
        exact Run.bind_ne_budget (ih hspec₂ (by omega)) fun ts _ => by simp

/-- The scanner's budget is never spent. -/
theorem rawTokenize_ne_budget (source : List UInt8) : rawTokenize source ≠ .error .budget := by
  apply rawLoop_ne_budget _ (by simp [Scanner.init])
  have hlen : (source.takeWhile fun c => c ≠ 0).length ≤ source.length :=
    (List.takeWhile_sublist _).length_le
  simp only [Scanner.remaining, Scanner.init, Option.isSome_none, Bool.false_eq_true, if_false]
  omega

theorem rawTokenize_isRaw {source : List UInt8} {ts : List Token}
    (h : rawTokenize source = .ok ts) : IsRaw ts :=
  rawLoop_isRaw _ (by simp [Scanner.init]) h

end FcLang.Lexer
