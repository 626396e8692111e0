import FcLang.Lexer.Raw
import FcLang.Text.Literal

/-!
# Literal segments of a source text

The tokens that carry literal text, and the text the parser takes out of each.
In every source text that the scanner takes, that text is an accepted segment.
-/

namespace FcLang.Text
open Lexer

/-- The tokens that carry literal text. -/
def isText : TokenKind → Bool
  | .stringLit | .cstringLit | .interpStart | .cinterpStart | .interpMid | .interpEnd => true
  | _ => false

/-- The literal text of a token, its quotes and the `c` before them taken off. -/
def literalText (t : Token) : List UInt8 :=
  match t.kind with
  | .stringLit => (t.text.drop 1).take (t.text.length - 2)
  | .cstringLit => (t.text.drop 2).take (t.text.length - 3)
  | _ => t.text

/-- What a scan returns carries accepted text, if any. -/
def Carries (x : Run (Token × Scanner)) : Prop :=
  ∀ t s, x = .ok (t, s) → isText t.kind → Accepted (literalText t)

section Carries
variable {start s : Scanner}

theorem Carries.plain {t : Token} (h : isText t.kind = false) : Carries (.ok (t, s)) := by
  rintro t' s' heq htext
  cases heq
  exact absurd htext (by simp [h])

theorem Carries.fatal (line col : ℕ) (message : String) : Carries (diagFatal line col message) := by
  rintro t s ⟨⟩

theorem Carries.errorToken (message : String) : Carries (start.errorToken message) :=
  .fatal _ _ _

theorem Carries.ite {c : Prop} [Decidable c] {x y : Run (Token × Scanner)} (hx : Carries x)
    (hy : Carries y) : Carries (if c then x else y) := by
  split_ifs
  · exact hx
  · exact hy

theorem isText_checkKeyword (text : List UInt8) : isText (checkKeyword text) = false := by
  unfold checkKeyword
  cases hfind : keywords.find? fun kw => bytes kw.1 = text with
  | none => rfl
  | some kw =>
    have hall : ∀ kw ∈ keywords, isText kw.2 = false := by decide
    exact hall kw (List.mem_of_find?_eq_some hfind)

theorem scanIdentifier_carries : Carries (scanIdentifier start s) :=
  .ite (.fatal _ _ _) (.plain (isText_checkKeyword _))

theorem finishSuffixed_carries {lead : List UInt8} {kind : TokenKind} {suffixes : List String}
    (h : isText kind = false) : Carries (finishSuffixed start s lead kind suffixes) :=
  .ite (.ite (.plain h) (.errorToken _)) (.plain h)

theorem finishInt_carries : Carries (finishInt start s) := finishSuffixed_carries rfl

theorem finishFloat_carries : Carries (finishFloat start s) := finishSuffixed_carries rfl

theorem scanHex_carries : Carries (scanHex start s) :=
  .ite (.fatal _ _ _) (.ite (.ite (.fatal _ _ _) finishFloat_carries)
    (.ite (.errorToken _) finishInt_carries))

theorem scanNumberBody_carries : Carries (scanNumberBody start s) :=
  .ite scanHex_carries (.ite (.ite finishInt_carries (.errorToken _))
    (.ite (.ite finishInt_carries (.errorToken _))
      (.ite (.ite finishFloat_carries (.errorToken _)) (.ite finishFloat_carries finishInt_carries))))

theorem scanNumber_carries : Carries (scanNumber start s) := by
  unfold scanNumber
  have hbody : Carries (scanNumberBody start s) := scanNumberBody_carries
  cases hrun : scanNumberBody start s with
  | error e => rintro t s' ⟨⟩
  | ok r =>
    rw [hrun] at hbody
    exact .ite (.errorToken _) hbody

theorem finishChar_carries : Carries (finishChar start s) := .ite (.errorToken _) (.plain rfl)

theorem scanCharLit_carries : Carries (scanCharLit start) := by
  unfold scanCharLit
  dsimp only
  refine .ite ?_ (.ite (.errorToken _) finishChar_carries)
  cases scanEscape start.advance.advance.rest with
  | error message => exact .errorToken _
  | ok k => exact finishChar_carries

theorem scanApostrophe_carries : Carries (scanApostrophe start s) :=
  .ite scanCharLit_carries (.ite (.ite scanCharLit_carries (.ite (.fatal _ _ _) (.plain rfl)))
    scanCharLit_carries)

theorem isText_operator (c next third : UInt8) :
    ∀ op ∈ operator c next third, isText op.1 = false := by
  unfold operator
  dsimp only
  repeat' apply forall_mem_ite
  all_goals simp [isText]

theorem scanDirective_carries : Carries (scanDirective start s) :=
  .ite (.plain rfl) (.ite (.ite (.plain rfl) (.plain rfl)) (.ite (.plain rfl) (.errorToken _)))

end Carries

section Body
variable {start s : Scanner}

theorem Scanner.advanceBy_rest (s : Scanner) (k : ℕ) : (s.advanceBy k).rest = s.rest.drop k := by
  induction k generalizing s with
  | zero => rfl
  | succ k ih =>
    rw [Scanner.advanceBy, ih, s.advance_rest]
    cases s.rest with
    | nil => simp
    | cons c rest => rfl

theorem textTo_advanceBy {k : ℕ} (hk : k ≤ s.rest.length) :
    s.textTo (s.advanceBy k) = s.rest.take k := by
  unfold Scanner.textTo
  rw [Scanner.advanceBy_rest, List.length_drop]
  congr 1
  omega

theorem textRun_le (k : ℕ) (text : List UInt8) : (textRun k text).1 ≤ text.length := by
  fun_induction textRun k text <;> grind

theorem textRun_quote_lt {k : ℕ} {text : List UInt8} (h : (textRun k text).2 = .quote) :
    (textRun k text).1 < text.length := by
  fun_induction textRun k text <;> grind

theorem accepted_take (text : List UInt8) (h : TextEnd.Taken (textRun 0 text).2) :
    Accepted (text.take (textRun 0 text).1) := by
  refine ⟨text.drop (textRun 0 text).1, (textRun 0 text).2, ?_, h⟩
  rw [List.take_append_drop, List.length_take, min_eq_left (textRun_le 0 text)]

/-- The text of a token that starts `pre` before the literal text and ends behind the quote. -/
theorem textTo_quoted (pre : List UInt8) (hstart : start.rest = pre ++ s.rest) {n : ℕ}
    (hn : n < s.rest.length) :
    start.textTo (s.advanceBy n).advance = pre ++ s.rest.take (n + 1) := by
  have hrest : (s.advanceBy n).advance.rest = s.rest.drop (n + 1) := by
    rw [Scanner.advance_rest, Scanner.advanceBy_rest, List.tail_drop]
  unfold Scanner.textTo
  rw [hrest, hstart, List.length_append, List.length_drop,
    show pre.length + s.rest.length - (s.rest.length - (n + 1)) = pre.length + (n + 1) by omega,
    List.take_length_add_append]

theorem inside_quotes (pre : List UInt8) {text : List UInt8} {n : ℕ} (hn : n < text.length) :
    ((pre ++ text.take (n + 1)).drop pre.length).take
      ((pre ++ text.take (n + 1)).length - (pre.length + 1)) = text.take n := by
  rw [List.drop_left, List.length_append, List.length_take, List.take_take]
  congr 1
  omega

/-- Where a string's token begins: at its quote, at the `c` before that, or anywhere once an
interpolation has been read. -/
inductive Opens (start s : Scanner) : TokenKind → Prop where
  | str (q : UInt8) (h : start.rest = q :: s.rest) : Opens start s .interpStart
  | cstr (c q : UInt8) (h : start.rest = c :: q :: s.rest) : Opens start s .cinterpStart
  | mid : Opens start s .interpMid

theorem scanStringBody_carries {kind : TokenKind} (hopen : Opens start s kind) :
    Carries (scanStringBody start s kind) := by
  have hle := textRun_le 0 s.rest
  unfold scanStringBody
  dsimp only
  cases hstop : (textRun 0 s.rest).2 with
  | badEscape message => exact .errorToken _
  | unterminated => exact .errorToken _
  | interpolation specLen =>
    have haccepted := accepted_take s.rest (by rw [hstop]; trivial)
    refine .ite (.errorToken _) ?_
    rintro t s' heq htext
    cases heq
    rw [← textTo_advanceBy hle] at haccepted
    cases hopen <;> exact haccepted
  | quote =>
    have haccepted := accepted_take s.rest (by rw [hstop]; trivial)
    have hlt := textRun_quote_lt hstop
    cases hopen with
    | mid =>
      rintro t s' heq htext
      cases heq
      rw [← textTo_advanceBy hle] at haccepted
      exact haccepted
    | str q h =>
      rintro t s' heq htext
      cases heq
      change Accepted (((start.textTo _).drop 1).take ((start.textTo _).length - 2))
      rw [textTo_quoted [q] h hlt]
      exact (inside_quotes [q] hlt).symm ▸ haccepted
    | cstr c q h =>
      rintro t s' heq htext
      cases heq
      change Accepted (((start.textTo _).drop 2).take ((start.textTo _).length - 3))
      rw [textTo_quoted [c, q] h hlt]
      exact (inside_quotes [c, q] hlt).symm ▸ haccepted

end Body

section Loop
variable {start s : Scanner}

theorem rest_eq_cons {s : Scanner} {c : UInt8} (h : s.peek = c) (hc : c ≠ 0) :
    s.rest = c :: s.advance.rest := by
  rw [Scanner.advance_rest]
  unfold Scanner.peek Scanner.peekAt at h
  cases hrest : s.rest with
  | nil =>
    rw [hrest] at h
    exact absurd h.symm hc
  | cons d rest =>
    rw [hrest] at h
    cases h
    rfl

theorem scanToken_carries (hspec : ∀ t ∈ start.fmtSpec, t.kind = .fmtSpec) :
    Carries (scanToken start) := by
  unfold scanToken
  cases hpending : start.fmtSpec with
  | some t => exact .plain (by rw [hspec t hpending]; rfl)
  | none =>
    refine .ite (.plain rfl) ?_
    cases trackBrace start with
    | none => exact scanStringBody_carries .mid
    | some s₀ =>
      dsimp only
      split_ifs with h1 h2 h3 h4 h5
      · exact scanStringBody_carries (.cstr s₀.peek '"'.toUInt8 (by
          rw [← rest_eq_cons h2.2 (by decide)]
          exact rest_eq_cons rfl (by rw [h2.1]; decide)))
      · exact scanIdentifier_carries
      · exact scanNumber_carries
      · exact scanApostrophe_carries
      · exact scanStringBody_carries (.str s₀.peek (rest_eq_cons rfl (by rw [h5]; decide)))
      · exact .plain rfl
      · cases hop : operator s₀.peek s₀.advance.peek s₀.advance.peekNext with
        | none => exact scanDirective_carries
        | some op => exact .plain (isText_operator _ _ _ op hop)
      · cases hop : operator s₀.peek s₀.advance.peek s₀.advance.peekNext with
        | none => exact .errorToken _
        | some op => exact .plain (isText_operator _ _ _ op hop)

theorem rawLoop_carries (fuel : ℕ) {s : Scanner} {ts : List Token}
    (hs : ∀ t ∈ s.fmtSpec, t.kind = .fmtSpec) (h : rawLoop fuel s = .ok ts) :
    ∀ t ∈ ts, isText t.kind → Accepted (literalText t) := by
  induction fuel generalizing s ts with
  | zero => cases h
  | succ fuel ih =>
    obtain ⟨s₁, hskip, h⟩ := Run.bind_eq_ok.mp h
    obtain ⟨⟨t, s₂⟩, hscan, h⟩ := Run.bind_eq_ok.mp h
    rw [← (skipTrivia_ok hskip).2] at hs
    have hcarries := scanToken_carries hs t s₂ hscan
    dsimp only at h
    split_ifs at h with hk
    · cases h
      simpa using hcarries
    · obtain ⟨rest, hrest, h⟩ := Run.bind_eq_ok.mp h
      cases h
      obtain ⟨hk', -⟩ | ⟨-, -, hspec⟩ := scanToken_ok hs hscan
      · exact absurd hk' hk
      · have htail := ih (s := { s₂ with prevPrevKind := s₂.prevKind, prevKind := t.kind }) hspec hrest
        intro u hu
        obtain rfl | hu := List.mem_cons.mp hu
        · exact hcarries
        · exact htail u hu

/-- The literal text of every token that the scanner makes is an accepted segment. -/
theorem rawTokenize_carries {source : List UInt8} {ts : List Token}
    (h : rawTokenize source = .ok ts) : ∀ t ∈ ts, isText t.kind → Accepted (literalText t) :=
  rawLoop_carries _ (by simp [Scanner.init]) h

end Loop
end FcLang.Text
