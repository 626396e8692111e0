import FcLang.Lib.CText
import Mathlib.Data.List.TakeWhile

/-!
# What a trigraph does to a literal

A literal is written as characters that stand for themselves and as escapes. The
compiler never reads more bytes than were written, and where it finds a trigraph
it reads other ones.
-/

namespace FcLang.CText

/-- A text of characters and of escapes, and the bytes it is written for. -/
inductive Written : List UInt8 → List UInt8 → Prop where
  | nil : Written [] []
  | plain {c : UInt8} {text bytes : List UInt8} (hq : c ≠ quote) (hn : c ≠ newline)
      (hb : c ≠ backslash) (rest : Written text bytes) : Written (c :: text) (c :: bytes)
  | simple {c b : UInt8} {text bytes : List UInt8} (hescape : simpleEscape c = some b)
      (head_ne : text.head? ≠ some question) (rest : Written text bytes) :
      Written (backslash :: c :: text) (b :: bytes)
  | octal {c₁ c₂ c₃ : UInt8} {d₁ d₂ d₃ : ℕ} {text bytes : List UInt8}
      (h₁ : octalDigit c₁ = some d₁) (h₂ : octalDigit c₂ = some d₂) (h₃ : octalDigit c₃ = some d₃)
      (hlt : 64 * d₁ + 8 * d₂ + d₃ < 256) (rest : Written text bytes) :
      Written (backslash :: c₁ :: c₂ :: c₃ :: text) (UInt8.ofNat (64 * d₁ + 8 * d₂ + d₃) :: bytes)

/-- A literal up to its closing quote, once its trigraphs are replaced. -/
def translated (text : List UInt8) : List UInt8 := trigraphs (text ++ [quote])

theorem translated_nil : translated [] = [quote] := rfl

/-- What holds of the nine trigraphs. -/
theorem trigraph_all {P : UInt8 → UInt8 → Prop} [∀ c r, Decidable (P c r)]
    (hall : ([('='.toUInt8, '#'.toUInt8), ('('.toUInt8, '['.toUInt8), ('/'.toUInt8, backslash),
      (')'.toUInt8, ']'.toUInt8), ('\''.toUInt8, '^'.toUInt8), ('<'.toUInt8, '\x7b'.toUInt8),
      ('!'.toUInt8, '|'.toUInt8), ('>'.toUInt8, '\x7d'.toUInt8),
      ('-'.toUInt8, '~'.toUInt8)].all fun p => decide (P p.1 p.2)) = true) {c r : UInt8}
    (h : trigraph c = some r) : P c r := by
  obtain ⟨before, behind, hsplit, -⟩ := List.lookup_eq_some_iff.mp h
  rw [hsplit, List.all_eq_true] at hall
  exact of_decide_eq_true (hall (c, r) (by simp))

/-- What a trigraph stands for is no digit, and a backslash alone of them is part of an escape. -/
theorem trigraph_value {c r : UInt8} (h : trigraph c = some r) :
    (r ≠ question ∧ r ≠ quote ∧ r ≠ newline) ∧ (hexDigit r).isSome = false ∧
      (r = backslash ∨ ∀ text, escape (r :: text) = none) := by
  obtain ⟨hne, hdigit, hescape⟩ := trigraph_all (P := fun _ r =>
    (r ≠ question ∧ r ≠ quote ∧ r ≠ newline) ∧ (hexDigit r).isSome = false ∧
      (r = backslash ∨ (simpleEscape r = none ∧ (octalDigit r).isSome = false ∧
        r ≠ 'x'.toUInt8))) (by decide) h
  refine ⟨hne, hdigit, hescape.imp_right fun hnone text => ?_⟩
  simp only [escape, hnone.1, hnone.2.1, if_neg hnone.2.2]
  rfl

/-- The characters that a trigraph can end with are printed ones. -/
theorem trigraph_key {c : UInt8} (h : (trigraph c).isSome = true) :
    0x20 ≤ c ∧ c ≠ 0x7f ∧ c ≠ question ∧ c ≠ quote ∧ c ≠ backslash ∧ c ≠ '%'.toUInt8 := by
  obtain ⟨r, h⟩ := Option.isSome_iff_exists.mp h
  exact trigraph_all (P := fun c _ => 0x20 ≤ c ∧ c ≠ 0x7f ∧ c ≠ question ∧ c ≠ quote ∧
    c ≠ backslash ∧ c ≠ '%'.toUInt8) (by decide) h

/-- A character stands for itself, or opens a trigraph. -/
theorem translated_cons (c : UInt8) (text : List UInt8) :
    translated (c :: text) = c :: translated text ∨
      ∃ x r rest, c = question ∧ text = question :: x :: rest ∧ trigraph x = some r ∧
        translated (c :: text) = r :: translated rest := by
  by_cases hhead : c = question ∧ text.head? = some question
  · obtain ⟨rfl, hhead⟩ := hhead
    obtain ⟨rest, rfl⟩ := List.head?_eq_some_iff.mp hhead
    cases rest with
    | nil => exact .inl rfl
    | cons x rest =>
      cases hx : trigraph x with
      | none =>
        left
        simp [translated, trigraphs, hx]
      | some r =>
        right
        exact ⟨x, r, rest, rfl, rfl, hx, by simp [translated, trigraphs, hx]⟩
  · left
    apply trigraphs_cons
    by_contra h
    push Not at h
    refine hhead ⟨h.1, ?_⟩
    cases text with
    | nil =>
      have hquote : quote = question := Option.some.inj h.2
      exact absurd hquote (by decide)
    | cons b text => exact h.2

/-- How many bytes a text is read as, at most. -/
def AtMost (count : ℕ) (text : List UInt8) : Prop :=
  ∀ ⦃bytes rest⦄, readLiteral text = some (bytes, rest) → bytes.length ≤ count

namespace AtMost
variable {count : ℕ} {text : List UInt8}

theorem mono {count' : ℕ} (h : AtMost count text) (hle : count ≤ count') : AtMost count' text :=
  fun _ _ hread => (h hread).trans hle

theorem nil : AtMost count [] := by
  intro bytes rest hread
  rw [readLiteral] at hread
  cases hread

theorem quote_cons : AtMost count (quote :: text) := by
  intro bytes rest hread
  rw [readLiteral_quote] at hread
  cases hread
  exact Nat.zero_le _

theorem plain {c : UInt8} (hq : c ≠ quote) (hn : c ≠ newline) (hb : c ≠ backslash)
    (h : AtMost count text) : AtMost (count + 1) (c :: text) := by
  intro bytes rest hread
  rw [readLiteral_plain hq hn hb] at hread
  obtain ⟨⟨bytes', rest'⟩, hread', heq⟩ := Option.map_eq_some_iff.mp hread
  cases heq
  exact Nat.succ_le_succ (h hread')

theorem backslash_cons (h : ∀ b rest, escape text = some (b, rest) → AtMost count rest) :
    AtMost (count + 1) (backslash :: text) := by
  intro bytes rest hread
  cases hescape : escape text with
  | none =>
    rw [readLiteral, if_neg (by decide), if_neg (by decide), if_pos rfl] at hread
    split at hread
    · cases hread
    · rename_i hsome
      rw [hescape] at hsome
      cases hsome
  | some r =>
    rw [readLiteral_escape hescape] at hread
    obtain ⟨⟨bytes', rest'⟩, hread', heq⟩ := Option.map_eq_some_iff.mp hread
    cases heq
    exact Nat.succ_le_succ (h _ _ hescape hread')

end AtMost

theorem hexDigit_of_octalDigit {c : UInt8} (h : (octalDigit c).isSome = true) :
    (hexDigit c).isSome = true := by
  unfold octalDigit at h
  split at h
  · rename_i hc
    have hnine : c ≤ '9'.toUInt8 := UInt8.le_trans hc.2 (by decide)
    rw [hexDigit, if_pos ⟨hc.1, hnine⟩]
    rfl
  · cases h

/-- An escape is one character, and digits behind it. -/
theorem escape_drop {c b : UInt8} {text rest : List UInt8} (h : escape (c :: text) = some (b, rest)) :
    ∃ k ≤ text.length, rest = text.drop k ∧ ∀ d ∈ text.take k, (hexDigit d).isSome = true := by
  have htake (P : UInt8 → Bool) (hP : ∀ d, P d = true → (hexDigit d).isSome = true)
      (part : List UInt8) (hpart : part <+: text) :
      (part.takeWhile P).length ≤ text.length ∧
        ∀ d ∈ text.take (part.takeWhile P).length, (hexDigit d).isSome = true := by
    have hstart : part.takeWhile P <+: text := (List.takeWhile_prefix P).trans hpart
    refine ⟨hstart.length_le, fun d hd => ?_⟩
    rw [← List.prefix_iff_eq_take.mp hstart] at hd
    exact hP d (List.mem_takeWhile_imp hd)
  simp only [escape] at h
  split at h
  · cases h
    exact ⟨0, Nat.zero_le _, rfl, by simp⟩
  · split at h
    · rename_i hoctal
      have hrest := escapeValue_length h
      obtain ⟨hle, hdigits⟩ := htake (fun d => (octalDigit d).isSome)
        (fun d hd => hexDigit_of_octalDigit hd) (text.take 2) (List.take_prefix 2 text)
      refine ⟨_, hle, ?_, hdigits⟩
      rw [hrest, List.take_succ_cons, @List.takeWhile_cons_of_pos _ (fun d => (octalDigit d).isSome) _ _ hoctal,
        List.length_cons, List.drop_succ_cons]
    · split at h
      · split at h
        · cases h
        · have hrest := escapeValue_length h
          obtain ⟨hle, hdigits⟩ := htake (fun d => (hexDigit d).isSome) (fun _ hd => hd) text
            List.prefix_rfl
          exact ⟨_, hle, hrest, hdigits⟩
      · cases h

namespace Written
variable {text bytes : List UInt8}

theorem of_cons {c : UInt8} (hb : c ≠ backslash) (h : Written (c :: text) bytes) :
    ∃ bytes', bytes = c :: bytes' ∧ Written text bytes' ∧ c ≠ quote ∧ c ≠ newline := by
  cases h with
  | plain hq hn hb rest => exact ⟨_, rfl, rest, hq, hn⟩
  | simple => exact absurd rfl hb
  | octal => exact absurd rfl hb

/-- Digits at the head of a translated text were written as such. -/
theorem drop_digits (h : Written text bytes) {k : ℕ} (hk : k ≤ (translated text).length)
    (hdigits : ∀ d ∈ (translated text).take k, (hexDigit d).isSome = true) :
    ∃ text' bytes', Written text' bytes' ∧ (translated text).drop k = translated text' ∧
      text'.length ≤ text.length ∧ bytes'.length ≤ bytes.length := by
  induction k generalizing text bytes with
  | zero => exact ⟨text, bytes, h, rfl, le_rfl, le_rfl⟩
  | succ k ih =>
    cases text with
    | nil => exact absurd (hdigits quote List.mem_cons_self) (by decide)
    | cons c text =>
      obtain htext | ⟨x, r, rest, rfl, rfl, hx, htext⟩ := translated_cons c text
      · rw [htext] at hk hdigits ⊢
        have hc := hdigits c List.mem_cons_self
        have hb : c ≠ backslash := by
          rintro rfl
          exact absurd hc (by decide)
        obtain ⟨bytes', rfl, hrest, -⟩ := h.of_cons hb
        obtain ⟨text', bytes'', hwritten, hdrop, hlen, hlen'⟩ := ih hrest
          (Nat.le_of_succ_le_succ hk) fun d hd => hdigits d (List.mem_cons_of_mem _ hd)
        refine ⟨text', bytes'', hwritten, hdrop, ?_, ?_⟩
        · exact hlen.trans (Nat.le_succ _)
        · exact hlen'.trans (Nat.le_succ _)
      · rw [htext] at hdigits
        have hr := hdigits r List.mem_cons_self
        rw [(trigraph_value hx).2.1] at hr
        cases hr

/-- A text is read as no more bytes than it was written for, and as two more when a backslash
stands in front of it. -/
def Bounded (text bytes : List UInt8) : Prop :=
  AtMost bytes.length (translated text) ∧
    ∀ b rest, escape (translated text) = some (b, rest) → AtMost (bytes.length + 2) rest

theorem Bounded.cons {c : UInt8} (h : Bounded text bytes) (hn : c ≠ newline) :
    AtMost (bytes.length + 3) (c :: translated text) := by
  by_cases hq : c = quote
  · rw [hq]
    exact .quote_cons
  · by_cases hb : c = backslash
    · rw [hb]
      exact .backslash_cons h.2
    · exact (h.1.plain hq hn hb).mono (by omega)

theorem translated_backslash (text : List UInt8) :
    translated (backslash :: text) = backslash :: translated text :=
  trigraphs_cons (.inl (by decide))

theorem translated_escaped {c : UInt8} (h : text.head? ≠ some question) :
    translated (c :: text) = c :: translated text := by
  apply trigraphs_cons (.inr _)
  cases text with
  | nil => decide
  | cons a text => exact h

theorem octalDigit_ne {c : UInt8} {d : ℕ} (h : octalDigit c = some d) :
    c ≠ question ∧ c ≠ quote ∧ c ≠ newline ∧ c ≠ backslash ∧ simpleEscape c = none := by
  unfold octalDigit at h
  split at h
  · rename_i hc
    have hlo := UInt8.le_iff_toNat_le.mp hc.1
    have hhi := UInt8.le_iff_toNat_le.mp hc.2
    change 48 ≤ c.toNat at hlo
    change c.toNat ≤ 55 at hhi
    rw [← UInt8.ofNat_toNat (x := c)]
    generalize c.toNat = n at hlo hhi
    interval_cases n <;> decide
  · cases h

theorem translated_octal {c₁ c₂ c₃ : UInt8} {d₁ d₂ d₃ : ℕ} (h₁ : octalDigit c₁ = some d₁)
    (h₂ : octalDigit c₂ = some d₂) (h₃ : octalDigit c₃ = some d₃) :
    translated (backslash :: c₁ :: c₂ :: c₃ :: text) =
      backslash :: c₁ :: c₂ :: c₃ :: translated text := by
  have hpiece : question ∉ [backslash, c₁, c₂, c₃] := by
    simp [(octalDigit_ne h₁).1.symm, (octalDigit_ne h₂).1.symm, (octalDigit_ne h₃).1.symm]
    decide
  exact trigraphs_append hpiece (text ++ [quote])

/-- A trigraph takes three characters, and gives one. -/
theorem bounded_trigraph {x r : UInt8} (hx : trigraph x = some r) (h : Bounded text bytes) :
    AtMost (bytes.length + 3) (r :: translated text) ∧
      ∀ b rest, escape (r :: translated text) = some (b, rest) → AtMost (bytes.length + 5) rest := by
  obtain ⟨⟨-, -, hn⟩, -, hescape⟩ := trigraph_value hx
  refine ⟨h.cons hn, fun b rest hread => ?_⟩
  obtain rfl | hnone := hescape
  · rw [escape_simple rfl] at hread
    cases hread
    exact h.1.mono (by omega)
  · rw [hnone] at hread
    cases hread

theorem trigraph_ne_backslash {x r : UInt8} (hx : trigraph x = some r) : x ≠ backslash := by
  rintro rfl
  cases hx

/-- An escape takes a character that stands for itself, and the digits behind it. -/
theorem escape_plain {c b : UInt8} {rest : List UInt8} (h : Written text bytes)
    (hle : ∀ text' bytes', Written text' bytes' → text'.length ≤ text.length →
      AtMost bytes'.length (translated text'))
    (hescape : escape (c :: translated text) = some (b, rest)) : AtMost bytes.length rest := by
  obtain ⟨k, hk, rfl, hdigits⟩ := escape_drop hescape
  obtain ⟨text', bytes', hwritten, hdrop, hlen, hlen'⟩ := h.drop_digits hk hdigits
  rw [hdrop]
  exact (hle _ _ hwritten hlen).mono hlen'

/-- By induction on the text, which a misread escape leaves shorter. -/
theorem bounded (h : Written text bytes) : Bounded text bytes := by
  induction hlen : text.length using Nat.strong_induction_on generalizing text bytes with
  | _ n ih =>
    cases h with
    | nil =>
      refine ⟨.quote_cons, fun b rest hread => ?_⟩
      rw [translated_nil, escape_simple rfl] at hread
      cases hread
      exact .nil
    | @plain c text bytes hq hn hb hrest =>
      rw [List.length_cons] at hlen
      obtain htext | ⟨x, r, text', rfl, rfl, hx, htext⟩ := translated_cons c text
      · unfold Bounded
        rw [htext]
        refine ⟨(ih _ (by omega) hrest rfl).1.plain hq hn hb, fun b rest hread => ?_⟩
        have hplain := hrest.escape_plain (fun text' bytes' h' hle => (ih _ (by omega) h' rfl).1) hread
        exact hplain.mono (by rw [List.length_cons]; omega)
      · obtain ⟨bytes', rfl, hrest, -⟩ := hrest.of_cons (by decide)
        obtain ⟨bytes'', rfl, hrest, -⟩ := hrest.of_cons (trigraph_ne_backslash hx)
        simp only [List.length_cons] at hlen
        unfold Bounded
        rw [htext]
        exact bounded_trigraph hx (ih _ (by omega) hrest rfl)
    | @simple c b text bytes hsimple head_ne hrest =>
      simp only [List.length_cons] at hlen
      have hbounded := ih _ (by omega) hrest rfl
      have hn : c ≠ newline := by
        rintro rfl
        cases hsimple
      unfold Bounded
      rw [translated_backslash, translated_escaped head_ne, escape_simple rfl]
      refine ⟨.backslash_cons fun b' rest hread => ?_, fun b' rest hread => ?_⟩
      · rw [escape_simple hsimple] at hread
        cases hread
        exact hbounded.1
      · cases hread
        exact hbounded.cons hn
    | @octal c₁ c₂ c₃ d₁ d₂ d₃ text bytes h₁ h₂ h₃ hlt hrest =>
      simp only [List.length_cons] at hlen
      have hbounded := ih _ (by omega) hrest rfl
      obtain ⟨-, hq₁, hn₁, hb₁, hsimple⟩ := octalDigit_ne h₁
      obtain ⟨-, hq₂, hn₂, hb₂, -⟩ := octalDigit_ne h₂
      obtain ⟨-, hq₃, hn₃, hb₃, -⟩ := octalDigit_ne h₃
      unfold Bounded
      rw [translated_octal h₁ h₂ h₃, escape_simple rfl]
      refine ⟨.backslash_cons fun b' rest hread => ?_, fun b' rest hread => ?_⟩
      · rw [escape_octal h₁ h₂ h₃ hsimple hlt] at hread
        cases hread
        exact hbounded.1
      · cases hread
        exact ((hbounded.1.plain hq₃ hn₃ hb₃).plain hq₂ hn₂ hb₂).plain hq₁ hn₁ hb₁

/-- A question mark that an escape gives is not a written one. -/
theorem escape_question {rest : List UInt8} (h : Written text bytes)
    (hescape : escape (translated text) = some (question, rest)) :
    AtMost (bytes.length - 1) rest := by
  cases h with
  | nil =>
    rw [translated_nil, escape_simple rfl] at hescape
    cases hescape
  | @plain c text bytes hq hn hb hrest =>
    obtain htext | ⟨x, r, text', rfl, rfl, hx, htext⟩ := translated_cons c text
    · rw [htext] at hescape
      exact hrest.escape_plain (fun _ _ h' _ => h'.bounded.1) hescape
    · rw [htext] at hescape
      obtain rfl | hnone := (trigraph_value hx).2.2
      · rw [escape_simple rfl] at hescape
        cases hescape
      · rw [hnone] at hescape
        cases hescape
  | simple =>
    rw [translated_backslash, escape_simple rfl] at hescape
    cases hescape
  | octal =>
    rw [translated_backslash, escape_simple rfl] at hescape
    cases hescape

/-- What a trigraph is read as is not what was written. -/
theorem trigraph_misread {x r : UInt8} {rest : List UInt8} (hx : trigraph x = some r)
    (h : Written text bytes) :
    readLiteral (r :: translated text) ≠ some (question :: question :: x :: bytes, rest) := by
  intro hread
  obtain ⟨⟨hm, hq, hn⟩, -, -⟩ := trigraph_value hx
  by_cases hb : r = backslash
  · subst hb
    cases hescape : escape (translated text) with
    | none =>
      rw [readLiteral, if_neg (by decide), if_neg (by decide), if_pos rfl] at hread
      split at hread
      · cases hread
      · rename_i hsome
        rw [hescape] at hsome
        cases hsome
    | some e =>
      rw [readLiteral_escape hescape] at hread
      obtain ⟨⟨bytes', rest'⟩, hread', heq⟩ := Option.map_eq_some_iff.mp hread
      simp only [Prod.mk.injEq, List.cons.injEq] at heq
      obtain ⟨⟨hm', rfl⟩, rfl⟩ := heq
      have hread'' : escape (translated text) = some (question, e.2) := by rw [hescape, ← hm']
      have hle := h.escape_question hread'' hread'
      simp only [List.length_cons] at hle
      omega
  · rw [readLiteral_plain hq hn hb] at hread
    obtain ⟨⟨bytes', rest'⟩, -, heq⟩ := Option.map_eq_some_iff.mp hread
    simp only [Prod.mk.injEq, List.cons.injEq] at heq
    exact hm heq.1.1

end Written

/-- Two question marks and a character that makes a trigraph of them. -/
def HasTrigraph (text : List UInt8) : Prop :=
  ∃ x, (trigraph x).isSome ∧ [question, question, x] <:+: text

theorem hasTrigraph_cons {c : UInt8} {text : List UInt8} :
    HasTrigraph (c :: text) ↔
      (∃ x rest, (trigraph x).isSome ∧ c = question ∧ text = question :: x :: rest) ∨
        HasTrigraph text := by
  constructor
  · rintro ⟨x, hx, hwithin⟩
    obtain ⟨rest, hstart⟩ | hwithin := List.infix_cons_iff.mp hwithin
    · cases hstart
      exact .inl ⟨x, rest, hx, rfl, rfl⟩
    · exact .inr ⟨x, hx, hwithin⟩
  · rintro (⟨x, rest, hx, rfl, rfl⟩ | ⟨x, hx, hwithin⟩)
    · exact ⟨x, hx, List.infix_cons_iff.mpr (.inl ⟨rest, rfl⟩)⟩
    · exact ⟨x, hx, List.infix_cons_iff.mpr (.inr hwithin)⟩

theorem hasTrigraph_cons_of_ne {c : UInt8} {text : List UInt8} (h : c ≠ question) :
    HasTrigraph (c :: text) ↔ HasTrigraph text := by
  rw [hasTrigraph_cons, or_iff_right]
  exact fun ⟨_, _, _, hc, _⟩ => h hc

theorem hasTrigraph_cons_of_head_ne {c : UInt8} {text : List UInt8}
    (h : text.head? ≠ some question) : HasTrigraph (c :: text) ↔ HasTrigraph text := by
  rw [hasTrigraph_cons, or_iff_right]
  rintro ⟨x, rest, -, -, rfl⟩
  exact h rfl

theorem not_hasTrigraph_of_not_mem {text : List UInt8} (h : question ∉ text) :
    ¬HasTrigraph text :=
  fun ⟨_, _, hwithin⟩ => h (hwithin.subset List.mem_cons_self)

theorem not_hasTrigraph_toList (o : Option UInt8) : ¬HasTrigraph o.toList := by
  rintro ⟨x, -, hwithin⟩
  have hle := hwithin.length_le
  cases o <;> simp at hle

/-- Where a text starts with no question mark, a trigraph ends at its first character or stands
on one side of it. -/
theorem hasTrigraph_append {piece text : List UInt8} (h : text.head? ≠ some question) :
    HasTrigraph (piece ++ text) ↔ HasTrigraph (piece ++ text.head?.toList) ∨ HasTrigraph text := by
  induction piece with
  | nil =>
    rw [List.nil_append, List.nil_append, or_iff_right (not_hasTrigraph_toList _)]
  | cons c piece ih =>
    have hfirst : (∃ x rest, (trigraph x).isSome = true ∧ c = question ∧
        piece ++ text = question :: x :: rest) ↔ ∃ x rest, (trigraph x).isSome = true ∧
          c = question ∧ piece ++ text.head?.toList = question :: x :: rest := by
      cases piece with
      | nil =>
        cases text with
        | nil => simp
        | cons a text =>
          have ha : a ≠ question := by simpa using h
          simp [ha]
      | cons b piece =>
        cases piece with
        | nil => cases text <;> simp
        | cons x piece => simp
    rw [List.cons_append, List.cons_append, hasTrigraph_cons, hasTrigraph_cons, ih, hfirst, or_assoc]

theorem hasTrigraph_concat {piece : List UInt8} {c : UInt8} :
    HasTrigraph (piece ++ [c]) ↔
      [question, question] <:+ piece ∧ (trigraph c).isSome ∨ HasTrigraph piece := by
  have hlast (x : UInt8) : [question, question, x] <:+ piece ++ [c] ↔
      [question, question] <:+ piece ∧ x = c := by
    rw [List.suffix_concat_iff, or_iff_right (by simp)]
    constructor
    · rintro ⟨t, heq, hsuffix⟩
      have heq' : [question, question] ++ [x] = t ++ [c] := heq
      obtain ⟨rfl, hx⟩ := List.append_inj' heq' rfl
      exact ⟨hsuffix, (List.cons.inj hx).1⟩
    · rintro ⟨hsuffix, rfl⟩
      exact ⟨_, rfl, hsuffix⟩
  unfold HasTrigraph
  simp only [List.infix_concat_iff, hlast]
  constructor
  · rintro ⟨x, hx, ⟨hmarks, rfl⟩ | hwithin⟩
    · exact .inl ⟨hmarks, hx⟩
    · exact .inr ⟨x, hx, hwithin⟩
  · rintro (⟨hmarks, hc⟩ | ⟨x, hx, hwithin⟩)
    · exact ⟨c, hc, .inl ⟨hmarks, rfl⟩⟩
    · exact ⟨x, hx, .inr hwithin⟩

theorem trigraphs_of_not_hasTrigraph {text : List UInt8} (h : ¬HasTrigraph text)
    (rest : List UInt8) : trigraphs (text ++ quote :: rest) = text ++ quote :: trigraphs rest := by
  induction text with
  | nil => exact trigraphs_cons (.inl (by decide))
  | cons c text ih =>
    rw [hasTrigraph_cons, not_or] at h
    rw [List.cons_append, List.cons_append, ← ih h.2]
    obtain - | ⟨b, - | ⟨x, text⟩⟩ := text
    · apply trigraphs_cons (.inr _)
      rw [List.nil_append, List.head?_cons]
      decide
    · have hquote : trigraph quote = none := rfl
      rw [List.cons_append, List.nil_append, trigraphs, hquote]
      exact ite_self _
    · have hx : c = question ∧ b = question → trigraph x = none := by
        rintro ⟨rfl, rfl⟩
        by_contra hx
        exact h.1 ⟨x, text, Option.isSome_iff_ne_none.mpr hx, rfl, rfl⟩
      rw [List.cons_append, List.cons_append, trigraphs]
      split_ifs with hmarks
      · rw [hx hmarks]
      · rfl

namespace Written
variable {text bytes : List UInt8}

theorem newline_not_mem (h : Written text bytes) : newline ∉ text := by
  induction h with
  | nil => exact List.not_mem_nil
  | plain hq hn hb rest ih => exact fun hmem => (List.mem_cons.mp hmem).elim (hn ∘ Eq.symm) ih
  | simple hescape head_ne rest ih =>
    simp only [List.mem_cons, not_or]
    refine ⟨by decide, ?_, ih⟩
    rintro rfl
    cases hescape
  | octal h₁ h₂ h₃ hlt rest ih =>
    simp only [List.mem_cons, not_or]
    exact ⟨by decide, (octalDigit_ne h₁).2.2.1.symm, (octalDigit_ne h₂).2.2.1.symm,
      (octalDigit_ne h₃).2.2.1.symm, ih⟩

theorem read (h : Written text bytes) (rest : List UInt8) :
    readLiteral (text ++ quote :: rest) = some (bytes, rest) := by
  induction h with
  | nil => exact readLiteral_quote rest
  | plain hq hn hb hrest ih =>
    rw [List.cons_append, readLiteral_plain hq hn hb, ih]
    rfl
  | simple hescape head_ne hrest ih =>
    rw [List.cons_append, List.cons_append, readLiteral_escape (escape_simple hescape _), ih]
    rfl
  | octal h₁ h₂ h₃ hlt hrest ih =>
    have hescape := escape_octal h₁ h₂ h₃ (octalDigit_ne h₁).2.2.2.2 hlt
    rw [List.cons_append, List.cons_append, List.cons_append, List.cons_append,
      readLiteral_escape (hescape _), ih]
    rfl

theorem not_hasTrigraph_of_read {rest : List UInt8} (h : Written text bytes)
    (hread : readLiteral (translated text) = some (bytes, rest)) : ¬HasTrigraph text := by
  induction h with
  | nil =>
    rintro ⟨x, hx, hwithin⟩
    exact absurd hwithin.length_le (by simp)
  | @plain c text bytes hq hn hb hrest ih =>
    rw [hasTrigraph_cons, not_or]
    obtain htext | ⟨x, r, text', rfl, rfl, hx, htext⟩ := translated_cons c text
    · rw [htext, readLiteral_plain hq hn hb] at hread
      obtain ⟨⟨bytes', rest'⟩, hread', heq⟩ := Option.map_eq_some_iff.mp hread
      cases heq
      refine ⟨?_, ih hread'⟩
      rintro ⟨x, text', hx, rfl, rfl⟩
      obtain ⟨r, hr⟩ := Option.isSome_iff_exists.mp hx
      have hreplaced : translated (question :: question :: x :: text') = r :: translated text' := by
        simp [translated, trigraphs, hr]
      rw [hreplaced] at htext
      exact (trigraph_value hr).1.1 (List.cons.inj htext).1
    · obtain ⟨bytes', rfl, hrest, -⟩ := hrest.of_cons (by decide)
      obtain ⟨bytes'', rfl, hrest, -⟩ := hrest.of_cons (trigraph_ne_backslash hx)
      rw [htext] at hread
      exact absurd hread (trigraph_misread hx hrest)
  | @simple c b text bytes hescape head_ne hrest ih =>
    rw [translated_backslash, translated_escaped head_ne,
      readLiteral_escape (escape_simple hescape _)] at hread
    obtain ⟨⟨bytes', rest'⟩, hread', heq⟩ := Option.map_eq_some_iff.mp hread
    cases heq
    rw [hasTrigraph_cons, hasTrigraph_cons, not_or, not_or]
    refine ⟨?_, ?_, ih hread'⟩
    · rintro ⟨x, rest, -, hc, -⟩
      exact absurd hc (by decide)
    · rintro ⟨x, rest, -, -, rfl⟩
      exact head_ne rfl
  | @octal c₁ c₂ c₃ d₁ d₂ d₃ text bytes h₁ h₂ h₃ hlt hrest ih =>
    rw [translated_octal h₁ h₂ h₃, readLiteral_escape
      (escape_octal h₁ h₂ h₃ (octalDigit_ne h₁).2.2.2.2 hlt _)] at hread
    obtain ⟨⟨bytes', rest'⟩, hread', heq⟩ := Option.map_eq_some_iff.mp hread
    cases heq
    have hne {c : UInt8} (hc : c ≠ question) (text : List UInt8) :
        ¬∃ x rest, (trigraph x).isSome = true ∧ c = question ∧ text = question :: x :: rest := by
      rintro ⟨x, rest, -, heq, -⟩
      exact hc heq
    rw [hasTrigraph_cons, hasTrigraph_cons, hasTrigraph_cons, hasTrigraph_cons]
    simp only [not_or]
    exact ⟨hne (by decide) _, hne (octalDigit_ne h₁).1 _, hne (octalDigit_ne h₂).1 _,
      hne (octalDigit_ne h₃).1 _, ih hread'⟩

theorem mem_trigraphs {c : UInt8} {text : List UInt8} (h : c ∈ trigraphs text) :
    c ∈ text ∨ ∃ x, trigraph x = some c := by
  fun_induction trigraphs text with
  | case1 a b x rest hmarks r hr ih =>
    obtain rfl | h := List.mem_cons.mp h
    · exact .inr ⟨x, hr⟩
    · exact (ih h).imp_left fun h => by simp [h]
  | case2 a b x rest hmarks hr ih =>
    obtain rfl | h := List.mem_cons.mp h
    · exact .inl List.mem_cons_self
    · exact (ih h).imp_left (List.mem_cons_of_mem _)
  | case3 a b x rest hmarks ih =>
    obtain rfl | h := List.mem_cons.mp h
    · exact .inl List.mem_cons_self
    · exact (ih h).imp_left (List.mem_cons_of_mem _)
  | case4 text => exact .inl h

/-- No line is spliced in a literal. -/
theorem compileLiteral_closed (h : Written text bytes) :
    compileLiteral (text ++ [quote]) = readLiteral (translated text) := by
  have hnewline : newline ∉ translated text := by
    intro hmem
    obtain hmem | ⟨x, hx⟩ := mem_trigraphs hmem
    · obtain hmem | hmem := List.mem_append.mp hmem
      · exact h.newline_not_mem hmem
      · exact absurd (List.mem_singleton.mp hmem) (by decide)
    · exact (trigraph_value hx).1.2.2 rfl
  have hsplice : splice (translated text ++ []) = translated text ++ [] :=
    splice_append hnewline (by simp)
  rw [List.append_nil] at hsplice
  exact congrArg readLiteral hsplice

theorem compile_length_le {out rest : List UInt8} (h : Written text bytes)
    (hread : compileLiteral (text ++ [quote]) = some (out, rest)) : out.length ≤ bytes.length := by
  rw [h.compileLiteral_closed] at hread
  exact h.bounded.1 hread

/-- A literal is read as the bytes it was written for if and only if it has no trigraph. -/
theorem compile_iff (h : Written text bytes) :
    (∀ rest, compileLiteral (text ++ quote :: rest) = some (bytes, splice (trigraphs rest))) ↔
      ¬HasTrigraph text := by
  constructor
  · intro hread
    have hclosed := hread []
    rw [h.compileLiteral_closed] at hclosed
    exact h.not_hasTrigraph_of_read hclosed
  · intro htrigraph rest
    unfold compileLiteral
    rw [trigraphs_of_not_hasTrigraph htrigraph, splice_append h.newline_not_mem
      (by rw [List.head?_cons]; decide), splice_cons (.inl (by decide)), h.read]

end Written

end FcLang.CText
