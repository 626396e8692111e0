import Mathlib.Data.List.Basic
import Mathlib.Tactic

/-!
# C string literals

How a C11 compiler reads the text of a string literal: trigraphs first, then
lines spliced at a backslash, then the characters and escapes up to the closing
quote. An octal escape has at most three digits, a hexadecimal one as many as
follow.
-/

namespace FcLang.CText

def quote : UInt8 := '"'.toUInt8

def backslash : UInt8 := '\\'.toUInt8

def question : UInt8 := '?'.toUInt8

def newline : UInt8 := '\n'.toUInt8

/-- What `??` and a third character stand for. -/
def trigraph (c : UInt8) : Option UInt8 :=
  [('='.toUInt8, '#'.toUInt8), ('('.toUInt8, '['.toUInt8), ('/'.toUInt8, backslash),
    (')'.toUInt8, ']'.toUInt8), ('\''.toUInt8, '^'.toUInt8), ('<'.toUInt8, '\x7b'.toUInt8),
    ('!'.toUInt8, '|'.toUInt8), ('>'.toUInt8, '\x7d'.toUInt8), ('-'.toUInt8, '~'.toUInt8)].lookup c

def trigraphs : List UInt8 → List UInt8
  | a :: b :: c :: rest =>
    if a = question ∧ b = question then
      match trigraph c with
      | some r => r :: trigraphs rest
      | none => a :: trigraphs (b :: c :: rest)
    else a :: trigraphs (b :: c :: rest)
  | text => text

def splice : List UInt8 → List UInt8
  | a :: b :: rest =>
    if a = backslash ∧ b = newline then splice rest else a :: splice (b :: rest)
  | text => text

theorem trigraphs_cons {a : UInt8} {text : List UInt8}
    (h : a ≠ question ∨ text.head? ≠ some question) : trigraphs (a :: text) = a :: trigraphs text := by
  match text with
  | [] => rfl
  | [b] => rfl
  | b :: c :: rest =>
    rw [trigraphs, if_neg]
    rintro ⟨ha, hb⟩
    obtain h | h := h
    · exact h ha
    · exact h (by simp [hb])

theorem splice_cons {a : UInt8} {text : List UInt8}
    (h : a ≠ backslash ∨ text.head? ≠ some newline) : splice (a :: text) = a :: splice text := by
  match text with
  | [] => rfl
  | b :: rest =>
    rw [splice, if_neg]
    rintro ⟨ha, hb⟩
    obtain h | h := h
    · exact h ha
    · exact h (by simp [hb])

def hexDigit (c : UInt8) : Option ℕ :=
  if '0'.toUInt8 ≤ c ∧ c ≤ '9'.toUInt8 then some (c - '0'.toUInt8).toNat
  else if 'a'.toUInt8 ≤ c ∧ c ≤ 'f'.toUInt8 then some (c - 'a'.toUInt8 + 10).toNat
  else if 'A'.toUInt8 ≤ c ∧ c ≤ 'F'.toUInt8 then some (c - 'A'.toUInt8 + 10).toNat
  else none

def octalDigit (c : UInt8) : Option ℕ :=
  if '0'.toUInt8 ≤ c ∧ c ≤ '7'.toUInt8 then some (c - '0'.toUInt8).toNat else none

def numeral (base : ℕ) (digit : UInt8 → Option ℕ) (digits : List UInt8) : ℕ :=
  digits.foldl (fun v d => base * v + (digit d).getD 0) 0

def simpleEscape (c : UInt8) : Option UInt8 :=
  [('a'.toUInt8, 7), ('b'.toUInt8, 8), ('f'.toUInt8, 12), ('n'.toUInt8, 10), ('r'.toUInt8, 13),
    ('t'.toUInt8, 9), ('v'.toUInt8, 11), (backslash, backslash), ('\''.toUInt8, '\''.toUInt8),
    (quote, quote), (question, question)].lookup c

/-- The value of a numeric escape, which must be that of a character. -/
def escapeValue (v : ℕ) (rest : List UInt8) : Option (UInt8 × List UInt8) :=
  if v < 256 then some (UInt8.ofNat v, rest) else none

/-- What stands behind a backslash, and what is left. -/
def escape : List UInt8 → Option (UInt8 × List UInt8)
  | [] => none
  | c :: rest =>
    match simpleEscape c with
    | some b => some (b, rest)
    | none =>
      if (octalDigit c).isSome then
        let digits := ((c :: rest).take 3).takeWhile fun d => (octalDigit d).isSome
        escapeValue (numeral 8 octalDigit digits) ((c :: rest).drop digits.length)
      else if c = 'x'.toUInt8 then
        let digits := rest.takeWhile fun d => (hexDigit d).isSome
        if digits = [] then none
        else escapeValue (numeral 16 hexDigit digits) (rest.drop digits.length)
      else none

theorem escapeValue_length {v : ℕ} {text rest : List UInt8} {b : UInt8}
    (h : escapeValue v text = some (b, rest)) : rest = text := by
  unfold escapeValue at h
  split at h
  · cases h
    rfl
  · cases h

theorem escape_length {text rest : List UInt8} {b : UInt8} (h : escape text = some (b, rest)) :
    rest.length ≤ text.length := by
  cases text with
  | nil => cases h
  | cons c text =>
    simp only [escape] at h
    split at h
    · cases h
      simp
    · split at h
      · rw [escapeValue_length h, List.length_drop]
        omega
      · split at h
        · split at h
          · cases h
          · rw [escapeValue_length h, List.length_drop, List.length_cons]
            omega
        · cases h

/-- The bytes of the literal whose opening quote has been read, and what follows it. -/
def readLiteral (text : List UInt8) : Option (List UInt8 × List UInt8) :=
  match text with
  | [] => none
  | c :: rest =>
    if c = quote then some ([], rest)
    else if c = newline then none
    else if c = backslash then
      match _h : escape rest with
      | none => none
      | some (b, rest') => (readLiteral rest').map fun r => (b :: r.1, r.2)
    else (readLiteral rest).map fun r => (c :: r.1, r.2)
termination_by text.length
decreasing_by
  · have := escape_length (by assumption)
    simp only [List.length_cons]
    omega
  · simp

/-- What the compiler makes of a literal and the text that follows it. -/
def compileLiteral (text : List UInt8) : Option (List UInt8 × List UInt8) :=
  readLiteral (splice (trigraphs text))

theorem readLiteral_quote (rest : List UInt8) : readLiteral (quote :: rest) = some ([], rest) := by
  rw [readLiteral, if_pos rfl]

theorem readLiteral_plain {c : UInt8} (hq : c ≠ quote) (hn : c ≠ newline) (hb : c ≠ backslash)
    (rest : List UInt8) :
    readLiteral (c :: rest) = (readLiteral rest).map fun r => (c :: r.1, r.2) := by
  rw [readLiteral, if_neg hq, if_neg hn, if_neg hb]

theorem readLiteral_escape {b : UInt8} {text rest : List UInt8} (h : escape text = some (b, rest)) :
    readLiteral (backslash :: text) = (readLiteral rest).map fun r => (b :: r.1, r.2) := by
  rw [readLiteral, if_neg (by decide), if_neg (by decide), if_pos rfl]
  split
  · rename_i hnone
    rw [h] at hnone
    cases hnone
  · rename_i b' rest' hsome
    rw [h] at hsome
    cases hsome
    rfl

theorem escape_simple {c b : UInt8} (h : simpleEscape c = some b) (rest : List UInt8) :
    escape (c :: rest) = some (b, rest) := by
  simp only [escape, h]

/-- Three octal digits are a whole escape, whatever follows. -/
theorem escape_octal {c₁ c₂ c₃ : UInt8} {d₁ d₂ d₃ : ℕ} (h₁ : octalDigit c₁ = some d₁)
    (h₂ : octalDigit c₂ = some d₂) (h₃ : octalDigit c₃ = some d₃) (hsimple : simpleEscape c₁ = none)
    (hlt : 64 * d₁ + 8 * d₂ + d₃ < 256) (rest : List UInt8) :
    escape (c₁ :: c₂ :: c₃ :: rest) = some (UInt8.ofNat (64 * d₁ + 8 * d₂ + d₃), rest) := by
  have hvalue : numeral 8 octalDigit [c₁, c₂, c₃] = 64 * d₁ + 8 * d₂ + d₃ := by
    simp only [numeral, List.foldl_cons, List.foldl_nil, h₁, h₂, h₃, Option.getD_some]
    omega
  simp only [escape, hsimple, h₁, Option.isSome_some, if_true, List.take_succ_cons,
    List.take_zero, List.takeWhile_cons, List.takeWhile_nil, h₂, h₃, hvalue, List.length_cons,
    List.length_nil, Nat.zero_add, List.drop_succ_cons, List.drop_zero, escapeValue, if_pos hlt]

theorem splice_append {piece text : List UInt8} (h : newline ∉ piece)
    (htext : text.head? ≠ some newline) : splice (piece ++ text) = piece ++ splice text := by
  induction piece with
  | nil => rfl
  | cons a piece ih =>
    rw [List.mem_cons, not_or] at h
    rw [List.cons_append, splice_cons, ih h.2, List.cons_append]
    right
    cases piece with
    | nil => exact htext
    | cons b piece =>
      intro hb
      cases hb
      exact h.2 List.mem_cons_self

theorem trigraphs_append {piece : List UInt8} (h : question ∉ piece) (text : List UInt8) :
    trigraphs (piece ++ text) = piece ++ trigraphs text := by
  induction piece with
  | nil => rfl
  | cons a piece ih =>
    rw [List.mem_cons, not_or] at h
    rw [List.cons_append, trigraphs_cons (.inl (Ne.symm h.1)), ih h.2, List.cons_append]

/-- A piece of literal text that the compiler reads as `contents`, whatever encodings stand
beside it. -/
structure Encodes (piece contents : List UInt8) : Prop where
  newline_not_mem : newline ∉ piece
  head_ne : piece.head? ≠ some question
  trigraphs_eq : ∀ text, text.head? ≠ some question → trigraphs (piece ++ text) = piece ++ trigraphs text
  read_eq : ∀ text, readLiteral (piece ++ text) =
    (readLiteral text).map fun r => (contents ++ r.1, r.2)

namespace Encodes
variable {piece piece' contents contents' : List UInt8}

theorem nil : Encodes [] [] where
  newline_not_mem := List.not_mem_nil
  head_ne := by simp
  trigraphs_eq _ _ := rfl
  read_eq text := by simp

theorem append (h : Encodes piece contents) (h' : Encodes piece' contents') :
    Encodes (piece ++ piece') (contents ++ contents') where
  newline_not_mem hmem := (List.mem_append.mp hmem).elim h.newline_not_mem h'.newline_not_mem
  head_ne := by
    cases piece with
    | nil => exact h'.head_ne
    | cons a piece => exact h.head_ne
  trigraphs_eq text htext := by
    have hhead : (piece' ++ text).head? ≠ some question := by
      cases piece' with
      | nil => exact htext
      | cons a piece' => exact h'.head_ne
    rw [List.append_assoc, h.trigraphs_eq _ hhead, h'.trigraphs_eq text htext, List.append_assoc]
  read_eq text := by
    rw [List.append_assoc, h.read_eq, h'.read_eq, Option.map_map]
    simp [Function.comp_def]

theorem flatMap {α : Type} {piece contents : α → List UInt8}
    (h : ∀ a, Encodes (piece a) (contents a)) (as : List α) :
    Encodes (as.flatMap piece) (as.flatMap contents) := by
  induction as with
  | nil => exact nil
  | cons a as ih => exact (h a).append ih

/-- A character that stands for itself. -/
theorem plain {c : UInt8} (hq : c ≠ quote) (hn : c ≠ newline) (hb : c ≠ backslash)
    (hm : c ≠ question) : Encodes [c] [c] where
  newline_not_mem hmem := hn (List.mem_singleton.mp hmem).symm
  head_ne := by simpa using hm
  trigraphs_eq text _ := trigraphs_append (by simpa using Ne.symm hm) text
  read_eq text := readLiteral_plain hq hn hb text

/-- A backslash and what an escape reads whole. -/
theorem ofEscape {b : UInt8} {e : List UInt8} (hn : newline ∉ e)
    (htri : ∀ text, text.head? ≠ some question → trigraphs (e ++ text) = e ++ trigraphs text)
    (hread : ∀ text, escape (e ++ text) = some (b, text)) : Encodes (backslash :: e) [b] where
  newline_not_mem hmem := (List.mem_cons.mp hmem).elim (by decide) hn
  head_ne := by
    rw [List.head?_cons]
    decide
  trigraphs_eq text htext := by
    rw [List.cons_append, trigraphs_cons (.inl (by decide)), htri text htext, List.cons_append]
  read_eq text := readLiteral_escape (hread text)

theorem compile (h : Encodes piece contents) (rest : List UInt8) :
    compileLiteral (piece ++ quote :: rest) = some (contents, splice (trigraphs rest)) := by
  unfold compileLiteral
  rw [h.trigraphs_eq _ (by rw [List.head?_cons]; decide), trigraphs_cons (.inl (by decide)),
    splice_append h.newline_not_mem (by rw [List.head?_cons]; decide),
    splice_cons (.inl (by decide)), h.read_eq, readLiteral_quote]
  simp

end Encodes
end FcLang.CText
