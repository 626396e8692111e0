import FcLang.Lexer.Scan

/-!
# The bytes a literal denotes

A literal segment is text between quotes and interpolations. `Denotes` is the
language's escapes and `%%`, and `decodeStrLit` computes it. A segment the
scanner has passed over denotes bytes, because it skips what the decoder reads
as one byte.
-/

namespace FcLang.Text
open Lexer (isDigit isXDigit simpleEscapes scanEscape checkInterpSpec textRun TextEnd)

def percent : UInt8 := '%'.toUInt8

def backslash : UInt8 := '\\'.toUInt8

def hexMark : UInt8 := 'x'.toUInt8

def hexDigitVal (c : UInt8) : Option UInt8 :=
  if '0'.toUInt8 ≤ c ∧ c ≤ '9'.toUInt8 then some (c - '0'.toUInt8)
  else if 'a'.toUInt8 ≤ c ∧ c ≤ 'f'.toUInt8 then some (c - 'a'.toUInt8 + 10)
  else if 'A'.toUInt8 ≤ c ∧ c ≤ 'F'.toUInt8 then some (c - 'A'.toUInt8 + 10)
  else none

def simpleEscapeByte (c : UInt8) : Option UInt8 :=
  if c = 'n'.toUInt8 then some 10
  else if c = 't'.toUInt8 then some 9
  else if c = 'r'.toUInt8 then some 13
  else if c = '0'.toUInt8 then some 0
  else if c = '\\'.toUInt8 then some '\\'.toUInt8
  else if c = '"'.toUInt8 then some '"'.toUInt8
  else if c = '\''.toUInt8 then some '\''.toUInt8
  else none

/-- The byte of two hexadecimal digits; what is no digit reads as -1. -/
def hexByte (a b : UInt8) : UInt8 := ((hexDigitVal a).getD 255 <<< 4) ||| (hexDigitVal b).getD 255

/-- The loop body of `decode_str_lit`: the byte at `c`, and the text behind it. -/
def nextByte (c : UInt8) (rest : List UInt8) : UInt8 × List UInt8 :=
  match rest with
  | [] => (c, [])
  | e :: rest =>
    if c = percent ∧ e = percent then (percent, rest)
    else if c = backslash then
      match e == hexMark, rest with
      | true, a :: b :: rest => (hexByte a b, rest)
      | _, rest => ((simpleEscapeByte e).getD e, rest)
    else (c, e :: rest)

theorem nextByte_length (c : UInt8) (rest : List UInt8) :
    (nextByte c rest).2.length ≤ rest.length := by
  unfold nextByte
  split
  · simp
  · split_ifs
    · simp
    · split
      · simp only [List.length_cons]
        omega
      · simp
    · simp

/-- One byte written and counted. -/
def putByte (b : UInt8) (r : ℕ × List UInt8) : ℕ × List UInt8 := (r.1 + 1, b :: r.2)

/-- `decode_str_lit`: the count it returns and the bytes it writes. -/
def decodeStrLit : List UInt8 → ℕ × List UInt8
  | [] => (0, [])
  | c :: rest => putByte (nextByte c rest).1 (decodeStrLit (nextByte c rest).2)
termination_by text => text.length
decreasing_by
  have := nextByte_length c rest
  simp only [List.length_cons]
  omega

/-- What the text of a literal stands for. -/
inductive Denotes : List UInt8 → List UInt8 → Prop where
  | nil : Denotes [] []
  | percents {text bytes : List UInt8} (rest : Denotes text bytes) :
      Denotes (percent :: percent :: text) (percent :: bytes)
  | simple {e b : UInt8} {text bytes : List UInt8} (escape : simpleEscapeByte e = some b)
      (rest : Denotes text bytes) : Denotes (backslash :: e :: text) (b :: bytes)
  | hex {a b x y : UInt8} {text bytes : List UInt8} (high : hexDigitVal a = some x)
      (low : hexDigitVal b = some y) (rest : Denotes text bytes) :
      Denotes (backslash :: hexMark :: a :: b :: text) ((16 * x + y) :: bytes)
  | plain {c : UInt8} {text bytes : List UInt8} (notEscape : c ≠ backslash)
      (notPair : c = percent → text.head? ≠ some percent) (rest : Denotes text bytes) :
      Denotes (c :: text) (c :: bytes)

theorem hexDigitVal_lt {c x : UInt8} (h : hexDigitVal c = some x) : x < 16 := by
  unfold hexDigitVal at h
  rw [UInt8.lt_iff_toNat_lt]
  split at h
  · rename_i hc
    change (48 : UInt8) ≤ c ∧ c ≤ 57 at hc
    cases h
    change (c - 48).toNat < 16
    rw [UInt8.toNat_sub_of_le _ _ hc.1]
    have := UInt8.le_iff_toNat_le.mp hc.2
    simp at this ⊢
    omega
  · split at h
    · rename_i hc
      change (97 : UInt8) ≤ c ∧ c ≤ 102 at hc
      cases h
      change (c - 97 + 10).toNat < 16
      rw [UInt8.toNat_add, UInt8.toNat_sub_of_le _ _ hc.1]
      have := UInt8.le_iff_toNat_le.mp hc.2
      simp at this ⊢
      omega
    · split at h
      · rename_i hc
        change (65 : UInt8) ≤ c ∧ c ≤ 70 at hc
        cases h
        change (c - 65 + 10).toNat < 16
        rw [UInt8.toNat_add, UInt8.toNat_sub_of_le _ _ hc.1]
        have := UInt8.le_iff_toNat_le.mp hc.2
        simp at this ⊢
        omega
      · cases h

theorem hexByte_eq {a b x y : UInt8} (ha : hexDigitVal a = some x) (hb : hexDigitVal b = some y) :
    hexByte a b = 16 * x + y := by
  have hx := UInt8.lt_iff_toNat_lt.mp (hexDigitVal_lt ha)
  have hy := UInt8.lt_iff_toNat_lt.mp (hexDigitVal_lt hb)
  unfold hexByte
  rw [ha, hb]
  apply UInt8.toNat_inj.mp
  simp at hx hy ⊢
  rw [Nat.mod_eq_of_lt (by rw [Nat.shiftLeft_eq]; omega),
    ← Nat.shiftLeft_add_eq_or_of_lt (by omega), Nat.shiftLeft_eq]
  omega

theorem simpleEscapeByte_ne_hexMark {e b : UInt8} (h : simpleEscapeByte e = some b) :
    e ≠ hexMark := by
  rintro rfl
  cases h

/-- A character that opens neither a pair nor an escape is a byte. -/
theorem nextByte_plain {c : UInt8} {text : List UInt8} (hc : c ≠ backslash)
    (hpair : c = percent → text.head? ≠ some percent) : nextByte c text = (c, text) := by
  cases text with
  | nil => rfl
  | cons e rest =>
    unfold nextByte
    dsimp only
    rw [if_neg fun h => hpair h.1 (by simp [h.2]), if_neg hc]

theorem nextByte_simple {e b : UInt8} {text : List UInt8} (h : simpleEscapeByte e = some b) :
    nextByte backslash (e :: text) = (b, text) := by
  have hmark : (e == hexMark) = false := beq_false_of_ne (simpleEscapeByte_ne_hexMark h)
  unfold nextByte
  dsimp only
  rw [if_neg (fun hp => absurd hp.1 (by decide)), if_pos rfl, hmark, h]
  rfl

theorem nextByte_percents (text : List UInt8) :
    nextByte percent (percent :: text) = (percent, text) := rfl

theorem nextByte_hex (a b : UInt8) (text : List UInt8) :
    nextByte backslash (hexMark :: a :: b :: text) = (hexByte a b, text) := rfl

theorem Denotes.decode {text bytes : List UInt8} (h : Denotes text bytes) :
    decodeStrLit text = (bytes.length, bytes) := by
  induction h with
  | nil => rw [decodeStrLit, List.length_nil]
  | percents rest ih =>
    rw [decodeStrLit, nextByte_percents, ih]
    rfl
  | simple escape rest ih =>
    rw [decodeStrLit, nextByte_simple escape, ih]
    rfl
  | hex high low rest ih =>
    rw [decodeStrLit, nextByte_hex, hexByte_eq high low, ih]
    rfl
  | plain notEscape notPair rest ih =>
    rw [decodeStrLit, nextByte_plain notEscape notPair, ih]
    rfl

/-- A text denotes one sequence of bytes. -/
theorem Denotes.unique {text bytes bytes' : List UInt8} (h : Denotes text bytes)
    (h' : Denotes text bytes') : bytes = bytes' :=
  congrArg Prod.snd (h.decode.symm.trans h'.decode)

theorem mem_simpleEscapes {e : UInt8} (h : e ∈ simpleEscapes) :
    ∃ b, simpleEscapeByte e = some b := by
  have hall : ∀ e ∈ simpleEscapes, (simpleEscapeByte e).isSome := by decide +kernel
  exact Option.isSome_iff_exists.mp (hall e h)

theorem hexDigitVal_of_isXDigit {c : UInt8} (h : isXDigit c = true) :
    ∃ x, hexDigitVal c = some x := by
  apply Option.isSome_iff_exists.mp
  unfold isXDigit isDigit at h
  unfold hexDigitVal
  split_ifs with h1 h2 h3
  · rfl
  · rfl
  · rfl
  · simp_all

theorem textRun_skip {k : ℕ} {text : List UInt8} (hk : k ≤ text.length) :
    textRun k text = (k + (textRun 0 (text.drop k)).1, (textRun 0 (text.drop k)).2) := by
  induction k generalizing text with
  | zero => simp
  | succ k ih =>
    cases text with
    | nil => simp at hk
    | cons c rest =>
      rw [textRun, ih (by simpa using hk), List.drop_succ_cons]
      simp only [Prod.mk.injEq, and_true]
      omega

/-- What ends a segment that the scanner takes. -/
def TextEnd.Taken : TextEnd → Prop
  | .quote => True
  | .interpolation _ => True
  | _ => False

/-- The scanner passes over the text and takes what ends it. -/
def Accepted (text : List UInt8) : Prop :=
  ∃ rest stop, textRun 0 (text ++ rest) = (text.length, stop) ∧ TextEnd.Taken stop

theorem accepted_drop {k : ℕ} {c : UInt8} {text rest : List UInt8} {stop : TextEnd}
    (hk : k ≤ (text ++ rest).length)
    (h : ((textRun k (text ++ rest)).1 + 1, (textRun k (text ++ rest)).2) =
      ((c :: text).length, stop)) (hstop : TextEnd.Taken stop) :
    k ≤ text.length ∧ Accepted (text.drop k) := by
  rw [textRun_skip hk, Prod.mk.injEq, List.length_cons] at h
  have hle : k ≤ text.length := by omega
  refine ⟨hle, rest, stop, ?_, hstop⟩
  rw [← List.drop_append_of_le_length hle]
  ext
  · dsimp only
    rw [List.length_drop]
    omega
  · exact h.2

/-- An escape the scanner takes is a simple one, or has two digits. -/
theorem scanEscape_ok {text : List UInt8} {k : ℕ} (h : scanEscape text = .ok k) :
    (∃ e b rest, text = e :: rest ∧ simpleEscapeByte e = some b ∧ k = 1) ∨
    ∃ a b x y rest, text = hexMark :: a :: b :: rest ∧ hexDigitVal a = some x ∧
      hexDigitVal b = some y ∧ k = 3 := by
  unfold scanEscape at h
  match text with
  | [] => cases h
  | e :: rest =>
    dsimp only at h
    split_ifs at h with hsimple hx hdigits
    · obtain ⟨b, hb⟩ := mem_simpleEscapes hsimple
      cases h
      exact .inl ⟨e, b, rest, rfl, hb, rfl⟩
    · rw [Bool.and_eq_true] at hdigits
      match rest with
      | [] => exact absurd hdigits.1 (by decide)
      | [a] =>
        have hnul : isXDigit 0 = true := hdigits.2
        exact absurd hnul (by decide)
      | a :: b :: rest =>
        obtain ⟨x, hx'⟩ := hexDigitVal_of_isXDigit (c := a) (by simpa using hdigits.1)
        obtain ⟨y, hy⟩ := hexDigitVal_of_isXDigit (c := b) (by simpa using hdigits.2)
        cases h
        exact .inr ⟨a, b, x, y, rest, by rw [hx]; rfl, hx', hy, rfl⟩

/-- A list that begins a longer one, by its first characters. -/
theorem take_of_append {text rest tail : List UInt8} (head : List UInt8)
    (h : text ++ rest = head ++ tail) (hlen : head.length ≤ text.length) : text = head ++ text.drop head.length := by
  have htake := congrArg (List.take head.length) h
  rw [List.take_append_of_le_length hlen, List.take_left] at htake
  calc text = text.take head.length ++ text.drop head.length := (List.take_append_drop _ _).symm
    _ = head ++ text.drop head.length := by rw [htake]

theorem Accepted.denotes {text : List UInt8} (h : Accepted text) : ∃ bytes, Denotes text bytes := by
  induction hn : text.length using Nat.strong_induction_on generalizing text with
  | _ n ih =>
    match text with
    | [] => exact ⟨[], .nil⟩
    | c :: t =>
      obtain ⟨rest, stop, hrun, hstop⟩ := h
      have hrec (k : ℕ) (hk : k ≤ t.length) (ht : Accepted (t.drop k)) :
          ∃ bytes, Denotes (t.drop k) bytes := by
        apply ih (t.drop k).length _ ht rfl
        rw [← hn, List.length_drop, List.length_cons]
        omega
      rw [List.cons_append, textRun] at hrun
      split_ifs at hrun with hquote hnewline hescape hempty hpair hspec
      · simp at hrun
      · simp at hrun
      · obtain ⟨-, rfl⟩ := Prod.mk.inj hrun
        exact hstop.elim
      · cases hscan : scanEscape (t ++ rest) with
        | error message =>
          rw [hscan] at hrun
          obtain ⟨-, rfl⟩ := Prod.mk.inj hrun
          exact hstop.elim
        | ok k =>
          rw [hscan] at hrun
          obtain ⟨e, b, more, hmore, hb, rfl⟩ | ⟨a, b, x, y, more, hmore, hx, hy, rfl⟩ :=
            scanEscape_ok hscan
          · obtain ⟨hle, hdrop⟩ := accepted_drop (by simp [hmore]) hrun hstop
            obtain ⟨bytes, hbytes⟩ := hrec 1 hle hdrop
            rw [hescape, take_of_append [e] hmore hle]
            exact ⟨b :: bytes, .simple hb hbytes⟩
          · obtain ⟨hle, hdrop⟩ := accepted_drop (by simp [hmore]) hrun hstop
            obtain ⟨bytes, hbytes⟩ := hrec 3 hle hdrop
            rw [hescape, take_of_append [hexMark, a, b] hmore hle]
            exact ⟨(16 * x + y) :: bytes, .hex hx hy hbytes⟩
      · obtain ⟨more, hmore⟩ : ∃ more, t ++ rest = percent :: more := by
          match hlist : t ++ rest, hpair.2 with
          | e :: more, hhead =>
            cases hhead
            exact ⟨more, rfl⟩
        obtain ⟨hle, hdrop⟩ := accepted_drop (by simp [hmore]) hrun hstop
        obtain ⟨bytes, hbytes⟩ := hrec 1 hle hdrop
        rw [hpair.1, take_of_append [percent] hmore hle]
        exact ⟨percent :: bytes, .percents hbytes⟩
      · simp at hrun
      · obtain ⟨hle, hdrop⟩ := accepted_drop (Nat.zero_le _) hrun hstop
        obtain ⟨bytes, hbytes⟩ := hrec 0 hle hdrop
        refine ⟨c :: bytes, .plain hescape (fun hc hhead => hpair ⟨hc, ?_⟩) hbytes⟩
        cases t with
        | nil => cases hhead
        | cons e t => exact hhead

end FcLang.Text
