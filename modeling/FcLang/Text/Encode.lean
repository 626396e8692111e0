import FcLang.Lib.Printf
import FcLang.Text.Segments

/-!
# Literals written for C

How the bytes of a literal are written as a C string literal, and as a piece of a
format string. The compiler reads the same bytes back, and the formatter writes
them.
-/

namespace FcLang.Text
open CText (Encodes compileLiteral quote splice trigraphs)
open Printf (Arg Pointers printf ascii)

/-- `\%03o` -/
def octalEscape (b : UInt8) : List UInt8 :=
  [backslash, '0'.toUInt8 + b / 64, '0'.toUInt8 + b / 8 % 8, '0'.toUInt8 + b % 8]

def emitCByte (b : UInt8) (fmt : Bool) : List UInt8 :=
  if b = backslash then [backslash, backslash]
  else if b = quote then [backslash, quote]
  else if b = '\n'.toUInt8 then [backslash, 'n'.toUInt8]
  else if b = '\r'.toUInt8 then [backslash, 'r'.toUInt8]
  else if b = '\t'.toUInt8 then [backslash, 't'.toUInt8]
  else if b = '?'.toUInt8 then [backslash, '?'.toUInt8]
  else if b = percent then if fmt then [percent, percent] else [percent]
  else if b < 0x20 ∨ b = 0x7f then octalEscape b
  else [b]

def emitStrLitBody (text : List UInt8) : List UInt8 :=
  (decodeStrLit text).2.flatMap fun b => emitCByte b false

/-- A literal segment in a format string. The format cannot hold a NUL, so that is a conversion
of the argument 0. -/
def emitFormatText (text : List UInt8) : List UInt8 :=
  (decodeStrLit text).2.flatMap fun b => if b = 0 then ascii "%c" else emitCByte b true

/-- The arguments that go with a literal segment. -/
def nulArgs (text : List UInt8) : List Arg :=
  ((decodeStrLit text).2.filter fun b => b = 0).map fun _ => .int 0

/-- What the compiled format holds for a byte. -/
def formatByte (b : UInt8) : List UInt8 :=
  if b = 0 then ascii "%c" else if b = percent then [percent, percent] else [b]

theorem octal_char {x : UInt8} (hx : x < 8) :
    CText.octalDigit ('0'.toUInt8 + x) = some x.toNat ∧
      CText.simpleEscape ('0'.toUInt8 + x) = none ∧ '0'.toUInt8 + x ≠ CText.newline ∧
      '0'.toUInt8 + x ≠ CText.question := by
  have hlt := UInt8.lt_iff_toNat_lt.mp hx
  have hnat : x = UInt8.ofNat x.toNat := (UInt8.ofNat_toNat).symm
  change x.toNat < 8 at hlt
  generalize x.toNat = n at hlt hnat
  subst hnat
  interval_cases n <;> decide

/-- The digits that `%03o` writes. -/
theorem octal_digits (b : UInt8) : b / 64 < 8 ∧ b / 8 % 8 < 8 ∧ b % 8 < 8 ∧
    64 * (b / 64).toNat + 8 * (b / 8 % 8).toNat + (b % 8).toNat = b.toNat := by
  have hb := b.toNat_lt
  simp only [UInt8.lt_iff_toNat_lt]
  simp
  omega

theorem encodes_octal (b : UInt8) : Encodes (octalEscape b) [b] := by
  have hb := b.toNat_lt
  obtain ⟨h1, h2, h3, hvalue⟩ := octal_digits b
  apply Encodes.ofEscape
  · simp [(octal_char h1).2.2.1.symm, (octal_char h2).2.2.1.symm, (octal_char h3).2.2.1.symm]
  · intro text _
    apply CText.trigraphs_append
    simp [(octal_char h1).2.2.2.symm, (octal_char h2).2.2.2.symm, (octal_char h3).2.2.2.symm]
  · intro text
    have hread := CText.escape_octal (octal_char h1).1 (octal_char h2).1 (octal_char h3).1
      (octal_char h1).2.1 (by omega) text
    rw [hvalue, UInt8.ofNat_toNat] at hread
    exact hread

theorem encodes_simple {c b : UInt8} (h : CText.simpleEscape c = some b)
    (hn : c ≠ CText.newline) : Encodes [backslash, c] [b] := by
  apply Encodes.ofEscape
  · simpa using Ne.symm hn
  · intro text htext
    exact CText.trigraphs_cons (.inr htext)
  · exact CText.escape_simple h

theorem encodes_percent : Encodes [percent] [percent] :=
  .plain (by decide) (by decide) (by decide) (by decide)

theorem encodes_emitCByte (b : UInt8) (fmt : Bool) :
    Encodes (emitCByte b fmt) (if b = percent ∧ fmt then [percent, percent] else [b]) := by
  by_cases hpercent : b = percent
  · subst hpercent
    cases fmt with
    | false => exact encodes_percent
    | true => exact encodes_percent.append encodes_percent
  rw [if_neg fun h => hpercent h.1]
  unfold emitCByte
  split_ifs with h1 h2 h3 h4 h5 h6 h7
  · subst h1
    exact encodes_simple rfl (by decide)
  · subst h2
    exact encodes_simple rfl (by decide)
  · subst h3
    exact encodes_simple rfl (by decide)
  · subst h4
    exact encodes_simple rfl (by decide)
  · subst h5
    exact encodes_simple rfl (by decide)
  · subst h6
    exact encodes_simple rfl (by decide)
  · exact encodes_octal b
  · exact .plain h2 h3 h1 h6

/-- The compiler reads the bytes of a literal back. -/
theorem encodes_emitStrLitBody (text : List UInt8) :
    Encodes (emitStrLitBody text) (decodeStrLit text).2 := by
  have h := Encodes.flatMap (fun b => encodes_emitCByte b false) (decodeStrLit text).2
  simpa [emitStrLitBody] using h

theorem encodes_emitFormatText (text : List UInt8) :
    Encodes (emitFormatText text) ((decodeStrLit text).2.flatMap formatByte) := by
  apply Encodes.flatMap
  intro b
  unfold formatByte
  split
  · have hc : Encodes ['c'.toUInt8] ['c'.toUInt8] :=
      .plain (by decide) (by decide) (by decide) (by decide)
    exact encodes_percent.append hc
  · simpa using encodes_emitCByte b true

section Output
variable {pointers : Pointers}

theorem printf_formatByte (b : UInt8) (more : List UInt8) (args : List Arg) :
    printf pointers (formatByte b ++ more) ((if b = 0 then [.int 0] else []) ++ args) =
      (printf pointers more args).map (b :: ·) := by
  unfold formatByte
  split_ifs with hnul hpercent
  · subst hnul
    have hread : Printf.readDirective ('c'.toUInt8 :: more) (.int 0 :: args) =
        some (Printf.bare 'c'.toUInt8, more, .int 0 :: args) :=
      Printf.readDirective_bare (by decide) (by decide) (by decide) (by decide) (by decide) _
    exact Printf.printf_directive hread (by decide)
  · subst hpercent
    exact Printf.printf_percent (Printf.readDirective_bare (by decide) (by decide) (by decide)
      (by decide) (by decide) args) rfl
  · exact Printf.printf_byte hnul hpercent

/-- The formatter writes the bytes of a literal segment, whatever stands behind it. -/
theorem printf_formatText (bytes more : List UInt8) (args : List Arg) :
    printf pointers (bytes.flatMap formatByte ++ more)
        ((bytes.filter fun b => b = 0).map (fun _ => .int 0) ++ args) =
      (printf pointers more args).map (bytes ++ ·) := by
  induction bytes with
  | nil => simp
  | cons b bytes ih =>
    have hargs : ((b :: bytes).filter fun b => b = 0).map (fun _ => Arg.int 0) =
        (if b = 0 then [.int 0] else []) ++ (bytes.filter fun b => b = 0).map fun _ => .int 0 := by
      by_cases hb : b = 0 <;> simp [hb]
    rw [List.flatMap_cons, hargs, List.append_assoc, List.append_assoc, printf_formatByte, ih,
      Option.map_map]
    rfl

end Output

/-- Every literal segment of a source text denotes one sequence of bytes. The decoder
writes these bytes and counts them, the compiler reads them out of the emitted
literal, and the formatter writes them for the emitted format. -/
theorem literals_keep_bytes {source : List UInt8} {ts : List Lexer.Token}
    (h : Lexer.rawTokenize source = .ok ts) {t : Lexer.Token} (ht : t ∈ ts)
    (htext : isText t.kind = true) :
    ∃ bytes, (∀ bytes', Denotes (literalText t) bytes' ↔ bytes' = bytes) ∧
      decodeStrLit (literalText t) = (bytes.length, bytes) ∧
      (∀ rest, compileLiteral (emitStrLitBody (literalText t) ++ quote :: rest) =
        some (bytes, splice (trigraphs rest))) ∧
      ∃ format, (∀ ⦃tail contents⦄, Encodes tail contents → ∀ rest,
          compileLiteral (emitFormatText (literalText t) ++ tail ++ quote :: rest) =
            some (format ++ contents, splice (trigraphs rest))) ∧
        ∀ pointers more args, printf pointers (format ++ more) (nulArgs (literalText t) ++ args) =
          (printf pointers more args).map (bytes ++ ·) := by
  obtain ⟨bytes, hbytes⟩ := (rawTokenize_carries h t ht htext).denotes
  have hdecode := hbytes.decode
  have hsnd : (decodeStrLit (literalText t)).2 = bytes := congrArg Prod.snd hdecode
  refine ⟨bytes, fun bytes' => ⟨fun h' => h'.unique hbytes, fun heq => heq ▸ hbytes⟩, hdecode,
    fun rest => ?_, bytes.flatMap formatByte, fun tail contents htail rest => ?_,
    fun pointers more args => ?_⟩
  · exact hsnd ▸ (encodes_emitStrLitBody (literalText t)).compile rest
  · exact hsnd ▸ ((encodes_emitFormatText (literalText t)).append htail).compile rest
  · unfold nulArgs
    rw [hsnd]
    exact printf_formatText bytes more args

/-- The source text `"?\x3f1%%"`. -/
def questionMarks : List UInt8 := Lexer.bytes "\"?\\x3f1%%\""

def questionToken : Lexer.Token := ⟨.stringLit, questionMarks, 1, 1⟩

theorem literals_keep_bytes_question :
    decodeStrLit (literalText questionToken) = (4, Lexer.bytes "??1%") ∧
      compileLiteral (emitStrLitBody (literalText questionToken) ++ [quote]) =
        some (Lexer.bytes "??1%", []) := by
  have hscan : Lexer.rawTokenize questionMarks = .ok [questionToken, ⟨.eof, [], 1, 11⟩] := rfl
  obtain ⟨bytes, hdenotes, hdecode, hcompile, -⟩ :=
    literals_keep_bytes hscan List.mem_cons_self rfl
  have hdenoted : Denotes [63, backslash, hexMark, 51, 102, 49, percent, percent]
      [63, 16 * 3 + 15, 49, percent] :=
    .plain (by decide) (by decide) (.hex rfl rfl (.plain (by decide) (by decide) (.percents .nil)))
  have hvalue : decodeStrLit (literalText questionToken) = (4, Lexer.bytes "??1%") :=
    hdenoted.decode
  obtain ⟨-, rfl⟩ := Prod.mk.inj (hdecode.symm.trans hvalue)
  exact ⟨hvalue, hcompile []⟩

end FcLang.Text
