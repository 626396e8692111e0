import FcLang.Facts.Values
import FcLang.Lexer.Scan
import FcLang.Lib.Printf
import Mathlib.Data.List.TakeWhile

/-!
# Format specifiers

What stands between the `%` of an interpolation and its brace: flags, a width, a
precision and a conversion. A specifier that is accepted for its operand asks C
for nothing that C leaves undefined.
-/

namespace FcLang.Text
open Lexer (isDigit isSpecFlag isConversion)
open Facts (IntTy FloatTy)

inductive InterpConvClass where
  | integer | float | string | char | pointer | typeName
  deriving DecidableEq

def interpConvClass (conv : UInt8) : Option InterpConvClass :=
  [('d'.toUInt8, .integer), ('i'.toUInt8, .integer), ('u'.toUInt8, .integer),
    ('x'.toUInt8, .integer), ('X'.toUInt8, .integer), ('o'.toUInt8, .integer),
    ('f'.toUInt8, .float), ('e'.toUInt8, .float), ('E'.toUInt8, .float), ('g'.toUInt8, .float),
    ('G'.toUInt8, .float), ('s'.toUInt8, .string), ('c'.toUInt8, .char), ('p'.toUInt8, .pointer),
    ('T'.toUInt8, InterpConvClass.typeName)].lookup conv

structure InterpSpec where
  minus : Bool
  plus : Bool
  space : Bool
  hash : Bool
  zero : Bool
  repeated : Option UInt8
  width : ℕ
  precision : Option ℕ
  precAt : ℕ
  conversion : UInt8
  deriving DecidableEq

def interpMaxField : ℕ := 32767

/-- A digit run as a field value, which saturates one past the greatest. -/
def scanField (out : ℕ) : List UInt8 → ℕ × List UInt8
  | [] => (out, [])
  | c :: rest =>
    if isDigit c then
      let out := if out < interpMaxField + 1 then out * 10 + (c - '0'.toUInt8).toNat else out
      scanField (min out (interpMaxField + 1)) rest
    else (out, c :: rest)

/-- The flag that is written twice first. -/
def firstRepeat (seen : List UInt8) : List UInt8 → Option UInt8
  | [] => none
  | c :: rest => if c ∈ seen then some c else firstRepeat (c :: seen) rest

/-- The length of the specifier at the head of a text, zero if there is none, and what it says. -/
def interpSpecScan (text : List UInt8) : ℕ × InterpSpec :=
  let flags := text.takeWhile isSpecFlag
  let (width, afterWidth) := scanField 0 (text.dropWhile isSpecFlag)
  let (precision, rest) := match afterWidth with
    | [] => (none, [])
    | c :: rest =>
      if c = '.'.toUInt8 then (some (scanField 0 rest).1, (scanField 0 rest).2)
      else (none, c :: rest)
  let sp : InterpSpec :=
    { minus := '-'.toUInt8 ∈ flags, plus := '+'.toUInt8 ∈ flags, space := ' '.toUInt8 ∈ flags,
      hash := '#'.toUInt8 ∈ flags, zero := '0'.toUInt8 ∈ flags, repeated := firstRepeat [] flags,
      width, precision, precAt := text.length - afterWidth.length, conversion := 0 }
  match rest with
  | [] => (0, sp)
  | c :: behind =>
    if (interpConvClass c).isSome then (text.length - behind.length, { sp with conversion := c })
    else (0, sp)

/-- The types an operand is told apart by. A `cstr` is a `u8*`, and `pointer` any other. -/
inductive OperandTy where
  | int (t : IntTy)
  | float (t : FloatTy)
  | str
  | cstr
  | pointer
  | other
  deriving DecidableEq

namespace OperandTy

def isUnsigned : OperandTy → Bool
  | .int t => !t.isSigned
  | _ => false

end OperandTy

inductive SpecError where
  | tooLarge
  | operand (conv : UInt8)
  | typeNameModified
  | repeated (flag : UInt8)
  | signOfUnsigned (flag conv : UInt8)
  | signNotSigned (flag conv : UInt8)
  | signConflict
  | hashMisplaced (conv : UInt8)
  | zeroMisplaced (conv : UInt8)
  | zeroWithMinus
  | zeroWithPrecision (conv : UInt8)
  | precisionMisplaced (conv : UInt8)
  deriving DecidableEq

def isIntConv (conv : UInt8) : Bool := conv ∈ Lexer.bytes "diuxXo"

def isFloatConv (conv : UInt8) : Bool := conv ∈ Lexer.bytes "feEgG"

def isSignedConv (conv : UInt8) (ty : OperandTy) : Bool :=
  isFloatConv conv || (conv = 'd'.toUInt8 ∨ conv = 'i'.toUInt8) && !ty.isUnsigned

def reportIf (b : Bool) (e : SpecError) : List SpecError := if b then [e] else []

def checkInterpSpecMods (s : InterpSpec) (ty : OperandTy) : List SpecError :=
  let conv := s.conversion
  let flag := if s.plus then '+'.toUInt8 else ' '.toUInt8
  if conv = 'T'.toUInt8 then
    reportIf (s.minus || s.plus || s.space || s.hash || s.zero || 0 < s.width ||
      s.precision.isSome) .typeNameModified
  else
    (s.repeated.map SpecError.repeated).toList ++
    reportIf ((s.plus || s.space) && !isSignedConv conv ty)
      (if conv = 'd'.toUInt8 ∨ conv = 'i'.toUInt8 then .signOfUnsigned flag conv
        else .signNotSigned flag conv) ++
    reportIf (s.plus && s.space) .signConflict ++
    reportIf (s.hash && !(isFloatConv conv || conv ∈ Lexer.bytes "xXo")) (.hashMisplaced conv) ++
    (if s.zero && !(isIntConv conv || isFloatConv conv) then [.zeroMisplaced conv]
      else if s.zero && s.minus then [.zeroWithMinus]
      else reportIf (s.zero && isIntConv conv && s.precision.isSome) (.zeroWithPrecision conv)) ++
    reportIf (s.precision.isSome && !(isIntConv conv || isFloatConv conv || conv = 's'.toUInt8))
      (.precisionMisplaced conv)

/-- Whether a conversion suits an operand's type. -/
def InterpConvClass.suits : InterpConvClass → OperandTy → Bool
  | .integer, .int _ => true
  | .float, .float _ => true
  | .string, .str | .string, .cstr => true
  | .char, .int t => t = .fixed .uint8
  | .pointer, .pointer | .pointer, .cstr => true
  | .typeName, _ => true
  | _, _ => false

/-- What `check_interp_string` reports for a segment with the specifier `s`. -/
def checkInterpSegment (s : InterpSpec) (ty : OperandTy) : List SpecError :=
  reportIf (interpMaxField < s.width || interpMaxField < s.precision.getD 0) .tooLarge ++
    if (interpConvClass s.conversion).any (·.suits ty) then checkInterpSpecMods s ty
    else [.operand s.conversion]

/-- A specifier as it is written. -/
structure SpecParts where
  flags : List UInt8
  width : List UInt8
  precision : Option (List UInt8)
  conversion : UInt8
  flags_ok : ∀ c ∈ flags, isSpecFlag c = true
  width_ok : ∀ c ∈ width, isDigit c = true
  width_head : ∀ c ∈ width.head?, isSpecFlag c = false
  precision_ok : ∀ ds ∈ precision, ∀ c ∈ ds, isDigit c = true
  conversion_ok : (interpConvClass conversion).isSome

theorem scanField_eq (out : ℕ) (text : List UInt8) :
    scanField (min out (interpMaxField + 1)) text =
      (min ((text.takeWhile isDigit).foldl (fun v d => 10 * v + (CText.hexDigit d).getD 0) out)
        (interpMaxField + 1), text.dropWhile isDigit) := by
  induction text generalizing out with
  | nil => rfl
  | cons c text ih =>
    cases hc : isDigit c with
    | false => simp [scanField, hc]
    | true =>
      have hvalue : (CText.hexDigit c).getD 0 = (c - '0'.toUInt8).toNat := by
        unfold CText.hexDigit
        rw [if_pos (by simpa [isDigit] using hc)]
        rfl
      rw [scanField, if_pos hc, List.takeWhile_cons_of_pos hc, List.dropWhile_cons_of_pos hc,
        List.foldl_cons, hvalue, ← ih]
      have hstep (sat d : ℕ) : min (if min out sat < sat then min out sat * 10 + d else min out sat)
          sat = min (10 * out + d) sat := by
        split_ifs <;> omega
      dsimp only
      rw [hstep]

/-- A digit run is read up to what follows it, as the formatter reads it. -/
theorem scanField_written {digits rest : List UInt8} (hdigits : ∀ c ∈ digits, isDigit c = true)
    (hrest : ∀ c ∈ rest.head?, isDigit c = false) :
    scanField 0 (digits ++ rest) = (min (Printf.number digits) (interpMaxField + 1), rest) := by
  have hread := scanField_eq 0 (digits ++ rest)
  have hsplit : rest.takeWhile isDigit = [] ∧ rest.dropWhile isDigit = rest := by
    cases rest with
    | nil => exact ⟨rfl, rfl⟩
    | cons c rest => simp [hrest c rfl]
  rwa [List.takeWhile_append_of_pos hdigits, List.dropWhile_append_of_pos hdigits, hsplit.1,
    hsplit.2, List.append_nil] at hread

namespace SpecParts

def precisionText (p : SpecParts) : List UInt8 :=
  match p.precision with
  | none => []
  | some ds => '.'.toUInt8 :: ds

def text (p : SpecParts) : List UInt8 :=
  p.flags ++ (p.width ++ (p.precisionText ++ [p.conversion]))

def spec (p : SpecParts) : InterpSpec where
  minus := '-'.toUInt8 ∈ p.flags
  plus := '+'.toUInt8 ∈ p.flags
  space := ' '.toUInt8 ∈ p.flags
  hash := '#'.toUInt8 ∈ p.flags
  zero := '0'.toUInt8 ∈ p.flags
  repeated := firstRepeat [] p.flags
  width := min (Printf.number p.width) (interpMaxField + 1)
  precision := p.precision.map fun ds => min (Printf.number ds) (interpMaxField + 1)
  precAt := p.flags.length + p.width.length
  conversion := p.conversion

end SpecParts

theorem conversion_cases {c : UInt8} (h : (interpConvClass c).isSome) :
    c ∈ Lexer.bytes "diuxXofeEgGscpT" := by
  rw [interpConvClass, List.lookup_isSome_iff] at h
  change c ∈ ['d'.toUInt8, 'i'.toUInt8, 'u'.toUInt8, 'x'.toUInt8, 'X'.toUInt8, 'o'.toUInt8,
    'f'.toUInt8, 'e'.toUInt8, 'E'.toUInt8, 'g'.toUInt8, 'G'.toUInt8, 's'.toUInt8, 'c'.toUInt8,
    'p'.toUInt8, 'T'.toUInt8]
  simpa using h

/-- A conversion character is no flag, no digit and no point. -/
theorem conversion_ne {c : UInt8} (h : (interpConvClass c).isSome) :
    isSpecFlag c = false ∧ isDigit c = false ∧ c ≠ '.'.toUInt8 ∧ c ≠ '*'.toUInt8 ∧
      c ≠ 'l'.toUInt8 := by
  have hall : ∀ c ∈ Lexer.bytes "diuxXofeEgGscpT", isSpecFlag c = false ∧ isDigit c = false ∧
      c ≠ '.'.toUInt8 ∧ c ≠ '*'.toUInt8 ∧ c ≠ 'l'.toUInt8 := by decide +kernel
  exact hall c (conversion_cases h)

namespace SpecParts

/-- What stands behind the width starts with no digit. -/
theorem behind_width (p : SpecParts) (behind : List UInt8) :
    ∀ c ∈ (p.precisionText ++ ([p.conversion] ++ behind)).head?, isDigit c = false := by
  unfold precisionText
  cases p.precision with
  | none =>
    rintro c ⟨⟩
    exact (conversion_ne p.conversion_ok).2.1
  | some ds =>
    rintro c ⟨⟩
    decide

theorem behind_flags (p : SpecParts) (behind : List UInt8) :
    ∀ c ∈ (p.width ++ (p.precisionText ++ ([p.conversion] ++ behind))).head?,
      isSpecFlag c = false := by
  cases hwidth : p.width with
  | cons d ds =>
    rintro c ⟨⟩
    exact p.width_head d (by rw [hwidth]; rfl)
  | nil =>
    unfold precisionText
    cases p.precision with
    | none =>
      rintro c ⟨⟩
      exact (conversion_ne p.conversion_ok).1
    | some ds =>
      rintro c ⟨⟩
      decide

theorem interpSpecScan_text (p : SpecParts) (behind : List UInt8) :
    interpSpecScan (p.text ++ behind) = (p.text.length, p.spec) := by
  have hsplit (rest : List UInt8) (h : ∀ c ∈ rest.head?, isSpecFlag c = false) :
      rest.takeWhile isSpecFlag = [] ∧ rest.dropWhile isSpecFlag = rest := by
    cases rest with
    | nil => exact ⟨rfl, rfl⟩
    | cons c rest => simp [h c rfl]
  have htext : p.text ++ behind =
      p.flags ++ (p.width ++ (p.precisionText ++ ([p.conversion] ++ behind))) := by
    simp [text]
  have hflags := hsplit _ (p.behind_flags behind)
  have hwidth := scanField_written p.width_ok (p.behind_width behind)
  have hconv := (conversion_ne p.conversion_ok).2.2.1
  unfold interpSpecScan
  rw [htext, List.takeWhile_append_of_pos p.flags_ok, List.dropWhile_append_of_pos p.flags_ok,
    hflags.1, hflags.2, List.append_nil, hwidth]
  cases hp : p.precision with
  | none =>
    simp [precisionText, hp, hconv, p.conversion_ok, text, spec]
    omega
  | some ds =>
    have hds : scanField 0 (ds ++ p.conversion :: behind) =
        (min (Printf.number ds) (interpMaxField + 1), p.conversion :: behind) := by
      apply scanField_written (p.precision_ok ds hp)
      rintro c ⟨⟩
      exact (conversion_ne p.conversion_ok).2.1
    simp [precisionText, hp, hds, p.conversion_ok, text, spec]
    omega

end SpecParts

theorem head?_takeWhile {P Q : UInt8 → Bool} {text : List UInt8}
    (h : ∀ c ∈ text.head?, P c = false) : ∀ c ∈ (text.takeWhile Q).head?, P c = false := by
  cases text with
  | nil => exact h
  | cons d text =>
    intro c hc
    rw [List.takeWhile_cons] at hc
    split at hc
    · exact h c hc
    · cases hc

theorem mem_takeWhile {P : UInt8 → Bool} {text : List UInt8} :
    ∀ c ∈ text.takeWhile P, P c = true := fun _ hc => List.mem_takeWhile_imp hc

/-- A text that starts with a specifier has the parts of one at its head. -/
theorem exists_parts {text : List UInt8} (h : 0 < (interpSpecScan text).1) :
    ∃ (p : SpecParts) (behind : List UInt8), p.text ++ behind = text := by
  have hfield (text : List UInt8) :
      scanField 0 text = (min (Printf.number (text.takeWhile isDigit)) (interpMaxField + 1),
        text.dropWhile isDigit) := scanField_eq 0 text
  have hflags := List.takeWhile_append_dropWhile (p := isSpecFlag) (l := text)
  have hhead : ∀ c ∈ (text.dropWhile isSpecFlag).head?, isSpecFlag c = false := by
    intro c hc
    have := List.head?_dropWhile_not isSpecFlag text
    rwa [hc] at this
  have htext : text = text.takeWhile isSpecFlag ++ ((text.dropWhile isSpecFlag).takeWhile isDigit ++
      (text.dropWhile isSpecFlag).dropWhile isDigit) := by
    rw [List.takeWhile_append_dropWhile, List.takeWhile_append_dropWhile]
  unfold interpSpecScan at h
  rw [hfield] at h
  cases hbehind : (text.dropWhile isSpecFlag).dropWhile isDigit with
  | nil => simp [hbehind] at h
  | cons c rest =>
    by_cases hpoint : c = '.'.toUInt8
    · rw [hpoint] at hbehind
      cases hrest : rest.dropWhile isDigit with
      | nil => simp [hbehind, hfield, hrest] at h
      | cons d behind =>
        have hd : (interpConvClass d).isSome := by
          by_contra hd
          simp [hbehind, hfield, hrest, hd] at h
        refine ⟨⟨text.takeWhile isSpecFlag, _, some (rest.takeWhile isDigit), d, mem_takeWhile, mem_takeWhile,
          head?_takeWhile hhead, fun _ hds => Option.some.inj hds ▸ mem_takeWhile, hd⟩, behind, ?_⟩
        have hsplit := List.takeWhile_append_dropWhile (p := isDigit) (l := rest)
        rw [hrest] at hsplit
        rw [hbehind, ← hsplit] at htext
        simpa [SpecParts.text, SpecParts.precisionText] using htext.symm
    · have hc : (interpConvClass c).isSome := by
        by_contra hc
        simp [hbehind, hpoint, hc] at h
      refine ⟨⟨text.takeWhile isSpecFlag, _, none, c, mem_takeWhile, mem_takeWhile, head?_takeWhile hhead,
        fun _ hds => (Option.some_ne_none _ hds.symm).elim, hc⟩, rest, ?_⟩
      rw [hbehind] at htext
      simpa [SpecParts.text, SpecParts.precisionText] using htext.symm

/-- A text that is one specifier. -/
def IsSpec (text : List UInt8) : Prop :=
  0 < (interpSpecScan text).1 ∧ (interpSpecScan text).1 = text.length

theorem SpecParts.isSpec (p : SpecParts) : IsSpec p.text := by
  have hscan := p.interpSpecScan_text []
  rw [List.append_nil] at hscan
  refine ⟨?_, congrArg Prod.fst hscan⟩
  rw [hscan, text]
  simp only [List.length_append, List.length_singleton]
  omega

theorem IsSpec.exists_parts {text : List UInt8} (h : IsSpec text) :
    ∃ p : SpecParts, p.text = text ∧ (interpSpecScan text).2 = p.spec := by
  obtain ⟨p, behind, rfl⟩ := Text.exists_parts h.1
  have hscan := p.interpSpecScan_text behind
  have hlen := h.2
  rw [hscan, List.length_append] at hlen
  have hbehind : behind = [] := List.length_eq_zero_iff.mp (by dsimp only at hlen; omega)
  subst hbehind
  exact ⟨p, (List.append_nil _).symm, congrArg Prod.snd hscan⟩

theorem isConversion_eq (c : UInt8) : isConversion c = (interpConvClass c).isSome := by
  cases hc : isConversion c with
  | true =>
    have hall : ∀ c ∈ Lexer.bytes "diuxXofeEgGscpT", true = (interpConvClass c).isSome := by
      decide +kernel
    exact hall c (of_decide_eq_true hc)
  | false =>
    by_contra hsome
    have := conversion_cases (c := c) (by simpa [Option.isSome_iff_ne_none] using hsome)
    exact absurd (decide_eq_true this) (by rw [← isConversion, hc]; decide)

/-- The scanner passes over the parts of a specifier. -/
theorem lexer_interpSpecScan (text : List UInt8) :
    Lexer.interpSpecScan text = (interpSpecScan text).1 := by
  have hfield (text : List UInt8) :
      scanField 0 text = (min (Printf.number (text.takeWhile isDigit)) (interpMaxField + 1),
        text.dropWhile isDigit) := scanField_eq 0 text
  have hlen : ((text.dropWhile isSpecFlag).dropWhile isDigit).length ≤ text.length :=
    ((List.dropWhile_sublist _).trans (List.dropWhile_sublist _)).length_le
  unfold Lexer.interpSpecScan interpSpecScan
  rw [hfield]
  dsimp only
  generalize (text.dropWhile isSpecFlag).dropWhile isDigit = behind at hlen
  cases behind with
  | nil => rfl
  | cons c rest =>
    rw [List.length_cons] at hlen
    by_cases hpoint : c = '.'.toUInt8
    · have hrest : (rest.dropWhile isDigit).length ≤ rest.length :=
        (List.dropWhile_sublist _).length_le
      simp only [if_pos hpoint, hfield]
      cases hd : rest.dropWhile isDigit with
      | nil => rfl
      | cons d behind =>
        rw [hd, List.length_cons] at hrest
        dsimp only
        rw [isConversion_eq, List.length_cons]
        split_ifs
        · dsimp only
          omega
        · rfl
    · simp only [if_neg hpoint]
      rw [isConversion_eq, List.length_cons]
      split_ifs
      · dsimp only
        omega
      · rfl

/-- The scanner takes a specifier whole. -/
theorem checkInterpSpec_isSpec {rest : List UInt8} (h : 0 < Lexer.checkInterpSpec rest) :
    IsSpec (rest.take (Lexer.checkInterpSpec rest)) := by
  have hbrace : Lexer.interpSpecScan rest > 0 ∧
      (rest[Lexer.interpSpecScan rest]?).getD 0 = '{'.toUInt8 := by
    by_contra hbrace
    simp [Lexer.checkInterpSpec, hbrace] at h
  have heq : Lexer.checkInterpSpec rest = Lexer.interpSpecScan rest := by
    simp [Lexer.checkInterpSpec, hbrace]
  rw [heq, lexer_interpSpecScan]
  rw [lexer_interpSpecScan] at hbrace
  obtain ⟨p, behind, rfl⟩ := exists_parts hbrace.1
  rw [p.interpSpecScan_text behind, List.take_left]
  exact p.isSpec

end FcLang.Text
