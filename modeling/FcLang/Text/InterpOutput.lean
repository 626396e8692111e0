import FcLang.Text.InterpBounds
import FcLang.Text.InterpFormat

/-!
# What an interpolated string shows

Each directive of the format is read as its specifier is written and shows its
operand, so the formatter writes the segments one after another, and the buffer
holds them all.
-/

namespace FcLang.Text
open CText (compileLiteral quote splice trigraphs)
open Facts (Target IntTy FloatTy)
open Printf (Arg Directive Pointers ascii convert printf readDirective)

variable {T : Target} {pointers : Pointers}

section Reading
variable {more : List UInt8} {args : List Arg}

/-- What may stand behind a width and a precision. -/
theorem letter_ne {c : UInt8} (h : c ∈ Lexer.bytes "diuxXofeEgGscpl") :
    Printf.isFlag c = false ∧ Printf.isDigit c = false ∧ c ≠ '*'.toUInt8 ∧ c ≠ '.'.toUInt8 := by
  have hall : ∀ c ∈ Lexer.bytes "diuxXofeEgGscpl", Printf.isFlag c = false ∧
      Printf.isDigit c = false ∧ c ≠ '*'.toUInt8 ∧ c ≠ '.'.toUInt8 := by decide +kernel
  exact hall c h

/-- The integer conversions but `d` and `i` show the bit pattern. -/
theorem unsigned_letter {c : UInt8} (h : c ∈ Lexer.bytes "diuxXo")
    (hne : ¬(c = 'd'.toUInt8 ∨ c = 'i'.toUInt8)) : c ∈ Lexer.bytes "uxXo" := by
  have hsplit : c ∈ ['d'.toUInt8, 'i'.toUInt8] ++ Lexer.bytes "uxXo" := h
  refine (List.mem_append.mp hsplit).resolve_left fun hc => hne ?_
  simpa using hc

theorem not_float {c : UInt8} (h : c ∈ Lexer.bytes "diuxXo") : isFloatConv c = false := by
  have hall : ∀ c ∈ Lexer.bytes "diuxXo", isFloatConv c = false := by decide +kernel
  exact hall c h

def SpecParts.read (p : SpecParts) (precision : Option ℕ) (long : Bool) (c : UInt8) : Directive where
  minus := '-'.toUInt8 ∈ p.flags
  plus := '+'.toUInt8 ∈ p.flags
  space := ' '.toUInt8 ∈ p.flags
  hash := '#'.toUInt8 ∈ p.flags
  zero := '0'.toUInt8 ∈ p.flags
  width := Printf.number p.width
  precision := precision
  long := long
  conversion := c

/-- A specifier is read as it is written, with the conversion and the length that are emitted. -/
theorem SpecParts.readDirective_text (p : SpecParts) (long : Bool) {c : UInt8}
    (hc : c ∈ Lexer.bytes "diuxXofeEgGscp") :
    readDirective (p.flags ++ (p.width ++ (p.precisionText ++
        ((if long then ascii "ll" else []) ++ c :: more)))) args =
      some (p.read (p.precision.map Printf.number) long c, more, args) := by
  have htail : ∀ x ∈ ((if long then ascii "ll" else []) ++ c :: more).head?,
      Printf.isFlag x = false ∧ Printf.isDigit x = false ∧ x ≠ '*'.toUInt8 ∧ x ≠ '.'.toUInt8 := by
    cases long with
    | true =>
      rintro x ⟨⟩
      exact letter_ne (by decide)
    | false =>
      rintro x ⟨⟩
      exact letter_ne (List.mem_append_left ['l'.toUInt8] hc)
  generalize htext : (if long then ascii "ll" else []) ++ c :: more = tail at htail
  have hnext : ∀ x ∈ (p.precisionText ++ tail).head?,
      Printf.isFlag x = false ∧ Printf.isDigit x = false ∧ x ≠ '*'.toUInt8 := by
    unfold precisionText
    cases p.precision with
    | none => exact fun x hx => ⟨(htail x hx).1, (htail x hx).2.1, (htail x hx).2.2.1⟩
    | some ds =>
      rintro x ⟨⟩
      decide
  have hfirst : ∀ x ∈ (p.width ++ (p.precisionText ++ tail)).head?, Printf.isFlag x = false := by
    cases hwidth : p.width with
    | nil => exact fun x hx => (hnext x hx).1
    | cons d ds =>
      rintro x ⟨⟩
      exact p.width_head d (by rw [hwidth]; rfl)
  have hprecision : Printf.readPrecision (p.precisionText ++ tail) args =
      some (p.precision.map Printf.number, tail, args) := by
    unfold precisionText
    cases hp : p.precision with
    | none =>
      apply Printf.readPrecision_none
      intro hpoint
      exact (htail _ hpoint).2.2.2 rfl
    | some ds =>
      exact Printf.readPrecision_written (p.precision_ok ds hp)
        (fun x hx => ⟨(htail x hx).2.1, (htail x hx).2.2.1⟩) args
  subst htext
  apply Printf.readDirective_written p.flags_ok p.width_ok hfirst
    (fun x hx => (hnext x hx).2) hprecision
  rintro rfl
  exact absurd hc (by decide)

/-- A `str` gives its precision as an argument. -/
theorem SpecParts.readDirective_star (p : SpecParts) (n : ℕ) :
    readDirective (p.flags ++ (p.width ++ (ascii ".*s" ++ more))) (.int n :: args) =
      some (p.read (some n) false 's'.toUInt8, more, args) := by
  have hfirst : ∀ x ∈ (p.width ++ (ascii ".*s" ++ more)).head?, Printf.isFlag x = false := by
    cases hwidth : p.width with
    | nil =>
      rintro x ⟨⟩
      decide
    | cons d ds =>
      rintro x ⟨⟩
      exact p.width_head d (by rw [hwidth]; rfl)
  have hnext : ∀ x ∈ (ascii ".*s" ++ more).head?,
      Printf.isDigit x = false ∧ x ≠ '*'.toUInt8 := by
    rintro x ⟨⟩
    decide
  exact @Printf.readDirective_written more _ args _ _ (ascii ".*") (some n) false _ p.flags_ok
    p.width_ok hfirst hnext (Printf.readPrecision_star n) (by decide)

theorem SpecParts.segConversion_text (p : SpecParts) : segConversion p.text = p.conversion := by
  unfold segConversion text
  simp

/-- What is emitted for a specifier, with the text behind it. -/
theorem SpecParts.emitSpec_int (p : SpecParts) {t : IntTy} (h : isIntConv p.conversion = true) :
    emitSpec p.text (.int t) ++ more = percent :: (p.flags ++ (p.width ++ (p.precisionText ++
      (ascii "ll" ++ (if (p.conversion = 'd'.toUInt8 ∨ p.conversion = 'i'.toUInt8) ∧
        interpConvIsUnsigned p.conversion (.int t) then 'u'.toUInt8 else p.conversion) ::
          more)))) := by
  have hdrop : p.text.dropLast = p.flags ++ (p.width ++ p.precisionText) := by
    rw [text, ← List.append_assoc, ← List.append_assoc, List.dropLast_concat, List.append_assoc]
  unfold emitSpec
  rw [p.segConversion_text, hdrop]
  simp [h, OperandTy.isInteger]

end Reading

/-- What a directive needs to be defined. -/
theorem defined_of {d : Directive} (hhash : d.hash = true → d.conversion ∈ ascii "xXofeEgG")
    (hzero : d.zero = true → d.conversion ∈ ascii "diuxXofeEgG")
    (hprecision : d.precision.isSome = true → d.conversion ∈ ascii "diuxXofeEgGs")
    (hlong : d.long = true → d.conversion ∈ ascii "diuxXo") : d.defined = true := by
  unfold Directive.defined
  simp only [Bool.and_eq_true, Bool.or_eq_true, Bool.not_eq_true', decide_eq_true_eq]
  have himp {b : Bool} {P : Prop} (h : b = true → P) : b = false ∨ P := by
    cases b with
    | false => exact .inl rfl
    | true => exact .inr (h rfl)
  exact ⟨⟨⟨himp hhash, himp hzero⟩, himp hprecision⟩, himp hlong⟩

theorem reportIf_eq_nil {b : Bool} {e : SpecError} : reportIf b e = [] ↔ b = false := by
  cases b <;> simp [reportIf]

theorem checkInterpSegment_nil {s : InterpSpec} {ty : OperandTy}
    (h : checkInterpSegment s ty = []) :
    (s.width ≤ interpMaxField ∧ s.precision.getD 0 ≤ interpMaxField) ∧
      (∃ cls, interpConvClass s.conversion = some cls ∧ cls.suits ty = true) ∧
      checkInterpSpecMods s ty = [] := by
  obtain ⟨hlarge, hmods⟩ := List.append_eq_nil_iff.mp h
  rw [reportIf_eq_nil] at hlarge
  split_ifs at hmods with hsuits
  rw [Option.any_eq_true] at hsuits
  refine ⟨?_, hsuits, hmods⟩
  simpa using hlarge

/-- What is accepted of the flags and the precision. -/
theorem checkInterpSpecMods_nil {s : InterpSpec} {ty : OperandTy}
    (h : checkInterpSpecMods s ty = []) (hT : s.conversion ≠ 'T'.toUInt8) :
    ((s.plus || s.space) = true → isSignedConv s.conversion ty = true) ∧
      (s.hash = true → isFloatConv s.conversion = true ∨ s.conversion ∈ Lexer.bytes "xXo") ∧
      (s.zero = true → isIntConv s.conversion = true ∨ isFloatConv s.conversion = true) ∧
      (s.precision.isSome = true → isIntConv s.conversion = true ∨
        isFloatConv s.conversion = true ∨ s.conversion = 's'.toUInt8) := by
  unfold checkInterpSpecMods at h
  dsimp only at h
  rw [if_neg hT] at h
  simp only [List.append_eq_nil_iff, reportIf_eq_nil] at h
  obtain ⟨⟨⟨⟨⟨-, hsign⟩, -⟩, hhash⟩, hzero⟩, hprecision⟩ := h
  refine ⟨fun hs => ?_, fun hs => ?_, fun hs => ?_, fun hs => ?_⟩
  · simpa [hs] using hsign
  · by_contra hnot
    simp_all
  · by_contra hnot
    simp_all
  · by_contra hnot
    simp_all

/-- The letters of a class of conversions. -/
def InterpConvClass.letters : InterpConvClass → List UInt8
  | .integer => Lexer.bytes "diuxXo"
  | .float => Lexer.bytes "feEgG"
  | .string => Lexer.bytes "s"
  | .char => Lexer.bytes "c"
  | .pointer => Lexer.bytes "p"
  | .typeName => Lexer.bytes "T"

theorem mem_letters {c : UInt8} {cls : InterpConvClass} (h : interpConvClass c = some cls) :
    c ∈ cls.letters := by
  have hall : ∀ c ∈ Lexer.bytes "diuxXofeEgGscpT",
      ∀ cls ∈ interpConvClass c, c ∈ cls.letters := by decide +kernel
  exact hall c (conversion_cases (by rw [h]; rfl)) cls h

/-- The types that a class takes. -/
theorem InterpConvClass.suits_cases {cls : InterpConvClass} {ty : OperandTy}
    (h : cls.suits ty = true) : cls = .typeName ∨
      (∃ t, ty = .int t ∧ (cls = .integer ∨ cls = .char)) ∨ (∃ t, ty = .float t ∧ cls = .float) ∨
      (ty = .str ∧ cls = .string) ∨ (ty = .cstr ∧ (cls = .string ∨ cls = .pointer)) ∨
      (ty = .pointer ∧ cls = .pointer) := by
  cases cls <;> cases ty <;> simp_all [suits]

section Shows
variable {more : List UInt8} {args : List Arg}

/-- A width that is accepted is the number that is written. -/
theorem SpecParts.number_width (p : SpecParts) {ty : OperandTy}
    (h : checkInterpSegment p.spec ty = []) : Printf.number p.width = p.spec.width := by
  have hwidth := (checkInterpSegment_nil h).1.1
  unfold spec at hwidth ⊢
  dsimp only at hwidth ⊢
  omega

theorem SpecParts.number_precision (p : SpecParts) {ty : OperandTy}
    (h : checkInterpSegment p.spec ty = []) :
    p.precision.map Printf.number = p.spec.precision := by
  have hprecision := (checkInterpSegment_nil h).1.2
  unfold spec at hprecision ⊢
  cases hp : p.precision with
  | none => rfl
  | some ds =>
    simp only [hp, Option.map_some, Option.getD_some, Option.some.injEq] at hprecision ⊢
    omega

theorem SpecParts.read_eq (p : SpecParts) {ty : OperandTy} (h : checkInterpSegment p.spec ty = [])
    (precision : Option ℕ) (long : Bool) (c : UInt8) : p.read precision long c =
      { p.spec.directive with precision := precision, long := long, conversion := c } := by
  rw [read, p.number_width h]
  rfl

/-- The formatter writes `out` for a specifier with the arguments `as`. -/
def Shows (pointers : Pointers) (text : List UInt8) (ty : OperandTy) (as : List Arg)
    (out : List UInt8) : Prop :=
  ∀ more args, printf pointers (emitSpec text ty ++ more) (as ++ args) =
    (printf pointers more args).map (out ++ ·)

theorem printf_spec {d : Directive} {text : List UInt8} {args' : List Arg} {arg : Arg}
    {out : List UInt8} (hread : readDirective text args = some (d, more, arg :: args'))
    (hd : d.conversion ≠ '%'.toUInt8) (hout : convert pointers d arg = some out) :
    printf pointers (percent :: text) args = (printf pointers more args').map (out ++ ·) := by
  have hprintf : printf pointers (percent :: text) args = _ := Printf.printf_directive hread hd
  rwa [hout] at hprintf

theorem convert_signed {d : Directive} (hd : d.defined = true) (hlong : d.long = true)
    (hconv : d.conversion = 'd'.toUInt8 ∨ d.conversion = 'i'.toUInt8) {z : ℤ} (hz : z < 2 ^ 63) :
    convert pointers d (.long z) = some (Printf.signed d z) := by
  simp only [convert, hd, hlong, Bool.not_true, Bool.false_eq_true, if_false,
    if_neg (fun h : _ ∧ _ => absurd h.2 (not_le.mpr hz)), Printf.integer, if_pos hconv]

theorem convert_pattern {d : Directive} (hd : d.defined = true) (hlong : d.long = true)
    (hconv : d.conversion ∈ ascii "uxXo") {z : ℤ} (hz : 0 ≤ z) :
    convert pointers d (.long z) = some (Printf.patternText d z.toNat) := by
  have hnot : ¬(d.conversion = 'd'.toUInt8 ∨ d.conversion = 'i'.toUInt8) := by
    rintro (h | h) <;> · rw [h] at hconv; exact absurd hconv (by decide)
  simp only [convert, hd, hlong, Bool.not_true, Bool.false_eq_true, if_false, Printf.integer,
    if_neg hnot, if_neg (fun h : _ ∧ _ => hnot h.1), if_pos (And.intro hconv hz)]

/-- A directive of an integer is defined. -/
theorem SpecParts.defined_int (p : SpecParts) {t : IntTy}
    (h : checkInterpSegment p.spec (.int t) = []) (hconv : p.conversion ∈ Lexer.bytes "diuxXo")
    {c : UInt8} (hc : c = p.conversion ∨
      c = 'u'.toUInt8 ∧ (p.conversion = 'd'.toUInt8 ∨ p.conversion = 'i'.toUInt8)) :
    ({ p.spec.directive with long := true, conversion := c } : Directive).defined = true := by
  have hmem : c ∈ Lexer.bytes "diuxXo" := by
    obtain rfl | ⟨rfl, -⟩ := hc
    · exact hconv
    · decide
  have hnumber : c ∈ ascii "diuxXofeEgG" := List.mem_append_left (Lexer.bytes "feEgG") hmem
  obtain ⟨-, hhash, -, -⟩ :=
    checkInterpSpecMods_nil (checkInterpSegment_nil h).2.2 (ne_of_mem_of_not_mem hconv (by decide))
  refine defined_of (fun hset => ?_) (fun _ => hnumber)
    (fun _ => List.mem_append_left (Lexer.bytes "s") hnumber) (fun _ => hmem)
  have hx : p.conversion ∈ Lexer.bytes "xXo" := by
    refine (hhash hset).resolve_left fun hfloat => ?_
    rw [show p.spec.conversion = p.conversion from rfl, not_float hconv] at hfloat
    cases hfloat
  obtain rfl | ⟨-, hd | hi⟩ := hc
  · exact List.mem_append_left (Lexer.bytes "feEgG") hx
  · exact absurd hd (ne_of_mem_of_not_mem hx (by decide))
  · exact absurd hi (ne_of_mem_of_not_mem hx (by decide))

/-- Without a sign to show, a number is written as its digits are. -/
theorem signed_eq_unsigned {d : Directive} {z : ℤ} (hz : 0 ≤ z) (hplus : d.plus = false)
    (hspace : d.space = false) :
    Printf.signed d z = Printf.unsigned d 10 false [] z.toNat := by
  have hsign : d.sign (decide (z < 0)) = [] := by
    simp [Directive.sign, not_lt.mpr hz, hplus, hspace]
  have habs : z.natAbs = z.toNat := by omega
  rw [Printf.signed, Printf.unsigned, hsign, habs, ite_self]

/-- The argument of an integer conversion. -/
def integerArg {t : IntTy} (conv : UInt8) (z : T.IntVal t) : Arg :=
  .long (if interpConvIsUnsigned conv (.int t) then z.1 % 2 ^ (t.format T).bits else z.1)

theorem SpecParts.convert_int (hbits : T.pointerBits ≤ 64) (p : SpecParts) {t : IntTy}
    (z : T.IntVal t) (h : checkInterpSegment p.spec (.int t) = [])
    (hconv : p.conversion ∈ Lexer.bytes "diuxXo") :
    convert pointers { p.spec.directive with
        long := true
        conversion := if (p.conversion = 'd'.toUInt8 ∨ p.conversion = 'i'.toUInt8) ∧
          interpConvIsUnsigned p.conversion (.int t) then 'u'.toUInt8 else p.conversion }
        (integerArg p.conversion z) =
      some (if p.conversion = 'd'.toUInt8 ∨ p.conversion = 'i'.toUInt8 then
        Printf.signed p.spec.directive z.1
      else Printf.patternText p.spec.directive (z.1 % 2 ^ (t.format T).bits).toNat) := by
  have hdefined := @SpecParts.defined_int p t h hconv
  obtain ⟨hsign, -⟩ :=
    checkInterpSpecMods_nil (checkInterpSegment_nil h).2.2 (ne_of_mem_of_not_mem hconv (by decide))
  have hfits := z.2
  have hformat := format_signed (T := T) t
  unfold Format.Fits at hfits
  unfold integerArg
  by_cases hsigned : p.conversion = 'd'.toUInt8 ∨ p.conversion = 'i'.toUInt8
  · have hunsigned : interpConvIsUnsigned p.conversion (.int t) = !t.isSigned := by
      obtain hd | hi := hsigned
      · rw [hd]
        rfl
      · rw [hi]
        rfl
    rw [if_pos hsigned, hunsigned]
    cases ht : t.isSigned with
    | false =>
      rw [if_neg (by simp [hformat, ht])] at hfits
      have hnone : p.spec.plus = false ∧ p.spec.space = false := by
        have hfalse : isSignedConv p.spec.conversion (.int t) = false := by
          rw [show p.spec.conversion = p.conversion from rfl]
          obtain hd | hi := hsigned
          · simp [isSignedConv, hd, OperandTy.isUnsigned, ht]
            decide
          · simp [isSignedConv, hi, OperandTy.isUnsigned, ht]
            decide
        rw [hfalse] at hsign
        simpa using hsign
      have hu : 'u'.toUInt8 ∈ ascii "uxXo" := by decide
      simp only [Bool.not_false, if_true, and_true, if_pos hsigned,
        Int.emod_eq_of_lt hfits.1 hfits.2]
      rw [convert_pattern (hdefined (.inr ⟨rfl, hsigned⟩)) rfl hu hfits.1,
        signed_eq_unsigned hfits.1 hnone.1 hnone.2]
      rfl
    | true =>
      rw [if_pos (by rw [hformat, ht])] at hfits
      have hbound : z.1 < 2 ^ 63 := by
        have hle : (t.format T).bits ≤ 64 := by
          cases t with
          | fixed t =>
            change t.format.bits ≤ 64
            cases t <;> decide
          | isize => exact hbits
          | usize => exact hbits
        exact hfits.2.trans_le (pow_le_pow_right₀ (by norm_num) (by omega))
      simp only [Bool.not_true, Bool.false_eq_true, if_false, and_false]
      exact convert_signed (hdefined (.inl rfl)) rfl hsigned hbound
  · have hmem : p.conversion ∈ Lexer.bytes "uxXo" := unsigned_letter hconv hsigned
    have hunsigned : interpConvIsUnsigned p.conversion (.int t) = true := if_pos hmem
    simp only [hunsigned, if_true, hsigned, false_and, if_false]
    exact convert_pattern (hdefined (.inl rfl)) rfl hmem (Int.emod_nonneg _ (by positivity))

theorem SpecParts.shows_int (hbits : T.pointerBits ≤ 64) (p : SpecParts) {t : IntTy}
    (z : T.IntVal t) (h : checkInterpSegment p.spec (.int t) = [])
    (hconv : p.conversion ∈ Lexer.bytes "diuxXo") :
    Shows pointers p.text (.int t) [integerArg p.conversion z]
      (if p.conversion = 'd'.toUInt8 ∨ p.conversion = 'i'.toUInt8 then
        Printf.signed p.spec.directive z.1
      else Printf.patternText p.spec.directive (z.1 % 2 ^ (t.format T).bits).toNat) := by
  intro more args
  have hemitted : (if (p.conversion = 'd'.toUInt8 ∨ p.conversion = 'i'.toUInt8) ∧
      interpConvIsUnsigned p.conversion (.int t) then 'u'.toUInt8 else p.conversion) ∈
        Lexer.bytes "diuxXo" := by
    split_ifs
    · decide
    · exact hconv
  rw [p.emitSpec_int (decide_eq_true hconv)]
  have hread := @SpecParts.readDirective_text more (integerArg p.conversion z :: args) p true _
    (List.mem_append_left (Lexer.bytes "feEgGscp") hemitted)
  rw [p.number_precision h, p.read_eq h] at hread
  exact printf_spec hread (ne_of_mem_of_not_mem hemitted (by decide)) (p.convert_int hbits z h hconv)

/-- A directive without a length is defined. -/
theorem SpecParts.defined_plain (p : SpecParts) {ty : OperandTy}
    (h : checkInterpSegment p.spec ty = []) (hT : p.conversion ≠ 'T'.toUInt8)
    {precision : Option ℕ}
    (hprecision : precision.isSome = true → p.spec.precision.isSome = true ∨
      p.conversion = 's'.toUInt8) :
    ({ p.spec.directive with precision := precision } : Directive).defined = true := by
  obtain ⟨-, hhash, hzero, hprec⟩ := checkInterpSpecMods_nil (checkInterpSegment_nil h).2.2 hT
  have hconv : p.spec.conversion = p.conversion := rfl
  rw [hconv] at hhash hzero hprec
  have hnumber (hnum : isIntConv p.conversion = true ∨ isFloatConv p.conversion = true) :
      p.conversion ∈ ascii "diuxXofeEgG" := by
    obtain hi | hf := hnum
    · exact List.mem_append_left (Lexer.bytes "feEgG") (of_decide_eq_true hi)
    · exact List.mem_append_right (Lexer.bytes "diuxXo") (of_decide_eq_true hf)
  have hstring (hs : p.conversion = 's'.toUInt8) : p.conversion ∈ ascii "diuxXofeEgGs" :=
    List.mem_append_right (Lexer.bytes "diuxXofeEgG") (List.mem_singleton.mpr hs)
  refine defined_of (fun hset => ?_) (fun hset => hnumber (hzero hset)) (fun hset => ?_)
    (fun hset => by cases hset)
  · obtain hf | hx := hhash hset
    · exact List.mem_append_right (Lexer.bytes "xXo") (of_decide_eq_true hf)
    · exact List.mem_append_left (Lexer.bytes "feEgG") hx
  · obtain hset | hs := hprecision hset
    · obtain hi | hf | hs := hprec hset
      · exact List.mem_append_left (Lexer.bytes "s") (hnumber (.inl hi))
      · exact List.mem_append_left (Lexer.bytes "s") (hnumber (.inr hf))
      · exact hstring hs
    · exact hstring hs

/-- A specifier that is emitted as it is written. -/
theorem SpecParts.shows_plain (p : SpecParts) {ty : OperandTy}
    (h : checkInterpSegment p.spec ty = []) (hconv : p.conversion ∈ Lexer.bytes "feEgGscp")
    (hemit : emitSpec p.text ty = percent :: p.text) {arg : Arg} {out : List UInt8}
    (hout : p.spec.directive.defined = true → convert pointers p.spec.directive arg = some out) :
    Shows pointers p.text ty [arg] out := by
  intro more args
  have hT : p.conversion ≠ 'T'.toUInt8 := ne_of_mem_of_not_mem hconv (by decide)
  have hread := @SpecParts.readDirective_text more (arg :: args) p false _
    (List.mem_append_right (Lexer.bytes "diuxXo") hconv)
  rw [p.number_precision h, p.read_eq h] at hread
  have htext : p.text ++ more =
      p.flags ++ (p.width ++ (p.precisionText ++ ([] ++ p.conversion :: more))) := by
    simp [text]
  rw [hemit, List.cons_append, htext]
  exact printf_spec hread (ne_of_mem_of_not_mem hconv (by decide))
    (hout (p.defined_plain h hT fun hset => .inl hset))

theorem convert_char {d : Directive} (hd : d.defined = true) (hlong : d.long = false)
    (hconv : d.conversion = 'c'.toUInt8) (z : ℤ) :
    convert pointers d (.int z) = some (d.field false [] [UInt8.ofInt z]) := by
  simp [convert, hd, hlong, hconv]

theorem convert_float {d : Directive} (hd : d.defined = true)
    (hconv : d.conversion ∈ ascii "feEgG") (negative : Bool) (m : Printf.Magnitude) :
    convert pointers d (.float negative m) = some (Printf.floatText d negative m) := by
  simp only [convert, hd, Bool.not_true, Bool.false_eq_true, if_false, if_pos hconv]

theorem convert_text {d : Directive} (hd : d.defined = true) (hconv : d.conversion = 's'.toUInt8)
    (bytes : List UInt8) : convert pointers d (.text bytes) = some (Printf.stringText d bytes) := by
  simp [convert, hd, hconv]

theorem convert_pointer {d : Directive} (hd : d.defined = true)
    (hconv : d.conversion = 'p'.toUInt8) (address : ℕ) :
    convert pointers d (.pointer address) = some (d.field false [] (pointers address)) := by
  simp [convert, hd, hconv]

/-- The precision that a `str` passes shows what its own precision asks for. -/
theorem strArgs_shown {intMax : ℕ} {precision : Option ℕ} {bytes : List UInt8} {as : List Arg}
    (h : strArgs intMax precision bytes = some as) :
    ∃ n : ℕ, as = [.int n, .text bytes] ∧ bytes.take n = (precision.elim bytes bytes.take) := by
  unfold strArgs at h
  cases precision with
  | none =>
    obtain ⟨n, hn, rfl⟩ := Option.map_eq_some_iff.mp h
    unfold fcToInt at hn
    split at hn
    · cases hn
      exact ⟨_, rfl, List.take_length⟩
    · cases hn
  | some q =>
    dsimp only at h
    split at h
    · rename_i hlt
      obtain ⟨n, hn, rfl⟩ := Option.map_eq_some_iff.mp h
      unfold fcToInt at hn
      split at hn
      · cases hn
        refine ⟨_, rfl, ?_⟩
        rw [List.take_length, Option.elim_some, List.take_of_length_le hlt.le]
      · cases hn
    · cases h
      exact ⟨q, rfl, rfl⟩

theorem SpecParts.shows_str (p : SpecParts) (h : checkInterpSegment p.spec .str = [])
    (hconv : p.conversion = 's'.toUInt8) {intMax : ℕ} {bytes : List UInt8} {as : List Arg}
    (hargs : strArgs intMax p.spec.precision bytes = some as) :
    Shows pointers p.text .str as (Printf.stringText p.spec.directive bytes) := by
  obtain ⟨n, rfl, htake⟩ := strArgs_shown hargs
  intro more args
  have hread := @SpecParts.readDirective_star more (.text bytes :: args) p n
  have hstart : p.text.take p.spec.precAt = p.flags ++ p.width := by
    have hlen : p.spec.precAt = (p.flags ++ p.width).length := by
      rw [List.length_append]
      rfl
    rw [hlen, text, ← List.append_assoc, List.take_left]
  have hemit : emitSpec p.text .str ++ more =
      percent :: (p.flags ++ (p.width ++ (ascii ".*s" ++ more))) := by
    have hscan := p.interpSpecScan_text []
    rw [List.append_nil] at hscan
    unfold emitSpec
    dsimp only
    rw [p.segConversion_text, if_pos ⟨hconv, rfl⟩, hscan, hstart]
    simp
  have hT : p.conversion ≠ 'T'.toUInt8 := by
    rw [hconv]
    decide
  have hshown : Printf.stringText { p.spec.directive with precision := some n } bytes =
      Printf.stringText p.spec.directive bytes := by
    have hsome : Printf.stringText { p.spec.directive with precision := some n } bytes =
        p.spec.directive.field false [] ((bytes.take n).takeWhile fun b => b ≠ 0) := rfl
    rw [hsome, htake, Printf.stringText]
    cases hprecision : p.spec.precision <;> simp [InterpSpec.directive, hprecision]
  have hread' : p.read (some n) false 's'.toUInt8 =
      { p.spec.directive with precision := some n } := by
    rw [p.read_eq h, ← hconv]
    rfl
  rw [hread'] at hread
  have hpercent : p.conversion ≠ '%'.toUInt8 := by
    rw [hconv]
    decide
  rw [hemit]
  refine printf_spec hread hpercent ?_
  rw [convert_text (p.defined_plain h hT fun _ => .inr hconv) hconv, hshown]

/-- A specifier that is neither a number's nor a `str`'s is copied. -/
theorem SpecParts.emitSpec_plain (p : SpecParts) {ty : OperandTy}
    (hstr : p.conversion = 's'.toUInt8 → ty ≠ .str)
    (hint : ty.isInteger = true → isIntConv p.conversion = false) :
    emitSpec p.text ty = percent :: p.text := by
  unfold emitSpec
  dsimp only
  rw [p.segConversion_text, if_neg fun h => hstr h.1 h.2, if_neg]
  rintro ⟨hinteger, hconv⟩
  rw [hint hinteger] at hconv
  cases hconv

section Shown
variable {sp : InterpSpec} {name : TypeName}

theorem shown_number {t : IntTy} {z : T.IntVal t} (h : sp.conversion ∈ Lexer.bytes "diuxXo") :
    Operand.shown pointers sp ⟨.int t, name, z⟩ =
      if sp.conversion = 'd'.toUInt8 ∨ sp.conversion = 'i'.toUInt8 then
        Printf.signed sp.directive z.1
      else Printf.patternText sp.directive (z.1 % 2 ^ (t.format T).bits).toNat := by
  have hne : sp.directive.conversion ≠ 'c'.toUInt8 := ne_of_mem_of_not_mem h (by decide)
  simp only [Operand.shown, if_neg hne]
  rfl

theorem shown_char {t : IntTy} {z : T.IntVal t} (h : sp.conversion = 'c'.toUInt8) :
    Operand.shown pointers sp ⟨.int t, name, z⟩ =
      sp.directive.field false [] [UInt8.ofInt z.1] := by
  have hchar : sp.directive.conversion = 'c'.toUInt8 := h
  simp only [Operand.shown, hchar]
  rfl

theorem shown_text {c : CStr T} (h : sp.conversion = 's'.toUInt8) :
    Operand.shown pointers sp ⟨.cstr, name, c⟩ = Printf.stringText sp.directive c.bytes := by
  have hne : sp.directive.conversion ≠ 'p'.toUInt8 := by
    rw [show sp.directive.conversion = _ from h]
    decide
  exact if_neg hne

theorem shown_address {c : CStr T} (h : sp.conversion = 'p'.toUInt8) :
    Operand.shown pointers sp ⟨.cstr, name, c⟩ =
      sp.directive.field false [] (pointers c.address.toNat) := if_pos h

end Shown

section Operands
variable {intMax : ℕ} {checked : Bool} {as : List Arg} {name : TypeName} (p : SpecParts)

theorem SpecParts.shows_number (hbits : T.pointerBits ≤ 64) {t : IntTy} {z : T.IntVal t}
    (h : checkInterpSegment p.spec (.int t) = []) (hconv : p.conversion ∈ Lexer.bytes "diuxXo")
    (hargs : Operand.args intMax checked p.text ⟨.int t, name, z⟩ = some as) :
    Shows pointers p.text (.int t) as (Operand.shown pointers p.spec ⟨.int t, name, z⟩) := by
  have hne : p.conversion ≠ 'c'.toUInt8 := ne_of_mem_of_not_mem hconv (by decide)
  have has : as = [integerArg p.conversion z] := by
    simp only [Operand.args, p.segConversion_text, if_neg hne] at hargs
    unfold integerArg
    split_ifs at hargs ⊢ <;> exact (Option.some.inj hargs).symm
  rw [has, shown_number hconv]
  exact p.shows_int hbits z h hconv

theorem SpecParts.shows_char {t : IntTy} {z : T.IntVal t}
    (h : checkInterpSegment p.spec (.int t) = []) (hconv : p.conversion = 'c'.toUInt8)
    (hargs : Operand.args intMax checked p.text ⟨.int t, name, z⟩ = some as) :
    Shows pointers p.text (.int t) as (Operand.shown pointers p.spec ⟨.int t, name, z⟩) := by
  have has : as = [.int z.1] := by
    simp only [Operand.args, p.segConversion_text, hconv] at hargs
    exact (Option.some.inj hargs).symm
  have hemit : emitSpec p.text (.int t) = percent :: p.text :=
    p.emitSpec_plain (fun _ => by simp) fun _ => by rw [hconv]; decide
  rw [has, shown_char hconv]
  exact p.shows_plain h (by rw [hconv]; decide) hemit fun hd => convert_char hd rfl hconv z.1

theorem SpecParts.emitSpec_cstr : emitSpec p.text .cstr = percent :: p.text :=
  p.emitSpec_plain (fun _ => by simp) fun hi => by cases hi

theorem SpecParts.shows_text {c : CStr T} (h : checkInterpSegment p.spec .cstr = [])
    (hconv : p.conversion = 's'.toUInt8)
    (hargs : Operand.args intMax checked p.text ⟨.cstr, name, c⟩ = some as) :
    Shows pointers p.text .cstr as (Operand.shown pointers p.spec ⟨.cstr, name, c⟩) := by
  have hne : p.conversion ≠ 'p'.toUInt8 := by
    rw [hconv]
    decide
  simp only [Operand.args, p.segConversion_text, if_neg hne] at hargs
  split_ifs at hargs
  have has : as = [.text c.bytes] := (Option.some.inj hargs).symm
  rw [has, shown_text hconv]
  exact p.shows_plain h (by rw [hconv]; decide) p.emitSpec_cstr
    fun hd => convert_text hd hconv c.bytes

theorem SpecParts.shows_address {c : CStr T} (h : checkInterpSegment p.spec .cstr = [])
    (hconv : p.conversion = 'p'.toUInt8)
    (hargs : Operand.args intMax checked p.text ⟨.cstr, name, c⟩ = some as) :
    Shows pointers p.text .cstr as (Operand.shown pointers p.spec ⟨.cstr, name, c⟩) := by
  simp only [Operand.args, p.segConversion_text, if_pos hconv] at hargs
  have has : as = [.pointer c.address.toNat] := (Option.some.inj hargs).symm
  rw [has, shown_address hconv]
  exact p.shows_plain h (by rw [hconv]; decide) p.emitSpec_cstr
    fun hd => convert_pointer hd hconv c.address.toNat

theorem SpecParts.shows_pointer {a : T.Address} (h : checkInterpSegment p.spec .pointer = [])
    (hconv : p.conversion = 'p'.toUInt8) :
    Shows pointers p.text .pointer [.pointer a.toNat]
      (p.spec.directive.field false [] (pointers a.toNat)) := by
  have hemit : emitSpec p.text .pointer = percent :: p.text :=
    p.emitSpec_plain (fun _ => by simp) fun hi => by cases hi
  exact p.shows_plain h (by rw [hconv]; decide) hemit fun hd => convert_pointer hd hconv a.toNat

theorem SpecParts.shows_float {t : FloatTy} {v : FloatVal t}
    (h : checkInterpSegment p.spec (.float t) = []) (hconv : p.conversion ∈ Lexer.bytes "feEgG") :
    Shows pointers p.text (.float t) [.float v.negative v.magnitude]
      (Printf.floatText p.spec.directive v.negative v.magnitude) := by
  have hemit : emitSpec p.text (.float t) = percent :: p.text :=
    p.emitSpec_plain (fun _ => by simp) fun hi => by cases hi
  exact p.shows_plain h (List.mem_append_left _ hconv) hemit
    fun hd => convert_float hd hconv v.negative v.magnitude

end Operands

/-- Each operand is shown as its specifier asks. -/
theorem Operand.shows (hbits : T.pointerBits ≤ 64) {text : List UInt8} (htext : IsSpec text)
    (o : Operand T) (h : checkInterpSegment (interpSpecScan text).2 o.ty = [])
    (hT : segConversion text ≠ 'T'.toUInt8) {intMax : ℕ} {checked : Bool} {as : List Arg}
    (hargs : o.args intMax checked text = some as) :
    Shows pointers text o.ty as (o.shown pointers (interpSpecScan text).2) := by
  obtain ⟨p, rfl, hspec⟩ := htext.exists_parts
  have hprecision : (interpSpecScan p.text).2.precision = p.spec.precision := by rw [hspec]
  rw [hspec] at h ⊢
  rw [p.segConversion_text] at hT
  obtain ⟨-, ⟨cls, hcls, hsuits⟩, -⟩ := checkInterpSegment_nil h
  have hletters := mem_letters hcls
  obtain ⟨ty, name, value⟩ := o
  obtain rfl | ⟨t, rfl, rfl | rfl⟩ | ⟨t, rfl, rfl⟩ | ⟨rfl, rfl⟩ | ⟨rfl, rfl | rfl⟩ | ⟨rfl, rfl⟩ :=
    InterpConvClass.suits_cases hsuits
  · exact absurd (List.mem_singleton.mp hletters) hT
  · exact p.shows_number hbits h hletters hargs
  · exact p.shows_char h (List.mem_singleton.mp hletters) hargs
  · cases hargs
    exact p.shows_float h hletters
  · simp only [Operand.args] at hargs
    split_ifs at hargs
    exact p.shows_str h (List.mem_singleton.mp hletters) (hprecision ▸ hargs)
  · exact p.shows_text h (List.mem_singleton.mp hletters) hargs
  · exact p.shows_address h (List.mem_singleton.mp hletters) hargs
  · cases hargs
    exact p.shows_pointer h (List.mem_singleton.mp hletters)

end Shows

section Lengths
variable {sp : InterpSpec} {ty : OperandTy}

/-- A text without a sign or a prefix, that is no longer than the bound of its conversion. -/
theorem field_le {body : List UInt8} (h : body.length ≤ conversionBound ty sp) :
    (sp.directive.field false [] body).length ≤ interpNumericBound ty sp := by
  have hwidth : sp.width ≤ interpNumericBound ty sp := width_le_interpNumericBound
  have hbound : conversionBound ty sp + sp.extra ≤ interpNumericBound ty sp := conversionBound_le
  rw [Directive.field_length, List.length_nil]
  change max sp.width _ ≤ _
  omega

/-- A string takes its width, or what its precision leaves of it. -/
theorem stringText_length_le (d : Directive) (bytes : List UInt8) :
    (Printf.stringText d bytes).length ≤ max d.width (d.precision.getD bytes.length) := by
  unfold Printf.stringText
  dsimp only
  rw [Directive.field_length, List.length_nil]
  have htake (shown : List UInt8) : (shown.takeWhile fun b => b ≠ 0).length ≤ shown.length :=
    (List.takeWhile_prefix _).length_le
  cases d.precision with
  | none =>
    have := htake bytes
    rw [Option.getD_none]
    dsimp only
    omega
  | some q =>
    have := htake (bytes.take q)
    rw [List.length_take] at this
    rw [Option.getD_some]
    dsimp only
    omega

/-- The share of an operand that is no string. -/
theorem share_numeric {text : List UInt8} {o : Operand T} (hT : segConversion text ≠ 'T'.toUInt8)
    (hs : ¬(segConversion text = 's'.toUInt8 ∧ (o.ty = .str ∨ o.ty = .cstr))) :
    (Segment.format text o).share = interpNumericBound o.ty (interpSpecScan text).2 := by
  have hbudget : interpSegBudget (.format text o) =
      ⟨false, interpNumericBound o.ty (interpSpecScan text).2⟩ := by
    unfold interpSegBudget
    dsimp only
    rw [if_neg hT, if_neg hs]
  unfold Segment.share
  dsimp only
  rw [hbudget]
  rfl

/-- The share of a string. -/
theorem string_le {text : List UInt8} {o : Operand T} (hs : segConversion text = 's'.toUInt8)
    (hty : o.ty = .str ∨ o.ty = .cstr) {bytes : List UInt8} (hlen : o.len = bytes.length) :
    (Printf.stringText (interpSpecScan text).2.directive bytes).length ≤
      (Segment.format text o).share := by
  have hT : segConversion text ≠ 'T'.toUInt8 := by
    rw [hs]
    decide
  have hle : _ ≤ max (interpSpecScan text).2.width
      ((interpSpecScan text).2.precision.getD bytes.length) :=
    stringText_length_le (interpSpecScan text).2.directive bytes
  have hstring : segConversion text = 's'.toUInt8 ∧ (o.ty = .str ∨ o.ty = .cstr) := ⟨hs, hty⟩
  unfold Segment.share interpSegBudget
  dsimp only
  rw [if_neg hT, if_pos hstring, hlen]
  cases hprecision : (interpSpecScan text).2.precision with
  | none =>
    rw [hprecision, Option.getD_none] at hle
    dsimp only
    rw [if_pos rfl]
    split_ifs <;> omega
  | some q =>
    rw [hprecision, Option.getD_some] at hle
    dsimp only
    rw [if_neg (by simp)]
    split_ifs <;> omega

theorem number_le (hbits : T.pointerBits ≤ 64) {t : IntTy} {z : T.IntVal t} {name : TypeName}
    (h : sp.conversion ∈ Lexer.bytes "diuxXo") :
    (Operand.shown pointers sp ⟨.int t, name, z⟩).length ≤ interpNumericBound (.int t) sp := by
  have hlt : (z.1 % 2 ^ (t.format T).bits).toNat < 2 ^ (t.format T).bits := by
    have hpos : (0 : ℤ) < 2 ^ (t.format T).bits := by positivity
    have hmod := Int.emod_lt_of_pos z.1 hpos
    rw [Int.toNat_lt' (by positivity)]
    exact_mod_cast hmod
  rw [shown_number h]
  split_ifs with hsigned
  · exact signed_le hbits z.2 hsigned
  · exact pattern_le hbits hlt (unsigned_letter h hsigned)

theorem char_le {t : IntTy} {z : T.IntVal t} {name : TypeName} (h : sp.conversion = 'c'.toUInt8) :
    (Operand.shown pointers sp ⟨.int t, name, z⟩).length ≤ interpNumericBound (.int t) sp := by
  rw [shown_char h]
  apply field_le
  rw [conversionBound, h]
  rfl

theorem address_le (hpointers : ∀ a : T.Address, (pointers a.toNat).length ≤ 18)
    (h : sp.conversion = 'p'.toUInt8) (a : T.Address) :
    (sp.directive.field false [] (pointers a.toNat)).length ≤ interpNumericBound ty sp := by
  apply field_le
  have hbound : conversionBound ty sp = 18 := by
    rw [conversionBound, h]
    rfl
  rw [hbound]
  exact hpointers a

/-- What an operand shows has room in its share. -/
theorem Operand.shown_le (hbits : T.pointerBits ≤ 64)
    (hpointers : ∀ a : T.Address, (pointers a.toNat).length ≤ 18) {text : List UInt8}
    (htext : IsSpec text) (o : Operand T)
    (h : checkInterpSegment (interpSpecScan text).2 o.ty = [])
    (hT : segConversion text ≠ 'T'.toUInt8) :
    (o.shown pointers (interpSpecScan text).2).length ≤ (Segment.format text o).share := by
  obtain ⟨p, rfl, hspec⟩ := htext.exists_parts
  obtain ⟨-, ⟨cls, hcls, hsuits⟩, -⟩ := checkInterpSegment_nil h
  have hconv : (interpSpecScan p.text).2.conversion = segConversion p.text := by
    rw [hspec, p.segConversion_text]
    rfl
  have hletters := mem_letters hcls
  have hnumeric {ty : OperandTy} {name : TypeName} {value : ty.Value T} (hs : ty ≠ .str)
      (hs' : ty = .cstr → (interpSpecScan p.text).2.conversion ≠ 's'.toUInt8) :
      (Segment.format p.text ⟨ty, name, value⟩).share =
        interpNumericBound ty (interpSpecScan p.text).2 := by
    apply share_numeric hT
    rintro ⟨hsconv, hstr | hcstr⟩
    · exact hs hstr
    · exact hs' hcstr (hconv.trans hsconv)
  obtain ⟨ty, name, value⟩ := o
  obtain rfl | ⟨t, rfl, rfl | rfl⟩ | ⟨t, rfl, rfl⟩ | ⟨rfl, rfl⟩ | ⟨rfl, rfl | rfl⟩ | ⟨rfl, rfl⟩ :=
    InterpConvClass.suits_cases hsuits
  · exact absurd (hconv.symm.trans (List.mem_singleton.mp hletters)) hT
  · rw [hnumeric (by simp) (by simp)]
    exact number_le hbits hletters
  · rw [hnumeric (by simp) (by simp)]
    exact char_le (List.mem_singleton.mp hletters)
  · rw [hnumeric (by simp) (by simp)]
    exact float_le value hletters
  · exact string_le (hconv.symm.trans (List.mem_singleton.mp hletters)) (.inl rfl) rfl
  · rw [shown_text (c := value) (List.mem_singleton.mp hletters)]
    exact string_le (hconv.symm.trans (List.mem_singleton.mp hletters)) (.inr rfl) rfl
  · have hp := List.mem_singleton.mp hletters
    rw [hnumeric (by simp) (fun _ => by rw [hp]; decide), shown_address (c := value) hp]
    exact address_le hpointers hp value.address
  · rw [hnumeric (by simp) (by simp)]
    exact address_le hpointers (List.mem_singleton.mp hletters) value

end Lengths
end FcLang.Text
