import FcLang.Text.Interpolate

/-!
# The table of bounds

What an operand shows is no longer than the bound for its conversion, its type
and its specifier. The bounds of the table count the digits of the widest value,
and one more for the sign of a signed one.
-/

namespace FcLang.Text
open Facts (Target IntTy FloatTy)
open Printf (Arg Directive Magnitude Pointers ascii)

variable {T : Target} {sp : InterpSpec} {ty : OperandTy}

/-- What the flags add to a bound. -/
def InterpSpec.extra (sp : InterpSpec) : ℕ :=
  (if sp.plus then 1 else 0) + (if sp.space then 1 else 0) + if sp.hash then 2 else 0

theorem width_le_interpNumericBound : sp.width ≤ interpNumericBound ty sp := by
  unfold interpNumericBound
  dsimp only
  split_ifs <;> omega

theorem conversionBound_le : conversionBound ty sp + sp.extra ≤ interpNumericBound ty sp := by
  unfold interpNumericBound InterpSpec.extra
  dsimp only
  split_ifs <;> omega

/-- A precision is a number of digits, and a signed number has a sign beside them. -/
theorem precision_le {p : ℕ} (hconv : isIntConv sp.conversion = true)
    (hp : sp.precision = some p) (hpos : 0 < p) :
    p + (if interpConvIsUnsigned sp.conversion ty then 0 else 1) + sp.extra ≤
      interpNumericBound ty sp := by
  unfold interpNumericBound InterpSpec.extra
  rw [hp, Option.getD_some]
  dsimp only
  split_ifs <;> simp_all <;> omega

/-- How many values a type has, at most. -/
theorem two_pow_bits_le (hT : T.pointerBits ≤ 64) (t : IntTy) :
    2 ^ (t.format T).bits ≤ 10 ^ decimalBound (.int t) ∧
      2 ^ (t.format T).bits ≤ 16 ^ hexBound (.int t) ∧
      2 ^ (t.format T).bits ≤ 8 ^ octalBound (.int t) := by
  have hpointer : 2 ^ T.pointerBits ≤ 2 ^ 64 := Nat.pow_le_pow_right (by norm_num) hT
  have htable : 2 ^ T.pointerBits ≤ 10 ^ 20 ∧ 2 ^ T.pointerBits ≤ 16 ^ 16 ∧
      2 ^ T.pointerBits ≤ 8 ^ 22 := by omega
  cases t with
  | fixed t =>
    change 2 ^ t.format.bits ≤ _ ∧ 2 ^ t.format.bits ≤ _ ∧ 2 ^ t.format.bits ≤ _
    cases t <;> decide
  | isize => exact htable
  | usize => exact htable

theorem two_pow_pred_lt (hT : T.pointerBits ≤ 64) {t : IntTy} (ht : t.isSigned = true) :
    2 ^ ((t.format T).bits - 1) < 10 ^ (decimalBound (.int t) - 1) := by
  cases t with
  | fixed t =>
    change 2 ^ (t.format.bits - 1) < _
    cases t <;> first | decide | cases ht
  | isize =>
    have hpointer : 2 ^ (T.pointerBits - 1) ≤ 2 ^ 63 :=
      Nat.pow_le_pow_right (by norm_num) (by omega)
    change 2 ^ (T.pointerBits - 1) < 10 ^ 19
    omega
  | usize => cases ht

theorem format_signed (t : IntTy) : (t.format T).signed = t.isSigned := by
  cases t <;> rfl

/-- The digits of a value, and a place for its sign where its type has one. -/
theorem value_digits (hT : T.pointerBits ≤ 64) {t : IntTy} {z : ℤ} (hz : (t.format T).Fits z) :
    z.natAbs < 10 ^ (decimalBound (.int t) - if t.isSigned then 1 else 0) ∧
      (t.isSigned = false → 0 ≤ z) := by
  have hsigned := format_signed (T := T) t
  unfold Format.Fits at hz
  cases ht : t.isSigned with
  | true =>
    rw [ht] at hsigned
    rw [if_pos hsigned] at hz
    have hlt := two_pow_pred_lt hT ht
    have hle : z.natAbs ≤ 2 ^ ((t.format T).bits - 1) := by
      zify
      rw [abs_le]
      exact ⟨hz.1, hz.2.le⟩
    exact ⟨hle.trans_lt hlt, fun h => by cases h⟩
  | false =>
    rw [ht] at hsigned
    rw [if_neg (by simp [hsigned])] at hz
    have hlt : z.natAbs < 2 ^ (t.format T).bits := by
      zify
      rw [abs_of_nonneg hz.1]
      exact hz.2
    exact ⟨hlt.trans_le (two_pow_bits_le hT t).1, fun _ => hz.1⟩

theorem three_le_decimalBound (t : IntTy) : 3 ≤ decimalBound (.int t) := by
  cases t with
  | fixed t => cases t <;> decide
  | isize => decide
  | usize => decide

section Integers
variable {t : IntTy} {z : ℤ}

/-- A field of `k` digits, or of as many as the precision asks for, and `s` characters beside
them. -/
theorem digits_le {s k : ℕ} (hint : isIntConv sp.conversion = true) (hk : 0 < k)
    (hbound : s + k ≤ conversionBound ty sp + sp.extra)
    (hs : s ≤ (if interpConvIsUnsigned sp.conversion ty then 0 else 1) + sp.extra) :
    max sp.width (s + max (sp.precision.getD 1) k) ≤ interpNumericBound ty sp := by
  have hwidth : sp.width ≤ interpNumericBound ty sp := width_le_interpNumericBound
  have hconversion : conversionBound ty sp + sp.extra ≤ interpNumericBound ty sp :=
    conversionBound_le
  cases hp : sp.precision with
  | none =>
    rw [Option.getD_none]
    omega
  | some p =>
    rw [Option.getD_some]
    obtain rfl | hpos := Nat.eq_zero_or_pos p
    · omega
    · have := @precision_le sp ty p hint hp hpos
      omega

theorem signed_le (hT : T.pointerBits ≤ 64) (hz : (t.format T).Fits z)
    (hconv : sp.conversion = 'd'.toUInt8 ∨ sp.conversion = 'i'.toUInt8) :
    (Printf.signed sp.directive z).length ≤ interpNumericBound (.int t) sp := by
  obtain ⟨hdigits, hnonneg⟩ := value_digits hT hz
  have hdecimal : conversionBound (.int t) sp = decimalBound (.int t) := by
    obtain h | h := hconv <;> rw [conversionBound, h] <;> rfl
  have hint : isIntConv sp.conversion = true ∧
      interpConvIsUnsigned sp.conversion (.int t) = !t.isSigned := by
    obtain h | h := hconv <;> rw [h] <;> exact ⟨rfl, rfl⟩
  have hsign : (sp.directive.sign (decide (z < 0))).length ≤
      (if t.isSigned then 1 else 0) + sp.extra := by
    have hasked := sp.directive.sign_length_le_asked (decide (z < 0))
    have hneg : (if decide (z < 0) then 1 else 0) ≤ if t.isSigned then 1 else 0 := by
      cases ht : t.isSigned with
      | true => split_ifs <;> simp_all
      | false => simp [not_lt.mpr (hnonneg ht)]
    have hextra : (if sp.directive.plus then 1 else 0) + (if sp.directive.space then 1 else 0) ≤
        sp.extra := Nat.le_add_right _ _
    omega
  have hthree := three_le_decimalBound t
  have hone : (if t.isSigned then 1 else 0) ≤ 1 := by split_ifs <;> simp
  apply (Printf.signed_length_le hdigits).trans
  apply digits_le hint.1
  · omega
  · rw [hdecimal]
    omega
  · rw [hint.2]
    cases ht : t.isSigned <;> simp_all

theorem pattern_le (hT : T.pointerBits ≤ 64) {n : ℕ} (hn : n < 2 ^ (t.format T).bits)
    (hconv : sp.conversion ∈ Lexer.bytes "uxXo") :
    (Printf.patternText sp.directive n).length ≤ interpNumericBound (.int t) sp := by
  obtain ⟨hdecimal, hhex, hoctal⟩ := two_pow_bits_le hT t
  have hthree := three_le_decimalBound t
  have hpos : 0 < hexBound (.int t) ∧ 0 < octalBound (.int t) := by
    cases t with
    | fixed t => cases t <;> decide
    | isize => decide
    | usize => decide
  have hhash : (if sp.directive.hash then 2 else 0) ≤ sp.extra := Nat.le_add_left _ _
  have hhash' : (if sp.directive.hash then 1 else 0) ≤ if sp.directive.hash then 2 else 0 := by
    split_ifs <;> simp
  have hconv' : sp.conversion = 'u'.toUInt8 ∨ sp.conversion = 'x'.toUInt8 ∨
      sp.conversion = 'X'.toUInt8 ∨ sp.conversion = 'o'.toUInt8 := by
    change sp.conversion ∈ ['u'.toUInt8, 'x'.toUInt8, 'X'.toUInt8, 'o'.toUInt8] at hconv
    simpa using hconv
  have hint : isIntConv sp.conversion = true ∧
      interpConvIsUnsigned sp.conversion (.int t) = true := by
    obtain h | h | h | h := hconv' <;> rw [h] <;> exact ⟨rfl, rfl⟩
  have hnil : (if sp.directive.hash then ([] : List UInt8).length else 0) = 0 := by simp
  obtain h | h | h | h := hconv'
  · have htext : Printf.patternText sp.directive n = Printf.unsigned sp.directive 10 false [] n :=
      if_pos h
    have hbound : conversionBound (.int t) sp = decimalBound (.int t) := by
      rw [conversionBound, h]
      rfl
    rw [htext]
    apply (Printf.unsigned_length_le (by norm_num) (hn.trans_le hdecimal)).trans
    exact digits_le hint.1 (by omega) (by omega) (by omega)
  · have htext : Printf.patternText sp.directive n =
        Printf.unsigned sp.directive 16 false (ascii "0x") n := by
      rw [Printf.patternText, show sp.directive.conversion = _ from h]
      rfl
    have hbound : conversionBound (.int t) sp = hexBound (.int t) := by
      rw [conversionBound, h]
      rfl
    rw [htext]
    apply (Printf.unsigned_length_le (by norm_num) (hn.trans_le hhex)).trans
    have hlen : (ascii "0x").length = 2 := rfl
    rw [hlen]
    exact digits_le hint.1 hpos.1 (by omega) (by omega)
  · have htext : Printf.patternText sp.directive n =
        Printf.unsigned sp.directive 16 true (ascii "0X") n := by
      rw [Printf.patternText, show sp.directive.conversion = _ from h]
      rfl
    have hbound : conversionBound (.int t) sp = hexBound (.int t) := by
      rw [conversionBound, h]
      rfl
    rw [htext]
    apply (Printf.unsigned_length_le (by norm_num) (hn.trans_le hhex)).trans
    have hlen : (ascii "0X").length = 2 := rfl
    rw [hlen]
    exact digits_le hint.1 hpos.1 (by omega) (by omega)
  · have htext : Printf.patternText sp.directive n = Printf.octal sp.directive n := by
      rw [Printf.patternText, show sp.directive.conversion = _ from h]
      rfl
    have hbound : conversionBound (.int t) sp = octalBound (.int t) := by
      rw [conversionBound, h]
      rfl
    rw [htext]
    apply (Printf.octal_length_le (hn.trans_le hoctal)).trans
    exact digits_le hint.1 hpos.2 (by omega) (by omega)

end Integers

section Floats
variable {t : FloatTy}

/-- The digits in front of the point. -/
def wholeDigits (t : FloatTy) : ℕ := if t = .float32 then 39 else 309

theorem FloatVal.bounds (v : FloatVal t) {q : ℚ} (h : v.magnitude = .finite q) :
    0 ≤ q ∧ Printf.Bounded q ∧ q + 1 < 10 ^ wholeDigits t := by
  have hleast : (10 : ℚ) ^ (-999 : ℤ) ≤ 2 ^ (-1074 : ℤ) := by
    have hnat : 2 ^ 1074 ≤ 10 ^ 999 := by decide +kernel
    rw [zpow_neg, zpow_neg]
    apply inv_anti₀ (by positivity)
    exact_mod_cast hnat
  have hminExp : (-1074 : ℤ) ≤ t.format.minExp := by cases t <;> decide
  have hmaxExp : t.format.maxExp ≤ 1024 := by cases t <;> decide
  have hgreatest : (2 : ℚ) ^ t.format.maxExp + 1 < 10 ^ wholeDigits t := by
    cases t with
    | float32 =>
      change (2 : ℚ) ^ (128 : ℤ) + 1 < 10 ^ 39
      norm_num
    | float64 =>
      have hnat : 2 ^ 1024 + 1 < 10 ^ 309 := by decide +kernel
      change (2 : ℚ) ^ (1024 : ℤ) + 1 < 10 ^ 309
      exact_mod_cast hnat
  obtain rfl | ⟨hlo, hhi⟩ := v.inRange q h
  · refine ⟨le_rfl, .inl rfl, lt_of_lt_of_le ?_ hgreatest.le⟩
    have : (0 : ℚ) < 2 ^ t.format.maxExp := by positivity
    linarith
  · refine ⟨le_trans (by positivity) hlo, .inr ⟨?_, ?_⟩, by linarith⟩
    · exact hleast.trans ((zpow_le_zpow_right₀ (by norm_num) hminExp).trans hlo)
    · calc q < 2 ^ t.format.maxExp := hhi
        _ ≤ 2 ^ (1024 : ℤ) := zpow_le_zpow_right₀ (by norm_num) hmaxExp
        _ ≤ 10 ^ (999 : ℤ) := by
          have hnat : 2 ^ 1024 ≤ 10 ^ 999 := by decide +kernel
          exact_mod_cast hnat

theorem float_le (v : FloatVal t) (hconv : sp.conversion ∈ Lexer.bytes "feEgG") :
    (Printf.floatText sp.directive v.negative v.magnitude).length ≤
      interpNumericBound (.float t) sp := by
  have hwidth : sp.width ≤ interpNumericBound (.float t) sp := width_le_interpNumericBound
  have hbound : conversionBound (.float t) sp + sp.extra ≤ interpNumericBound (.float t) sp :=
    conversionBound_le
  have hfield {upper : Bool} {finite : ℚ → List UInt8} {k : ℕ} (hk : 3 ≤ k)
      (hk' : 1 + k ≤ conversionBound (.float t) sp)
      (h : ∀ q, 0 ≤ q → Printf.Bounded q → q + 1 < 10 ^ wholeDigits t → (finite q).length ≤ k) :
      (Printf.float sp.directive upper v.negative v.magnitude finite).length ≤
        interpNumericBound (.float t) sp := by
    apply (Printf.float_length_le hk fun q hq => ?_).trans
    · change max sp.width _ ≤ _
      omega
    · obtain ⟨hq₀, hb, hlt⟩ := v.bounds hq
      exact h q hq₀ hb hlt
  have hdigits : 3 ≤ wholeDigits t := by cases t <;> decide
  obtain h | h : sp.conversion = 'f'.toUInt8 ∨ sp.conversion ∈ ascii "eEgG" := by
    simpa [Lexer.bytes, ascii] using hconv
  · have hconversion : conversionBound (.float t) sp =
        1 + wholeDigits t + 1 + sp.precision.getD 6 := by
      rw [conversionBound, h]
      cases t <;> rfl
    rw [Printf.floatText_fixed h]
    exact hfield (k := wholeDigits t + 1 + sp.precision.getD 6) (by omega) (by omega)
      fun q hq _ hlt => Printf.fixedText_length_le hq (by omega) hlt
  · have hconversion : conversionBound (.float t) sp = 9 + sp.precision.getD 6 := by
      have hall : ∀ c ∈ ascii "eEgG", c ∉ Lexer.bytes "diu" ∧ c ∉ Lexer.bytes "xX" ∧
          c ≠ 'o'.toUInt8 ∧ c ≠ 'f'.toUInt8 ∧ c ∈ Lexer.bytes "eEgG" := by
        decide +kernel
      obtain ⟨h1, h2, h3, h4, h5⟩ := hall _ h
      simp only [conversionBound, if_neg h1, if_neg h2, if_neg h3, if_neg h4, if_pos h5]
    have hshort := @Printf.floatText_short sp.directive v.negative v.magnitude h
    obtain ⟨upper, htext | htext⟩ := hshort
    · rw [htext]
      exact hfield (k := 7 + sp.precision.getD 6) (by omega) (by omega)
        fun q hq hb _ => Printf.scientificText_length_le _ _ hq hb
    · rw [htext]
      exact hfield (k := 8 + sp.precision.getD 6) (by omega) (by omega)
        fun q hq hb _ => Printf.general_length_le hq hb

end Floats
end FcLang.Text
