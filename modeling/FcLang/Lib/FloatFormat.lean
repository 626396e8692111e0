import Mathlib.Data.Int.Log
import Mathlib.Data.Rat.Floor
import Mathlib.Tactic
import FcLang.Lib.IntFormat

/-!
# Binary floating-point formats

A float is a rational number, an infinity or no number. A format keeps a number
of significant digits above a least exponent, and `round` takes a rational to the
nearest float, the even one of two. Rounding loses a number only when it is below
the format's least float, so a number from 1 on survives it. `saturate` is the
conversion to an integer format that clamps what is out of range.
-/

namespace FcLang

namespace Format
variable {f : Format}

def least (f : Format) : ℤ := if f.signed then -2 ^ (f.bits - 1) else 0

def greatest (f : Format) : ℤ := if f.signed then 2 ^ (f.bits - 1) - 1 else 2 ^ f.bits - 1

theorem fits_iff {z : ℤ} : f.Fits z ↔ f.least ≤ z ∧ z ≤ f.greatest := by
  unfold Fits least greatest
  split <;> omega

theorem least_nonpos : f.least ≤ 0 := by
  unfold least
  split
  · have : (0 : ℤ) < 2 ^ (f.bits - 1) := by positivity
    omega
  · rfl

theorem greatest_pos (hf : 1 < f.bits) : 0 < f.greatest := by
  have h (n : ℕ) (hn : 0 < n) : (1 : ℤ) < 2 ^ n := one_lt_pow₀ (by norm_num) (by omega)
  unfold greatest
  split
  · have := h (f.bits - 1) (by omega)
    omega
  · have := h f.bits (by omega)
    omega

theorem least_neg_iff : f.least < 0 ↔ f.signed = true := by
  have : (0 : ℤ) < 2 ^ (f.bits - 1) := by positivity
  unfold least
  split <;> simp_all

end Format

/-- The nearest integer, the even one of two. -/
def roundHalfEven (x : ℚ) : ℤ :=
  if x - ⌊x⌋ < 1 / 2 then ⌊x⌋
  else if 1 / 2 < x - ⌊x⌋ then ⌊x⌋ + 1
  else ⌊x⌋ + ⌊x⌋ % 2

theorem floor_le_roundHalfEven (x : ℚ) : ⌊x⌋ ≤ roundHalfEven x := by
  unfold roundHalfEven
  split_ifs <;> omega

theorem roundHalfEven_le_floor (x : ℚ) : roundHalfEven x ≤ ⌊x⌋ + 1 := by
  unfold roundHalfEven
  split_ifs <;> omega

theorem roundHalfEven_intCast (n : ℤ) : roundHalfEven n = n := by
  simp [roundHalfEven]

theorem roundHalfEven_ne_zero {x : ℚ} (hx : 1 ≤ |x|) : roundHalfEven x ≠ 0 := by
  obtain hpos | hneg := le_abs.mp hx
  · have h1 : 1 ≤ ⌊x⌋ := Int.le_floor.mpr (by simpa using hpos)
    have h2 := floor_le_roundHalfEven x
    omega
  · have hle : x ≤ -1 := by linarith
    have h1 : ⌊x⌋ ≤ -1 := by
      have h : (⌊x⌋ : ℚ) ≤ ((-1 : ℤ) : ℚ) := (Int.floor_le x).trans (by exact_mod_cast hle)
      exact_mod_cast h
    obtain h2 | h2 := h1.lt_or_eq
    · have h3 := roundHalfEven_le_floor x
      omega
    · have hfloor := Int.floor_le x
      rw [h2] at hfloor
      have heq : x = ((-1 : ℤ) : ℚ) := by
        push_cast at hfloor ⊢
        linarith
      rw [heq, roundHalfEven_intCast]
      norm_num

inductive Flt where
  | finite (q : ℚ)
  | infinite (negative : Bool)
  | nan
  deriving DecidableEq

namespace Flt

def neg : Flt → Flt
  | .finite q => .finite (-q)
  | .infinite negative => .infinite !negative
  | .nan => .nan

theorem neg_eq_zero_iff (x : Flt) : x.neg = .finite 0 ↔ x = .finite 0 := by
  cases x <;> simp [neg]

def Negative : Flt → Prop
  | .finite q => q < 0
  | .infinite negative => negative = true
  | .nan => False

/-- No integer other than 0 is left of it. -/
def Fraction : Flt → Prop
  | .finite q => |q| < 1
  | .infinite _ => False
  | .nan => True

def trunc (q : ℚ) : ℤ := if 0 ≤ q then ⌊q⌋ else ⌈q⌉

theorem trunc_eq_zero_iff {q : ℚ} : trunc q = 0 ↔ |q| < 1 := by
  unfold trunc
  rw [abs_lt]
  split
  · rename_i h
    rw [Int.floor_eq_zero_iff]
    exact ⟨fun hq => ⟨by linarith, hq.2⟩, fun hq => ⟨h, hq.2⟩⟩
  · rename_i h
    rw [Int.ceil_eq_zero_iff]
    exact ⟨fun hq => ⟨hq.1, by linarith⟩, fun hq => ⟨hq.1, by linarith⟩⟩

def saturate (f : Format) : Flt → ℤ
  | .finite q =>
    if q < f.least then f.least else if f.greatest + 1 ≤ q then f.greatest else trunc q
  | .infinite negative => if negative then f.least else f.greatest
  | .nan => 0

theorem fits_saturate {f : Format} (hf : 1 < f.bits) (x : Flt) : f.Fits (saturate f x) := by
  have hlo := f.least_nonpos
  have hhi := Format.greatest_pos hf
  rw [Format.fits_iff]
  cases x with
  | nan => exact ⟨hlo, hhi.le⟩
  | infinite negative =>
    simp only [saturate]
    split <;> omega
  | finite q =>
    simp only [saturate]
    split_ifs with h1 h2
    · omega
    · omega
    · rw [not_lt] at h1
      rw [not_le] at h2
      unfold trunc
      split
      · rename_i h
        have hq : ⌊q⌋ < f.greatest + 1 := Int.floor_lt.mpr (by exact_mod_cast h2)
        have := Int.floor_nonneg.mpr h
        omega
      · rename_i h
        have hq : f.least ≤ ⌈q⌉ := by exact_mod_cast h1.trans (Int.le_ceil q)
        have : ⌈q⌉ ≤ 0 := Int.ceil_le.mpr (by simpa using (not_le.mp h).le)
        omega

/-- The clamping conversion gives 0 for fractions, and for every negative number
when the format has none. -/
theorem saturate_eq_zero_iff {f : Format} (hf : 1 < f.bits) (x : Flt) :
    saturate f x = 0 ↔ x.Fraction ∨ f.signed = false ∧ x.Negative := by
  have hlo := f.least_nonpos
  have hhi := Format.greatest_pos hf
  have hs := Format.least_neg_iff (f := f)
  cases x with
  | nan => simp [saturate, Fraction]
  | infinite negative =>
    simp only [saturate, Fraction, Negative, false_or]
    cases negative with
    | false => simp [hhi.ne']
    | true =>
      simp only [if_true, and_true, ← Bool.not_eq_true, ← hs]
      omega
  | finite q =>
    have hgreat : (1 : ℚ) ≤ f.greatest := by exact_mod_cast hhi
    have hleast : (f.least : ℚ) ≤ 0 := by exact_mod_cast hlo
    simp only [saturate, Fraction, Negative]
    rw [← Bool.not_eq_true, ← hs]
    split_ifs with h1 h2
    · by_cases hneg : f.least < 0
      · have h3 : (f.least : ℚ) ≤ -1 := by exact_mod_cast Int.le_sub_one_of_lt hneg
        have h4 : ¬|q| < 1 := by
          rw [abs_lt]
          intro h
          linarith
        simp [hneg, h4, hneg.ne]
      · have hzero : f.least = 0 := by omega
        have hq : q < 0 := by linarith
        simp [hzero, hq]
    · have h3 : ¬|q| < 1 := by
        rw [abs_lt]
        intro h
        linarith
      have h4 : ¬q < 0 := by linarith
      simp [hhi.ne', h3, h4]
    · rw [trunc_eq_zero_iff]
      constructor
      · exact .inl
      · rintro (h | ⟨h3, h4⟩)
        · exact h
        · have hzero : f.least = 0 := by omega
          rw [hzero] at h1
          exact absurd (by simpa using h4) h1

end Flt

/-- Floats of `digits` binary digits with an exponent of at least `minExp`, all
below `2 ^ maxExp`. -/
structure FloatFormat where
  digits : ℕ
  minExp : ℤ
  maxExp : ℤ
  digits_pos : 0 < digits
  minExp_nonpos : minExp ≤ 0

namespace FloatFormat

def binary32 : FloatFormat := ⟨24, -149, 128, by decide, by decide⟩

def binary64 : FloatFormat := ⟨53, -1074, 1024, by decide, by decide⟩

/-- The exponent of the last digit that a number keeps. -/
def scale (f : FloatFormat) (q : ℚ) : ℤ := max (Int.log 2 |q| + 1 - f.digits) f.minExp

def round (f : FloatFormat) (q : ℚ) : Flt :=
  let e := f.scale q
  let v : ℚ := roundHalfEven (q / 2 ^ e) * 2 ^ e
  if 2 ^ f.maxExp ≤ |v| then .infinite (q < 0) else .finite v

theorem round_zero (f : FloatFormat) : f.round 0 = .finite 0 := by
  have h := roundHalfEven_intCast 0
  have hpos : ¬(2 : ℚ) ^ f.maxExp ≤ 0 := not_le.mpr (by positivity)
  simp_all [round]

theorem round_ne_zero (f : FloatFormat) {q : ℚ} (hq : 1 ≤ |q|) : f.round q ≠ .finite 0 := by
  have hpos : 0 < |q| := lt_of_lt_of_le one_pos hq
  have hlog : 0 ≤ Int.log 2 |q| := by
    rw [← Int.zpow_le_iff_le_log (by norm_num) hpos]
    simpa using hq
  have hscale : f.scale q ≤ Int.log 2 |q| := by
    have := f.digits_pos
    have := f.minExp_nonpos
    unfold scale
    omega
  have hdiv : 1 ≤ |q / 2 ^ f.scale q| := by
    rw [abs_div, abs_of_pos (by positivity : (0 : ℚ) < 2 ^ f.scale q), one_le_div (by positivity)]
    calc (2 : ℚ) ^ f.scale q ≤ 2 ^ Int.log 2 |q| := zpow_le_zpow_right₀ (by norm_num) hscale
      _ ≤ |q| := by simpa using Int.zpow_log_le_self (b := 2) (by norm_num) hpos
  have hne : (roundHalfEven (q / 2 ^ f.scale q) : ℚ) * 2 ^ f.scale q ≠ 0 :=
    mul_ne_zero (by exact_mod_cast roundHalfEven_ne_zero hdiv) (by positivity)
  unfold round
  dsimp only
  split
  · exact Flt.noConfusion
  · exact fun h => hne (Flt.finite.inj h)

/-- A number of whole steps of its scale is a float. -/
theorem round_of_steps (f : FloatFormat) {q : ℚ} {m : ℤ} (hm : q / 2 ^ f.scale q = m)
    (hq : |q| < 2 ^ f.maxExp) : f.round q = .finite q := by
  have hpos : (2 : ℚ) ^ f.scale q ≠ 0 := by positivity
  have hback : (m : ℚ) * 2 ^ f.scale q = q := by
    rw [← hm, div_mul_cancel₀ q hpos]
  unfold round
  dsimp only
  rw [hm, roundHalfEven_intCast, hback, if_neg (not_le.mpr hq)]

/-- Integers of no more digits than the format keeps are floats. -/
theorem round_intCast (f : FloatFormat) {z : ℤ} (hz : |z| ≤ 2 ^ f.digits)
    (hmax : (f.digits : ℤ) < f.maxExp) : f.round z = .finite z := by
  by_cases hzero : z = 0
  · subst hzero
    simpa using f.round_zero
  have hpos : (0 : ℚ) < |(z : ℚ)| := abs_pos.mpr (by exact_mod_cast hzero)
  have hle : |(z : ℚ)| ≤ 2 ^ (f.digits : ℤ) := by exact_mod_cast hz
  have hlt : |(z : ℚ)| < 2 ^ f.maxExp :=
    hle.trans_lt (zpow_lt_zpow_right₀ (by norm_num) hmax)
  have hlog : Int.log 2 |(z : ℚ)| ≤ f.digits := by
    have hself : Int.log 2 (((2 : ℕ) : ℚ) ^ (f.digits : ℤ)) = f.digits :=
      Int.log_zpow (by norm_num) _
    rw [Nat.cast_ofNat] at hself
    exact hself ▸ Int.log_mono_right (b := 2) hpos hle
  have hscale : f.scale z ≤ 1 := by
    have := f.minExp_nonpos
    unfold scale
    omega
  obtain hone | hnonpos : f.scale z = 1 ∨ f.scale z ≤ 0 := by omega
  · have hfull : |z| = 2 ^ f.digits := by
      have hdigits : (f.digits : ℤ) ≤ Int.log 2 |(z : ℚ)| := by
        have := f.minExp_nonpos
        unfold scale at hone
        omega
      have hge := (Int.zpow_le_iff_le_log (b := 2) (by norm_num) hpos).mpr hdigits
      apply le_antisymm hz
      exact_mod_cast hge
    obtain ⟨d, hd⟩ := Nat.exists_eq_succ_of_ne_zero f.digits_pos.ne'
    have heven : 2 ∣ z := by
      rw [← dvd_abs, hfull, hd, pow_succ]
      exact dvd_mul_left _ _
    obtain ⟨m, rfl⟩ := heven
    refine f.round_of_steps (m := m) ?_ hlt
    rw [hone]
    push_cast
    norm_num
  · refine f.round_of_steps (m := z * 2 ^ (-f.scale z).toNat) ?_ hlt
    have hexp : (2 : ℚ) ^ f.scale z = (2 ^ (-f.scale z).toNat)⁻¹ := by
      rw [← zpow_natCast, ← zpow_neg]
      congr 1
      omega
    rw [hexp, div_inv_eq_mul]
    push_cast
    rfl

end FloatFormat
end FcLang
