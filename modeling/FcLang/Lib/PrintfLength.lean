import FcLang.Lib.Printf

/-!
# How long formatted output is

A field is as wide as its width asks and its text needs. The text of a number is
bounded by the size of the number: the digits of an integer, and for a float the
digits in front of the point and of the exponent.
-/

namespace FcLang.Printf
variable {d : Directive}

namespace Directive

theorem field_length (d : Directive) (zeroPads : Bool) (head body : List UInt8) :
    (d.field zeroPads head body).length = max d.width (head.length + body.length) := by
  unfold field
  dsimp only
  split_ifs <;> simp only [List.length_append, List.length_replicate] <;> omega

theorem sign_length_le (d : Directive) (negative : Bool) : (d.sign negative).length ≤ 1 := by
  unfold sign
  split_ifs <;> decide

/-- A sign stands in front of a negative number, and of another where it is asked for. -/
theorem sign_length_le_asked (d : Directive) (negative : Bool) :
    (d.sign negative).length ≤
      (if negative then 1 else 0) + (if d.plus then 1 else 0) + if d.space then 1 else 0 := by
  unfold sign
  split_ifs <;> simp_all [ascii]

end Directive

theorem atLeast_length (count : ℕ) (text : List UInt8) :
    (atLeast count text).length = max count text.length := by
  rw [atLeast, List.length_append, List.length_replicate]
  omega

theorem digits_length_le {base n k : ℕ} (hbase : 1 < base) (upper : Bool) (h : n < base ^ k) :
    (digits base upper n).length ≤ k := by
  rw [digits, List.length_map, List.length_reverse]
  exact (Nat.digits_length_le_iff hbase n).mpr h

theorem signed_length_le {z : ℤ} {k : ℕ} (h : z.natAbs < 10 ^ k) :
    (signed d z).length ≤
      max d.width ((d.sign (z < 0)).length + max (d.precision.getD 1) k) := by
  have hdigits := digits_length_le (by norm_num) false h
  rw [signed, Directive.field_length, atLeast_length]
  omega

theorem unsigned_length_le {base n k : ℕ} (hbase : 1 < base) {upper : Bool}
    {alternative : List UInt8} (h : n < base ^ k) :
    (unsigned d base upper alternative n).length ≤
      max d.width ((if d.hash then alternative.length else 0) + max (d.precision.getD 1) k) := by
  have hdigits := digits_length_le hbase upper h
  have hhead : (if d.hash = true ∧ n ≠ 0 then alternative else []).length ≤
      if d.hash then alternative.length else 0 := by
    split_ifs <;> simp_all
  rw [unsigned, Directive.field_length, atLeast_length]
  omega

theorem octal_length_le {n k : ℕ} (h : n < 8 ^ k) :
    (octal d n).length ≤
      max d.width ((if d.hash then 1 else 0) + max (d.precision.getD 1) k) := by
  have hdigits := digits_length_le (by norm_num) false h
  have hbody (text : List UInt8) : (if d.hash = true ∧ text.head? ≠ some '0'.toUInt8 then
      '0'.toUInt8 :: text else text).length ≤ (if d.hash then 1 else 0) + text.length := by
    split_ifs <;> simp_all
  have hbody := hbody (atLeast (d.precision.getD 1) (digits 8 false n))
  rw [atLeast_length] at hbody
  rw [octal, Directive.field_length, List.length_nil]
  omega

theorem point_length_le (d : Directive) (precision : ℕ) : (point d precision).length ≤ 1 := by
  unfold point
  split_ifs <;> decide

theorem mod_digits_length (precision n : ℕ) :
    (atLeast precision (digits 10 false (n % 10 ^ precision))).length = precision := by
  have h := digits_length_le (k := precision) (n := n % 10 ^ precision) (by norm_num : 1 < 10) false
    (Nat.mod_lt _ (by positivity))
  rw [atLeast_length, max_eq_left h]

theorem toNat_roundHalfEven_le {x : ℚ} {n : ℕ} (h : x < n) : (roundHalfEven x).toNat ≤ n := by
  have hfloor : ⌊x⌋ < (n : ℤ) := Int.floor_lt.mpr (by exact_mod_cast h)
  have := roundHalfEven_le_floor x
  omega

theorem toNat_roundHalfEven_le_add_one {x : ℚ} (hx : 0 ≤ x) :
    ((roundHalfEven x).toNat : ℚ) ≤ x + 1 := by
  have hfloor := Int.floor_nonneg.mpr hx
  have hle := roundHalfEven_le_floor x
  have hcast : (((roundHalfEven x).toNat : ℤ) : ℚ) ≤ ((⌊x⌋ + 1 : ℤ) : ℚ) := by
    exact_mod_cast (by omega : ((roundHalfEven x).toNat : ℤ) ≤ ⌊x⌋ + 1)
  have := Int.floor_le x
  push_cast at hcast ⊢
  linarith

theorem whole_length_le {n m k : ℕ} (hk : 0 < k) (h : n / m < 10 ^ k) :
    (atLeast 1 (digits 10 false (n / m))).length ≤ k := by
  have hdigits := digits_length_le (by norm_num : 1 < 10) false h
  rw [atLeast_length]
  omega

/-- The digits in front of the point, for a number below a power of ten. -/
theorem fixed_whole_length_le (precision : ℕ) {k : ℕ} {q : ℚ} (hq : 0 ≤ q) (hk : 0 < k)
    (h : q + 1 < 10 ^ k) : (fixed precision q).1.length ≤ k := by
  apply whole_length_le hk
  apply Nat.div_lt_of_lt_mul
  have hpow : (1 : ℚ) ≤ 10 ^ precision := one_le_pow₀ (by norm_num)
  have hround := toNat_roundHalfEven_le_add_one (x := q * 10 ^ precision) (by positivity)
  have hlt : ((roundHalfEven (q * 10 ^ precision)).toNat : ℚ) < 10 ^ precision * 10 ^ k := by
    calc ((roundHalfEven (q * 10 ^ precision)).toNat : ℚ) ≤ q * 10 ^ precision + 1 := hround
      _ ≤ (q + 1) * 10 ^ precision := by linarith
      _ < 10 ^ k * 10 ^ precision := by gcongr
      _ = 10 ^ precision * 10 ^ k := mul_comm _ _
  exact_mod_cast hlt

theorem fixedText_length_le {precision k : ℕ} {q : ℚ} (hq : 0 ≤ q) (hk : 0 < k)
    (h : q + 1 < 10 ^ k) : (fixedText d precision q).length ≤ k + 1 + precision := by
  have hwhole := fixed_whole_length_le precision hq hk h
  have hpoint := point_length_le d precision
  have hfraction : (fixed precision q).2.length = precision := mod_digits_length _ _
  rw [fixedText, List.length_append, List.length_append]
  omega

/-- Three digits are enough for the exponent. -/
def Bounded (q : ℚ) : Prop := q = 0 ∨ (10 : ℚ) ^ (-999 : ℤ) ≤ q ∧ q < 10 ^ (999 : ℤ)

theorem scientific_spec (precision : ℕ) {q : ℚ} (hq : 0 ≤ q) (hb : Bounded q) :
    (scientific precision q).1 < 10 ^ (precision + 1) ∧
      (scientific precision q).2.natAbs < 10 ^ 3 ∧
      q < 10 ^ ((scientific precision q).2 + 1) := by
  unfold scientific
  split_ifs with hzero
  · subst hzero
    exact ⟨by positivity, by norm_num, by norm_num⟩
  have hpos : 0 < q := lt_of_le_of_ne hq (Ne.symm hzero)
  obtain ⟨hlo, hhi⟩ := hb.resolve_left hzero
  have hlog₁ : -999 ≤ Int.log 10 q := by
    rw [← Int.zpow_le_iff_le_log (by norm_num) hpos]
    exact_mod_cast hlo
  have hlog₂ : Int.log 10 q < 999 := by
    rw [← Int.lt_zpow_iff_log_lt (by norm_num) hpos]
    exact_mod_cast hhi
  have hself : q < 10 ^ (Int.log 10 q + 1) := by
    exact_mod_cast Int.lt_zpow_succ_log_self (b := 10) (by norm_num) q
  have hle : (roundHalfEven (q / 10 ^ Int.log 10 q * 10 ^ precision)).toNat ≤
      10 ^ (precision + 1) := by
    apply toNat_roundHalfEven_le
    have hdiv : q / 10 ^ Int.log 10 q < 10 := by
      rw [div_lt_iff₀ (by positivity), ← zpow_one_add₀ (by norm_num), add_comm]
      exact hself
    push_cast
    calc q / 10 ^ Int.log 10 q * 10 ^ precision < 10 * 10 ^ precision := by gcongr
      _ = 10 ^ (precision + 1) := (pow_succ' _ _).symm
  dsimp only
  split_ifs with hcarry
  · refine ⟨Nat.pow_lt_pow_right (by norm_num) (Nat.lt_succ_self _), by omega, hself.trans_le ?_⟩
    exact zpow_le_zpow_right₀ (by norm_num) (by omega)
  · exact ⟨lt_of_le_of_ne hle hcarry, by omega, hself⟩

theorem exponent_length_le (upper : Bool) {x : ℤ} (h : x.natAbs < 10 ^ 3) :
    (exponent upper x).length ≤ 5 := by
  have hdigits := digits_length_le (by norm_num : 1 < 10) false h
  have hmark : (if upper then ascii "E" else ascii "e").length = 1 := by cases upper <;> rfl
  have hsign : (if x < 0 then ascii "-" else ascii "+").length = 1 := by split_ifs <;> rfl
  rw [exponent, List.length_append, List.length_append, atLeast_length]
  omega

theorem lead_length_le {precision n : ℕ} (h : n < 10 ^ (precision + 1)) :
    (atLeast 1 (digits 10 false (n / 10 ^ precision))).length ≤ 1 :=
  whole_length_le one_pos (Nat.div_lt_of_lt_mul (by rwa [pow_one, ← pow_succ]))

theorem scientificText_length_le (upper : Bool) (precision : ℕ) {q : ℚ} (hq : 0 ≤ q)
    (hb : Bounded q) : (scientificText d upper precision q).length ≤ 7 + precision := by
  obtain ⟨hn, hx, -⟩ := scientific_spec precision hq hb
  have hlead := lead_length_le hn
  have hpoint := point_length_le d precision
  have hfraction := mod_digits_length precision (scientific precision q).1
  have hexponent := exponent_length_le upper hx
  simp only [scientificText, List.length_append]
  omega

theorem trimFraction_length_le (whole fraction tail : List UInt8) :
    (trimFraction whole fraction tail).length ≤
      whole.length + 1 + fraction.length + tail.length := by
  have hkept : (fraction.reverse.dropWhile fun c => c = '0'.toUInt8).reverse.length ≤
      fraction.length := by
    rw [List.length_reverse]
    simpa using (List.dropWhile_sublist (l := fraction.reverse) _).length_le
  have hpoint (kept : List UInt8) : (if kept = [] then [] else ascii ".").length ≤ 1 := by
    split_ifs <;> decide
  have hpoint := hpoint (fraction.reverse.dropWhile fun c => c = '0'.toUInt8).reverse
  simp only [trimFraction, List.length_append]
  omega

theorem fixed_whole_length_le_succ (precision : ℕ) {w : ℕ} {q : ℚ} (h : q < 10 ^ w) :
    (fixed precision q).1.length ≤ w + 1 := by
  apply whole_length_le (Nat.succ_pos _)
  have hround : (roundHalfEven (q * 10 ^ precision)).toNat ≤ 10 ^ w * 10 ^ precision := by
    apply toNat_roundHalfEven_le
    push_cast
    gcongr
  calc (roundHalfEven (q * 10 ^ precision)).toNat / 10 ^ precision
      ≤ 10 ^ w * 10 ^ precision / 10 ^ precision := Nat.div_le_div_right hround
    _ = 10 ^ w := Nat.mul_div_cancel _ (by positivity)
    _ < 10 ^ (w + 1) := Nat.pow_lt_pow_right (by norm_num) (Nat.lt_succ_self _)

/-- The shorter style shows the digits asked for, and up to four zeros in front of them. -/
theorem fixed_general_length_le {p : ℕ} {x : ℤ} {q : ℚ} (hlo : -4 ≤ x) (hhi : x < p)
    (hlt : q < 10 ^ (x + 1)) :
    (fixed (p - 1 - x).toNat q).1.length + (p - 1 - x).toNat ≤ p + 4 := by
  have hwhole := fixed_whole_length_le_succ (p - 1 - x).toNat (w := (x + 1).toNat) (q := q) (by
    apply hlt.trans_le
    rw [← zpow_natCast]
    exact zpow_le_zpow_right₀ (by norm_num) (by omega))
  omega

theorem general_length_le {upper : Bool} {q : ℚ} (hq : 0 ≤ q) (hb : Bounded q) :
    (general d upper q).length ≤ 8 + d.precision.getD 6 := by
  unfold general
  dsimp only
  generalize hp : max 1 (d.precision.getD 6) = p
  obtain ⟨hn, hx, hlt⟩ := scientific_spec (p - 1) hq hb
  split_ifs with hshort hhash hhash
  · have hfixed := fixed_general_length_le hshort.1 hshort.2 hlt
    have hpoint := point_length_le d (p - 1 - (scientific (p - 1) q).2).toNat
    have hfraction : (fixed (p - 1 - (scientific (p - 1) q).2).toNat q).2.length =
        (p - 1 - (scientific (p - 1) q).2).toNat := mod_digits_length _ _
    simp only [fixedText, List.length_append]
    omega
  · have hfixed := fixed_general_length_le hshort.1 hshort.2 hlt
    have hfraction : (fixed (p - 1 - (scientific (p - 1) q).2).toNat q).2.length =
        (p - 1 - (scientific (p - 1) q).2).toNat := mod_digits_length _ _
    apply (trimFraction_length_le _ _ _).trans
    rw [List.length_nil]
    omega
  · have hscientific := scientificText_length_le (d := d) upper (p - 1) hq hb
    omega
  · have hlead := lead_length_le hn
    have hfraction := mod_digits_length (p - 1) (scientific (p - 1) q).1
    have hexponent := exponent_length_le upper hx
    apply (trimFraction_length_le _ _ _).trans
    omega

theorem float_length_le {upper negative : Bool} {m : Magnitude} {finite : ℚ → List UInt8} {k : ℕ}
    (hk : 3 ≤ k) (h : ∀ q, m = .finite q → (finite q).length ≤ k) :
    (float d upper negative m finite).length ≤ max d.width (1 + k) := by
  have hsign := d.sign_length_le negative
  have hword (word word' : List UInt8) (hw : word.length = 3) (hw' : word'.length = 3) :
      (if upper then word else word').length = 3 := by
    split_ifs <;> assumption
  cases m with
  | finite q =>
    have := h q rfl
    rw [float, Directive.field_length]
    omega
  | infinite =>
    rw [float, Directive.field_length, hword _ _ rfl rfl]
    omega
  | nan =>
    rw [float, Directive.field_length, hword _ _ rfl rfl]
    omega

theorem floatText_fixed {negative : Bool} {m : Magnitude} (h : d.conversion = 'f'.toUInt8) :
    floatText d negative m = float d false negative m (fixedText d (d.precision.getD 6)) := if_pos h

theorem floatText_short {negative : Bool} {m : Magnitude} (h : d.conversion ∈ ascii "eEgG") :
    ∃ upper, floatText d negative m =
        float d upper negative m (scientificText d upper (d.precision.getD 6)) ∨
      floatText d negative m = float d upper negative m (general d upper) := by
  unfold floatText
  split_ifs with h1
  · rw [h1] at h
    exact absurd h (by decide)
  · exact ⟨false, .inl rfl⟩
  · exact ⟨true, .inl rfl⟩
  · exact ⟨false, .inr rfl⟩
  · exact ⟨true, .inr rfl⟩

end FcLang.Printf
