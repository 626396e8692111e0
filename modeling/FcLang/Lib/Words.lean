import FcLang.Lib.IntFormat

/-!
# Integers in machine words

A format with at most `w` bits is kept in a word of `w` bits by sign or zero
extension. The arithmetic of words is then the arithmetic of the integers they
hold, wrapped to the format.
-/

namespace FcLang.Words
variable {w n : ℕ} {x y z : ℤ} {f : Format}

theorem ofInt_congr (h : x ≡ y [ZMOD 2 ^ w]) : BitVec.ofInt w x = BitVec.ofInt w y := by
  apply BitVec.eq_of_toNat_eq
  simp only [BitVec.toNat_ofInt]
  push_cast
  rw [h]

theorem ofInt_sub (x y : ℤ) : BitVec.ofInt w (x - y) = BitVec.ofInt w x - BitVec.ofInt w y := by
  rw [sub_eq_add_neg, BitVec.ofInt_add, BitVec.ofInt_neg, BitVec.sub_eq_add_neg]

theorem getElem_ofInt (x : ℤ) {i : ℕ} (hi : i < w) : (BitVec.ofInt w x)[i] = x.testBit i := by
  have hnat : ∀ m : ℕ, (BitVec.ofNat w m)[i] = m.testBit i := fun m => by
    rw [← BitVec.getLsbD_eq_getElem, BitVec.getLsbD_ofNat, decide_eq_true hi, Bool.true_and]
  cases x with
  | ofNat m =>
    rw [Int.ofNat_eq_natCast, BitVec.ofInt_natCast]
    exact hnat m
  | negSucc m =>
    rw [BitVec.ofInt_negSucc_eq_not_ofNat, BitVec.getElem_not, hnat]
    rfl

theorem ofInt_land (x y : ℤ) :
    BitVec.ofInt w (Int.land x y) = BitVec.ofInt w x &&& BitVec.ofInt w y := by
  ext i hi
  rw [BitVec.getElem_and]
  simp only [getElem_ofInt, Int.testBit_land]

theorem ofInt_lor (x y : ℤ) :
    BitVec.ofInt w (Int.lor x y) = BitVec.ofInt w x ||| BitVec.ofInt w y := by
  ext i hi
  rw [BitVec.getElem_or]
  simp only [getElem_ofInt, Int.testBit_lor]

theorem ofInt_xor (x y : ℤ) :
    BitVec.ofInt w (Int.xor x y) = BitVec.ofInt w x ^^^ BitVec.ofInt w y := by
  ext i hi
  rw [BitVec.getElem_xor]
  simp only [getElem_ofInt, Int.testBit_lxor]

theorem ofInt_not (x : ℤ) : BitVec.ofInt w (-x - 1) = ~~~BitVec.ofInt w x := by
  rw [BitVec.not_eq_neg_add, ofInt_sub, BitVec.ofInt_neg]
  rfl

theorem ofInt_shiftLeft (x : ℤ) (n : ℕ) :
    BitVec.ofInt w (x * 2 ^ n) = BitVec.ofInt w x <<< n := by
  rw [BitVec.shiftLeft_eq_mul_twoPow, BitVec.ofInt_mul]
  congr 1
  apply BitVec.eq_of_toNat_eq
  rw [BitVec.toNat_ofInt, BitVec.toNat_twoPow]
  norm_cast

theorem toInt_ofInt_of_fits (hf : 0 < f.bits) (hs : f.signed = true) (hw : f.bits ≤ w)
    (hz : f.Fits z) : (BitVec.ofInt w z).toInt = z := by
  have hfits : (Format.mk w true).Fits z := hz.mono hs hw
  have h := Format.wrap_of_fits (f := ⟨w, true⟩) (lt_of_lt_of_le hf hw) hfits
  rw [BitVec.toInt_ofInt]
  exact h

theorem toNat_ofInt_of_fits (hf : 0 < f.bits) (hs : f.signed = false) (hw : f.bits ≤ w)
    (hz : f.Fits z) : ((BitVec.ofInt w z).toNat : ℤ) = z := by
  have hfits : (Format.mk w false).Fits z := hz.mono hs hw
  have h := Format.wrap_of_fits (f := ⟨w, false⟩) (lt_of_lt_of_le hf hw) hfits
  rw [BitVec.toNat_ofInt, Int.toNat_of_nonneg (Int.emod_nonneg _ (by positivity))]
  push_cast
  exact h

theorem truncate_ofInt (hn : n ≤ w) (z : ℤ) :
    (BitVec.ofInt w z).truncate n = BitVec.ofInt n z := by
  ext i hi
  rw [BitVec.getElem_setWidth, BitVec.getLsbD_eq_getElem (by omega), getElem_ofInt, getElem_ofInt]

/-- A word cut to a signed format and widened again. -/
theorem signExtend_truncate (hf : 0 < f.bits) (hs : f.signed = true) (hw : f.bits ≤ w) (z : ℤ) :
    ((BitVec.ofInt w z).truncate f.bits).signExtend w = BitVec.ofInt w (f.wrap z) := by
  apply BitVec.eq_of_toInt_eq
  rw [truncate_ofInt hw, BitVec.toInt_signExtend_of_le hw, BitVec.toInt_ofInt,
    toInt_ofInt_of_fits hf hs hw (Format.fits_wrap hf z), Format.wrap, if_pos hs]

theorem zeroExtend_truncate (hf : 0 < f.bits) (hs : f.signed = false) (hw : f.bits ≤ w) (z : ℤ) :
    ((BitVec.ofInt w z).truncate f.bits).zeroExtend w = BitVec.ofInt w (f.wrap z) := by
  apply BitVec.eq_of_toNat_eq
  zify
  rw [truncate_ofInt hw, toNat_ofInt_of_fits hf hs hw (Format.fits_wrap hf z),
    BitVec.toNat_setWidth_of_le hw, BitVec.toNat_ofInt, Format.wrap, hs, if_neg Bool.false_ne_true,
    Int.toNat_of_nonneg (Int.emod_nonneg _ (by positivity))]
  push_cast
  rfl

section Operations
variable (hf : 0 < f.bits) (hw : f.bits ≤ w) (hx : f.Fits x) (hy : f.Fits y)
include hf hw hx hy

theorem ofInt_inj : BitVec.ofInt w x = BitVec.ofInt w y ↔ x = y := by
  refine ⟨fun h => ?_, congrArg _⟩
  cases hs : f.signed with
  | false =>
    rw [← toNat_ofInt_of_fits hf hs hw hx, h, toNat_ofInt_of_fits hf hs hw hy]
  | true =>
    rw [← toInt_ofInt_of_fits hf hs hw hx, h, toInt_ofInt_of_fits hf hs hw hy]

theorem slt_ofInt (hs : f.signed = true) :
    (BitVec.ofInt w x).slt (BitVec.ofInt w y) = decide (x < y) := by
  rw [BitVec.slt_eq_decide, toInt_ofInt_of_fits hf hs hw hx, toInt_ofInt_of_fits hf hs hw hy]

theorem ult_ofInt (hs : f.signed = false) :
    (BitVec.ofInt w x).ult (BitVec.ofInt w y) = decide (x < y) := by
  rw [BitVec.ult_eq_decide]
  congr 1
  zify
  rw [toNat_ofInt_of_fits hf hs hw hx, toNat_ofInt_of_fits hf hs hw hy]

theorem sdiv_ofInt (hs : f.signed = true) :
    (BitVec.ofInt w x).sdiv (BitVec.ofInt w y) = BitVec.ofInt w (x.tdiv y) := by
  apply BitVec.eq_of_toInt_eq
  rw [BitVec.toInt_sdiv, toInt_ofInt_of_fits hf hs hw hx, toInt_ofInt_of_fits hf hs hw hy,
    BitVec.toInt_ofInt]

theorem srem_ofInt (hs : f.signed = true) :
    (BitVec.ofInt w x).srem (BitVec.ofInt w y) = BitVec.ofInt w (x.tmod y) := by
  apply BitVec.eq_of_toInt_eq
  rw [BitVec.toInt_srem, toInt_ofInt_of_fits hf hs hw hx, toInt_ofInt_of_fits hf hs hw hy,
    toInt_ofInt_of_fits hf hs hw (hx.tmod y)]

theorem udiv_ofInt (hs : f.signed = false) :
    BitVec.ofInt w x / BitVec.ofInt w y = BitVec.ofInt w (x.tdiv y) := by
  have hx0 := ((Format.fits_unsigned hs).mp hx).1
  have hy0 := ((Format.fits_unsigned hs).mp hy).1
  have hq : f.Fits (x.tdiv y) := by
    refine hx.between (.inl ⟨Int.tdiv_nonneg hx0 hy0, ?_⟩)
    rw [Int.tdiv_eq_ediv_of_nonneg hx0]
    exact Int.ediv_le_self y hx0
  apply BitVec.eq_of_toNat_eq
  zify
  rw [BitVec.toNat_udiv, toNat_ofInt_of_fits hf hs hw hq, Int.tdiv_eq_ediv_of_nonneg hx0]
  push_cast
  rw [toNat_ofInt_of_fits hf hs hw hx, toNat_ofInt_of_fits hf hs hw hy]

theorem umod_ofInt (hs : f.signed = false) :
    BitVec.ofInt w x % BitVec.ofInt w y = BitVec.ofInt w (x.tmod y) := by
  have hx0 := ((Format.fits_unsigned hs).mp hx).1
  apply BitVec.eq_of_toNat_eq
  zify
  rw [BitVec.toNat_umod, toNat_ofInt_of_fits hf hs hw (hx.tmod y), Int.tmod_eq_emod_of_nonneg hx0]
  push_cast
  rw [toNat_ofInt_of_fits hf hs hw hx, toNat_ofInt_of_fits hf hs hw hy]

end Operations

section Shifts
variable (hf : 0 < f.bits) (hw : f.bits ≤ w) (hx : f.Fits x)
include hf hw hx

theorem sshiftRight_ofInt (hs : f.signed = true) (n : ℕ) :
    (BitVec.ofInt w x).sshiftRight n = BitVec.ofInt w (x / 2 ^ n) := by
  apply BitVec.eq_of_toInt_eq
  rw [BitVec.toInt_sshiftRight, toInt_ofInt_of_fits hf hs hw hx,
    toInt_ofInt_of_fits hf hs hw (hx.ediv (by positivity)), Int.shiftRight_eq_div_pow]
  push_cast
  rfl

theorem ushiftRight_ofInt (hs : f.signed = false) (n : ℕ) :
    BitVec.ofInt w x >>> n = BitVec.ofInt w (x / 2 ^ n) := by
  apply BitVec.eq_of_toNat_eq
  zify
  rw [BitVec.toNat_ushiftRight, toNat_ofInt_of_fits hf hs hw (hx.ediv (by positivity)),
    Nat.shiftRight_eq_div_pow]
  push_cast
  rw [toNat_ofInt_of_fits hf hs hw hx]

end Shifts

end FcLang.Words
