import FcLang.Const.Expr
import FcLang.Lib.Words

/-!
# Constant operators on words

The evaluators compute in 64-bit words. On words that hold values of the operand
types an operator gives the word of the operator's value, at any width and sign
it may be called with.
-/

namespace FcLang.Codegen

theorem IntTy.int_fits_wrap (t : IntTy) (z : ℤ) : (Ty.int t).Fits (t.wrap z) := t.fits_wrap z

end FcLang.Codegen

namespace FcLang.Const
open Types (Prim ConstUnary ConstBinary constMaskExtend constUnaryOp constBinaryOp)
open Codegen (IntTy Ty IntOp ShiftOp CmpOp)

/-- The word that holds a value of any type. -/
abbrev word (z : ℤ) : BitVec 64 := BitVec.ofInt 64 z

theorem word_truth (b : Bool) : (if b then 1 else 0 : BitVec 64) = word (if b then 1 else 0) := by
  cases b <;> rfl

theorem bits_le (t : IntTy) : t.format.bits ≤ 64 := by
  cases t <;> decide

theorem constMaskExtend_word (t : IntTy) (z : ℤ) :
    constMaskExtend (word z) t.bits t.signed = word (t.wrap z) := by
  unfold constMaskExtend
  split
  · rename_i hwide
    refine Words.ofInt_congr ?_
    have hbits : t.format.bits = 64 := le_antisymm (bits_le t) hwide
    exact hbits ▸ (t.format.wrap_modEq z).symm
  · split
    · rename_i hs
      exact Words.signExtend_truncate t.bits_pos hs (bits_le t) z
    · rename_i hs
      exact Words.zeroExtend_truncate t.bits_pos (Bool.eq_false_iff.mpr hs) (bits_le t) z

theorem constMaskExtend_of_fits {t : IntTy} {z : ℤ} (hz : t.Fits z) :
    constMaskExtend (word z) t.bits t.signed = word z := by
  rw [constMaskExtend_word, IntTy.wrap_of_fits hz]

theorem word_inj {ty : Ty} {x y : ℤ} (hx : ty.Fits x) (hy : ty.Fits y) :
    word x = word y ↔ x = y := by
  cases ty with
  | int t => exact Words.ofInt_inj t.bits_pos (bits_le t) hx hy
  | bool => obtain rfl | rfl := hx <;> obtain rfl | rfl := hy <;> decide

theorem fits_zero (ty : Ty) : ty.Fits 0 := by
  cases ty with
  | bool => exact .inl rfl
  | int t => exact IntTy.fits_zero t

theorem word_eq_zero {ty : Ty} {x : ℤ} (hx : ty.Fits x) : word x = 0 ↔ x = 0 :=
  word_inj hx (fits_zero ty)

theorem word_toInt {t : IntTy} {z : ℤ} (hz : t.Fits z) : t.wrap (word z).toInt = z := by
  have hmod : (word z).toInt ≡ z [ZMOD 2 ^ 64] := by
    rw [BitVec.toInt_ofInt]
    have h := Int.bmod_emod (x := z) (m := 2 ^ 64)
    push_cast at h
    exact h
  have hbits : (2 : ℤ) ^ t.format.bits ∣ 2 ^ 64 := pow_dvd_pow 2 (bits_le t)
  calc t.wrap (word z).toInt = t.wrap z := Format.wrap_congr (hmod.of_dvd hbits)
    _ = z := IntTy.wrap_of_fits hz

section Unary
variable {s ty : Ty}

/-- The widths and signs an operator may be evaluated at. -/
def UnOp.EvaluatedAt (op : UnOp s ty) (width : ℕ) (isSigned : Bool) : Prop :=
  match op with
  | .minus (t := t) _ | .tilde (t := t) => width = t.bits ∧ isSigned = t.signed
  | .bang => True

theorem constUnaryOp_word {op : UnOp s ty} {z : ℤ} {width : ℕ} {isSigned : Bool}
    (hop : op.EvaluatedAt width isSigned) (hz : s.Fits z) :
    constUnaryOp op.token (word z) width isSigned = word (op.apply z) := by
  cases op with
  | minus _ =>
    obtain ⟨rfl, rfl⟩ := hop
    simp only [UnOp.token, UnOp.apply, constUnaryOp]
    have hneg : 0 - word z = word (-z) := by
      rw [word, word, BitVec.ofInt_neg]
      exact BitVec.zero_sub _
    rw [hneg, constMaskExtend_word]
  | tilde =>
    obtain ⟨rfl, rfl⟩ := hop
    simp only [UnOp.token, UnOp.apply, constUnaryOp]
    rw [← Words.ofInt_not, constMaskExtend_word]
  | bang =>
    simp only [UnOp.token, UnOp.apply, constUnaryOp, word_eq_zero hz]
    split <;> rfl

end Unary

section Binary
variable {s s' ty : Ty} {x y : ℤ} {t : IntTy}

def BinOp.EvaluatedAt (op : BinOp s s' ty) (width : ℕ) (isSigned : Bool) : Prop :=
  match op with
  | .arith (t := t) _ | .shift (t := t) _ | .compare (t := t) _ =>
    width = t.bits ∧ isSigned = t.signed
  | .equal _ _ | .logic _ => True

/-- A mask of the low bits of a shift count takes the count modulo the width. -/
theorem shift_count (t : IntTy) (y : ℤ) :
    (word (t.wrap y) &&& BitVec.ofNat 64 (t.bits - 1)).toNat = (y % t.bits).toNat := by
  obtain ⟨k, hk, hk'⟩ : ∃ k, t.bits = 2 ^ k ∧ k ≤ 6 := by
    cases t
    all_goals first
      | exact ⟨3, rfl, by decide⟩
      | exact ⟨4, rfl, by decide⟩
      | exact ⟨5, rfl, by decide⟩
      | exact ⟨6, rfl, by decide⟩
  have hpos : (0 : ℤ) < 2 ^ k := by positivity
  have hle : (2 : ℤ) ^ k ≤ 2 ^ 6 := pow_le_pow_right₀ (by norm_num) hk'
  have hwidth : (2 : ℤ) ^ k ∣ 2 ^ t.format.bits := by
    refine pow_dvd_pow 2 ?_
    change k ≤ t.bits
    rw [hk]
    exact Nat.lt_two_pow_self.le
  have hmod : t.wrap y % 2 ^ k = y % 2 ^ k := (t.format.wrap_modEq y).of_dvd hwidth
  have hnonneg := Int.emod_nonneg y hpos.ne'
  have hlt := Int.emod_lt_of_pos y hpos
  rw [← BitVec.ofInt_natCast, ← Words.ofInt_land, hk, Format.land_mask, hmod, BitVec.toNat_ofInt,
    Int.emod_eq_of_lt hnonneg (by omega)]
  push_cast
  rfl

theorem constBinaryOp_arith (op : IntOp) (hx : t.Fits x) (hy : t.Fits y) :
    constBinaryOp (arithToken op) (word x) (word y) t.bits t.signed =
      (op.apply t x y).map word := by
  have hzero : word y = 0 ↔ y = 0 := word_eq_zero (show (Ty.int t).Fits y from hy)
  cases op with
  | plus =>
    simp only [arithToken, constBinaryOp, constMaskExtend_of_fits hx, constMaskExtend_of_fits hy]
    rw [← BitVec.ofInt_add, constMaskExtend_word]
    rfl
  | minus =>
    simp only [arithToken, constBinaryOp, constMaskExtend_of_fits hx, constMaskExtend_of_fits hy]
    rw [← Words.ofInt_sub, constMaskExtend_word]
    rfl
  | star =>
    simp only [arithToken, constBinaryOp, constMaskExtend_of_fits hx, constMaskExtend_of_fits hy]
    rw [← BitVec.ofInt_mul, constMaskExtend_word]
    rfl
  | amp =>
    simp only [arithToken, constBinaryOp, constMaskExtend_of_fits hx, constMaskExtend_of_fits hy]
    rw [← Words.ofInt_land, constMaskExtend_of_fits (Format.Fits.land hx hy)]
    rfl
  | pipe =>
    simp only [arithToken, constBinaryOp, constMaskExtend_of_fits hx, constMaskExtend_of_fits hy]
    rw [← Words.ofInt_lor, constMaskExtend_of_fits (Format.Fits.lor hx hy)]
    rfl
  | caret =>
    simp only [arithToken, constBinaryOp, constMaskExtend_of_fits hx, constMaskExtend_of_fits hy]
    rw [← Words.ofInt_xor, constMaskExtend_of_fits (Format.Fits.xor hx hy)]
    rfl
  | slash =>
    have hdiv : (if t.signed then (word x).sdiv (word y) else word x / word y) =
        word (x.tdiv y) := by
      split
      · rename_i hs
        exact Words.sdiv_ofInt t.bits_pos (bits_le t) hx hy hs
      · rename_i hs
        exact Words.udiv_ofInt t.bits_pos (bits_le t) hx hy (Bool.eq_false_iff.mpr hs)
    simp only [arithToken, constBinaryOp, constMaskExtend_of_fits hx, constMaskExtend_of_fits hy,
      hzero, hdiv, constMaskExtend_word, IntOp.apply]
    split <;> rfl
  | percent =>
    have hrem : (if t.signed then (word x).srem (word y) else word x % word y) =
        word (x.tmod y) := by
      split
      · rename_i hs
        exact Words.srem_ofInt t.bits_pos (bits_le t) hx hy hs
      · rename_i hs
        exact Words.umod_ofInt t.bits_pos (bits_le t) hx hy (Bool.eq_false_iff.mpr hs)
    simp only [arithToken, constBinaryOp, constMaskExtend_of_fits hx, constMaskExtend_of_fits hy,
      hzero, hrem, constMaskExtend_of_fits (Format.Fits.tmod hx y), IntOp.apply]
    split <;> rfl

theorem constBinaryOp_shift (op : ShiftOp) (hx : t.Fits x) :
    constBinaryOp (shiftToken op) (word x) (word y) t.bits t.signed =
      some (word (op.apply t x y)) := by
  cases op with
  | ltlt =>
    simp only [shiftToken, constBinaryOp, constMaskExtend_of_fits hx, constMaskExtend_word,
      shift_count]
    rw [← Words.ofInt_shiftLeft, constMaskExtend_word]
    rfl
  | gtgt =>
    have hshift : ∀ n, (if t.signed then (word x).sshiftRight n else word x >>> n) =
        word (x / 2 ^ n) := by
      intro n
      split
      · rename_i hs
        exact Words.sshiftRight_ofInt t.bits_pos (bits_le t) hx hs n
      · rename_i hs
        exact Words.ushiftRight_ofInt t.bits_pos (bits_le t) hx (Bool.eq_false_iff.mpr hs) n
    have hfits : t.Fits (ShiftOp.apply t x y .gtgt) := ShiftOp.apply_fits .gtgt hx y
    simp only [shiftToken, constBinaryOp, constMaskExtend_of_fits hx, constMaskExtend_word,
      shift_count, hshift]
    rw [← ShiftOp.apply, IntTy.wrap_of_fits hfits]

theorem constBinaryOp_compare (op : CmpOp) (hx : t.Fits x) (hy : t.Fits y) (width : ℕ) :
    constBinaryOp (cmpToken op) (word x) (word y) width t.signed =
      some (word (if op.holds x y then 1 else 0)) := by
  have hlt : (if t.signed then (word x).slt (word y) else (word x).ult (word y)) =
      decide (x < y) := by
    split
    · rename_i hs
      exact Words.slt_ofInt t.bits_pos (bits_le t) hx hy hs
    · rename_i hs
      exact Words.ult_ofInt t.bits_pos (bits_le t) hx hy (Bool.eq_false_iff.mpr hs)
  have hgt : (if t.signed then (word y).slt (word x) else (word y).ult (word x)) =
      decide (y < x) := by
    split
    · rename_i hs
      exact Words.slt_ofInt t.bits_pos (bits_le t) hy hx hs
    · rename_i hs
      exact Words.ult_ofInt t.bits_pos (bits_le t) hy hx (Bool.eq_false_iff.mpr hs)
  have heq : (word x == word y) = decide (x = y) := by
    rw [beq_eq_decide, decide_eq_decide]
    exact word_inj (show (Ty.int t).Fits x from hx) hy
  have truth : ∀ b : Bool, some (if b then 1 else 0) = some (word (if b then 1 else 0)) :=
    fun b => congrArg some (word_truth b)
  cases op with
  | eqeq =>
    simp only [cmpToken, constBinaryOp, heq]
    exact truth _
  | bangeq =>
    simp only [cmpToken, constBinaryOp, bne, heq, ← decide_not]
    exact truth _
  | lt =>
    simp only [cmpToken, constBinaryOp, hlt]
    exact truth _
  | gt =>
    simp only [cmpToken, constBinaryOp, hgt]
    exact truth _
  | lteq =>
    simp only [cmpToken, constBinaryOp, hgt, ← decide_not, not_lt]
    exact truth _
  | gteq =>
    simp only [cmpToken, constBinaryOp, hlt, ← decide_not, not_lt]
    exact truth _

theorem constBinaryOp_word {op : BinOp s s' ty} {width : ℕ} {isSigned : Bool}
    (hop : op.EvaluatedAt width isSigned) (hx : s.Fits x) (hy : s'.Fits y) :
    constBinaryOp op.token (word x) (word y) width isSigned = (op.apply x y).map word := by
  cases op with
  | arith op =>
    obtain ⟨rfl, rfl⟩ := hop
    exact constBinaryOp_arith op hx hy
  | shift op =>
    obtain ⟨rfl, rfl⟩ := hop
    exact constBinaryOp_shift op hx
  | compare op =>
    obtain ⟨rfl, rfl⟩ := hop
    exact constBinaryOp_compare op hx hy _
  | equal op h =>
    obtain rfl | rfl := h <;> obtain rfl | rfl := hx <;> obtain rfl | rfl := hy <;> rfl
  | logic op =>
    cases op with
    | ampamp | pipepipe => obtain rfl | rfl := hx <;> obtain rfl | rfl := hy <;> rfl

end Binary

end FcLang.Const
