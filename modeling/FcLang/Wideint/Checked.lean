import FcLang.Wideint.Arithmetic

/-!
# Checked arithmetic

Every checked operation returns the mathematical result when it fits the width
and aborts otherwise. Overflow is read from a carry, from the limbs above the
width, or from the signs of a wrapped result.
-/

namespace FcLang.Wideint
variable {n : ℕ}

namespace Uwide

def checkedAdd (a b : Uwide n) : Exec (Uwide n) := do
  let r := a.limbs.add b.limbs
  Exec.require (r.2 = 0)
  return ⟨r.1, a.width⟩

def checkedSub (a b : Uwide n) : Exec (Uwide n) := do
  let r := a.limbs.sub b.limbs
  Exec.require (r.2 = 0)
  return ⟨r.1, a.width⟩

theorem range_low_length {full low : List UInt32}
    (h : Slice.range full 0 ((n / 32 : ℕ) : ℤ) = .ret low) : low.length = n / 32 := by
  obtain ⟨⟨-, -, hle⟩, rfl⟩ := Slice.range_eq_ret.mp h
  simp only [Int.toNat_zero, List.drop_zero, List.length_take, sub_zero, Int.toNat_natCast]
  omega

def checkedMul (a b : Uwide n) : Exec (Uwide n) := do
  let full := limbsMulFull (List.replicate (n / 16) 0) a.limbs.1 b.limbs.1
  let high ← Slice.range full (n / 32 : ℕ) (n / 16 : ℕ)
  Exec.require (limbsIsZero high = true)
  let ⟨low, h⟩ ← (Slice.range full 0 (n / 32 : ℕ)).attach
  return ⟨⟨low, range_low_length h⟩, a.width⟩

end Uwide

namespace Iwide

/-- `iwide.abs` -/
def abs (a : Iwide n) : Exec (Iwide n) := do
  let s ← limbsSign a.limbs.1
  return if s = 1 then neg a else a

def checkedAdd (a b : Iwide n) : Exec (Iwide n) := do
  let r := add a b
  let sa ← limbsSign a.limbs.1
  let sb ← limbsSign b.limbs.1
  let sr ← limbsSign r.limbs.1
  Exec.require ¬(sa = sb ∧ sr ≠ sa)
  return r

def checkedSub (a b : Iwide n) : Exec (Iwide n) := do
  let r := sub a b
  let sa ← limbsSign a.limbs.1
  let sb ← limbsSign b.limbs.1
  let sr ← limbsSign r.limbs.1
  Exec.require ¬(sa ≠ sb ∧ sr ≠ sa)
  return r

def checkedMul (a b : Iwide n) : Exec (Iwide n) := do
  let an := (← limbsSign a.limbs.1) == 1
  let bn := (← limbsSign b.limbs.1) == 1
  let ua := if an then neg a else a
  let ub := if bn then neg b else b
  let full := limbsMulFull (List.replicate (n / 16) 0) ua.limbs.1 ub.limbs.1
  let fits ← limbsSignedMulFits full (an != bn)
  Exec.require (fits = true)
  return mul a b

def checkedNeg (a : Iwide n) : Exec (Iwide n) := do
  let isMin ← limbsIsMinMag a.limbs.1
  Exec.require ¬isMin = true
  return neg a

def checkedAbs (a : Iwide n) : Exec (Iwide n) := do
  let isMin ← limbsIsMinMag a.limbs.1
  Exec.require ¬isMin = true
  abs a

end Iwide

/-- The run returns what denotes `z`, if `z` lies between the bounds, and else aborts. -/
def ExactOrAbort {α : Type} (denote : α → ℤ) (lo hi z : ℤ) (run : Exec α) : Prop :=
  if lo ≤ z ∧ z < hi then ∃ r, run = .ret r ∧ denote r = z else run = .abort

theorem exactOrAbort_require {α : Type} {denote : α → ℤ} {lo hi z : ℤ} {p : Prop} [Decidable p]
    {r : α} (hp : p ↔ lo ≤ z ∧ z < hi) (hr : lo ≤ z ∧ z < hi → denote r = z) :
    ExactOrAbort denote lo hi z (Exec.require p >>= fun _ => .ret r) := by
  rw [ExactOrAbort]
  by_cases h : lo ≤ z ∧ z < hi
  · rw [if_pos h, Exec.require_of (hp.mpr h)]
    exact ⟨r, rfl, hr h⟩
  · rw [if_neg h, Exec.require, if_neg (mt hp.mp h)]
    rfl

theorem two_pow_half (h : WidthOk n) : (2 : ℤ) ^ n = 2 * 2 ^ (n - 1) := by
  have h64 : 64 ≤ n := h.2
  rw [← pow_succ', Nat.sub_add_cancel (by omega)]

section Unsigned
open Uwide
variable (a b : Uwide n)

theorem Uwide.checkedAdd_exact :
    ExactOrAbort (fun r : Uwide n => (r.toNat : ℤ)) 0 (2 ^ n) (a.toNat + b.toNat)
      (checkedAdd a b) := by
  have hcarry := addCarry_carry a b
  have hval := add_toNat a b
  apply exactOrAbort_require
  · rw [addCarry, decide_eq_true_iff] at hcarry
    have hcast : (2 : ℤ) ^ n = ((2 ^ n : ℕ) : ℤ) := by push_cast; rfl
    rw [← not_iff_not, ← ne_eq, hcarry, hcast]
    omega
  · rintro ⟨-, hlt⟩
    have hlt' : a.toNat + b.toNat < 2 ^ n := by exact_mod_cast hlt
    rw [Nat.mod_eq_of_lt hlt'] at hval
    exact_mod_cast hval

theorem Uwide.checkedSub_exact :
    ExactOrAbort (fun r : Uwide n => (r.toNat : ℤ)) 0 (2 ^ n) (a.toNat - b.toNat)
      (checkedSub a b) := by
  have hborrow := subBorrow_borrow a b
  have hval := sub_toNat a b
  have hlt : (a.toNat : ℤ) < 2 ^ n := by exact_mod_cast a.toNat_lt
  apply exactOrAbort_require
  · rw [subBorrow, decide_eq_true_iff] at hborrow
    rw [← not_iff_not, ← ne_eq, hborrow]
    omega
  · rintro ⟨hnonneg, hlt⟩
    rwa [Int.emod_eq_of_lt hnonneg hlt] at hval

/-- The two halves of a full product. -/
theorem mulFull_halves (hn : WidthOk n) (a b : LimbArray n) :
    ∃ low high : List UInt32,
      limbsMulFull (List.replicate (n / 16) 0) a.1 b.1 = low ++ high ∧ low.length = n / 32 ∧
        high.length = n / 32 ∧ limbsVal low + 2 ^ n * limbsVal high = a.val * b.val := by
  have hk : n / 16 = 2 * (n / 32) := by
    have h32 := hn.1
    omega
  obtain ⟨hlen, hval⟩ := LimbArray.mulFull_val hk a b
  refine ⟨_, _, (List.take_append_drop (n / 32) _).symm, ?_, ?_, ?_⟩
  · rw [List.length_take, hlen]
    omega
  · rw [List.length_drop, hlen]
    omega
  · rw [← hval]
    conv_rhs => rw [← List.take_append_drop (n / 32) (limbsMulFull _ _ _)]
    rw [limbsVal_append, List.length_take_of_le (by rw [hlen]; omega), hn.pow_limbs]

theorem range_low {low : List UInt32} (high : List UInt32) {m : ℕ} (h : low.length = m) :
    Slice.range (low ++ high) 0 (m : ℤ) = .ret low := by
  rw [Slice.range_eq_ret]
  refine ⟨⟨le_rfl, by omega, by rw [List.length_append]; omega⟩, ?_⟩
  simp [← h]

theorem range_high {low high : List UInt32} {m k : ℕ} (h : low.length = m)
    (hk : m + high.length = k) : Slice.range (low ++ high) (m : ℤ) (k : ℤ) = .ret high := by
  rw [Slice.range_eq_ret]
  refine ⟨⟨by omega, by omega, by rw [List.length_append]; omega⟩, ?_⟩
  rw [Int.toNat_natCast, ← h, List.drop_left, List.take_of_length_le (by omega)]

theorem Uwide.checkedMul_exact :
    ExactOrAbort (fun r : Uwide n => (r.toNat : ℤ)) 0 (2 ^ n) (a.toNat * b.toNat)
      (checkedMul a b) := by
  obtain ⟨low, high, hfull, hlow, hhigh, hval⟩ := mulFull_halves a.width a.limbs b.limbs
  have hk : n / 32 + high.length = n / 16 := by
    have h32 := a.width.1
    omega
  have hlt : limbsVal low < 2 ^ n := by
    have h := limbsVal_lt low
    rwa [hlow, a.width.pow_limbs] at h
  have hprod : (a.toNat : ℤ) * b.toNat = ((limbsVal low + 2 ^ n * limbsVal high : ℕ) : ℤ) := by
    rw [hval]
    push_cast
    rfl
  have hhighRun := range_high hlow hk
  have hlowRun := range_low high hlow
  rw [← hfull] at hhighRun hlowRun
  rw [checkedMul]
  simp only [hhighRun, Exec.ret_bind, Exec.attach_of_eq hlowRun, Exec.pure_eq]
  have hfits : limbsVal high = 0 ↔ limbsVal low + 2 ^ n * limbsVal high < 2 ^ n := by
    constructor
    · intro h
      rw [h]
      omega
    · intro h
      by_contra hne
      have := Nat.le_mul_of_pos_right (2 ^ n) (Nat.pos_of_ne_zero hne)
      omega
  apply exactOrAbort_require
  · rw [limbsIsZero_iff, hfits, hprod]
    constructor
    · intro h
      exact ⟨by positivity, by exact_mod_cast h⟩
    · intro h
      exact_mod_cast h.2
  · rintro ⟨-, hlt'⟩
    rw [hprod] at hlt' ⊢
    have hzero := hfits.mpr (by exact_mod_cast hlt')
    rw [hzero]
    rfl

end Unsigned

section Signed
open Iwide

/-- The sign limb of the magnitudes below the product's upper half. -/
theorem limbsSignedMulFits_spec {low high : List UInt32} {P : ℕ} (hlow : low ≠ [])
    (hlen : high.length = low.length) (hP : (2 ^ 32) ^ low.length = P) (negResult : Bool) :
    ∃ fits, limbsSignedMulFits (low ++ high) negResult = .ret fits ∧
      (fits = true ↔ if negResult = true then 2 * (limbsVal low + P * limbsVal high) ≤ P
        else 2 * (limbsVal low + P * limbsVal high) < P) := by
  have hhalf : ((low ++ high).length : ℤ) / 2 = (low.length : ℕ) := by
    rw [List.length_append, hlen]
    omega
  have hrun : Slice.range (low ++ high) (low.length : ℕ) ((low ++ high).length : ℕ) = .ret high :=
    range_high rfl List.length_append.symm
  obtain ⟨s, hs, hsign⟩ := limbsSign_spec hlow
  obtain ⟨m, hm, hmin⟩ := limbsIsMinMag_spec hlow
  obtain ⟨top, htop, hshift⟩ := Exec.bind_eq_ret.mp hs
  cases hshift
  have hlt := limbsVal_lt low
  rw [hP] at hsign hmin hlt
  have htop' : Slice.get (low ++ high) ((low.length : ℕ) - 1 : ℤ) = .ret top := by
    obtain ⟨h0, hget⟩ := Slice.get_eq_ret.mp htop
    rw [Slice.get_eq_ret]
    refine ⟨h0, ?_⟩
    obtain ⟨hbound, -⟩ := List.getElem?_eq_some_iff.mp hget
    rw [List.getElem?_append_left hbound, hget]
  have hclear : top >>> 31 = 0 ↔ ¬P ≤ 2 * limbsVal low := by
    rw [← hsign]
    rcases limbsSign_zero_or_one hs with h | h <;> simp [h]
  have hzero := limbsIsZero_iff high
  have hhigh : limbsVal high = 0 ∨ P ≤ P * limbsVal high := by
    rcases Nat.eq_zero_or_pos (limbsVal high) with h | h
    · exact .inl h
    · exact .inr (Nat.le_mul_of_pos_right P h)
  have hlowRun := range_low high (rfl : low.length = low.length)
  simp only [limbsSignedMulFits, hhalf, hrun, Exec.ret_bind, htop', hlowRun, hm]
  cases negResult with
  | false =>
    refine ⟨_, rfl, ?_⟩
    rw [Bool.and_eq_true, hzero, beq_iff_eq, hclear, if_neg Bool.false_ne_true]
    rcases hhigh with h | h
    · simp [h]
    · constructor
      · rintro ⟨h0, -⟩
        rw [h0] at h ⊢
        omega
      · intro h'
        omega
  | true =>
    simp only [if_true]
    by_cases hz : limbsVal high = 0
    · rw [if_pos (hzero.mpr hz), hz]
      by_cases hc : top >>> 31 = 0
      · rw [if_pos (beq_iff_eq.mpr hc)]
        refine ⟨true, rfl, iff_of_true rfl ?_⟩
        have := hclear.mp hc
        omega
      · rw [if_neg (mt beq_iff_eq.mp hc)]
        refine ⟨m, rfl, hmin.trans ?_⟩
        rw [hclear, not_not] at hc
        omega
    · rw [if_neg (mt hzero.mp hz)]
      refine ⟨false, rfl, iff_of_false Bool.false_ne_true ?_⟩
      have := hhigh.resolve_left hz
      have hpos : 0 < P := by
        rw [← hP]
        positivity
      omega

variable (a b : Iwide n)

/-- What a number of the width lies between. -/
theorem Iwide.toInt_range : -2 ^ (n - 1) ≤ a.toInt ∧ a.toInt < 2 ^ (n - 1) := by
  have hlt : (a.limbs.val : ℤ) < 2 ^ n := by exact_mod_cast a.limbs.val_lt a.width
  have hval := a.toInt_eq
  have hpow := two_pow_half a.width
  have hcast : (2 : ℤ) ^ n = ((2 ^ n : ℕ) : ℤ) := by push_cast; rfl
  rw [hcast] at hval hlt hpow
  split_ifs at hval <;> omega

/-- A residue of a number that fits is that number. -/
theorem bmod_of_fits (h : WidthOk n) {z : ℤ} (hz : -2 ^ (n - 1) ≤ z ∧ z < 2 ^ (n - 1)) :
    z.bmod (2 ^ n) = z := by
  have hpow := two_pow_half h
  have hcast : (2 : ℤ) ^ n = ((2 ^ n : ℕ) : ℤ) := by push_cast; rfl
  rw [hcast] at hpow
  apply Int.bmod_eq_of_le_mul_two <;> omega

/-- Of a number less than twice out of range, the residue has the other sign. -/
theorem bmod_neg_iff (h : WidthOk n) {z : ℤ} (hz : -2 ^ n ≤ z ∧ z < 2 ^ n) :
    z.bmod (2 ^ n) < 0 ↔ -2 ^ (n - 1) ≤ z ∧ z < 0 ∨ 2 ^ (n - 1) ≤ z := by
  have hpow := two_pow_half h
  have hcast : (2 : ℤ) ^ n = ((2 ^ n : ℕ) : ℤ) := by push_cast; rfl
  rw [hcast] at hpow hz
  by_cases hlow : -2 ^ (n - 1) ≤ z
  · by_cases hup : z < 2 ^ (n - 1)
    · rw [bmod_of_fits h ⟨hlow, hup⟩]
      omega
    · rw [← Int.sub_bmod_right, bmod_of_fits h (by omega)]
      omega
  · rw [← Int.add_bmod_right, bmod_of_fits h (by omega)]
    omega

theorem Iwide.checkedAdd_exact :
    ExactOrAbort toInt (-2 ^ (n - 1)) (2 ^ (n - 1)) (a.toInt + b.toInt) (checkedAdd a b) := by
  have ha := a.toInt_range
  have hb := b.toInt_range
  have hpow := two_pow_half a.width
  have hneg := bmod_neg_iff a.width (z := a.toInt + b.toInt) (by omega)
  rw [← add_toInt] at hneg
  rw [checkedAdd]
  simp only [sign_eq, Exec.ret_bind, Exec.pure_eq]
  apply exactOrAbort_require
  · by_cases h1 : a.toInt < 0 <;> by_cases h2 : b.toInt < 0 <;>
      by_cases h3 : (add a b).toInt < 0 <;> simp [h1, h2, h3] <;> rw [hneg] at h3 <;> omega
  · intro h
    rw [add_toInt, bmod_of_fits a.width h]

theorem Iwide.checkedSub_exact :
    ExactOrAbort toInt (-2 ^ (n - 1)) (2 ^ (n - 1)) (a.toInt - b.toInt) (checkedSub a b) := by
  have ha := a.toInt_range
  have hb := b.toInt_range
  have hpow := two_pow_half a.width
  have hneg := bmod_neg_iff a.width (z := a.toInt - b.toInt) (by omega)
  rw [← sub_toInt] at hneg
  rw [checkedSub]
  simp only [sign_eq, Exec.ret_bind, Exec.pure_eq]
  apply exactOrAbort_require
  · by_cases h1 : a.toInt < 0 <;> by_cases h2 : b.toInt < 0 <;>
      by_cases h3 : (sub a b).toInt < 0 <;> simp [h1, h2, h3] <;> rw [hneg] at h3 <;> omega
  · intro h
    rw [sub_toInt, bmod_of_fits a.width h]

theorem Iwide.isMinMag_eq : limbsIsMinMag a.limbs.1 = .ret (decide (a.toInt = -2 ^ (n - 1))) := by
  obtain ⟨m, hm, hmin⟩ := LimbArray.isMinMag_spec a.width a.limbs
  rw [toInt_eq_min_iff] at hmin
  rw [hm, Bool.eq_iff_iff.mpr (hmin.trans decide_eq_true_iff.symm)]

theorem Iwide.checkedNeg_exact :
    ExactOrAbort toInt (-2 ^ (n - 1)) (2 ^ (n - 1)) (-a.toInt) (checkedNeg a) := by
  have ha := a.toInt_range
  rw [checkedNeg]
  simp only [isMinMag_eq, Exec.ret_bind, Exec.pure_eq, decide_eq_true_eq]
  apply exactOrAbort_require
  · omega
  · intro h
    rw [neg_toInt_neg, bmod_of_fits a.width h]

theorem Iwide.checkedAbs_exact :
    ExactOrAbort toInt (-2 ^ (n - 1)) (2 ^ (n - 1)) |a.toInt| (checkedAbs a) := by
  have ha := a.toInt_range
  rw [checkedAbs]
  simp only [isMinMag_eq, Exec.ret_bind, abs, sign_eq, Exec.pure_eq, decide_eq_true_eq]
  apply exactOrAbort_require
  · have hnonneg := abs_nonneg a.toInt
    rcases abs_cases a.toInt with h | h <;> omega
  · intro h
    by_cases hneg : a.toInt < 0
    · rw [abs_of_neg hneg] at h ⊢
      simp only [if_pos hneg, if_true]
      rw [neg_toInt_neg, bmod_of_fits a.width h]
    · rw [abs_of_nonneg (not_lt.mp hneg)]
      simp [hneg]

/-- A product from its magnitude. -/
theorem mul_eq_signed (x y : ℤ) : x * y =
    if (decide (x < 0) != decide (y < 0)) = true then -((x.natAbs * y.natAbs : ℕ) : ℤ)
    else ((x.natAbs * y.natAbs : ℕ) : ℤ) := by
  push_cast
  rcases lt_or_ge x 0 with hx | hx <;> rcases lt_or_ge y 0 with hy | hy
  · simp [hx, hy, abs_of_neg]
  · simp [hx, hy.not_gt, abs_of_neg, abs_of_nonneg hy]
  · simp [hx.not_gt, hy, abs_of_neg, abs_of_nonneg hx]
  · simp [hx.not_gt, hy.not_gt, abs_of_nonneg hx, abs_of_nonneg hy]

theorem Iwide.checkedMul_exact :
    ExactOrAbort toInt (-2 ^ (n - 1)) (2 ^ (n - 1)) (a.toInt * b.toInt) (checkedMul a b) := by
  have han : ((if a.toInt < 0 then 1 else 0 : UInt32) == 1) = decide (a.toInt < 0) := by
    split_ifs with h <;> simp [h]
  have hbn : ((if b.toInt < 0 then 1 else 0 : UInt32) == 1) = decide (b.toInt < 0) := by
    split_ifs with h <;> simp [h]
  obtain ⟨low, high, hfull, hlow, hhigh, hval⟩ := mulFull_halves a.width
    (if decide (a.toInt < 0) then a.neg else a).limbs
    (if decide (b.toInt < 0) then b.neg else b).limbs
  rw [magnitude_val, magnitude_val] at hval
  have hne : low ≠ [] := by
    have h64 := a.width.2
    rw [← List.length_pos_iff, hlow]
    omega
  have hP : (2 ^ 32) ^ low.length = 2 ^ n := by rw [hlow, a.width.pow_limbs]
  obtain ⟨fits, hrun, hiff⟩ := limbsSignedMulFits_spec hne (hhigh.trans hlow.symm) hP
    (decide (a.toInt < 0) != decide (b.toInt < 0))
  rw [hval] at hiff
  rw [checkedMul]
  simp only [sign_eq, Exec.ret_bind, han, hbn, hfull, hrun, Exec.pure_eq]
  apply exactOrAbort_require
  · have hpow := two_pow_half a.width
    have hcast : (2 : ℤ) ^ n = ((2 ^ n : ℕ) : ℤ) := by push_cast; rfl
    rw [hcast] at hpow
    have hprod := mul_eq_signed a.toInt b.toInt
    have hpos : (0 : ℤ) < 2 ^ (n - 1) := by positivity
    rw [hiff]
    generalize a.toInt.natAbs * b.toInt.natAbs = m at hprod
    split_ifs at hprod ⊢ <;> rw [hprod] <;> omega
  · intro h
    rw [mul_toInt, bmod_of_fits a.width h]

end Signed

/-- Every checked operation returns the exact result when it fits and aborts when it does not. -/
theorem checked_exact (a b : Uwide n) (x y : Iwide n) :
    let unsigned := ExactOrAbort (fun r : Uwide n => (r.toNat : ℤ)) 0 (2 ^ n)
    let signed := ExactOrAbort (Iwide.toInt (n := n)) (-2 ^ (n - 1)) (2 ^ (n - 1))
    unsigned (a.toNat + b.toNat) (a.checkedAdd b) ∧
    unsigned (a.toNat - b.toNat) (a.checkedSub b) ∧
    unsigned (a.toNat * b.toNat) (a.checkedMul b) ∧
    signed (x.toInt + y.toInt) (x.checkedAdd y) ∧
    signed (x.toInt - y.toInt) (x.checkedSub y) ∧
    signed (x.toInt * y.toInt) (x.checkedMul y) ∧
    signed (-x.toInt) x.checkedNeg ∧ signed |x.toInt| x.checkedAbs :=
  ⟨a.checkedAdd_exact b, a.checkedSub_exact b, a.checkedMul_exact b, x.checkedAdd_exact y,
    x.checkedSub_exact y, x.checkedMul_exact y, x.checkedNeg_exact, x.checkedAbs_exact⟩

end FcLang.Wideint
