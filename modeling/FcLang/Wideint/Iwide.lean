import FcLang.Wideint.LimbArray

/-!
# Signed wide integers

An `Iwide n` denotes the balanced residue of its magnitude modulo `2 ^ n`, that
is, two's complement. Division strips the signs, divides magnitudes and puts
the signs back; negation wraps at the minimum, whose magnitude as an unsigned
number is still right.
-/

namespace FcLang.Wideint

structure Iwide (n : ℕ) where
  limbs : LimbArray n
  width : WidthOk n
  deriving DecidableEq

namespace Iwide
variable {n : ℕ}

def toInt (a : Iwide n) : ℤ := (a.limbs.val : ℤ).bmod (2 ^ n)

def neg (a : Iwide n) : Iwide n := ⟨a.limbs.neg, a.width⟩

def not (a : Iwide n) : Iwide n :=
  ⟨⟨limbsNot a.limbs.1, (limbsNot_length a.limbs.1).trans a.limbs.2⟩, a.width⟩

/-- The body that `div`, `rem` and `divmod` share, up to what each makes of the two signs and of
quotient and remainder of the magnitudes. -/
def divideMagnitudes {α : Type} (a b : Iwide n) (finish : Bool → Bool → Iwide n → Iwide n → α) :
    Exec α := do
  let an := (← limbsSign a.limbs.1) == 1
  let bn := (← limbsSign b.limbs.1) == 1
  let ua := if an then a.neg else a
  let ub := if bn then b.neg else b
  let qr ← LimbArray.divmod ua.limbs ub.limbs
  return finish an bn ⟨qr.1, a.width⟩ ⟨qr.2, a.width⟩

def div (a b : Iwide n) : Exec (Iwide n) :=
  divideMagnitudes a b fun an bn q _ => if an != bn then q.neg else q

def rem (a b : Iwide n) : Exec (Iwide n) :=
  divideMagnitudes a b fun an _ _ r => if an then r.neg else r

def divmod (a b : Iwide n) : Exec (Iwide n × Iwide n) :=
  divideMagnitudes a b fun an bn q r => (if an != bn then q.neg else q, if an then r.neg else r)

def checkedDiv (a b : Iwide n) : Exec (Iwide n) := do
  let minusOne := Iwide.not ⟨LimbArray.zero, a.width⟩
  let isMin ← limbsIsMinMag a.limbs.1
  Exec.require ¬(isMin = true ∧ b = minusOne)
  div a b

theorem even_pow (h : WidthOk n) : ∃ k : ℕ, 2 ^ n = 2 * k ∧ 0 < k := by
  have h64 : 64 ≤ n := h.2
  refine ⟨2 ^ (n - 1), ?_, by positivity⟩
  rw [← pow_succ', Nat.sub_add_cancel (by omega)]

/-- The upper half of the magnitudes denotes the negative numbers. -/
theorem toInt_eq (a : Iwide n) :
    a.toInt = if 2 * a.limbs.val < 2 ^ n then (a.limbs.val : ℤ) else a.limbs.val - 2 ^ n := by
  obtain ⟨k, hk, hpos⟩ := even_pow a.width
  have hlt := a.limbs.val_lt a.width
  have hmod : (a.limbs.val : ℤ) % ((2 ^ n : ℕ) : ℤ) = a.limbs.val :=
    Int.emod_eq_of_lt (by positivity) (by exact_mod_cast hlt)
  have hcast : (2 : ℤ) ^ n = ((2 ^ n : ℕ) : ℤ) := by push_cast; rfl
  rw [toInt, Int.bmod_def, hmod, hcast, hk]
  have hiff : (a.limbs.val : ℤ) < (((2 * k : ℕ) : ℤ) + 1) / 2 ↔ 2 * a.limbs.val < 2 * k := by omega
  simp only [hiff]

theorem toInt_of_emod {a : Iwide n} {z : ℤ}
    (h : (a.limbs.val : ℤ) % ((2 ^ n : ℕ) : ℤ) = z % ((2 ^ n : ℕ) : ℤ)) :
    a.toInt = z.bmod (2 ^ n) := by
  rw [toInt, ← Int.emod_bmod, h, Int.emod_bmod]

theorem neg_toInt (a : Iwide n) : a.neg.toInt = (-(a.limbs.val : ℤ)).bmod (2 ^ n) := by
  have hlt := a.limbs.val_lt a.width
  apply toInt_of_emod
  change ((a.limbs.neg.val : ℕ) : ℤ) % _ = _
  rw [LimbArray.neg_val a.width, Int.natCast_mod, Nat.cast_sub hlt.le, Int.emod_emod_of_dvd _ dvd_rfl,
    sub_eq_neg_add, Int.add_emod_right]

theorem sign_spec (a : Iwide n) :
    ∃ s, limbsSign a.limbs.1 = .ret s ∧ (s == 1) = decide (a.toInt < 0) := by
  obtain ⟨s, hs, hiff⟩ := LimbArray.sign_spec a.width a.limbs
  have hlt := a.limbs.val_lt a.width
  refine ⟨s, hs, ?_⟩
  rw [Bool.eq_iff_iff, beq_iff_eq, decide_eq_true_iff, hiff, toInt_eq]
  have hcast : (2 : ℤ) ^ n = ((2 ^ n : ℕ) : ℤ) := by push_cast; rfl
  rw [hcast]
  split_ifs <;> omega

/-- Stripping the sign leaves the absolute value, at the minimum too. -/
theorem magnitude_val (a : Iwide n) :
    (if decide (a.toInt < 0) then a.neg else a).limbs.val = a.toInt.natAbs := by
  have hlt := a.limbs.val_lt a.width
  have hcast : (2 : ℤ) ^ n = ((2 ^ n : ℕ) : ℤ) := by push_cast; rfl
  have hval := toInt_eq a
  rw [hcast] at hval
  by_cases hneg : a.toInt < 0
  · have hneg' : a.neg.limbs.val = (2 ^ n - a.limbs.val) % 2 ^ n := LimbArray.neg_val a.width _
    split_ifs at hval with h
    · omega
    · rw [decide_eq_true hneg, if_pos rfl, hneg', Nat.mod_eq_of_lt (by omega)]
      omega
  · split_ifs at hval with h
    · rw [decide_eq_false hneg, if_neg Bool.false_ne_true]
      omega
    · omega

theorem divideMagnitudes_spec (a b : Iwide n) (hb : b.toInt ≠ 0) :
    ∃ q r : Iwide n, (∀ {α : Type} (finish : Bool → Bool → Iwide n → Iwide n → α),
        divideMagnitudes a b finish = .ret (finish (a.toInt < 0) (b.toInt < 0) q r)) ∧
      q.limbs.val = a.toInt.natAbs / b.toInt.natAbs ∧
      r.limbs.val = a.toInt.natAbs % b.toInt.natAbs := by
  obtain ⟨sa, hsa, han⟩ := sign_spec a
  obtain ⟨sb, hsb, hbn⟩ := sign_spec b
  have hnz : (if decide (b.toInt < 0) then b.neg else b).limbs.val ≠ 0 := by
    rw [magnitude_val]
    omega
  obtain ⟨q, r, hrun, hq, hr⟩ := LimbArray.divmod_spec
    (if decide (a.toInt < 0) then a.neg else a).limbs
    (if decide (b.toInt < 0) then b.neg else b).limbs hnz
  rw [magnitude_val, magnitude_val] at hq hr
  refine ⟨⟨q, a.width⟩, ⟨r, a.width⟩, ?_, hq, hr⟩
  intro α finish
  simp only [divideMagnitudes, hsa, hsb, Exec.ret_bind, han, hbn, hrun, Exec.pure_eq]

theorem divideMagnitudes_zero {α : Type} (a b : Iwide n) (hb : b.toInt = 0)
    (finish : Bool → Bool → Iwide n → Iwide n → α) : divideMagnitudes a b finish = .abort := by
  obtain ⟨sa, hsa, han⟩ := sign_spec a
  obtain ⟨sb, hsb, hbn⟩ := sign_spec b
  have hz : (if decide (b.toInt < 0) then b.neg else b).limbs.val = 0 := by
    rw [magnitude_val, hb, Int.natAbs_zero]
  have hrun := LimbArray.divmod_zero (if decide (a.toInt < 0) then a.neg else a).limbs hz
  simp only [divideMagnitudes, hsa, hsb, Exec.ret_bind, han, hbn, hrun, Exec.abort_bind]

theorem tdiv_eq_signed (x y : ℤ) : x.tdiv y =
    if (decide (x < 0) != decide (y < 0)) = true then -((x.natAbs / y.natAbs : ℕ) : ℤ)
    else ((x.natAbs / y.natAbs : ℕ) : ℤ) := by
  rcases Int.natAbs_eq x with hx | hx <;> rcases Int.natAbs_eq y with hy | hy <;>
    generalize x.natAbs = m at * <;> generalize y.natAbs = k at * <;> subst hx <;> subst hy
  · have hm : ¬(m : ℤ) < 0 := by omega
    have hk : ¬(k : ℤ) < 0 := by omega
    simp [hm, hk]
  · rcases Nat.eq_zero_or_pos k with rfl | hk
    · simp
    · simp [hk]
  · rcases Nat.eq_zero_or_pos m with rfl | hm
    · simp
    · simp [hm]
  · rcases Nat.eq_zero_or_pos m with rfl | hm
    · simp
    · rcases Nat.eq_zero_or_pos k with rfl | hk
      · simp
      · simp [hm, hk]

theorem tmod_eq_signed (x y : ℤ) : x.tmod y =
    if decide (x < 0) = true then -((x.natAbs % y.natAbs : ℕ) : ℤ)
    else ((x.natAbs % y.natAbs : ℕ) : ℤ) := by
  have hy : x.tmod y = x.tmod y.natAbs := by
    rcases Int.natAbs_eq y with h | h
    · rw [← h]
    · conv_lhs => rw [h, Int.tmod_neg]
  rw [hy]
  rcases lt_or_ge x 0 with hx | hx
  · rw [decide_eq_true hx, if_pos rfl]
    have habs : x = -(x.natAbs : ℤ) := by omega
    conv_lhs => rw [habs, Int.neg_tmod]
    rfl
  · rw [decide_eq_false (not_lt.mpr hx), if_neg Bool.false_ne_true]
    have habs : x = (x.natAbs : ℤ) := by omega
    conv_lhs => rw [habs]
    rfl

theorem two_mul_natAbs_le (a : Iwide n) : 2 * a.toInt.natAbs ≤ 2 ^ n := by
  have hlt := a.limbs.val_lt a.width
  have hval := toInt_eq a
  have hcast : (2 : ℤ) ^ n = ((2 ^ n : ℕ) : ℤ) := by push_cast; rfl
  rw [hcast] at hval
  split_ifs at hval <;> omega

/-- Putting a sign back on a magnitude. -/
theorem signed_toInt (neg : Bool) (q : Iwide n) :
    (if neg = true then q.neg else q).toInt =
      (if neg = true then -(q.limbs.val : ℤ) else q.limbs.val).bmod (2 ^ n) := by
  cases neg with
  | false => rfl
  | true => exact neg_toInt q

theorem toInt_injective {a b : Iwide n} (h : a.toInt = b.toInt) : a = b := by
  have ha := a.limbs.val_lt a.width
  have hb := b.limbs.val_lt b.width
  have hcast : (2 : ℤ) ^ n = ((2 ^ n : ℕ) : ℤ) := by push_cast; rfl
  have hval : a.limbs.val = b.limbs.val := by
    rw [toInt_eq, toInt_eq, hcast] at h
    split_ifs at h <;> omega
  have hlimbs := LimbArray.val_injective hval
  cases a
  cases b
  simpa using hlimbs

theorem minusOne_toInt (h : WidthOk n) : (not (⟨LimbArray.zero, h⟩ : Iwide n)).toInt = -1 := by
  obtain ⟨k, hk, hpos⟩ := even_pow h
  have hval : (not (⟨LimbArray.zero, h⟩ : Iwide n)).limbs.val + 1 = 2 ^ n := by
    have hnot := limbsNot_val (LimbArray.zero (n := n)).1
    rwa [show limbsVal (LimbArray.zero (n := n)).1 = 0 from limbsVal_replicate_zero _, Nat.add_zero,
      LimbArray.zero.2, h.pow_limbs] at hnot
  have hcast : (2 : ℤ) ^ n = ((2 ^ n : ℕ) : ℤ) := by push_cast; rfl
  rw [toInt_eq, hcast, if_neg (by omega)]
  omega

theorem toInt_eq_min_iff (a : Iwide n) :
    2 * a.limbs.val = 2 ^ n ↔ a.toInt = -2 ^ (n - 1) := by
  have h64 : 64 ≤ n := a.width.2
  have hpow : (2 : ℤ) ^ n = 2 * 2 ^ (n - 1) := by
    rw [← pow_succ', Nat.sub_add_cancel (by omega)]
  have hcast : (2 : ℤ) ^ n = ((2 ^ n : ℕ) : ℤ) := by push_cast; rfl
  have hpos : (0 : ℤ) < 2 ^ (n - 1) := by positivity
  rw [toInt_eq]
  split_ifs <;> omega

theorem divmod_ret (a b : Iwide n) (hb : b.toInt ≠ 0) :
    ∃ q r, divmod a b = .ret (q, r) ∧ div a b = .ret q ∧ rem a b = .ret r ∧
      q.toInt = (a.toInt.tdiv b.toInt).bmod (2 ^ n) ∧ r.toInt = a.toInt.tmod b.toInt := by
  obtain ⟨q, r, hrun, hq, hr⟩ := divideMagnitudes_spec a b hb
  refine ⟨_, _, hrun _, hrun _, hrun _, ?_, ?_⟩
  · rw [signed_toInt, tdiv_eq_signed, hq]
  · have hlt : a.toInt.natAbs % b.toInt.natAbs < b.toInt.natAbs := Nat.mod_lt _ (by omega)
    have hbound := two_mul_natAbs_le b
    rw [signed_toInt, hr, ← tmod_eq_signed]
    -- the remainder is smaller than a magnitude, so it is its own residue
    have habs : (a.toInt.tmod b.toInt).natAbs = a.toInt.natAbs % b.toInt.natAbs :=
      Int.natAbs_tmod _ _
    exact Int.bmod_eq_of_le_mul_two (by omega) (by omega)

/-- The minimum divided by minus one wraps back to the minimum and leaves no remainder. -/
theorem min_divmod_minusOne {a b : Iwide n} (ha : a.toInt = -2 ^ (n - 1)) (hb : b.toInt = -1) :
    (a.toInt.tdiv b.toInt).bmod (2 ^ n) = -2 ^ (n - 1) ∧ a.toInt.tmod b.toInt = 0 := by
  have h64 : 64 ≤ n := a.width.2
  have hpow : (2 : ℤ) ^ n = 2 * 2 ^ (n - 1) := by
    rw [← pow_succ', Nat.sub_add_cancel (by omega)]
  rw [ha, hb]
  constructor
  · rw [Int.tdiv_neg, Int.tdiv_one, neg_neg]
    exact Int.bmod_eq_neg (by positivity) (by push_cast; exact hpow)
  · rw [Int.tmod_neg, Int.tmod_one]

theorem checkedDiv_run (a b : Iwide n) :
    checkedDiv a b = if a.toInt = -2 ^ (n - 1) ∧ b.toInt = -1 then .abort else div a b := by
  obtain ⟨m, hm, hmin⟩ := LimbArray.isMinMag_spec a.width a.limbs
  have hb : b = not ⟨LimbArray.zero, a.width⟩ ↔ b.toInt = -1 :=
    ⟨fun h => by rw [h, minusOne_toInt], fun h => toInt_injective (by rw [h, minusOne_toInt])⟩
  rw [toInt_eq_min_iff a] at hmin
  simp only [checkedDiv, hm, Exec.ret_bind, Exec.require, hmin, hb]
  split_ifs <;> rfl

/-- Signed division truncates: every sign, the minimum on either side and a zero remainder
included; the checked form aborts exactly on a zero divisor and on the minimum by minus one. -/
theorem divmod_truncated (a b : Iwide n) :
    (b.toInt ≠ 0 → ∃ q r, divmod a b = .ret (q, r) ∧ div a b = .ret q ∧ rem a b = .ret r ∧
      q.toInt = (a.toInt.tdiv b.toInt).bmod (2 ^ n) ∧
      r.toInt = a.toInt - b.toInt * a.toInt.tdiv b.toInt ∧
      (r.toInt = 0 ∨ r.toInt.sign = a.toInt.sign) ∧ |r.toInt| < |b.toInt| ∧
      (a.toInt = -2 ^ (n - 1) → b.toInt = -1 → q.toInt = -2 ^ (n - 1) ∧ r.toInt = 0)) ∧
    (checkedDiv a b = .abort ↔ b.toInt = 0 ∨ a.toInt = -2 ^ (n - 1) ∧ b.toInt = -1) := by
  constructor
  · intro hb
    obtain ⟨q, r, hdm, hd, hrem, hq, hr⟩ := divmod_ret a b hb
    refine ⟨q, r, hdm, hd, hrem, hq, by rw [hr, Int.tmod_def], ?_, ?_, ?_⟩
    · rw [hr, Int.sign_tmod]
      by_cases hdvd : b.toInt ∣ a.toInt
      · exact Or.inl (Int.tmod_eq_zero_of_dvd hdvd)
      · exact Or.inr (if_neg hdvd)
    · rw [hr, Int.abs_eq_natAbs, Int.abs_eq_natAbs, Int.natAbs_tmod]
      exact_mod_cast Nat.mod_lt _ (by omega)
    · intro hmin hone
      rw [hq, hr]
      exact min_divmod_minusOne hmin hone
  · rw [checkedDiv_run]
    by_cases hb : b.toInt = 0
    · simp [hb, div, divideMagnitudes_zero a b hb]
    · obtain ⟨q, r, -, hd, -⟩ := divmod_ret a b hb
      simp [hb, hd]

/-- The minimum by minus three, at 64 bits. -/
theorem divmod_truncated_min : ∃ q r,
    divmod (n := 64) ⟨⟨[0, 0x80000000], rfl⟩, by decide⟩ ⟨⟨[0xFFFFFFFD, 0xFFFFFFFF], rfl⟩, by decide⟩ =
      .ret (q, r) ∧ q.toInt = 3074457345618258602 ∧ r.toInt = -2 := by
  obtain ⟨q, r, hdm, -, -, hq, hr, -⟩ := (divmod_truncated (n := 64)
    ⟨⟨[0, 0x80000000], rfl⟩, by decide⟩ ⟨⟨[0xFFFFFFFD, 0xFFFFFFFF], rfl⟩, by decide⟩).1 (by decide)
  exact ⟨q, r, hdm, hq.trans (by decide), hr.trans (by decide)⟩

end Iwide

end FcLang.Wideint
