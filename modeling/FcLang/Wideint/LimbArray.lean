import FcLang.Wideint.LimbsDivmod

/-!
# Limb arrays of a fixed width

The inline array that both wide integer types wrap, with its length as part of
the type, and the routines of the limb core at that type.
-/

namespace FcLang.Wideint

/-- The assertion under which a width instantiates. -/
def WidthOk (n : ℕ) : Prop := n % 32 = 0 ∧ 64 ≤ n

instance (n : ℕ) : Decidable (WidthOk n) := inferInstanceAs (Decidable (_ ∧ _))

theorem WidthOk.pow_limbs {n : ℕ} (h : WidthOk n) : (2 ^ 32) ^ (n / 32) = 2 ^ n := by
  have hmul : 32 * (n / 32) = n := Nat.mul_div_cancel' (Nat.dvd_of_mod_eq_zero h.1)
  rw [← pow_mul, hmul]

/-- The inline array `u32['n / 32]`. -/
abbrev LimbArray (n : ℕ) := {limbs : List UInt32 // limbs.length = n / 32}

namespace LimbArray
variable {n : ℕ}

def zero : LimbArray n := ⟨List.replicate (n / 32) 0, List.length_replicate⟩

def val (a : LimbArray n) : ℕ := limbsVal a.1

theorem val_injective {a b : LimbArray n} (h : a.val = b.val) : a = b :=
  Subtype.ext (limbsVal_injective (a.2.trans b.2.symm) h)

theorem val_lt (hn : WidthOk n) (a : LimbArray n) : a.val < 2 ^ n := by
  have h := limbsVal_lt a.1
  rwa [a.2, hn.pow_limbs] at h

/-- `limbs_divmod` into two zeroed arrays. -/
def divmod (a b : LimbArray n) : Exec (LimbArray n × LimbArray n) := do
  let ⟨qr, h⟩ ← (limbsDivmod (zero (n := n)).1 (zero (n := n)).1 a.1 b.1).attach
  have hlen := limbsDivmod_length (zero.2.trans b.2.symm) h
  return (⟨qr.1, hlen.1.trans zero.2⟩, ⟨qr.2, hlen.2.trans zero.2⟩)

theorem divmod_spec (a b : LimbArray n) (hb : b.val ≠ 0) :
    ∃ q r, divmod a b = .ret (q, r) ∧ q.val = a.val / b.val ∧ r.val = a.val % b.val := by
  obtain ⟨q, r, hrun, hqlen, hrlen, hq, hr⟩ := limbsDivmod_spec (b.2.trans a.2.symm) hb
  rw [a.2] at hrun hqlen hrlen
  refine ⟨⟨q, hqlen⟩, ⟨r, hrlen⟩, ?_, hq, hr⟩
  simp only [divmod, zero, Exec.attach_of_eq hrun, Exec.ret_bind, Exec.pure_eq]

theorem divmod_zero (a : LimbArray n) {b : LimbArray n} (hb : b.val = 0) : divmod a b = .abort := by
  have h := limbsDivmod_zero (zero (n := n)).1 (zero (n := n)).1 a.1 hb
  simp only [divmod, Exec.attach_abort h, Exec.abort_bind]

/-- `limbs_neg` into a zeroed array. -/
def neg (a : LimbArray n) : LimbArray n := ⟨(limbsNeg a.1).1, (limbsNeg_length a.1).trans a.2⟩

theorem neg_val (hn : WidthOk n) (a : LimbArray n) : a.neg.val = (2 ^ n - a.val) % 2 ^ n := by
  have h := limbsNeg_val a.1
  rwa [a.2, hn.pow_limbs] at h

theorem ne_nil (hn : WidthOk n) (a : LimbArray n) : a.1 ≠ [] := by
  have h64 : 64 ≤ n := hn.2
  rw [← List.length_pos_iff, a.2]
  omega

theorem sign_spec (hn : WidthOk n) (a : LimbArray n) :
    ∃ s, limbsSign a.1 = .ret s ∧ (s = 1 ↔ 2 ^ n ≤ 2 * a.val) := by
  have h := limbsSign_spec (a.ne_nil hn)
  rwa [a.2, hn.pow_limbs] at h

theorem isMinMag_spec (hn : WidthOk n) (a : LimbArray n) :
    ∃ m, limbsIsMinMag a.1 = .ret m ∧ (m = true ↔ 2 * a.val = 2 ^ n) := by
  have h := limbsIsMinMag_spec (a.ne_nil hn)
  rwa [a.2, hn.pow_limbs] at h

end LimbArray

end FcLang.Wideint
