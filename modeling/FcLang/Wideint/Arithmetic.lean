import FcLang.Wideint.Iwide
import FcLang.Wideint.LimbsProduct
import FcLang.Wideint.Uwide

/-!
# Wrapping arithmetic is arithmetic modulo a power of two

The operations of both wide integer types, on what they denote: the magnitude
of an unsigned one, the balanced residue of a signed one.
-/

namespace FcLang.Wideint
variable {n : ℕ}

namespace LimbArray

def add (a b : LimbArray n) : LimbArray n × UInt32 :=
  let r := limbsAdd a.1 b.1
  (⟨r.1, (limbsAdd_length (a.2.trans b.2.symm)).trans a.2⟩, r.2)

def sub (a b : LimbArray n) : LimbArray n × UInt32 :=
  let r := limbsSub a.1 b.1
  (⟨r.1, (limbsSub_length (a.2.trans b.2.symm)).trans a.2⟩, r.2)

theorem mul_length (a b : LimbArray n) :
    (limbsMulWrap (zero (n := n)).1 a.1 b.1).length = n / 32 := by
  have hzero : (zero (n := n)).1.length = b.1.length := zero.2.trans b.2.symm
  rw [(limbsMulWrap_val hzero.le).1]
  exact zero.2

def mul (a b : LimbArray n) : LimbArray n := ⟨limbsMulWrap (zero (n := n)).1 a.1 b.1, mul_length a b⟩

theorem add_val (hn : WidthOk n) (a b : LimbArray n) :
    (a.add b).1.val + 2 ^ n * (a.add b).2.toNat = a.val + b.val := by
  have h := limbsAdd_val (a.2.trans b.2.symm)
  rwa [a.2, hn.pow_limbs] at h

theorem sub_val (hn : WidthOk n) (a b : LimbArray n) :
    ((a.sub b).1.val : ℤ) - 2 ^ n * ((a.sub b).2.toNat : ℤ) = a.val - b.val ∧
      (a.sub b).2.toNat ≤ 1 := by
  have h := limbsSub_val (a.2.trans b.2.symm)
  have hpow : ((2 : ℤ) ^ 32) ^ (n / 32) = 2 ^ n := by exact_mod_cast hn.pow_limbs
  rwa [a.2, hpow] at h

theorem mul_val (hn : WidthOk n) (a b : LimbArray n) :
    (a.mul b).val = a.val * b.val % 2 ^ n := by
  have hzero : (zero (n := n)).1.length = b.1.length := zero.2.trans b.2.symm
  obtain ⟨-, hval⟩ := limbsMulWrap_val (a := a.1) hzero.le
  have hz : limbsVal (zero (n := n)).1 = 0 := limbsVal_replicate_zero _
  rw [zero.2, hn.pow_limbs, hz, Nat.zero_add] at hval
  have hlt : (a.mul b).val < 2 ^ n := val_lt hn _
  exact (Nat.mod_eq_of_lt hlt).symm.trans hval

/-- The full product, from a zeroed destination. -/
theorem mulFull_val {k : ℕ} (hk : k = 2 * (n / 32)) (a b : LimbArray n) :
    (limbsMulFull (List.replicate k 0) a.1 b.1).length = k ∧
      limbsVal (limbsMulFull (List.replicate k 0) a.1 b.1) = a.val * b.val := by
  have hsplit : List.replicate k (0 : UInt32) =
      List.replicate (n / 32) 0 ++ List.replicate (n / 32) 0 := by
    rw [List.replicate_append_replicate, hk, two_mul]
  have hlen : (List.replicate (n / 32) (0 : UInt32)).length = b.1.length := by
    rw [List.length_replicate, b.2]
  obtain ⟨hlen', hval⟩ := limbsMulFull_val (k := n / 32) hlen a.2.le
  rw [hsplit]
  refine ⟨by rw [hlen', List.length_replicate, hk, two_mul], ?_⟩
  rw [hval, limbsVal_replicate_zero, Nat.zero_add]
  rfl

end LimbArray

theorem WidthOk.double (h : WidthOk n) : WidthOk (n * 2) ∧ n * 2 / 32 = 2 * (n / 32) := by
  obtain ⟨h32, h64⟩ := h
  refine ⟨⟨?_, ?_⟩, ?_⟩ <;> omega

namespace Uwide

def add (a b : Uwide n) : Uwide n := ⟨(a.limbs.add b.limbs).1, a.width⟩

def addCarry (a b : Uwide n) : Uwide n × Bool :=
  let r := a.limbs.add b.limbs
  (⟨r.1, a.width⟩, r.2 ≠ 0)

def sub (a b : Uwide n) : Uwide n := ⟨(a.limbs.sub b.limbs).1, a.width⟩

def subBorrow (a b : Uwide n) : Uwide n × Bool :=
  let r := a.limbs.sub b.limbs
  (⟨r.1, a.width⟩, r.2 ≠ 0)

def mul (a b : Uwide n) : Uwide n := ⟨a.limbs.mul b.limbs, a.width⟩

def mulWide (a b : Uwide n) : Uwide (n * 2) :=
  ⟨⟨limbsMulFull (List.replicate (n * 2 / 32) 0) a.limbs.1 b.limbs.1,
    (LimbArray.mulFull_val a.width.double.2 a.limbs b.limbs).1⟩, a.width.double.1⟩

def cmp (a b : Uwide n) : ℤ := limbsCmp a.limbs.1 b.limbs.1

end Uwide

namespace Iwide

def add (a b : Iwide n) : Iwide n := ⟨(a.limbs.add b.limbs).1, a.width⟩

def sub (a b : Iwide n) : Iwide n := ⟨(a.limbs.sub b.limbs).1, a.width⟩

def mul (a b : Iwide n) : Iwide n := ⟨a.limbs.mul b.limbs, a.width⟩

def cmp (a b : Iwide n) : Exec ℤ := limbsCmpSigned a.limbs.1 b.limbs.1

end Iwide

/-- How two numbers compare. -/
def order (x y : ℤ) : ℤ := if x < y then -1 else if x > y then 1 else 0

section Unsigned
open Uwide
variable (a b : Uwide n)

theorem carry_ne_zero {x : UInt32} : (x ≠ 0 ↔ 0 < x.toNat) := by
  rw [ne_eq, ← UInt32.toNat_inj, UInt32.toNat_zero]
  exact Nat.pos_iff_ne_zero.symm

theorem Uwide.add_toNat : (add a b).toNat = (a.toNat + b.toNat) % 2 ^ n := by
  have hval : (add a b).toNat + 2 ^ n * _ = a.toNat + b.toNat := a.limbs.add_val a.width b.limbs
  rw [← hval, Nat.add_mul_mod_self_left, Nat.mod_eq_of_lt (add a b).toNat_lt]

theorem Uwide.addCarry_carry : (addCarry a b).2 = true ↔ 2 ^ n ≤ a.toNat + b.toNat := by
  have hval : (add a b).toNat + 2 ^ n * (a.limbs.add b.limbs).2.toNat = a.toNat + b.toNat :=
    a.limbs.add_val a.width b.limbs
  have hlt := (add a b).toNat_lt
  rw [addCarry, decide_eq_true_iff, carry_ne_zero, ← hval]
  constructor
  · intro hpos
    have := Nat.le_mul_of_pos_right (2 ^ n) hpos
    omega
  · intro hle
    by_contra hzero
    rw [Nat.not_lt, Nat.le_zero] at hzero
    rw [hzero] at hle
    omega

theorem Uwide.sub_toNat : ((sub a b).toNat : ℤ) = ((a.toNat : ℤ) - b.toNat) % 2 ^ n := by
  have hval : ((sub a b).toNat : ℤ) - 2 ^ n * _ = a.toNat - b.toNat :=
    (a.limbs.sub_val a.width b.limbs).1
  have hlt : ((sub a b).toNat : ℤ) < 2 ^ n := by exact_mod_cast (sub a b).toNat_lt
  rw [← hval, Int.sub_mul_emod_self_left, Int.emod_eq_of_lt (by positivity) hlt]

theorem Uwide.subBorrow_borrow : (subBorrow a b).2 = true ↔ a.toNat < b.toNat := by
  obtain ⟨hval, hone⟩ := a.limbs.sub_val a.width b.limbs
  change ((sub a b).toNat : ℤ) - _ = (a.toNat : ℤ) - b.toNat at hval
  have hlt : ((sub a b).toNat : ℤ) < 2 ^ n := by exact_mod_cast (sub a b).toNat_lt
  rw [subBorrow, decide_eq_true_iff, carry_ne_zero]
  rcases Nat.le_one_iff_eq_zero_or_eq_one.mp hone with hb | hb <;> rw [hb] at hval ⊢
  · simp only [Nat.cast_zero, mul_zero, sub_zero] at hval
    omega
  · simp only [Nat.cast_one, mul_one] at hval
    omega

theorem Uwide.mul_toNat : (mul a b).toNat = a.toNat * b.toNat % 2 ^ n :=
  a.limbs.mul_val a.width b.limbs

theorem Uwide.mulWide_toNat : (mulWide a b).toNat = a.toNat * b.toNat :=
  (LimbArray.mulFull_val a.width.double.2 a.limbs b.limbs).2

theorem Uwide.cmp_order : cmp a b = order a.toNat b.toNat := by
  rw [cmp, limbsCmp_spec (a.limbs.2.trans b.limbs.2.symm), order]
  simp only [Nat.cast_lt, gt_iff_lt]
  rfl

end Unsigned

section Signed
open Iwide
variable (a b : Iwide n)

/-- Equal residues of magnitudes denote the same number. -/
theorem Iwide.toInt_of_modEq {r : Iwide n} {z : ℤ} (h : (r.limbs.val : ℤ) ≡ z [ZMOD 2 ^ n]) :
    r.toInt = z.bmod (2 ^ n) := by
  apply toInt_of_emod
  push_cast
  exact h

theorem Iwide.val_modEq : (a.limbs.val : ℤ) ≡ a.toInt [ZMOD 2 ^ n] := by
  rw [toInt_eq]
  split_ifs
  · rfl
  · simp [Int.ModEq]

theorem Iwide.add_toInt : (add a b).toInt = (a.toInt + b.toInt).bmod (2 ^ n) := by
  apply toInt_of_modEq
  have hval : (((add a b).limbs.val : ℕ) : ℤ) + 2 ^ n * ((a.limbs.add b.limbs).2.toNat : ℤ) =
      a.limbs.val + b.limbs.val := by
    exact_mod_cast a.limbs.add_val a.width b.limbs
  refine Int.ModEq.trans ?_ (a.val_modEq.add b.val_modEq)
  rw [← hval]
  simp [Int.ModEq]

theorem Iwide.sub_toInt : (sub a b).toInt = (a.toInt - b.toInt).bmod (2 ^ n) := by
  apply toInt_of_modEq
  have hval : (((sub a b).limbs.val : ℕ) : ℤ) - 2 ^ n * _ = a.limbs.val - b.limbs.val :=
    (a.limbs.sub_val a.width b.limbs).1
  refine Int.ModEq.trans ?_ (a.val_modEq.sub b.val_modEq)
  rw [← hval]
  simp [Int.ModEq]

theorem Iwide.mul_toInt : (mul a b).toInt = (a.toInt * b.toInt).bmod (2 ^ n) := by
  apply toInt_of_modEq
  have hval : (mul a b).limbs.val = a.limbs.val * b.limbs.val % 2 ^ n :=
    a.limbs.mul_val a.width b.limbs
  refine Int.ModEq.trans ?_ (a.val_modEq.mul b.val_modEq)
  rw [hval]
  push_cast
  exact Int.mod_modEq _ _

theorem Iwide.neg_toInt_neg : (neg a).toInt = (-a.toInt).bmod (2 ^ n) := by
  have hmod : (((2 ^ n : ℕ) : ℤ)) = 2 ^ n := by push_cast; rfl
  rw [neg_toInt, ← Int.emod_bmod, ← Int.emod_bmod (x := -a.toInt), hmod, a.val_modEq.neg]

theorem limbsSign_zero_or_one {l : List UInt32} {s : UInt32} (h : limbsSign l = .ret s) :
    s = 0 ∨ s = 1 := by
  obtain ⟨top, -, hs⟩ := Exec.bind_eq_ret.mp h
  cases hs
  have htop : top.toNat < 2 ^ 32 := top.toNat_lt
  have hshift : (top >>> 31).toNat = top.toNat / 2 ^ 31 := by simp [Nat.shiftRight_eq_div_pow]
  rw [← UInt32.toNat_inj, ← UInt32.toNat_inj, hshift, UInt32.toNat_zero, UInt32.toNat_one]
  omega

/-- The sign limb of a negative number is one, of any other zero. -/
theorem Iwide.sign_eq : limbsSign a.limbs.1 = .ret (if a.toInt < 0 then 1 else 0) := by
  obtain ⟨s, hs, hneg⟩ := a.sign_spec
  rw [hs]
  rcases limbsSign_zero_or_one hs with rfl | rfl <;> split_ifs <;> simp_all

theorem Iwide.val_of_neg (h : a.toInt < 0) : a.toInt = a.limbs.val - 2 ^ n := by
  have hval := a.toInt_eq
  split_ifs at hval
  · omega
  · exact hval

theorem Iwide.val_of_nonneg (h : ¬a.toInt < 0) : a.toInt = a.limbs.val - 0 := by
  have hlt : (a.limbs.val : ℤ) < 2 ^ n := by exact_mod_cast a.limbs.val_lt a.width
  have hval := a.toInt_eq
  split_ifs at hval <;> omega

/-- Magnitudes that are off by the same amount compare as what they denote. -/
theorem order_sub {x y u v : ℤ} (d : ℤ) (hx : x = u - d) (hy : y = v - d) :
    order u v = order x y := by
  have hlt : u < v ↔ x < y := by omega
  have hgt : u > v ↔ x > y := by omega
  rw [order, order]
  simp only [hlt, hgt]

theorem Iwide.cmp_order : cmp a b = .ret (order a.toInt b.toInt) := by
  have hcmp : limbsCmp a.limbs.1 b.limbs.1 = order a.limbs.val b.limbs.val := by
    rw [limbsCmp_spec (a.limbs.2.trans b.limbs.2.symm), order]
    simp only [Nat.cast_lt, gt_iff_lt]
    rfl
  simp only [cmp, limbsCmpSigned, sign_eq, Exec.ret_bind, hcmp]
  by_cases ha : a.toInt < 0 <;> by_cases hb : b.toInt < 0
  · rw [order_sub _ (a.val_of_neg ha) (b.val_of_neg hb)]
    simp [ha, hb]
  · have hlt : a.toInt < b.toInt := by omega
    simp [ha, hb, order, hlt]
  · have hlt : b.toInt < a.toInt := by omega
    simp [ha, hb, order, hlt, hlt.le]
  · rw [order_sub 0 (a.val_of_nonneg ha) (b.val_of_nonneg hb)]
    simp [ha, hb]

end Signed

/-- Addition, subtraction and multiplication are those of the integers modulo `2 ^ n`, the carry,
the borrow and the wide product are exact, and comparison is that of the integers. No step of the
limb loops loses a carry. -/
theorem arithmetic_modulo (a b : Uwide n) (x y : Iwide n) :
    ((Uwide.add a b).toNat = (a.toNat + b.toNat) % 2 ^ n ∧
      ((Uwide.sub a b).toNat : ℤ) = ((a.toNat : ℤ) - b.toNat) % 2 ^ n ∧
      (Uwide.mul a b).toNat = a.toNat * b.toNat % 2 ^ n) ∧
    ((Iwide.add x y).toInt = (x.toInt + y.toInt).bmod (2 ^ n) ∧
      (Iwide.sub x y).toInt = (x.toInt - y.toInt).bmod (2 ^ n) ∧
      (Iwide.mul x y).toInt = (x.toInt * y.toInt).bmod (2 ^ n) ∧
      (Iwide.neg x).toInt = (-x.toInt).bmod (2 ^ n)) ∧
    ((Uwide.addCarry a b).1 = Uwide.add a b ∧
      ((Uwide.addCarry a b).2 = true ↔ 2 ^ n ≤ a.toNat + b.toNat)) ∧
    ((Uwide.subBorrow a b).1 = Uwide.sub a b ∧
      ((Uwide.subBorrow a b).2 = true ↔ a.toNat < b.toNat)) ∧
    (Uwide.mulWide a b).toNat = a.toNat * b.toNat ∧
    Uwide.cmp a b = order a.toNat b.toNat ∧ Iwide.cmp x y = .ret (order x.toInt y.toInt) ∧
    (∀ u v d (carry : UInt64), carry.toNat < 2 ^ 32 →
      (mulLimb u (v, d) carry).1.toNat + 2 ^ 32 * (mulLimb u (v, d) carry).2.toNat =
        u.toNat * v.toNat + d.toNat + carry.toNat ∧ (mulLimb u (v, d) carry).2.toNat < 2 ^ 32) :=
  ⟨⟨a.add_toNat b, a.sub_toNat b, a.mul_toNat b⟩,
    ⟨x.add_toInt y, x.sub_toInt y, x.mul_toInt y, x.neg_toInt_neg⟩,
    ⟨rfl, a.addCarry_carry b⟩, ⟨rfl, a.subBorrow_borrow b⟩, a.mulWide_toNat b, a.cmp_order b,
    x.cmp_order y, fun u v d carry hc => mulLimb_spec u (v, d) carry hc⟩
end FcLang.Wideint
