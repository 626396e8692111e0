import FcLang.Wideint.LimbArray

/-!
# Sums and products of limb arrays

Addition is one carry chain. A product is a chain for each limb of the first
factor, over the second factor and the part of the destination that is not
final yet; the truncating one drops what runs past the destination.
-/

namespace FcLang.Wideint
open Numeral

def addLimb (x : UInt32 × UInt32) (carry : UInt64) : UInt32 × UInt64 :=
  let s := x.1.toUInt64 + x.2.toUInt64 + carry
  (s.toUInt32, s >>> 32)

def limbsAdd (a b : List UInt32) : List UInt32 × UInt32 :=
  let r := ripple addLimb (a.zip b) 0
  (r.1, r.2.toUInt32)

/-- One round of the inner loop of a product: `y` is the limb of `b`, `d` the limb of `dst`. -/
def mulLimb (x : UInt32) (yd : UInt32 × UInt32) (carry : UInt64) : UInt32 × UInt64 :=
  let p := x.toUInt64 * yd.1.toUInt64 + yd.2.toUInt64 + carry
  (p.toUInt32, p >>> 32)

/-- `dst` is what the outer loop still writes: `dst[i ..]` in round `i`. -/
def limbsMulFull (dst a b : List UInt32) : List UInt32 :=
  match a with
  | [] => dst
  | x :: a =>
    let row := ripple (mulLimb x) (b.zip dst) 0
    match row.1 ++ row.2.toUInt32 :: dst.drop (b.length + 1) with
    | [] => []
    | d :: dst => d :: limbsMulFull dst a b

def limbsMulWrap (dst a b : List UInt32) : List UInt32 :=
  match a with
  | [] => dst
  | x :: a =>
    match (ripple (mulLimb x) (b.zip dst) 0).1 ++ dst.drop b.length with
    | [] => []
    | d :: dst => d :: limbsMulWrap dst a b

def limbsCmpSigned (a b : List UInt32) : Exec ℤ := do
  let asign ← limbsSign a
  let bsign ← limbsSign b
  if asign ≠ bsign then
    if asign = 1 then .ret (-1) else .ret 1
  else .ret (limbsCmp a b)

def limbsSignedMulFits (full : List UInt32) (negResult : Bool) : Exec Bool := do
  let n : ℤ := (full.length : ℤ) / 2
  let high ← Slice.range full n full.length
  let highZero := limbsIsZero high
  let top ← Slice.get full (n - 1)
  let lowTopClear := top >>> 31 == 0
  if negResult then
    if highZero then
      if lowTopClear then .ret true
      else do
        let low ← Slice.range full 0 n
        limbsIsMinMag low
    else .ret false
  else .ret (highZero && lowTopClear)

theorem addLimb_spec (x : UInt32 × UInt32) (carry : UInt64) (hc : carry.toNat ≤ 1) :
    (addLimb x carry).1.toNat + 2 ^ 32 * (addLimb x carry).2.toNat =
      (x.1.toNat + x.2.toNat) + carry.toNat ∧ (addLimb x carry).2.toNat ≤ 1 := by
  have hx : x.1.toNat < 2 ^ 32 := x.1.toNat_lt
  have hy : x.2.toNat < 2 ^ 32 := x.2.toNat_lt
  have hs : (x.1.toUInt64 + x.2.toUInt64 + carry).toNat = x.1.toNat + x.2.toNat + carry.toNat := by
    simp only [UInt64.toNat_add, UInt32.toNat_toUInt64]
    omega
  have hhigh : ∀ s : UInt64, (s >>> 32).toNat = s.toNat / 2 ^ 32 := by
    intro s
    simp [Nat.shiftRight_eq_div_pow]
  simp only [addLimb, UInt64.toNat_toUInt32, hhigh, hs]
  constructor <;> omega

@[simp] theorem limbsAdd_length {a b : List UInt32} (h : a.length = b.length) :
    (limbsAdd a b).1.length = a.length := by
  simp [limbsAdd, h]

theorem limbsAdd_val {a b : List UInt32} (h : a.length = b.length) :
    limbsVal (limbsAdd a b).1 + (2 ^ 32) ^ a.length * (limbsAdd a b).2.toNat =
      limbsVal a + limbsVal b := by
  obtain ⟨hval, hcarry⟩ := ripple_weigh (B := 2 ^ 32)
    (fun p : UInt32 × UInt32 => p.1.toNat + p.2.toNat) UInt32.toNat UInt64.toNat
    (fun c => c.toNat ≤ 1) addLimb_spec (a.zip b) (c := 0) (by simp)
  have hlen : (a.zip b).length = a.length := by simp [h]
  rw [weigh_zip_add _ UInt32.toNat UInt32.toNat h, hlen] at hval
  have hcast : (limbsAdd a b).2.toNat = (ripple addLimb (a.zip b) 0).2.toNat := by
    simp only [limbsAdd, UInt64.toNat_toUInt32]
    omega
  rw [hcast]
  simpa [limbsVal, limbsAdd] using hval

/-- The product, the old limb and the carry fit the 64-bit intermediate. -/
theorem mulLimb_exact (x : UInt32) (yd : UInt32 × UInt32) (carry : UInt64)
    (hc : carry.toNat < 2 ^ 32) :
    (x.toUInt64 * yd.1.toUInt64 + yd.2.toUInt64 + carry).toNat =
      x.toNat * yd.1.toNat + yd.2.toNat + carry.toNat ∧
      x.toNat * yd.1.toNat + yd.2.toNat + carry.toNat < 2 ^ 64 := by
  have hy : yd.1.toNat ≤ 2 ^ 32 - 1 := by
    have := yd.1.toNat_lt
    omega
  have hx : x.toNat ≤ 2 ^ 32 - 1 := by
    have := x.toNat_lt
    omega
  have hd : yd.2.toNat < 2 ^ 32 := yd.2.toNat_lt
  have hprod : x.toNat * yd.1.toNat ≤ (2 ^ 32 - 1) * (2 ^ 32 - 1) := Nat.mul_le_mul hx hy
  have hlt : x.toNat * yd.1.toNat + yd.2.toNat + carry.toNat < 2 ^ 64 := by omega
  refine ⟨?_, hlt⟩
  simp only [UInt64.toNat_add, UInt64.toNat_mul, UInt32.toNat_toUInt64]
  omega

theorem mulLimb_spec (x : UInt32) (yd : UInt32 × UInt32) (carry : UInt64)
    (hc : carry.toNat < 2 ^ 32) :
    (mulLimb x yd carry).1.toNat + 2 ^ 32 * (mulLimb x yd carry).2.toNat =
      (x.toNat * yd.1.toNat + yd.2.toNat) + carry.toNat ∧
      (mulLimb x yd carry).2.toNat < 2 ^ 32 := by
  obtain ⟨hp, hlt⟩ := mulLimb_exact x yd carry hc
  have hhigh : ∀ p : UInt64, (p >>> 32).toNat = p.toNat / 2 ^ 32 := by
    intro p
    simp [Nat.shiftRight_eq_div_pow]
  simp only [mulLimb, UInt64.toNat_toUInt32, hhigh, hp]
  constructor <;> omega

/-- A row of a product, over limbs of the destination and of the second factor in equal number. -/
theorem mulRow_val (x : UInt32) {b dst : List UInt32} (h : b.length = dst.length) :
    limbsVal (ripple (mulLimb x) (b.zip dst) 0).1 +
      (2 ^ 32) ^ dst.length * (ripple (mulLimb x) (b.zip dst) 0).2.toUInt32.toNat =
        limbsVal dst + x.toNat * limbsVal b := by
  obtain ⟨hval, hcarry⟩ := ripple_weigh (B := 2 ^ 32)
    (fun p : UInt32 × UInt32 => x.toNat * p.1.toNat + p.2.toNat) UInt32.toNat UInt64.toNat
    (fun c => c.toNat < 2 ^ 32) (mulLimb_spec x) (b.zip dst) (c := 0) (by simp)
  have hlen : (b.zip dst).length = dst.length := by simp [h]
  rw [weigh_zip_add _ (fun y : UInt32 => x.toNat * y.toNat) UInt32.toNat h, weigh_mul, hlen] at hval
  have hcast : (ripple (mulLimb x) (b.zip dst) 0).2.toUInt32.toNat =
      (ripple (mulLimb x) (b.zip dst) 0).2.toNat := by
    rw [UInt64.toNat_toUInt32]
    omega
  simp only [hcast, limbsVal]
  rw [hval, UInt64.toNat_zero, Nat.add_zero, Nat.add_comm]

theorem limbsVal_append (a b : List UInt32) :
    limbsVal (a ++ b) = limbsVal a + (2 ^ 32) ^ a.length * limbsVal b :=
  weigh_append _ _ _ _

/-- The outer loop of the full product: `acc` is the part of the destination that earlier rounds
reached, zeros follow it. -/
theorem limbsMulFull_val {acc a b : List UInt32} {k : ℕ} (hacc : acc.length = b.length)
    (hk : a.length ≤ k) :
    (limbsMulFull (acc ++ List.replicate k 0) a b).length = acc.length + k ∧
      limbsVal (limbsMulFull (acc ++ List.replicate k 0) a b) =
        limbsVal acc + limbsVal a * limbsVal b := by
  induction a generalizing acc k with
  | nil =>
    have hnil : limbsVal [] = 0 := rfl
    simp [limbsMulFull, limbsVal_append, hnil]
  | cons x a ih =>
    obtain ⟨k, rfl⟩ : ∃ k', k = k' + 1 := ⟨k - 1, by simp at hk; omega⟩
    have hzip : b.zip (acc ++ List.replicate (k + 1) 0) = b.zip acc := by
      rw [← List.append_nil b, List.zip_append hacc.symm, List.zip_nil_left, List.append_nil,
        List.append_nil]
    have hdrop : (acc ++ List.replicate (k + 1) (0 : UInt32)).drop (b.length + 1) =
        List.replicate k 0 := by
      rw [← hacc, List.drop_append, List.drop_eq_nil_of_le (by omega), List.drop_replicate]
      simp
    have hrow := mulRow_val x hacc.symm
    generalize hr : ripple (mulLimb x) (b.zip acc) 0 = row at hrow
    have hlen : row.1.length = acc.length := by simp [← hr, hacc]
    obtain ⟨d, acc', hsplit⟩ : ∃ d acc', row.1 ++ [row.2.toUInt32] = d :: acc' :=
      List.exists_cons_of_ne_nil (by simp)
    have hacc' : acc'.length = b.length := by
      have := congrArg List.length hsplit
      simp only [List.length_append, List.length_cons, List.length_nil, hlen, hacc] at this
      omega
    obtain ⟨hlen', hval⟩ := ih hacc' (by simpa using hk)
    have hfull : limbsMulFull (acc ++ List.replicate (k + 1) 0) (x :: a) b =
        d :: limbsMulFull (acc' ++ List.replicate k 0) a b := by
      have hnew : row.1 ++ row.2.toUInt32 :: List.replicate k 0 =
          d :: (acc' ++ List.replicate k 0) := by
        rw [← List.cons_append, ← hsplit, List.append_assoc, List.singleton_append]
      simp only [limbsMulFull, hzip, hdrop, hr, hnew]
    have hsum : d.toNat + 2 ^ 32 * limbsVal acc' = limbsVal acc + x.toNat * limbsVal b := by
      rw [← hrow, ← limbsVal_cons, ← hsplit, limbsVal_snoc, hlen]
    refine ⟨by rw [hfull, List.length_cons, hlen']; omega, ?_⟩
    calc limbsVal (limbsMulFull (acc ++ List.replicate (k + 1) 0) (x :: a) b)
        = d.toNat + 2 ^ 32 * (limbsVal acc' + limbsVal a * limbsVal b) := by
          rw [hfull, limbsVal_cons, hval]
      _ = (d.toNat + 2 ^ 32 * limbsVal acc') + 2 ^ 32 * (limbsVal a * limbsVal b) := by ring
      _ = limbsVal acc + limbsVal (x :: a) * limbsVal b := by
          rw [hsum, limbsVal_cons]
          ring

theorem limbsVal_take_modEq (b : List UInt32) (m : ℕ) :
    limbsVal (b.take m) ≡ limbsVal b [MOD (2 ^ 32) ^ m] := by
  by_cases hm : m ≤ b.length
  · have hsplit : limbsVal b = limbsVal (b.take m) + (2 ^ 32) ^ m * limbsVal (b.drop m) := by
      conv_lhs => rw [← List.take_append_drop m b]
      rw [limbsVal_append, List.length_take_of_le hm]
    simp [hsplit, Nat.ModEq]
  · rw [List.take_of_length_le (by omega)]

/-- The outer loop of the truncating product: what is dropped are multiples of the range. -/
theorem limbsMulWrap_val {dst a b : List UInt32} (h : dst.length ≤ b.length) :
    (limbsMulWrap dst a b).length = dst.length ∧
      limbsVal (limbsMulWrap dst a b) ≡ limbsVal dst + limbsVal a * limbsVal b
        [MOD (2 ^ 32) ^ dst.length] := by
  induction a generalizing dst with
  | nil =>
    have hnil : limbsVal [] = 0 := rfl
    simp [limbsMulWrap, hnil, Nat.ModEq]
  | cons x a ih =>
    have hzip : b.zip dst = (b.take dst.length).zip dst := by
      rw [List.zip_eq_zip_take_min, List.take_of_length_le (l := dst) (by omega),
        Nat.min_eq_right h]
    have hlenb : (b.take dst.length).length = dst.length := List.length_take_of_le h
    have hrow := mulRow_val x hlenb
    rw [← hzip] at hrow
    generalize hr : ripple (mulLimb x) (b.zip dst) 0 = row at hrow
    have hlen : row.1.length = dst.length := by simp [← hr, h]
    have hmod : limbsVal row.1 ≡ limbsVal dst + x.toNat * limbsVal b
        [MOD (2 ^ 32) ^ dst.length] := by
      have htake := ((limbsVal_take_modEq b dst.length).mul_left x.toNat).add_left (limbsVal dst)
      refine Nat.ModEq.trans ?_ htake
      rw [← hrow]
      simp [Nat.ModEq]
    have hnew : row.1 ++ dst.drop b.length = row.1 := by
      rw [List.drop_eq_nil_of_le h, List.append_nil]
    have hstep : limbsMulWrap dst (x :: a) b =
        match row.1 with
        | [] => []
        | d :: dst => d :: limbsMulWrap dst a b := by
      simp only [limbsMulWrap, hr, hnew]
    rw [hstep]
    cases hd : row.1 with
    | nil =>
      rw [hd] at hlen
      simp [← hlen, Nat.ModEq, Nat.mod_one]
    | cons d dst' =>
      rw [hd, List.length_cons] at hlen
      obtain ⟨hlen', hval⟩ := ih (by omega : dst'.length ≤ b.length)
      refine ⟨by simp only [List.length_cons, hlen', hlen], ?_⟩
      have hscaled : 2 ^ 32 * limbsVal (limbsMulWrap dst' a b) ≡
          2 ^ 32 * (limbsVal dst' + limbsVal a * limbsVal b) [MOD (2 ^ 32) ^ dst.length] := by
        rw [← hlen, pow_succ']
        exact hval.mul_left' (2 ^ 32)
      rw [hd, limbsVal_cons] at hmod
      calc limbsVal (d :: limbsMulWrap dst' a b)
          = d.toNat + 2 ^ 32 * limbsVal (limbsMulWrap dst' a b) := limbsVal_cons _ _
        _ ≡ d.toNat + 2 ^ 32 * (limbsVal dst' + limbsVal a * limbsVal b)
            [MOD (2 ^ 32) ^ dst.length] := hscaled.add_left _
        _ = (d.toNat + 2 ^ 32 * limbsVal dst') + 2 ^ 32 * (limbsVal a * limbsVal b) := by ring
        _ ≡ (limbsVal dst + x.toNat * limbsVal b) + 2 ^ 32 * (limbsVal a * limbsVal b)
            [MOD (2 ^ 32) ^ dst.length] := hmod.add_right _
        _ = limbsVal dst + limbsVal (x :: a) * limbsVal b := by
            rw [limbsVal_cons]
            ring

end FcLang.Wideint
