import FcLang.Lib.Numeral
import FcLang.Lib.Slice

/-!
# The limb core of `wideint`

Every routine works on little-endian lists of 32-bit limbs. Loops from the
least significant limb up are carry chains; a destination that aliases a source
is written at an index only after that index was read, so each routine returns
its destination.
-/

namespace FcLang.Wideint
open Numeral

/-- The magnitude a limb list denotes. -/
def limbsVal (a : List UInt32) : ℕ := weigh (2 ^ 32) UInt32.toNat a

def subLimb (x : UInt32 × UInt32) (borrow : UInt64) : UInt32 × UInt64 :=
  let d := x.1.toUInt64 - x.2.toUInt64 - borrow
  (d.toUInt32, (d >>> 32) &&& 1)

def limbsSub (a b : List UInt32) : List UInt32 × UInt32 :=
  let r := ripple subLimb (a.zip b) 0
  (r.1, r.2.toUInt32)

def limbsNot (a : List UInt32) : List UInt32 := a.map fun x => ~~~x

/-- Unsigned compare of equal-length magnitudes. The source walks from the top limb and keeps the
first difference, so a lower limb decides only when all higher ones agree. -/
def limbsCmp : List UInt32 → List UInt32 → ℤ
  | x :: a, y :: b =>
    let result := limbsCmp a b
    if result = 0 then if x < y then -1 else if x > y then 1 else 0 else result
  | _, _ => 0

def limbsIsZero (a : List UInt32) : Bool := a.foldl (fun z x => if x ≠ 0 then false else z) true

def addSmallLimb (x : UInt32) (carry : UInt64) : UInt32 × UInt64 :=
  let t := x.toUInt64 + carry
  (t.toUInt32, t >>> 32)

def limbsAddSmall (a : List UInt32) (s : UInt32) : List UInt32 × UInt32 :=
  let r := ripple addSmallLimb a s.toUInt64
  (r.1, r.2.toUInt32)

def shl1Limb (x carry : UInt32) : UInt32 × UInt32 := ((x <<< 1) ||| carry, x >>> 31)

def limbsShl1 (dst : List UInt32) : List UInt32 × UInt32 := ripple shl1Limb dst 0

def limbsSign (a : List UInt32) : Exec UInt32 := do
  let top ← Slice.get a ((a.length : ℤ) - 1)
  return top >>> 31

def limbsNeg (a : List UInt32) : List UInt32 × UInt32 := limbsAddSmall (limbsNot a) 1

def limbsIsMinMag (a : List UInt32) : Exec Bool := do
  let top ← Slice.get a ((a.length : ℤ) - 1)
  return a.dropLast.foldl (fun yes x => if x ≠ 0 then false else yes) (top == 0x80000000)

theorem limbsVal_lt (a : List UInt32) : limbsVal a < (2 ^ 32) ^ a.length :=
  weigh_lt fun x _ => x.toNat_lt

theorem limbsVal_injective {a b : List UInt32} (hlen : a.length = b.length)
    (h : limbsVal a = limbsVal b) : a = b :=
  weigh_injective (fun _ _ hxy => UInt32.toNat_inj.mp hxy) (fun x _ => x.toNat_lt)
    (fun y _ => y.toNat_lt) hlen h

theorem limbsVal_cons (x : UInt32) (a : List UInt32) :
    limbsVal (x :: a) = x.toNat + 2 ^ 32 * limbsVal a := rfl

@[simp] theorem limbsVal_replicate_zero (n : ℕ) :
    limbsVal (List.replicate n (0 : UInt32)) = 0 :=
  weigh_replicate_zero _ (by simp) n

theorem limbsVal_snoc (a : List UInt32) (x : UInt32) :
    limbsVal (a ++ [x]) = limbsVal a + (2 ^ 32) ^ a.length * x.toNat := by
  simp only [limbsVal, weigh_append, weigh_cons, weigh_nil, Nat.mul_zero, Nat.add_zero]

@[simp] theorem limbsSub_length {a b : List UInt32} (h : a.length = b.length) :
    (limbsSub a b).1.length = a.length := by
  simp [limbsSub, h]

@[simp] theorem limbsNot_length (a : List UInt32) : (limbsNot a).length = a.length := by
  simp [limbsNot]

@[simp] theorem limbsAddSmall_length (a : List UInt32) (s : UInt32) :
    (limbsAddSmall a s).1.length = a.length := by
  simp [limbsAddSmall]

@[simp] theorem limbsShl1_length (dst : List UInt32) : (limbsShl1 dst).1.length = dst.length := by
  simp [limbsShl1]

/-- One limb of the borrow chain: the borrow weighs negatively. -/
theorem subLimb_spec (x : UInt32 × UInt32) (borrow : UInt64) (hb : borrow.toNat ≤ 1) :
    ((subLimb x borrow).1.toNat : ℤ) + 2 ^ 32 * -((subLimb x borrow).2.toNat : ℤ) =
      ((x.1.toNat : ℤ) + -1 * (x.2.toNat : ℤ)) + -(borrow.toNat : ℤ) ∧
      (subLimb x borrow).2.toNat ≤ 1 := by
  have hx : x.1.toNat < 2 ^ 32 := x.1.toNat_lt
  have hy : x.2.toNat < 2 ^ 32 := x.2.toNat_lt
  have hd : (x.1.toUInt64 - x.2.toUInt64 - borrow).toNat =
      (2 ^ 64 - borrow.toNat + (2 ^ 64 - x.2.toNat + x.1.toNat) % 2 ^ 64) % 2 ^ 64 := by
    rw [UInt64.toNat_sub, UInt64.toNat_sub, UInt32.toNat_toUInt64, UInt32.toNat_toUInt64]
  have hlow : ∀ d : UInt64, ((d >>> 32) &&& 1).toNat = d.toNat / 2 ^ 32 % 2 := by
    intro d
    simp [Nat.shiftRight_eq_div_pow]
  simp only [subLimb, UInt64.toNat_toUInt32, hlow, hd]
  constructor <;> omega

theorem limbsSub_val {a b : List UInt32} (h : a.length = b.length) :
    (limbsVal (limbsSub a b).1 : ℤ) - (2 ^ 32) ^ a.length * ((limbsSub a b).2.toNat : ℤ) =
      limbsVal a - limbsVal b ∧ (limbsSub a b).2.toNat ≤ 1 := by
  obtain ⟨hval, hborrow⟩ := ripple_weigh (R := ℤ) (B := 2 ^ 32)
    (fun p : UInt32 × UInt32 => (p.1.toNat : ℤ) + -1 * (p.2.toNat : ℤ))
    (fun x : UInt32 => (x.toNat : ℤ)) (fun c : UInt64 => -(c.toNat : ℤ)) (fun c => c.toNat ≤ 1)
    subLimb_spec (a.zip b) (c := 0) (by simp)
  have hlen : (a.zip b).length = a.length := by simp [h]
  rw [weigh_zip_add _ (fun x : UInt32 => (x.toNat : ℤ)) (fun y : UInt32 => -1 * (y.toNat : ℤ)) h,
    weigh_mul, hlen] at hval
  have hcast : (limbsSub a b).2.toNat = (ripple subLimb (a.zip b) 0).2.toNat := by
    simp only [limbsSub, UInt64.toNat_toUInt32]
    omega
  refine ⟨?_, by omega⟩
  simp only [limbsVal, cast_weigh, hcast]
  simp only [limbsSub]
  push_cast at hval ⊢
  linarith [hval]

theorem addSmallLimb_spec (x : UInt32) (carry : UInt64) (hc : carry.toNat < 2 ^ 32) :
    (addSmallLimb x carry).1.toNat + 2 ^ 32 * (addSmallLimb x carry).2.toNat =
      x.toNat + carry.toNat ∧ (addSmallLimb x carry).2.toNat < 2 ^ 32 := by
  have hx : x.toNat < 2 ^ 32 := x.toNat_lt
  have ht : (x.toUInt64 + carry).toNat = (x.toNat + carry.toNat) % 2 ^ 64 := by
    rw [UInt64.toNat_add, UInt32.toNat_toUInt64]
  have hhigh : ∀ t : UInt64, (t >>> 32).toNat = t.toNat / 2 ^ 32 := by
    intro t
    simp [Nat.shiftRight_eq_div_pow]
  simp only [addSmallLimb, UInt64.toNat_toUInt32, hhigh, ht]
  constructor <;> omega

theorem limbsAddSmall_val (a : List UInt32) (s : UInt32) :
    limbsVal (limbsAddSmall a s).1 + (2 ^ 32) ^ a.length * (limbsAddSmall a s).2.toNat =
      limbsVal a + s.toNat := by
  have hs : s.toUInt64.toNat < 2 ^ 32 := by
    rw [UInt32.toNat_toUInt64]
    exact s.toNat_lt
  obtain ⟨hval, hcarry⟩ := ripple_weigh UInt32.toNat UInt32.toNat UInt64.toNat
    (fun c => c.toNat < 2 ^ 32) addSmallLimb_spec a hs
  have hcast : (limbsAddSmall a s).2.toNat = (ripple addSmallLimb a s.toUInt64).2.toNat := by
    simp only [limbsAddSmall, UInt64.toNat_toUInt32]
    omega
  rw [UInt32.toNat_toUInt64] at hval
  rw [hcast]
  exact hval

theorem shl1Limb_spec (x carry : UInt32) (hc : carry.toNat ≤ 1) :
    (shl1Limb x carry).1.toNat + 2 ^ 32 * (shl1Limb x carry).2.toNat =
      2 * x.toNat + carry.toNat ∧ (shl1Limb x carry).2.toNat ≤ 1 := by
  have hx : x.toNat < 2 ^ 32 := x.toNat_lt
  have hlow : (x <<< 1 ||| carry).toNat = 2 * x.toNat % 2 ^ 32 + carry.toNat := by
    have hshift : (x <<< 1).toNat = 2 ^ 1 * (x.toNat % 2 ^ 31) := by
      rw [UInt32.toNat_shiftLeft, Nat.shiftLeft_eq]
      change x.toNat * 2 ^ 1 % 2 ^ 32 = 2 ^ 1 * (x.toNat % 2 ^ 31)
      omega
    rw [UInt32.toNat_or, hshift,
      ← Nat.two_pow_add_eq_or_of_lt (by omega : carry.toNat < 2 ^ 1) (x.toNat % 2 ^ 31)]
    omega
  have hhigh : (x >>> 31).toNat = x.toNat / 2 ^ 31 := by simp [Nat.shiftRight_eq_div_pow]
  simp only [shl1Limb, hlow, hhigh]
  constructor <;> omega

theorem limbsShl1_val (dst : List UInt32) :
    limbsVal (limbsShl1 dst).1 + (2 ^ 32) ^ dst.length * (limbsShl1 dst).2.toNat =
      2 * limbsVal dst ∧ (limbsShl1 dst).2.toNat ≤ 1 := by
  have hchain := ripple_weigh (fun x : UInt32 => 2 * x.toNat) UInt32.toNat UInt32.toNat
    (fun c => c.toNat ≤ 1) shl1Limb_spec dst (c := 0) (by simp)
  rw [weigh_mul] at hchain
  simpa [limbsShl1, limbsVal] using hchain

theorem limbsNot_val (a : List UInt32) :
    limbsVal (limbsNot a) + limbsVal a + 1 = (2 ^ 32) ^ a.length := by
  induction a with
  | nil => rfl
  | cons x a ih =>
    have hx : x.toNat < 2 ^ 32 := x.toNat_lt
    have hnot : (~~~x).toNat = 2 ^ 32 - 1 - x.toNat := UInt32.toNat_not x
    have hcons : limbsNot (x :: a) = ~~~x :: limbsNot a := rfl
    rw [hcons, limbsVal_cons, limbsVal_cons, hnot, List.length_cons, pow_succ (2 ^ 32) a.length]
    omega

theorem limbsNeg_val (a : List UInt32) :
    limbsVal (limbsNeg a).1 = ((2 ^ 32) ^ a.length - limbsVal a) % (2 ^ 32) ^ a.length := by
  have hadd := limbsAddSmall_val (limbsNot a) 1
  have hnot := limbsNot_val a
  have hlt := limbsVal_lt (limbsNeg a).1
  rw [limbsNot_length] at hadd
  rw [show (limbsNeg a).1.length = a.length by simp [limbsNeg]] at hlt
  have hsum : limbsVal (limbsNeg a).1 + (2 ^ 32) ^ a.length * (limbsNeg a).2.toNat =
      (2 ^ 32) ^ a.length - limbsVal a := by
    simp only [limbsNeg, hadd, UInt32.toNat_one]
    omega
  rw [← hsum, Nat.add_mul_mod_self_left, Nat.mod_eq_of_lt hlt]

@[simp] theorem limbsNeg_length (a : List UInt32) : (limbsNeg a).1.length = a.length := by
  simp [limbsNeg]

/-- A flag cleared at every nonzero limb ends as it began exactly when all limbs are zero. -/
theorem foldl_clear (a : List UInt32) (z : Bool) :
    a.foldl (fun z x => if x ≠ 0 then false else z) z = true ↔ z = true ∧ limbsVal a = 0 := by
  induction a generalizing z with
  | nil => simp [limbsVal]
  | cons x a ih =>
    rw [List.foldl_cons, ih, limbsVal_cons]
    by_cases hx : x = 0
    · simp [hx]
    · have hne : x.toNat ≠ 0 := fun h => hx (UInt32.toNat_inj.mp h)
      simp [hx, hne]

theorem limbsIsZero_iff (a : List UInt32) : limbsIsZero a = true ↔ limbsVal a = 0 :=
  (foldl_clear a true).trans (and_iff_right rfl)

theorem limbsCmp_spec {a b : List UInt32} (h : a.length = b.length) :
    limbsCmp a b =
      if limbsVal a < limbsVal b then -1 else if limbsVal a > limbsVal b then 1 else 0 := by
  induction a generalizing b with
  | nil => cases b with
    | nil => rfl
    | cons y b => simp at h
  | cons x a ih => cases b with
    | nil => simp at h
    | cons y b =>
      have hx : x.toNat < 2 ^ 32 := x.toNat_lt
      have hy : y.toNat < 2 ^ 32 := y.toNat_lt
      have hrec := ih (b := b) (by simpa using h)
      rw [limbsVal_cons, limbsVal_cons]
      simp only [limbsCmp, hrec, UInt32.lt_iff_toNat_lt, gt_iff_lt]
      split_ifs <;> first | rfl | omega

theorem limbsCmp_nonneg_iff {a b : List UInt32} (h : a.length = b.length) :
    limbsCmp a b ≥ 0 ↔ limbsVal b ≤ limbsVal a := by
  rw [limbsCmp_spec h]
  split_ifs <;> omega

theorem get_last_snoc (init : List UInt32) (top : UInt32) :
    Slice.get (init ++ [top]) (((init ++ [top]).length : ℤ) - 1) = .ret top := by
  rw [Slice.get_eq_ret]
  simp

/-- The top bit says whether a magnitude lies in the upper half of its range. -/
theorem limbsSign_spec {a : List UInt32} (ha : a ≠ []) :
    ∃ s, limbsSign a = .ret s ∧ (s = 1 ↔ (2 ^ 32) ^ a.length ≤ 2 * limbsVal a) := by
  obtain ⟨init, top, rfl⟩ := (List.eq_nil_or_concat' a).resolve_left ha
  have htop : top.toNat < 2 ^ 32 := top.toNat_lt
  have hinit := limbsVal_lt init
  refine ⟨top >>> 31, by simp only [limbsSign, get_last_snoc, Exec.ret_bind, Exec.pure_eq], ?_⟩
  have hshift : (top >>> 31).toNat = top.toNat / 2 ^ 31 := by simp [Nat.shiftRight_eq_div_pow]
  rw [← UInt32.toNat_inj, hshift, UInt32.toNat_one, limbsVal_snoc, List.length_append,
    List.length_singleton, pow_succ (2 ^ 32) init.length]
  generalize (2 ^ 32) ^ init.length = P at hinit ⊢
  constructor
  · intro h
    have hmul : P * 2147483648 ≤ P * top.toNat := Nat.mul_le_mul_left P (by omega)
    linarith
  · intro h
    by_contra hne
    have hmul : P * top.toNat ≤ P * 2147483647 := Nat.mul_le_mul_left P (by omega)
    omega

theorem limbsIsMinMag_spec {a : List UInt32} (ha : a ≠ []) :
    ∃ m, limbsIsMinMag a = .ret m ∧ (m = true ↔ 2 * limbsVal a = (2 ^ 32) ^ a.length) := by
  obtain ⟨init, top, rfl⟩ := (List.eq_nil_or_concat' a).resolve_left ha
  have htop : top.toNat < 2 ^ 32 := top.toNat_lt
  have hinit := limbsVal_lt init
  refine ⟨_, by simp only [limbsIsMinMag, get_last_snoc, Exec.ret_bind, Exec.pure_eq]; rfl, ?_⟩
  have hmin : (top == 0x80000000) = true ↔ top.toNat = 2 ^ 31 := by
    rw [beq_iff_eq, ← UInt32.toNat_inj]
    rfl
  rw [List.dropLast_concat, foldl_clear, hmin, limbsVal_snoc, List.length_append,
    List.length_singleton, pow_succ (2 ^ 32) init.length]
  generalize (2 ^ 32) ^ init.length = P at hinit ⊢
  constructor
  · rintro ⟨h, h0⟩
    rw [h, h0]
    omega
  · intro h
    -- the lower limbs weigh less than `P`, so the top limb alone must make up half of the range
    have hlt : P * top.toNat < P * 2147483649 := by omega
    have hgt : P * 2147483647 < P * top.toNat := by omega
    have heq : top.toNat = 2 ^ 31 := by
      have h1 := Nat.lt_of_mul_lt_mul_left hlt
      have h2 := Nat.lt_of_mul_lt_mul_left hgt
      omega
    rw [heq] at h
    exact ⟨heq, by omega⟩

end FcLang.Wideint
