import Mathlib.Tactic

/-!
# Positional numerals and carry chains

A numeral is a list of digits, least significant first, each weighing `v`. A
carry chain walks it once and threads a carry; what one digit conserves, the
whole numeral conserves.
-/

namespace FcLang.Numeral
variable {R : Type*} [CommSemiring R] {α β γ : Type*}

def weigh (B : R) (v : α → R) : List α → R
  | [] => 0
  | x :: xs => v x + B * weigh B v xs

@[simp] theorem weigh_nil (B : R) (v : α → R) : weigh B v [] = 0 := rfl

@[simp] theorem weigh_cons (B : R) (v : α → R) (x : α) (xs : List α) :
    weigh B v (x :: xs) = v x + B * weigh B v xs := rfl

theorem weigh_append (B : R) (v : α → R) (xs ys : List α) :
    weigh B v (xs ++ ys) = weigh B v xs + B ^ xs.length * weigh B v ys := by
  induction xs with
  | nil => simp
  | cons x xs ih =>
    simp only [List.cons_append, weigh_cons, ih, List.length_cons, pow_succ]
    ring

theorem weigh_mul (B m : R) (v : α → R) (xs : List α) :
    weigh B (fun x => m * v x) xs = m * weigh B v xs := by
  induction xs with
  | nil => simp
  | cons x xs ih => rw [weigh_cons, weigh_cons, ih]; ring

/-- Digit-wise sums weigh the sum, for two numerals of one length. -/
theorem weigh_zip_add (B : R) (v : α → R) (w : β → R) {xs : List α} {ys : List β}
    (h : xs.length = ys.length) :
    weigh B (fun p : α × β => v p.1 + w p.2) (xs.zip ys) = weigh B v xs + weigh B w ys := by
  induction xs generalizing ys with
  | nil => cases ys with
    | nil => simp
    | cons y ys => simp at h
  | cons x xs ih => cases ys with
    | nil => simp at h
    | cons y ys =>
      have ht : xs.length = ys.length := by simpa using h
      rw [List.zip_cons_cons, weigh_cons, weigh_cons, weigh_cons, ih ht]
      ring

theorem weigh_replicate_zero (B : R) {v : α → R} {z : α} (hz : v z = 0) (n : ℕ) :
    weigh B v (List.replicate n z) = 0 := by
  induction n with
  | zero => rfl
  | succ n ih => rw [List.replicate_succ, weigh_cons, ih, hz]; simp

theorem cast_weigh (B : ℕ) (v : α → ℕ) (xs : List α) :
    ((weigh B v xs : ℕ) : ℤ) = weigh (B : ℤ) (fun x => (v x : ℤ)) xs := by
  induction xs with
  | nil => rfl
  | cons x xs ih => simp only [weigh_cons, Nat.cast_add, Nat.cast_mul, ih]

theorem weigh_lt {B : ℕ} {v : α → ℕ} {xs : List α} (h : ∀ x ∈ xs, v x < B) :
    weigh B v xs < B ^ xs.length := by
  induction xs with
  | nil => simp
  | cons x xs ih =>
    have hx : v x < B := h x List.mem_cons_self
    have hxs : weigh B v xs < B ^ xs.length := ih fun y hy => h y (List.mem_cons_of_mem x hy)
    calc weigh B v (x :: xs) < B + B * weigh B v xs := by rw [weigh_cons]; omega
      _ = B * (weigh B v xs + 1) := by ring
      _ ≤ B * B ^ xs.length := Nat.mul_le_mul_left B hxs
      _ = B ^ (x :: xs).length := by rw [List.length_cons, pow_succ, mul_comm]

/-- A numeral is determined by its length and what it weighs. -/
theorem weigh_injective {B : ℕ} {v : α → ℕ} (hv : Function.Injective v) {xs ys : List α}
    (hx : ∀ x ∈ xs, v x < B) (hy : ∀ y ∈ ys, v y < B) (hlen : xs.length = ys.length)
    (h : weigh B v xs = weigh B v ys) : xs = ys := by
  induction xs generalizing ys with
  | nil => exact (List.length_eq_zero_iff.mp hlen.symm).symm
  | cons x xs ih => cases ys with
    | nil => simp at hlen
    | cons y ys =>
      have hxB : v x < B := hx x List.mem_cons_self
      have hyB : v y < B := hy y List.mem_cons_self
      rw [weigh_cons, weigh_cons] at h
      have hhead : v x = v y := by
        have hmod : (v x + B * weigh B v xs) % B = (v y + B * weigh B v ys) % B := by rw [h]
        simpa [Nat.add_mul_mod_self_left, Nat.mod_eq_of_lt, hxB, hyB] using hmod
      have htail : weigh B v xs = weigh B v ys :=
        Nat.eq_of_mul_eq_mul_left (by omega) (by omega : B * weigh B v xs = B * weigh B v ys)
      rw [hv hhead, ih (fun z hz => hx z (List.mem_cons_of_mem x hz))
        (fun z hz => hy z (List.mem_cons_of_mem y hz)) (by simpa using hlen) htail]

/-- Dropping digits divides by their weight. -/
theorem weigh_drop {B : ℕ} {v : α → ℕ} {xs : List α} (hB : 0 < B) (h : ∀ x ∈ xs, v x < B)
    (i : ℕ) : weigh B v (xs.drop i) = weigh B v xs / B ^ i := by
  induction i generalizing xs with
  | zero => simp
  | succ i ih => cases xs with
    | nil => simp
    | cons x xs =>
      have hx : v x < B := h x List.mem_cons_self
      have hdiv : (v x + B * weigh B v xs) / B = weigh B v xs := by
        rw [Nat.add_mul_div_left _ _ hB, Nat.div_eq_of_lt hx, Nat.zero_add]
      rw [List.drop_succ_cons, ih fun y hy => h y (List.mem_cons_of_mem x hy), weigh_cons,
        pow_succ', ← Nat.div_div_eq_div_mul, hdiv]

/-- Replacing a digit moves the value by the difference of the digits. -/
theorem weigh_set (B : R) (v : α → R) {xs : List α} {i : ℕ} (h : i < xs.length) (y : α) :
    weigh B v (xs.set i y) + B ^ i * v xs[i] = weigh B v xs + B ^ i * v y := by
  induction xs generalizing i with
  | nil => simp at h
  | cons x xs ih => cases i with
    | zero => simp only [List.set_cons_zero, weigh_cons, List.getElem_cons_zero, pow_zero]; ring
    | succ i =>
      have hi : i < xs.length := by simpa using h
      simp only [List.set_cons_succ, weigh_cons, List.getElem_cons_succ, pow_succ]
      calc v x + B * weigh B v (xs.set i y) + B ^ i * B * v xs[i]
          = v x + B * (weigh B v (xs.set i y) + B ^ i * v xs[i]) := by ring
        _ = v x + B * weigh B v xs + B ^ i * B * v y := by rw [ih hi]; ring

/-- One pass over the digits that threads a carry. -/
def ripple (step : α → γ → β × γ) : List α → γ → List β × γ
  | [], c => ([], c)
  | x :: xs, c =>
    let r := step x c
    let rs := ripple step xs r.2
    (r.1 :: rs.1, rs.2)

@[simp] theorem ripple_length (step : α → γ → β × γ) (xs : List α) (c : γ) :
    (ripple step xs c).1.length = xs.length := by
  induction xs generalizing c with
  | nil => rfl
  | cons x xs ih => simp only [ripple, List.length_cons, ih]

/-- What every digit conserves, up to its carries, the numeral conserves, up to the carry that
goes in and the one that comes out. -/
theorem ripple_weigh {step : α → γ → β × γ} {B : R} (vin : α → R) (vout : β → R) (vc : γ → R)
    (P : γ → Prop)
    (hstep : ∀ x c, P c → vout (step x c).1 + B * vc (step x c).2 = vin x + vc c ∧ P (step x c).2)
    (xs : List α) {c : γ} (hc : P c) :
    weigh B vout (ripple step xs c).1 + B ^ xs.length * vc (ripple step xs c).2 =
      weigh B vin xs + vc c ∧ P (ripple step xs c).2 := by
  induction xs generalizing c with
  | nil => exact ⟨by simp [ripple], hc⟩
  | cons x xs ih =>
    obtain ⟨hdigit, hc'⟩ := hstep x c hc
    obtain ⟨hrest, hc''⟩ := ih hc'
    refine ⟨?_, hc''⟩
    simp only [ripple, weigh_cons, List.length_cons]
    calc vout (step x c).1 + B * weigh B vout (ripple step xs (step x c).2).1 +
          B ^ (xs.length + 1) * vc (ripple step xs (step x c).2).2
        = vout (step x c).1 + B * (weigh B vout (ripple step xs (step x c).2).1 +
          B ^ xs.length * vc (ripple step xs (step x c).2).2) := by ring
      _ = (vout (step x c).1 + B * vc (step x c).2) + B * weigh B vin xs := by rw [hrest]; ring
      _ = vin x + B * weigh B vin xs + vc c := by rw [hdigit]; ring

end FcLang.Numeral
