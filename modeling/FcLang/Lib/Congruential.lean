import Mathlib.Tactic

/-!
# Linear congruential sequences modulo a power of two

With a multiplier that is one modulo four and an odd increment, a sequence meets
every residue once before it comes back. A function of the states whose value
together with another one determines the state takes every value equally often.
-/

namespace FcLang.Congruential
variable {a c x : ℕ}

/-- The states of `x ↦ a * x + c`, before they are reduced. -/
def orbit (a c x : ℕ) : ℕ → ℕ
  | 0 => x
  | k + 1 => a * orbit a c x k + c

/-- `1 + a + ... + a ^ (k - 1)` -/
def geometric (a : ℕ) : ℕ → ℕ
  | 0 => 0
  | k + 1 => geometric a k + a ^ k

theorem geometric_add (a m k : ℕ) :
    geometric a (m + k) = geometric a m + a ^ m * geometric a k := by
  induction k with
  | zero => simp [geometric]
  | succ k ih =>
    rw [← Nat.add_assoc, geometric, ih, geometric, pow_add]
    ring

theorem geometric_two_mul (a m : ℕ) :
    geometric a (2 * m) = geometric a m * (1 + a ^ m) := by
  rw [two_mul, geometric_add]
  ring

/-- A power, from the sum of the powers below it. -/
theorem pow_eq_geometric {q : ℕ} (ha : a = q + 1) (k : ℕ) : a ^ k = 1 + q * geometric a k := by
  induction k with
  | zero => simp [geometric]
  | succ k ih =>
    rw [pow_succ, geometric, Nat.mul_add, ← Nat.add_assoc, ← ih, ha]
    ring

theorem orbit_add (a c x i k : ℕ) :
    orbit a c x (i + k) = a ^ k * orbit a c x i + c * geometric a k := by
  induction k with
  | zero => simp [geometric]
  | succ k ih =>
    have hgeometric : geometric a (k + 1) = 1 + a * geometric a k := by
      rw [Nat.add_comm k, geometric_add]
      simp [geometric]
    rw [← Nat.add_assoc, orbit, ih, hgeometric, pow_succ]
    ring

theorem pow_mod_four (ha : a % 4 = 1) (m : ℕ) : a ^ m % 4 = 1 := by
  rw [Nat.pow_mod, ha, one_pow, Nat.one_mod]

/-- The sums have as many factors of two as their lengths. -/
theorem two_pow_dvd_geometric (ha : a % 4 = 1) (n k : ℕ) :
    2 ^ n ∣ geometric a k ↔ 2 ^ n ∣ k := by
  induction n generalizing k with
  | zero => simp
  | succ n ih =>
    rcases Nat.even_or_odd' k with ⟨m, rfl | rfl⟩
    · obtain ⟨t, ht⟩ : ∃ t, 1 + a ^ m = 2 * (2 * t + 1) :=
        ⟨a ^ m / 4, by have := pow_mod_four ha m; omega⟩
      have hodd : Nat.Coprime (2 ^ n) (2 * t + 1) :=
        (Nat.coprime_two_left.mpr ⟨t, rfl⟩).pow_left n
      rw [geometric_two_mul, ht, pow_succ', show geometric a m * (2 * (2 * t + 1)) =
        2 * (geometric a m * (2 * t + 1)) by ring, Nat.mul_dvd_mul_iff_left two_pos,
        hodd.dvd_mul_right, ih, Nat.mul_dvd_mul_iff_left two_pos]
    · have hsum : geometric a (2 * m + 1) % 2 = 1 := by
        have hpow := pow_mod_four ha (2 * m)
        obtain ⟨t, ht⟩ : ∃ t, 1 + a ^ m = 2 * t :=
          ⟨(1 + a ^ m) / 2, by have := pow_mod_four ha m; omega⟩
        rw [geometric, geometric_two_mul, ht, ← Nat.mul_assoc, Nat.mul_right_comm]
        omega
      have hk : ∀ y : ℕ, y % 2 = 1 → ¬2 ^ (n + 1) ∣ y := fun y hy hdvd => by
        have : 2 ∣ y := (dvd_pow_self 2 (Nat.succ_ne_zero n)).trans hdvd
        omega
      exact iff_of_false (hk _ hsum) (hk _ (by omega))

/-- How far `k` steps lead: a multiple of their sum by an odd number. -/
theorem orbit_advance (ha : a % 4 = 1) (hc : c % 2 = 1) (x i k : ℕ) :
    ∃ t, orbit a c x (i + k) = orbit a c x i + geometric a k * (2 * t + 1) := by
  obtain ⟨q, hq⟩ : ∃ q, a = 4 * q + 1 := ⟨a / 4, by omega⟩
  refine ⟨2 * q * orbit a c x i + c / 2, ?_⟩
  rw [orbit_add, pow_eq_geometric hq, show 2 * (2 * q * orbit a c x i + c / 2) + 1 =
    4 * q * orbit a c x i + (2 * (c / 2) + 1) by ring, show 2 * (c / 2) + 1 = c by omega]
  ring

theorem orbit_modEq_iff (ha : a % 4 = 1) (hc : c % 2 = 1) (x w i k : ℕ) :
    orbit a c x (i + k) ≡ orbit a c x i [MOD 2 ^ w] ↔ 2 ^ w ∣ k := by
  obtain ⟨t, ht⟩ := orbit_advance ha hc x i k
  have hodd : Nat.Coprime (2 ^ w) (2 * t + 1) := (Nat.coprime_two_left.mpr ⟨t, rfl⟩).pow_left w
  rw [ht, Nat.ModEq.comm, Nat.modEq_iff_dvd' (Nat.le_add_right _ _), Nat.add_sub_cancel_left,
    hodd.dvd_mul_right, two_pow_dvd_geometric ha]

/-- No residue is met twice within a period. -/
theorem orbit_injective (ha : a % 4 = 1) (hc : c % 2 = 1) {w i j : ℕ} (hi : i < 2 ^ w)
    (hj : j < 2 ^ w) (h : orbit a c x i ≡ orbit a c x j [MOD 2 ^ w]) : i = j := by
  wlog hle : i ≤ j generalizing i j
  · exact (this hj hi h.symm (Nat.le_of_not_le hle)).symm
  · obtain ⟨k, rfl⟩ := Nat.exists_eq_add_of_le hle
    have hdvd := (orbit_modEq_iff ha hc x w i k).mp h.symm
    have hk : k = 0 := Nat.eq_zero_of_dvd_of_lt hdvd (by omega)
    rw [hk, Nat.add_zero]

/-- If `f` and `g` together tell the elements of `s` apart, and there are as many elements as
pairs of their values, each value of `f` is taken as often as any other. -/
theorem card_fiber {α β γ : Type*} [DecidableEq β] [DecidableEq γ] {s : Finset α} {t : Finset β}
    {u : Finset γ} {f : α → β} {g : α → γ} (hf : ∀ a ∈ s, f a ∈ t) (hg : ∀ a ∈ s, g a ∈ u)
    (hinj : ∀ a ∈ s, ∀ b ∈ s, f a = f b → g a = g b → a = b) (hcard : t.card * u.card ≤ s.card)
    {v : β} (hv : v ∈ t) : (s.filter fun a => f a = v).card = u.card := by
  have himage : (s.image fun a => (f a, g a)) = t ×ˢ u := by
    apply Finset.eq_of_subset_of_card_le
    · intro p hp
      obtain ⟨a, ha, rfl⟩ := Finset.mem_image.mp hp
      exact Finset.mk_mem_product (hf a ha) (hg a ha)
    · rw [Finset.card_image_of_injOn, Finset.card_product]
      · exact hcard
      · exact fun a ha b hb hab => hinj a ha b hb (Prod.mk.inj hab).1 (Prod.mk.inj hab).2
  have hfiber : (s.filter fun a => f a = v).image g = u := by
    ext y
    constructor
    · intro hy
      obtain ⟨a, ha, rfl⟩ := Finset.mem_image.mp hy
      exact hg a (Finset.mem_filter.mp ha).1
    · intro hy
      have hmem : (v, y) ∈ s.image fun a => (f a, g a) := by
        rw [himage]
        exact Finset.mk_mem_product hv hy
      obtain ⟨a, ha, hay⟩ := Finset.mem_image.mp hmem
      obtain ⟨hfa, hga⟩ := Prod.mk.inj hay
      exact Finset.mem_image.mpr ⟨a, Finset.mem_filter.mpr ⟨ha, hfa⟩, hga⟩
  rw [← hfiber, Finset.card_image_of_injOn]
  intro a ha b hb hab
  obtain ⟨ha, hfa⟩ := Finset.mem_filter.mp ha
  obtain ⟨hb, hfb⟩ := Finset.mem_filter.mp hb
  exact hinj a ha b hb (hfa.trans hfb.symm) hab

end FcLang.Congruential
