import Mathlib.Tactic
import Mathlib.Data.Int.Bitwise
import Mathlib.Data.Int.ModEq

/-!
# Fixed-width integer formats

A format is a width and a signedness. `wrap` brings an integer into the format
modulo `2 ^ bits`, and `Fits` says that it lies there already. The bitwise
operators are those of two's complement without a bound, so a format is closed
under them and no operator needs a width of its own.
-/

namespace FcLang

structure Format where
  bits : ℕ
  signed : Bool
  deriving DecidableEq, Repr

namespace Format
variable {f g : Format} {x y z : ℤ}

def wrap (f : Format) (z : ℤ) : ℤ :=
  if f.signed then z.bmod (2 ^ f.bits) else z % 2 ^ f.bits

def Fits (f : Format) (z : ℤ) : Prop :=
  if f.signed then -2 ^ (f.bits - 1) ≤ z ∧ z < 2 ^ (f.bits - 1) else 0 ≤ z ∧ z < 2 ^ f.bits

instance (f : Format) (z : ℤ) : Decidable (f.Fits z) := by
  unfold Fits
  infer_instance

theorem fits_unsigned (hf : f.signed = false) : f.Fits z ↔ 0 ≤ z ∧ z < 2 ^ f.bits := by
  simp [Fits, hf]

theorem fits_signed (hf : f.signed = true) :
    f.Fits z ↔ -2 ^ (f.bits - 1) ≤ z ∧ z < 2 ^ (f.bits - 1) := by
  simp [Fits, hf]

theorem wrap_modEq (f : Format) (z : ℤ) : f.wrap z ≡ z [ZMOD 2 ^ f.bits] := by
  unfold wrap
  split
  · have h := Int.bmod_emod (x := z) (m := 2 ^ f.bits)
    push_cast at h
    exact h
  · exact Int.mod_modEq z _

theorem wrap_congr (h : x ≡ y [ZMOD 2 ^ f.bits]) : f.wrap x = f.wrap y := by
  unfold wrap
  split
  · have hxy : x % ((2 ^ f.bits : ℕ) : ℤ) = y % ((2 ^ f.bits : ℕ) : ℤ) := by
      push_cast
      exact h
    rw [Int.bmod_def, Int.bmod_def, hxy]
  · exact h

theorem two_pow_pred (hf : 0 < f.bits) : (2 : ℤ) ^ f.bits = 2 * 2 ^ (f.bits - 1) := by
  rw [← pow_succ', Nat.sub_add_cancel hf]

theorem wrap_of_fits (hf : 0 < f.bits) (h : f.Fits z) : f.wrap z = z := by
  have h2 := two_pow_pred hf
  unfold Fits at h
  unfold wrap
  split at h
  · rename_i hs
    rw [if_pos hs]
    apply Int.bmod_eq_of_le_mul_two
    · push_cast
      omega
    · push_cast
      omega
  · rename_i hs
    rw [if_neg hs]
    exact Int.emod_eq_of_lt h.1 h.2

theorem fits_wrap (hf : 0 < f.bits) (z : ℤ) : f.Fits (f.wrap z) := by
  have h2 := two_pow_pred hf
  have hpos : (0 : ℤ) < 2 ^ f.bits := by positivity
  have hpos' : 0 < 2 ^ f.bits := by positivity
  unfold Fits wrap
  split
  · have hlo := Int.le_bmod (x := z) hpos'
    have hhi := Int.bmod_lt (x := z) hpos'
    push_cast at hlo hhi
    omega
  · exact ⟨Int.emod_nonneg _ hpos.ne', Int.emod_lt_of_pos _ hpos⟩

theorem Fits.mono (h : f.Fits z) (hs : f.signed = g.signed) (hb : f.bits ≤ g.bits) :
    g.Fits z := by
  have h1 : (2 : ℤ) ^ f.bits ≤ 2 ^ g.bits := pow_le_pow_right₀ (by norm_num) hb
  have h2 : (2 : ℤ) ^ (f.bits - 1) ≤ 2 ^ (g.bits - 1) :=
    pow_le_pow_right₀ (by norm_num) (by omega)
  unfold Fits at h ⊢
  rw [← hs]
  split at h <;> rename_i hf
  · rw [if_pos hf]
    omega
  · rw [if_neg hf]
    omega

/-- An unsigned value fits a signed format that is wider. -/
theorem Fits.mono_signed (h : f.Fits z) (hs : f.signed = false) (hg : g.signed = true)
    (hb : f.bits < g.bits) : g.Fits z := by
  have h2 : (2 : ℤ) ^ f.bits ≤ 2 ^ (g.bits - 1) :=
    pow_le_pow_right₀ (by norm_num) (by omega)
  rw [fits_unsigned hs] at h
  rw [fits_signed hg]
  omega

theorem Fits.mono_unsigned (h : f.Fits z) (hz : 0 ≤ z) (hg : g.signed = false)
    (hb : f.bits ≤ g.bits) : g.Fits z := by
  have h1 : (2 : ℤ) ^ f.bits ≤ 2 ^ g.bits := pow_le_pow_right₀ (by norm_num) hb
  have h2 : (2 : ℤ) ^ (f.bits - 1) ≤ 2 ^ f.bits := pow_le_pow_right₀ (by norm_num) (by omega)
  unfold Fits at h
  rw [fits_unsigned hg]
  split at h <;> omega

theorem fits_complement (hf : f.signed = true) : f.Fits (-z - 1) ↔ f.Fits z := by
  rw [fits_signed hf, fits_signed hf]
  omega

/-- A result that lies between 0 and a value of the format. -/
theorem Fits.between (h : f.Fits x) (hz : 0 ≤ z ∧ z ≤ x ∨ x ≤ z ∧ z ≤ 0) : f.Fits z := by
  have hp : (0 : ℤ) < 2 ^ (f.bits - 1) := by positivity
  unfold Fits at h ⊢
  split at h <;> rename_i hs
  · rw [if_pos hs]
    omega
  · rw [if_neg hs]
    omega

theorem Fits.neg (h : f.Fits z) (hs : f.signed = true) (hz : 0 ≤ z) : f.Fits (-z) := by
  rw [fits_signed hs] at h ⊢
  omega

theorem Fits.tmod (h : f.Fits x) (y : ℤ) : f.Fits (x.tmod y) := by
  have habs : (x.tmod y).natAbs ≤ x.natAbs := by
    rw [Int.natAbs_tmod]
    exact Nat.mod_le _ _
  apply h.between
  obtain hx | hx := Int.le_total 0 x
  · have := Int.tmod_nonneg y hx
    omega
  · have := Int.tmod_nonneg y (Int.neg_nonneg_of_nonpos hx)
    rw [Int.neg_tmod] at this
    omega

theorem Fits.ediv (h : f.Fits x) (hy : 0 < y) : f.Fits (x / y) := by
  obtain hx | hx := Int.le_total 0 x
  · exact h.between (.inl ⟨Int.ediv_nonneg hx hy.le, Int.ediv_le_self y hx⟩)
  · have hlo : x ≤ x / y := by
      rw [Int.le_ediv_iff_mul_le hy]
      nlinarith
    have hhi : x / y ≤ 0 := Int.ediv_nonpos_of_nonpos_of_neg hx hy
    exact h.between (.inr ⟨hlo, hhi⟩)

/-- A quotient fits unless the lowest value is divided by -1. -/
theorem Fits.tdiv (h : f.Fits x) (hy : y ≠ 0) (hy' : y ≠ -1) (hs : f.signed = false → 0 ≤ y) :
    f.Fits (x.tdiv y) := by
  have hnat : (x.tdiv y).natAbs = x.natAbs / y.natAbs := Int.natAbs_tdiv x y
  cases hf : f.signed with
  | false =>
    have hx := ((fits_unsigned hf).mp h).1
    refine h.between (.inl ⟨Int.tdiv_nonneg hx (hs hf), ?_⟩)
    have := Nat.div_le_self x.natAbs y.natAbs
    omega
  | true =>
    have hp : (0 : ℤ) < 2 ^ (f.bits - 1) := by positivity
    obtain hpos | hneg := Int.lt_or_gt_of_ne hy
    · have hhalf : x.natAbs / y.natAbs ≤ x.natAbs / 2 := Nat.div_le_div_left (by omega) (by norm_num)
      rw [fits_signed hf] at h ⊢
      omega
    · obtain hx | hx := Int.le_total 0 x
      · have := Int.tdiv_nonneg hx hneg.le
        have := Nat.div_le_self x.natAbs y.natAbs
        exact h.between (.inl ⟨by omega, by omega⟩)
      · have := Int.tdiv_nonneg (Int.neg_nonneg_of_nonpos hx) hneg.le
        rw [Int.neg_tdiv] at this
        have := Nat.div_le_self x.natAbs y.natAbs
        exact h.between (.inr ⟨by omega, by omega⟩)

section Bitwise

/-- A signed format holds a natural number and its complement alike. -/
theorem fits_cases (hf : f.signed = true) :
    f.Fits z ↔ match z with
      | .ofNat m => m < 2 ^ (f.bits - 1)
      | .negSucc m => m < 2 ^ (f.bits - 1) := by
  rw [fits_signed hf]
  have h2 : (((2 ^ (f.bits - 1) : ℕ) : ℤ)) = 2 ^ (f.bits - 1) := by push_cast; rfl
  cases z with
  | ofNat m =>
    simp only [Int.ofNat_eq_natCast, ← h2]
    omega
  | negSucc m =>
    simp only [Int.negSucc_eq, ← h2]
    omega

theorem fits_ofNat (hf : f.signed = false) (m : ℕ) : f.Fits (Int.ofNat m) ↔ m < 2 ^ f.bits := by
  rw [fits_unsigned hf]
  have h2 : ((2 ^ f.bits : ℕ) : ℤ) = 2 ^ f.bits := by push_cast; rfl
  simp only [Int.ofNat_eq_natCast, ← h2]
  omega

theorem not_fits_negSucc (hf : f.signed = false) (m : ℕ) : ¬f.Fits (Int.negSucc m) := by
  rw [fits_unsigned hf]
  exact fun h => absurd h.1 (by simp [Int.negSucc_not_nonneg])

theorem ldiff_lt {m k n : ℕ} (hm : m < 2 ^ n) (hk : k < 2 ^ n) : Nat.ldiff m k < 2 ^ n :=
  Nat.bitwise_lt_two_pow hm hk

/-- A format is closed under an operator that keeps the naturals below each
power of two, whatever signs its arguments have. -/
theorem Fits.bitwise {op : ℤ → ℤ → ℤ}
    (h : ∀ n m k, m < 2 ^ n → k < 2 ^ n →
      (∃ r < 2 ^ n, op (.ofNat m) (.ofNat k) = .ofNat r) ∧
      (∀ a ∈ [Int.ofNat m, .negSucc m], ∀ b ∈ [Int.ofNat k, .negSucc k],
        ∃ r < 2 ^ n, op a b = .ofNat r ∨ op a b = .negSucc r))
    (hx : f.Fits x) (hy : f.Fits y) : f.Fits (op x y) := by
  cases hs : f.signed with
  | false =>
    cases x with
    | negSucc m => exact absurd hx (not_fits_negSucc hs m)
    | ofNat m =>
      cases y with
      | negSucc k => exact absurd hy (not_fits_negSucc hs k)
      | ofNat k =>
        rw [fits_ofNat hs] at hx hy
        obtain ⟨r, hr, hop⟩ := (h _ m k hx hy).1
        rw [hop, fits_ofNat hs]
        exact hr
  | true =>
    rw [fits_cases hs] at hx hy ⊢
    have both : ∃ r < 2 ^ (f.bits - 1), op x y = .ofNat r ∨ op x y = .negSucc r := by
      cases x <;> cases y <;> exact (h _ _ _ hx hy).2 _ (by simp) _ (by simp)
    obtain ⟨r, hr, hop | hop⟩ := both
    · rw [hop]
      exact hr
    · rw [hop]
      exact hr

theorem Fits.land (hx : f.Fits x) (hy : f.Fits y) : f.Fits (Int.land x y) := by
  refine Fits.bitwise (fun n m k hm hk => ⟨⟨m &&& k, Nat.and_lt_two_pow m hk, rfl⟩, ?_⟩) hx hy
  simp only [List.mem_cons, List.not_mem_nil, or_false, forall_eq_or_imp, forall_eq]
  exact ⟨⟨⟨_, Nat.and_lt_two_pow m hk, .inl rfl⟩, ⟨_, ldiff_lt hm hk, .inl rfl⟩⟩,
    ⟨_, ldiff_lt hk hm, .inl rfl⟩, ⟨_, Nat.or_lt_two_pow hm hk, .inr rfl⟩⟩

theorem Fits.lor (hx : f.Fits x) (hy : f.Fits y) : f.Fits (Int.lor x y) := by
  refine Fits.bitwise (fun n m k hm hk => ⟨⟨m ||| k, Nat.or_lt_two_pow hm hk, rfl⟩, ?_⟩) hx hy
  simp only [List.mem_cons, List.not_mem_nil, or_false, forall_eq_or_imp, forall_eq]
  exact ⟨⟨⟨_, Nat.or_lt_two_pow hm hk, .inl rfl⟩, ⟨_, ldiff_lt hk hm, .inr rfl⟩⟩,
    ⟨_, ldiff_lt hm hk, .inr rfl⟩, ⟨_, Nat.and_lt_two_pow m hk, .inr rfl⟩⟩

theorem Fits.xor (hx : f.Fits x) (hy : f.Fits y) : f.Fits (Int.xor x y) := by
  refine Fits.bitwise (fun n m k hm hk => ⟨⟨m ^^^ k, Nat.xor_lt_two_pow hm hk, rfl⟩, ?_⟩) hx hy
  have hr := Nat.xor_lt_two_pow hm hk
  simp only [List.mem_cons, List.not_mem_nil, or_false, forall_eq_or_imp, forall_eq]
  exact ⟨⟨⟨_, hr, .inl rfl⟩, ⟨_, hr, .inr rfl⟩⟩, ⟨_, hr, .inr rfl⟩, ⟨_, hr, .inl rfl⟩⟩

theorem ldiff_mask (k m : ℕ) : Nat.ldiff (2 ^ k - 1) m = 2 ^ k - (m % 2 ^ k + 1) := by
  apply Nat.eq_of_testBit_eq
  intro i
  rw [Nat.testBit_ldiff, Nat.testBit_two_pow_sub_one,
    Nat.testBit_two_pow_sub_succ (Nat.mod_lt _ (Nat.two_pow_pos k)), Nat.testBit_mod_two_pow]
  cases decide (i < k) <;> cases m.testBit i <;> rfl

/-- A mask of `k` ones takes the remainder modulo `2 ^ k`, of negative numbers too. -/
theorem land_mask (k : ℕ) (z : ℤ) : Int.land z ((2 ^ k - 1 : ℕ) : ℤ) = z % 2 ^ k := by
  have hk : ((2 ^ k : ℕ) : ℤ) = 2 ^ k := by push_cast; rfl
  cases z with
  | ofNat m =>
    change ((m &&& (2 ^ k - 1) : ℕ) : ℤ) = (m : ℤ) % 2 ^ k
    rw [Nat.and_two_pow_sub_one_eq_mod, ← hk]
    exact Int.natCast_mod _ _
  | negSucc m =>
    change ((Nat.ldiff (2 ^ k - 1) m : ℕ) : ℤ) = _
    have hlt : m % 2 ^ k < 2 ^ k := Nat.mod_lt _ (Nat.two_pow_pos k)
    rw [ldiff_mask, ← hk, Int.negSucc_emod _ (by positivity), Nat.cast_sub (by omega)]
    push_cast
    omega
end Bitwise

end Format

end FcLang
