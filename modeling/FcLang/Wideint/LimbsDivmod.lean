import FcLang.Wideint.Limbs

/-!
# Binary long division of limb lists

The loop consumes the dividend from its top bit down. After the bits from `k`
up have been consumed, the quotient and remainder are those of `a / 2 ^ k`,
the quotient shifted up by `k` places.
-/

namespace FcLang.Wideint
open Numeral

/-- One round of the binary long division: bit `idx` of `a` enters the remainder. -/
def limbsDivmodStep (a b : List UInt32) (idx : ℕ) (qr : List UInt32 × List UInt32) :
    Exec (List UInt32 × List UInt32) := do
  let limb : ℕ := idx / 32
  let off := UInt32.ofNat (idx % 32)
  let shifted := limbsShl1 qr.2
  let r0 ← Slice.get shifted.1 0
  let ai ← Slice.get a limb
  let r ← Slice.set shifted.1 0 (r0 ||| ((ai >>> off) &&& 1))
  -- the true remainder reaches b when the shift overflowed or the low limbs compare so
  if shifted.2 = 1 ∨ limbsCmp r b ≥ 0 then
    let qi ← Slice.get qr.1 limb
    let q ← Slice.set qr.1 limb (qi ||| ((1 : UInt32) <<< off))
    return (q, (limbsSub r b).1)
  else return (qr.1, r)

/-- `q` and `r` must come in zeroed; the run aborts when `b` is zero. -/
def limbsDivmod (q r a b : List UInt32) : Exec (List UInt32 × List UInt32) := do
  Exec.require (limbsIsZero b = false)
  let totalBits : ℤ := a.length * 32
  Exec.forRange 0 totalBits
    (fun step qr => limbsDivmodStep a b (totalBits - 1 - step).toNat qr) (q, r)


theorem two_pow_limb_split (idx : ℕ) : 2 ^ idx = (2 ^ 32) ^ (idx / 32) * 2 ^ (idx % 32) := by
  rw [← pow_mul, ← pow_add, Nat.div_add_mod]

theorem limbsVal_drop (a : List UInt32) (i : ℕ) :
    limbsVal (a.drop i) = limbsVal a / (2 ^ 32) ^ i :=
  weigh_drop (by norm_num) (fun x _ => x.toNat_lt) i

/-- Bit `idx` of a limb list is bit `idx % 32` of limb `idx / 32`. -/
theorem limb_bit {a : List UInt32} {idx : ℕ} (h : idx / 32 < a.length) :
    ((a[idx / 32] >>> UInt32.ofNat (idx % 32)) &&& 1).toNat = limbsVal a / 2 ^ idx % 2 := by
  have hoff : idx % 32 < 32 := Nat.mod_lt _ (by norm_num)
  have hlimb : ((a[idx / 32] >>> UInt32.ofNat (idx % 32)) &&& 1).toNat =
      a[idx / 32].toNat / 2 ^ (idx % 32) % 2 := by
    simp [Nat.shiftRight_eq_div_pow, Nat.mod_eq_of_lt hoff]
  rw [hlimb, two_pow_limb_split idx, ← Nat.div_div_eq_div_mul, ← limbsVal_drop,
    List.drop_eq_getElem_cons h, limbsVal_cons]
  -- the limbs above contribute a multiple of 2 to the quotient by `2 ^ (idx % 32)`
  obtain ⟨m, hm⟩ : 2 ^ (idx % 32 + 1) ∣ 2 ^ 32 := pow_dvd_pow 2 (by omega)
  rw [hm, pow_succ]
  rw [show a[idx / 32].toNat + 2 ^ (idx % 32) * 2 * m * limbsVal (a.drop (idx / 32 + 1)) =
    a[idx / 32].toNat + 2 ^ (idx % 32) * (2 * (m * limbsVal (a.drop (idx / 32 + 1)))) by ring,
    Nat.add_mul_div_left _ _ (by positivity), Nat.add_mul_mod_self_left]

/-- Setting a bit above which the value is divisible, and which is clear, adds its weight. -/
theorem set_limb_bit {q : List UInt32} {idx : ℕ} (h : idx / 32 < q.length)
    (hdvd : 2 ^ (idx + 1) ∣ limbsVal q) :
    limbsVal (q.set (idx / 32) (q[idx / 32] ||| ((1 : UInt32) <<< UInt32.ofNat (idx % 32)))) =
      limbsVal q + 2 ^ idx := by
  have hoff : idx % 32 < 32 := Nat.mod_lt _ (by norm_num)
  have hlimb : 2 ^ (idx % 32 + 1) ∣ q[idx / 32].toNat := by
    have hquot : 2 ^ (idx % 32 + 1) ∣ limbsVal (q.drop (idx / 32)) := by
      rw [limbsVal_drop]
      apply Nat.dvd_div_of_mul_dvd
      rwa [pow_succ 2 (idx % 32), ← mul_assoc, ← two_pow_limb_split, ← pow_succ]
    rw [List.drop_eq_getElem_cons h, limbsVal_cons] at hquot
    exact (Nat.dvd_add_left (Dvd.dvd.mul_right (pow_dvd_pow 2 (by omega)) _)).mp hquot
  have hor : (q[idx / 32] ||| ((1 : UInt32) <<< UInt32.ofNat (idx % 32))).toNat =
      q[idx / 32].toNat + 2 ^ (idx % 32) := by
    obtain ⟨t, ht⟩ := hlimb
    have hbit : ((1 : UInt32) <<< UInt32.ofNat (idx % 32)).toNat = 2 ^ (idx % 32) := by
      have hlt : 2 ^ (idx % 32) < 2 ^ 32 := Nat.pow_lt_pow_right (by norm_num) hoff
      simp [Nat.shiftLeft_eq, Nat.mod_eq_of_lt hoff]
      omega
    rw [UInt32.toNat_or, hbit, ht, ← Nat.two_pow_add_eq_or_of_lt]
    exact Nat.pow_lt_pow_right (by norm_num) (Nat.lt_succ_self _)
  have hset := weigh_set (2 ^ 32) UInt32.toNat h
    (q[idx / 32] ||| ((1 : UInt32) <<< UInt32.ofNat (idx % 32)))
  rw [hor, Nat.mul_add, ← two_pow_limb_split] at hset
  simp only [limbsVal]
  omega

/-- The remainder after the shift and the incoming bit, against the divisor. -/
theorem shifted_remainder {r : List UInt32} {bit : UInt32} (hbit : bit.toNat ≤ 1)
    (hr : 0 < (limbsShl1 r).1.length) :
    limbsVal ((limbsShl1 r).1.set 0 ((limbsShl1 r).1[0] ||| bit)) +
      (2 ^ 32) ^ r.length * (limbsShl1 r).2.toNat = 2 * limbsVal r + bit.toNat := by
  obtain ⟨hval, -⟩ := limbsShl1_val r
  have heven : 2 ∣ limbsVal (limbsShl1 r).1 := by
    have hpos : r.length ≠ 0 := by simpa using hr.ne'
    have hpow : 2 ∣ (2 ^ 32) ^ r.length := dvd_pow (by norm_num) hpos
    exact (Nat.dvd_add_left (hpow.mul_right _)).mp (hval ▸ Nat.dvd_mul_right 2 _)
  have hor : ((limbsShl1 r).1[0] ||| bit).toNat = (limbsShl1 r).1[0].toNat + bit.toNat := by
    have hdrop := List.drop_eq_getElem_cons hr
    rw [List.drop_zero] at hdrop
    rw [hdrop, limbsVal_cons] at heven
    obtain ⟨t, ht⟩ : 2 ∣ (limbsShl1 r).1[0].toNat := by omega
    rw [UInt32.toNat_or, ht]
    exact (Nat.two_pow_add_eq_or_of_lt (i := 1) (by omega) t).symm
  have hset := weigh_set (2 ^ 32) UInt32.toNat hr ((limbsShl1 r).1[0] ||| bit)
  rw [hor, pow_zero] at hset
  simp only [limbsVal] at hval ⊢
  omega

/-- Subtracting once brings a shifted remainder below the divisor; a borrow out of the top limb
cancels the bit that the shift pushed out. -/
theorem sub_shifted {r b : List UInt32} {carried t : ℕ} (hlen : r.length = b.length)
    (ht : limbsVal r + (2 ^ 32) ^ r.length * carried = t) (hge : limbsVal b ≤ t)
    (hlt : t < 2 * limbsVal b) : limbsVal (limbsSub r b).1 = t - limbsVal b := by
  obtain ⟨hval, hborrow⟩ := limbsSub_val hlen
  have hres := limbsVal_lt (limbsSub r b).1
  have hb := limbsVal_lt b
  rw [limbsSub_length hlen] at hres
  rw [← hlen] at hb
  set W : ℕ := (2 ^ 32) ^ r.length with hW
  have hWcast : ((2 : ℤ) ^ 32) ^ r.length = (W : ℤ) := by rw [hW]; push_cast; rfl
  rw [hWcast] at hval
  -- both sides lie in `[0, W)` and differ by a multiple of `W`
  have hmod : ((t : ℤ) - limbsVal b) % W = limbsVal (limbsSub r b).1 := by
    have heq : (t : ℤ) - limbsVal b =
        limbsVal (limbsSub r b).1 + W * (carried - (limbsSub r b).2.toNat) := by
      have htz : (limbsVal r : ℤ) + W * carried = t := by exact_mod_cast ht
      linarith
    rw [heq, Int.add_mul_emod_self_left]
    exact Int.emod_eq_of_lt (by positivity) (by exact_mod_cast hres)
  rw [Int.emod_eq_of_lt (by omega) (by omega)] at hmod
  omega

theorem limbsDivmodStep_spec {a b q r : List UInt32} {idx : ℕ} (hb : b.length = a.length)
    (hq : q.length = a.length) (hr : r.length = a.length) (hidx : idx / 32 < a.length)
    (hrb : limbsVal r < limbsVal b) (hdvd : 2 ^ (idx + 1) ∣ limbsVal q) :
    ∃ q' r', limbsDivmodStep a b idx (q, r) = .ret (q', r') ∧
      q'.length = a.length ∧ r'.length = a.length ∧
      limbsVal q' = limbsVal q +
        (2 * limbsVal r + limbsVal a / 2 ^ idx % 2) / limbsVal b * 2 ^ idx ∧
      limbsVal r' = (2 * limbsVal r + limbsVal a / 2 ^ idx % 2) % limbsVal b := by
  set t := 2 * limbsVal r + limbsVal a / 2 ^ idx % 2 with ht
  have hpos : 0 < (limbsShl1 r).1.length := by simp [hr]; omega
  have hqidx : idx / 32 < q.length := by omega
  have hbit := limb_bit hidx
  set bit := (a[idx / 32] >>> UInt32.ofNat (idx % 32)) &&& 1 with hbitdef
  set r₁ := (limbsShl1 r).1.set 0 ((limbsShl1 r).1[0] ||| bit) with hr₁
  have hr₁len : r₁.length = b.length := by simp [hr₁, hr, hb]
  have hshift : limbsVal r₁ + (2 ^ 32) ^ r.length * (limbsShl1 r).2.toNat = t := by
    rw [hr₁, shifted_remainder (by omega) hpos, hbit]
  have htlt : t < 2 * limbsVal b := by omega
  have hrun : limbsDivmodStep a b idx (q, r) =
      if (limbsShl1 r).2 = 1 ∨ limbsCmp r₁ b ≥ 0 then
        .ret (q.set (idx / 32) (q[idx / 32] ||| ((1 : UInt32) <<< UInt32.ofNat (idx % 32))),
          (limbsSub r₁ b).1)
      else .ret (q, r₁) := by
    have hget : Slice.get (limbsShl1 r).1 0 = .ret (limbsShl1 r).1[0] := Slice.get_natCast hpos
    have hset : Slice.set (limbsShl1 r).1 0 ((limbsShl1 r).1[0] ||| bit) = .ret r₁ :=
      Slice.set_natCast hpos _
    simp only [limbsDivmodStep, hget, Exec.ret_bind, Slice.get_natCast hidx, ← hbitdef, hset,
      Slice.get_natCast hqidx, Slice.set_natCast hqidx, Exec.pure_eq]
  have hcond : ((limbsShl1 r).2 = 1 ∨ limbsCmp r₁ b ≥ 0) ↔ limbsVal b ≤ t := by
    have hbW := limbsVal_lt b
    obtain ⟨-, hcarry⟩ := limbsShl1_val r
    rw [limbsCmp_nonneg_iff hr₁len, ← UInt32.toNat_inj, UInt32.toNat_one]
    rw [hb, ← hr] at hbW
    rcases Nat.le_one_iff_eq_zero_or_eq_one.mp hcarry with h0 | h1
    · rw [h0, Nat.mul_zero, Nat.add_zero] at hshift
      simp [h0, hshift]
    · rw [h1, Nat.mul_one] at hshift
      simp only [h1, true_or, true_iff]
      omega
  by_cases hge : limbsVal b ≤ t
  · rw [hrun, if_pos (hcond.mpr hge)]
    have hdiv : t / limbsVal b = 1 := Nat.div_eq_of_lt_le (by omega) (by omega)
    refine ⟨_, _, rfl, by simp [hq], by rw [limbsSub_length hr₁len, hr₁len, hb], ?_, ?_⟩
    · rw [set_limb_bit hqidx hdvd, hdiv, Nat.one_mul]
    · rw [sub_shifted hr₁len (by rw [hr₁len, hb, ← hr]; exact hshift) hge htlt,
        Nat.mod_eq_sub_mod hge, Nat.mod_eq_of_lt (by omega)]
  · rw [hrun, if_neg (fun h => hge (hcond.mp h))]
    have hzero : (limbsShl1 r).2.toNat = 0 := by
      by_contra hne
      exact hge (hcond.mp (Or.inl (UInt32.toNat_inj.mp (by
        have := (limbsShl1_val r).2
        rw [UInt32.toNat_one]
        omega))))
    rw [hzero, Nat.mul_zero, Nat.add_zero] at hshift
    exact ⟨_, _, rfl, hq, by rw [hr₁len, hb], by rw [Nat.div_eq_of_lt (by omega)]; omega,
      by rw [Nat.mod_eq_of_lt (by omega), hshift]⟩

/-- One more bit of the dividend: quotient and remainder from those of the bits above. -/
theorem divmod_bit (a b k : ℕ) :
    a / 2 ^ k / b * 2 ^ k = a / 2 ^ (k + 1) / b * 2 ^ (k + 1) +
        (2 * (a / 2 ^ (k + 1) % b) + a / 2 ^ k % 2) / b * 2 ^ k ∧
      a / 2 ^ k % b = (2 * (a / 2 ^ (k + 1) % b) + a / 2 ^ k % 2) % b := by
  have hhigh : a / 2 ^ (k + 1) = a / 2 ^ k / 2 := by rw [pow_succ, Nat.div_div_eq_div_mul]
  have hsplit : a / 2 ^ k = b * (2 * (a / 2 ^ (k + 1) / b)) +
      (2 * (a / 2 ^ (k + 1) % b) + a / 2 ^ k % 2) := by
    have hb := Nat.div_add_mod (a / 2 ^ (k + 1)) b
    have h2 := Nat.div_add_mod (a / 2 ^ k) 2
    rw [← hhigh] at h2
    calc a / 2 ^ k = 2 * (b * (a / 2 ^ (k + 1) / b) + a / 2 ^ (k + 1) % b) + a / 2 ^ k % 2 := by
          rw [hb, h2]
      _ = _ := by ring
  rcases Nat.eq_zero_or_pos b with rfl | hpos
  · simp only [Nat.div_zero, Nat.zero_mul, Nat.mod_zero, Nat.add_zero, true_and]
    omega
  · constructor
    · conv_lhs => rw [hsplit, Nat.mul_add_div hpos]
      rw [pow_succ]
      ring
    · conv_lhs => rw [hsplit, Nat.mul_add_mod]

/-- Binary long division of equal-length limb lists by a nonzero divisor. -/
theorem limbsDivmod_spec {a b : List UInt32} (hb : b.length = a.length) (hne : limbsVal b ≠ 0) :
    ∃ q r, limbsDivmod (List.replicate a.length 0) (List.replicate a.length 0) a b = .ret (q, r) ∧
      q.length = a.length ∧ r.length = a.length ∧
      limbsVal q = limbsVal a / limbsVal b ∧ limbsVal r = limbsVal a % limbsVal b := by
  have hnz : limbsIsZero b = false := by
    rw [Bool.eq_false_iff, ne_eq, limbsIsZero_iff]
    exact hne
  set total : ℤ := (a.length : ℤ) * 32 with htotal
  -- after `step` rounds the bits from `total - step` up have been divided
  let I : ℤ → List UInt32 × List UInt32 → Prop := fun step qr =>
    qr.1.length = a.length ∧ qr.2.length = a.length ∧
      limbsVal qr.1 = limbsVal a / 2 ^ (total - step).toNat / limbsVal b *
        2 ^ (total - step).toNat ∧
      limbsVal qr.2 = limbsVal a / 2 ^ (total - step).toNat % limbsVal b
  have hinit : I 0 (List.replicate a.length 0, List.replicate a.length 0) := by
    have hk : (total - 0).toNat = 32 * a.length := by omega
    have hA : limbsVal a / 2 ^ (32 * a.length) = 0 := by
      rw [pow_mul]
      exact Nat.div_eq_of_lt (limbsVal_lt a)
    simp only [I, hk, hA, List.length_replicate, limbsVal_replicate_zero, Nat.zero_div,
      Nat.zero_mod, Nat.zero_mul, and_self]
  have hstep : ∀ i s, 0 ≤ i → i < total → I i s →
      ∃ s', limbsDivmodStep a b (total - 1 - i).toNat s = .ret s' ∧ I (i + 1) s' := by
    rintro i ⟨q, r⟩ hi0 hi ⟨hq, hr, hqv, hrv⟩
    have hk : (total - i).toNat = (total - 1 - i).toNat + 1 := by omega
    have hk' : (total - (i + 1)).toNat = (total - 1 - i).toNat := by omega
    set k := (total - 1 - i).toNat with hkdef
    have hkidx : k / 32 < a.length := by omega
    rw [hk] at hqv hrv
    obtain ⟨q', r', hrun, hq', hr', hqv', hrv'⟩ := limbsDivmodStep_spec hb hq hr hkidx
      (by rw [hrv]; exact Nat.mod_lt _ (Nat.pos_of_ne_zero hne)) (by rw [hqv]; exact Nat.dvd_mul_left _ _)
    obtain ⟨hquot, hrem⟩ := divmod_bit (limbsVal a) (limbsVal b) k
    refine ⟨(q', r'), hrun, hq', hr', ?_, ?_⟩
    · rw [hk', hquot, hqv', hqv, hrv]
    · rw [hk', hrem, hrv', hrv]
  obtain ⟨⟨q, r⟩, hrun, hq, hr, hqv, hrv⟩ :=
    Exec.forRange_total I (by omega : (0 : ℤ) ≤ total) hinit hstep
  refine ⟨q, r, ?_, hq, hr, by simpa using hqv, by simpa using hrv⟩
  simp only [limbsDivmod, Exec.require_of hnz, Exec.ret_bind]
  exact hrun

/-- The division writes its results in place. -/
theorem limbsDivmod_length {q r a b q' r' : List UInt32} (hrb : r.length = b.length)
    (h : limbsDivmod q r a b = .ret (q', r')) : q'.length = q.length ∧ r'.length = r.length := by
  obtain ⟨-, -, hloop⟩ := Exec.bind_eq_ret.mp h
  refine Exec.forRange_partial (fun qr : List UInt32 × List UInt32 =>
    qr.1.length = q.length ∧ qr.2.length = r.length) ?_ ⟨rfl, rfl⟩ hloop
  rintro i ⟨q₁, r₁⟩ ⟨q₂, r₂⟩ ⟨hq, hr⟩ hstep
  simp only [limbsDivmodStep, Exec.bind_eq_ret] at hstep
  obtain ⟨r0, -, ai, -, r₃, hset, hstep⟩ := hstep
  have hr₃ : r₃.length = b.length := by
    rw [(Slice.set_eq_ret.mp hset).2, List.length_set, limbsShl1_length, hr, hrb]
  split_ifs at hstep with hc
  · simp only [Exec.bind_eq_ret] at hstep
    obtain ⟨qi, -, q₃, hqset, hret⟩ := hstep
    cases hret
    exact ⟨by rw [(Slice.set_eq_ret.mp hqset).2, List.length_set, hq],
      by rw [limbsSub_length hr₃, hr₃, hrb]⟩
  · cases hstep
    exact ⟨hq, by rw [hr₃, hrb]⟩

theorem limbsDivmod_zero (q r a : List UInt32) {b : List UInt32} (hb : limbsVal b = 0) :
    limbsDivmod q r a b = .abort := by
  have hz : limbsIsZero b = true := (limbsIsZero_iff b).mpr hb
  simp [limbsDivmod, Exec.require, hz]

end FcLang.Wideint
