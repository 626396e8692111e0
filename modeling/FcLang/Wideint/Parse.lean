import FcLang.Wideint.Text

/-!
# What the parsers accept

A numeral is a nonempty string of digits. The loop over limbs computes its value
as long as that fits, so a parser accepts the numerals whose values fit and
reports the first thing that goes wrong: a character that is no digit, or a
value past the width.
-/

namespace FcLang.Wideint

/-- The value of a character as a digit of the radix. -/
def digitOf (r : UInt32) (c : UInt8) : Option ℕ :=
  if '0'.toUInt8 ≤ c ∧ c ≤ '9'.toUInt8 then some (c.toNat - '0'.toNat)
  else if r = 16 ∧ 'a'.toUInt8 ≤ c ∧ c ≤ 'f'.toUInt8 then some (c.toNat - 'a'.toNat + 10)
  else if r = 16 ∧ 'A'.toUInt8 ≤ c ∧ c ≤ 'F'.toUInt8 then some (c.toNat - 'A'.toNat + 10)
  else none

/-- Digits, the most significant first, read behind a number. -/
inductive Digits (r : UInt32) : ℕ → List UInt8 → ℕ → Prop where
  | nil {v : ℕ} : Digits r v [] v
  | cons {v w d : ℕ} {c : UInt8} {s : List UInt8} (digit : digitOf r c = some d)
      (rest : Digits r (v * r.toNat + d) s w) : Digits r v (c :: s) w

/-- A nonempty string of digits, with its value. -/
def IsNumeral (r : UInt32) (s : List UInt8) (v : ℕ) : Prop := s ≠ [] ∧ Digits r 0 s v

theorem digitVal_of_digitOf {r : UInt32} (hr : Radix r) (c : UInt8) :
    (digitOf r c = none → digitVal c r < 0) ∧ ∀ d ∈ digitOf r c,
      ¬digitVal c r < 0 ∧ (digitVal c r).toUInt32.toNat = d ∧ d < r.toNat := by
  obtain ⟨k, rfl⟩ : ∃ k : Fin 256, c = UInt8.ofNat k := ⟨⟨c.toNat, c.toNat_lt⟩, by simp⟩
  rcases hr with rfl | rfl
  · revert k
    decide +kernel
  · revert k
    decide +kernel

namespace Digits
variable {r : UInt32} {u v w : ℕ} {s p : List UInt8}

theorem unique (h : Digits r u s v) (h' : Digits r u s w) : v = w := by
  induction h with
  | nil =>
    cases h'
    rfl
  | cons digit rest ih =>
    cases h' with
    | cons digit' rest' =>
      cases digit.symm.trans digit'
      exact ih rest'

theorem le (hr : Radix r) (h : Digits r u s v) : u ≤ v := by
  have h10 := hr.bounds.1
  induction h with
  | nil => exact le_rfl
  | @cons u _ d _ _ _ _ ih =>
    have hmul : u * 1 ≤ u * r.toNat := Nat.mul_le_mul_left u (by omega)
    omega

/-- A string is all digits, or some character after its first digits is none. -/
theorem split (r : UInt32) (u : ℕ) (s : List UInt8) :
    (∃ v, Digits r u s v) ∨
      ∃ p v c rest, s = p ++ c :: rest ∧ Digits r u p v ∧ digitOf r c = none := by
  induction s generalizing u with
  | nil => exact .inl ⟨u, .nil⟩
  | cons c s ih =>
    cases hc : digitOf r c with
    | none => exact .inr ⟨[], u, c, s, rfl, .nil, hc⟩
    | some d =>
      rcases ih (u * r.toNat + d) with ⟨v, hv⟩ | ⟨p, v, c', rest, rfl, hp, hc'⟩
      · exact .inl ⟨v, .cons hc hv⟩
      · exact .inr ⟨c :: p, v, c', rest, rfl, .cons hc hp, hc'⟩

theorem not_append {c : UInt8} {rest : List UInt8} (hc : digitOf r c = none) :
    ¬Digits r u (p ++ c :: rest) v := by
  intro h
  induction p generalizing u with
  | nil =>
    cases h with
    | cons digit _ => cases hc.symm.trans digit
  | cons _ p ih =>
    cases h with
    | cons _ rest => exact ih rest

end Digits

section Loop
variable {r : UInt32} (hr : Radix r)
include hr

theorem parseDigit_none {c : UInt8} (hc : digitOf r c = none) (dst : List UInt32) :
    parseDigit r dst c = .error .invalid :=
  if_pos ((digitVal_of_digitOf hr c).1 hc)

/-- One digit: the new value is stored if it fits, and otherwise one of the carries tells. -/
theorem parseDigit_some {c : UInt8} {d : ℕ} (hc : digitOf r c = some d) (dst : List UInt32) :
    (limbsVal dst * r.toNat + d < (2 ^ 32) ^ dst.length → ∃ dst', parseDigit r dst c = .ok dst' ∧
      dst'.length = dst.length ∧ limbsVal dst' = limbsVal dst * r.toNat + d) ∧
    ((2 ^ 32) ^ dst.length ≤ limbsVal dst * r.toNat + d →
      parseDigit r dst c = .error .overflow) := by
  obtain ⟨hnonneg, hdig, -⟩ := (digitVal_of_digitOf hr c).2 d hc
  have hmul := limbsMulSmall_val dst r
  have hadd := limbsAddSmall_val (limbsMulSmall dst r).1 (digitVal c r).toUInt32
  have hlt := limbsVal_lt (limbsAddSmall (limbsMulSmall dst r).1 (digitVal c r).toUInt32).1
  have hlen : (limbsAddSmall (limbsMulSmall dst r).1 (digitVal c r).toUInt32).1.length =
      dst.length := by simp
  rw [limbsMulSmall_length, hdig] at hadd
  rw [hlen] at hlt
  unfold parseDigit
  dsimp only
  rw [if_neg hnonneg, Nat.mul_comm (limbsVal dst)]
  by_cases hcarry : (limbsMulSmall dst r).2 = 0 ∧
      (limbsAddSmall (limbsMulSmall dst r).1 (digitVal c r).toUInt32).2 = 0
  · rw [hcarry.1, UInt32.toNat_zero, Nat.mul_zero, Nat.add_zero] at hmul
    rw [hcarry.2, UInt32.toNat_zero, Nat.mul_zero, Nat.add_zero, hmul] at hadd
    rw [if_neg (by simp [hcarry])]
    exact ⟨fun _ => ⟨_, rfl, hlen, hadd⟩, fun h => absurd (hadd ▸ hlt) (not_lt.mpr h)⟩
  · -- a carry weighs at least the whole width
    have hge : (2 ^ 32) ^ dst.length ≤ r.toNat * limbsVal dst + d := by
      rw [not_and_or] at hcarry
      rcases hcarry with hm | ha
      · have hpos : 0 < (limbsMulSmall dst r).2.toNat :=
          Nat.pos_of_ne_zero fun h => hm (UInt32.toNat_inj.mp h)
        have := Nat.le_mul_of_pos_right ((2 ^ 32) ^ dst.length) hpos
        omega
      · have hpos : 0 < (limbsAddSmall (limbsMulSmall dst r).1
            (digitVal c r).toUInt32).2.toNat :=
          Nat.pos_of_ne_zero fun h => ha (UInt32.toNat_inj.mp h)
        have := Nat.le_mul_of_pos_right ((2 ^ 32) ^ dst.length) hpos
        omega
    rw [if_pos (by tauto)]
    exact ⟨fun h => absurd hge (not_le.mpr h), fun _ => rfl⟩

/-- Digits whose value fits are read; a prefix too long to fit is reported wherever it ends. -/
theorem foldlM_digits {dst : List UInt32} {p : List UInt8} {v : ℕ}
    (h : Digits r (limbsVal dst) p v) (rest : List UInt8) :
    (v < (2 ^ 32) ^ dst.length → ∃ dst', dst'.length = dst.length ∧ limbsVal dst' = v ∧
      (p ++ rest).foldlM (parseDigit r) dst = rest.foldlM (parseDigit r) dst') ∧
    ((2 ^ 32) ^ dst.length ≤ v → (p ++ rest).foldlM (parseDigit r) dst = .error .overflow) := by
  induction p generalizing dst with
  | nil =>
    cases h
    exact ⟨fun _ => ⟨dst, rfl, rfl, rfl⟩, fun h => absurd (limbsVal_lt dst) (not_lt.mpr h)⟩
  | cons c p ih =>
    cases h with
    | @cons _ _ d _ _ digit htail =>
      obtain ⟨hfit, hover⟩ := parseDigit_some hr digit dst
      have hle := htail.le hr
      rw [List.cons_append, List.foldlM_cons]
      by_cases hlt : limbsVal dst * r.toNat + d < (2 ^ 32) ^ dst.length
      · obtain ⟨dst₁, hstep, hlen, hval⟩ := hfit hlt
        rw [← hval] at htail
        rw [hstep, ← hlen]
        exact ih htail
      · rw [hover (not_lt.mp hlt)]
        exact ⟨fun h => absurd (lt_of_le_of_lt hle h) hlt, fun _ => rfl⟩

end Loop

/-- What is read before the first character that is no digit, if it has a digit, is a numeral. -/
def StopsAt (r : UInt32) (s : List UInt8) (v : ℕ) : Prop :=
  ∃ p c rest, s = p ++ c :: rest ∧ Digits r 0 p v ∧ digitOf r c = none

/-- A parser of numerals in a radix whose values are below `bound`. -/
structure ParsesNumerals {α : Type} (r : UInt32) (bound : ℕ) (value : α → ℕ)
    (parse : List UInt8 → Except ParseError α) : Prop where
  ok_iff : ∀ s a, parse s = .ok a ↔ IsNumeral r s (value a)
  overflow : ∀ s v, IsNumeral r s v → bound ≤ v → parse s = .error .overflow
  other : ∀ s, (∀ v, ¬IsNumeral r s v) → ∃ e, parse s = .error e
  empty : parse [] = .error .invalid
  invalid : ∀ s v, StopsAt r s v → v < bound → parse s = .error .invalid

namespace LimbArray
variable {n : ℕ} {r : UInt32}

theorem parse_ok {s : List UInt8} {dst : List UInt32} (hlen : dst.length = n / 32)
    (h : limbsParse (zero (n := n)).1 s r = .ok dst) :
    parse (n := n) s r = .ok ⟨dst, hlen⟩ := by
  unfold parse
  split
  · rename_i dst' h'
    cases h.symm.trans h'
    rfl
  · rename_i e h'
    cases h.symm.trans h'

theorem parse_error {s : List UInt8} {e : ParseError}
    (h : limbsParse (zero (n := n)).1 s r = .error e) : parse (n := n) s r = .error e := by
  unfold parse
  split
  · rename_i dst' h'
    cases h.symm.trans h'
  · rename_i e' h'
    cases h.symm.trans h'
    rfl

/-- Every number below the width's bound is the value of some limbs. -/
theorem exists_val (hn : WidthOk n) {v : ℕ} (hv : v < 2 ^ n) : ∃ a : LimbArray n, a.val = v := by
  obtain ⟨dst, -, hlen, hval⟩ := Wideint.parse_text (.inl rfl : Radix 10) (n / 32) v
    (by rwa [hn.pow_limbs])
  exact ⟨⟨dst, hlen⟩, hval⟩

theorem zero_val : limbsVal (zero (n := n)).1 = 0 := limbsVal_replicate_zero _

/-- The loop of `limbs_parse` on a nonempty string that starts with digits. -/
theorem parse_digits (hn : WidthOk n) (hr : Radix r) {p : List UInt8} (rest : List UInt8) {v : ℕ}
    (hp : Digits r 0 p v) (hne : p ++ rest ≠ []) :
    (v < 2 ^ n → ∃ dst : LimbArray n, dst.val = v ∧
      limbsParse (zero (n := n)).1 (p ++ rest) r = rest.foldlM (parseDigit r) dst.1) ∧
    (2 ^ n ≤ v → limbsParse (zero (n := n)).1 (p ++ rest) r = .error .overflow) := by
  have hpow : (2 ^ 32) ^ (zero (n := n)).1.length = 2 ^ n := by rw [zero.2, hn.pow_limbs]
  have hstart : Digits r (limbsVal (zero (n := n)).1) p v := by rwa [zero_val]
  obtain ⟨hfit, hover⟩ := foldlM_digits hr hstart rest
  have hparse : limbsParse (zero (n := n)).1 (p ++ rest) r =
      (p ++ rest).foldlM (parseDigit r) (zero (n := n)).1 := if_neg (by simpa using hne)
  rw [hpow] at hfit hover
  rw [hparse]
  refine ⟨fun hlt => ?_, hover⟩
  obtain ⟨dst, hlen, hval, hrun⟩ := hfit hlt
  exact ⟨⟨dst, hlen.trans zero.2⟩, hval, hrun⟩

theorem parsesNumerals (hn : WidthOk n) (hr : Radix r) :
    ParsesNumerals r (2 ^ n) (fun a : LimbArray n => a.val) (parse · r) := by
  have numeral_ok : ∀ s v, IsNumeral r s v → v < 2 ^ n →
      ∃ a : LimbArray n, a.val = v ∧ parse s r = .ok a := by
    rintro s v ⟨hne, hs⟩ hlt
    obtain ⟨a, ha, hrun⟩ := (parse_digits hn hr [] hs (by simpa using hne)).1 hlt
    rw [List.append_nil] at hrun
    exact ⟨a, ha, parse_ok a.2 hrun⟩
  have overflow : ∀ s v, IsNumeral r s v → 2 ^ n ≤ v → parse (n := n) s r = .error .overflow := by
    rintro s v ⟨hne, hs⟩ hge
    have hrun := (parse_digits hn hr [] hs (by simpa using hne)).2 hge
    rw [List.append_nil] at hrun
    exact parse_error hrun
  have stops : ∀ s v, StopsAt r s v → parse (n := n) s r =
      if v < 2 ^ n then .error .invalid else .error .overflow := by
    rintro s v ⟨p, c, rest, rfl, hp, hc⟩
    obtain ⟨hfit, hover⟩ := parse_digits hn hr (c :: rest) hp (by simp)
    split_ifs with hlt
    · obtain ⟨a, -, hrun⟩ := hfit hlt
      rw [List.foldlM_cons, parseDigit_none hr hc] at hrun
      exact parse_error hrun
    · exact parse_error (hover (not_lt.mp hlt))
  have other : ∀ s, (∀ v, ¬IsNumeral r s v) → ∃ e, parse (n := n) s r = .error e := by
    intro s hs
    by_cases hnil : s = []
    · subst hnil
      exact ⟨.invalid, rfl⟩
    · obtain ⟨v, hv⟩ | ⟨p, v, c, rest, rfl, hp, hc⟩ := Digits.split r 0 s
      · exact absurd ⟨hnil, hv⟩ (hs v)
      · rw [stops _ v ⟨p, c, rest, rfl, hp, hc⟩]
        split_ifs
        · exact ⟨_, rfl⟩
        · exact ⟨_, rfl⟩
  refine ⟨fun s a => ⟨fun h => ?_, fun h => ?_⟩, overflow, other, rfl, fun s v hs hlt => ?_⟩
  · by_contra hno
    obtain ⟨v, hv⟩ : ∃ v, IsNumeral r s v := by
      by_contra hnone
      obtain ⟨e, he⟩ := other s fun v hv => hnone ⟨v, hv⟩
      cases h.symm.trans he
    by_cases hlt : v < 2 ^ n
    · obtain ⟨b, hb, hrun⟩ := numeral_ok s v hv hlt
      cases h.symm.trans hrun
      exact hno (hb ▸ hv)
    · cases h.symm.trans (overflow s v hv (not_lt.mp hlt))
  · obtain ⟨b, hb, hrun⟩ := numeral_ok s a.val h (a.val_lt hn)
    rwa [val_injective hb] at hrun
  · rw [stops s v hs, if_pos hlt]

end LimbArray

/-- A numeral, with or without a minus sign in front. -/
def IsSignedNumeral (s : List UInt8) (z : ℤ) : Prop :=
  (∃ v, IsNumeral 10 s v ∧ z = v) ∨ ∃ rest v, s = '-'.toUInt8 :: rest ∧ IsNumeral 10 rest v ∧ z = -v

theorem digitOf_minus (r : UInt32) : digitOf r '-'.toUInt8 = none := by
  unfold digitOf
  rw [if_neg (by decide), if_neg (fun h => absurd h.2 (by decide)),
    if_neg (fun h => absurd h.2 (by decide))]

theorem not_numeral_minus {r : UInt32} {rest : List UInt8} {v : ℕ} :
    ¬IsNumeral r ('-'.toUInt8 :: rest) v :=
  fun h => Digits.not_append (p := []) (digitOf_minus r) h.2

namespace Iwide
variable {n : ℕ}

/-- Behind a minus sign the magnitude may also be the minimum's. -/
theorem parse_minus (hn : WidthOk n) (rest : List UInt8) :
    parse hn ('-'.toUInt8 :: rest) = .ret (match LimbArray.parse (n := n) rest 10 with
      | .error e => .error e
      | .ok mag => if 2 ^ n < 2 * mag.val then .error .overflow else .ok ⟨mag.neg, hn⟩) := by
  have hrange : Slice.range ('-'.toUInt8 :: rest) 1 (('-'.toUInt8 :: rest).length : ℤ) =
      .ret rest := by
    simp [Slice.range_eq_ret]
  unfold parse
  rw [if_pos (List.head?_cons), hrange, Exec.ret_bind]
  cases LimbArray.parse (n := n) rest 10 with
  | error e => rfl
  | ok mag =>
    obtain ⟨s, hs, hsign⟩ := LimbArray.sign_spec hn mag
    obtain ⟨m, hm, hmin⟩ := LimbArray.isMinMag_spec hn mag
    dsimp only
    rw [hs, Exec.ret_bind, hm, Exec.ret_bind]
    have hiff : s = 1 ∧ m = false ↔ 2 ^ n < 2 * mag.val := by
      rw [hsign, ← Bool.not_eq_true, hmin]
      omega
    by_cases h : 2 ^ n < 2 * mag.val
    · rw [if_pos (hiff.mpr h), if_pos h]
      rfl
    · rw [if_neg (fun h' => h (hiff.mp h')), if_neg h]
      rfl

theorem parse_plain (hn : WidthOk n) {s : List UInt8} (h : s.head? ≠ some '-'.toUInt8) :
    parse hn s = .ret (match LimbArray.parse (n := n) s 10 with
      | .error e => .error e
      | .ok r => if 2 ^ n ≤ 2 * r.val then .error .overflow else .ok ⟨r, hn⟩) := by
  unfold parse
  rw [if_neg h]
  cases LimbArray.parse (n := n) s 10 with
  | error e => rfl
  | ok r =>
    obtain ⟨t, ht, hsign⟩ := LimbArray.sign_spec hn r
    dsimp only
    rw [ht, Exec.ret_bind]
    by_cases h : 2 ^ n ≤ 2 * r.val
    · rw [if_pos (hsign.mpr h), if_pos h]
      rfl
    · rw [if_neg (fun h' => h (hsign.mp h')), if_neg h]
      rfl

/-- The values of the type. -/
def InRange (n : ℕ) (z : ℤ) : Prop := -2 ^ (n - 1) ≤ z ∧ z ≤ 2 ^ (n - 1) - 1

theorem toInt_inRange (a : Iwide n) : InRange n a.toInt := by
  have h64 : 64 ≤ n := a.width.2
  have hlt := a.limbs.val_lt a.width
  have hpow : (2 : ℤ) ^ n = 2 * 2 ^ (n - 1) := by
    rw [← pow_succ', Nat.sub_add_cancel (by omega)]
  have hcast : (2 : ℤ) ^ n = ((2 ^ n : ℕ) : ℤ) := by push_cast; rfl
  rw [InRange, toInt_eq]
  split_ifs <;> omega

theorem mk_toInt (hn : WidthOk n) {r : LimbArray n} (h : 2 * r.val < 2 ^ n) :
    (⟨r, hn⟩ : Iwide n).toInt = r.val := by
  rw [toInt_eq, if_pos h]

theorem mk_neg_toInt (hn : WidthOk n) {r : LimbArray n} (h : 2 * r.val ≤ 2 ^ n) :
    (⟨r.neg, hn⟩ : Iwide n).toInt = -r.val := by
  obtain ⟨k, hk, hpos⟩ := even_pow hn
  have hneg : (⟨r.neg, hn⟩ : Iwide n).toInt = (-(r.val : ℤ)).bmod (2 ^ n) := neg_toInt ⟨r, hn⟩
  rw [hneg]
  exact Int.bmod_eq_of_le_mul_two (by omega) (by omega)

/-- A numeral in range is read, any other one is past the range. -/
theorem parse_numeral (hn : WidthOk n) {s : List UInt8} {z : ℤ} (h : IsSignedNumeral s z) :
    (InRange n z → ∃ a : Iwide n, a.toInt = z ∧ parse hn s = .ret (.ok a)) ∧
    (¬InRange n z → parse hn s = .ret (.error .overflow)) := by
  have h64 : 64 ≤ n := hn.2
  have hpow : 2 ^ n = 2 * 2 ^ (n - 1) := by rw [← pow_succ', Nat.sub_add_cancel (by omega)]
  have hcast : (2 : ℤ) ^ (n - 1) = ((2 ^ (n - 1) : ℕ) : ℤ) := by push_cast; rfl
  have hdec := LimbArray.parsesNumerals hn (.inl rfl : Radix 10)
  have hrange : InRange n z ↔ -((2 ^ (n - 1) : ℕ) : ℤ) ≤ z ∧ z ≤ ((2 ^ (n - 1) : ℕ) : ℤ) - 1 := by
    rw [InRange, hcast]
  rw [hrange]
  obtain ⟨v, hv, rfl⟩ | ⟨rest, v, rfl, hv, rfl⟩ := h
  · have hplain : s.head? ≠ some '-'.toUInt8 := by
      intro hhead
      obtain ⟨rest, rfl⟩ := List.head?_eq_some_iff.mp hhead
      exact not_numeral_minus hv
    rw [parse_plain hn hplain]
    by_cases hlt : v < 2 ^ n
    · obtain ⟨a, ha⟩ := LimbArray.exists_val hn hlt
      have hread := (hdec.ok_iff s a).mpr (by rwa [ha])
      rw [hread]
      dsimp only
      by_cases hbig : 2 ^ n ≤ 2 * a.val
      · rw [if_pos hbig]
        exact ⟨fun h => by omega, fun _ => rfl⟩
      · rw [if_neg hbig]
        exact ⟨fun _ => ⟨_, by rw [mk_toInt hn (not_le.mp hbig), ha], rfl⟩, fun h => by omega⟩
    · rw [hdec.overflow s v hv (not_lt.mp hlt)]
      exact ⟨fun h => by omega, fun _ => rfl⟩
  · rw [parse_minus]
    by_cases hlt : v < 2 ^ n
    · obtain ⟨a, ha⟩ := LimbArray.exists_val hn hlt
      have hread := (hdec.ok_iff rest a).mpr (by rwa [ha])
      rw [hread]
      dsimp only
      by_cases hbig : 2 ^ n < 2 * a.val
      · rw [if_pos hbig]
        exact ⟨fun h => by omega, fun _ => rfl⟩
      · rw [if_neg hbig]
        exact ⟨fun _ => ⟨_, by rw [mk_neg_toInt hn (not_lt.mp hbig), ha], rfl⟩,
          fun h => by omega⟩
    · rw [hdec.overflow rest v hv (not_lt.mp hlt)]
      exact ⟨fun h => by omega, fun _ => rfl⟩

theorem parse_other (hn : WidthOk n) {s : List UInt8} (h : ∀ z, ¬IsSignedNumeral s z) :
    ∃ e, parse hn s = .ret (.error e) := by
  have hdec := LimbArray.parsesNumerals hn (.inl rfl : Radix 10)
  by_cases hhead : s.head? = some '-'.toUInt8
  · obtain ⟨rest, rfl⟩ := List.head?_eq_some_iff.mp hhead
    obtain ⟨e, he⟩ := hdec.other rest fun v hv => h _ (.inr ⟨rest, v, rfl, hv, rfl⟩)
    rw [parse_minus, he]
    exact ⟨e, rfl⟩
  · obtain ⟨e, he⟩ := hdec.other s fun v hv => h _ (.inl ⟨v, hv, rfl⟩)
    rw [parse_plain hn hhead, he]
    exact ⟨e, rfl⟩

theorem parse_ok_iff (hn : WidthOk n) (s : List UInt8) (a : Iwide n) :
    parse hn s = .ret (.ok a) ↔ IsSignedNumeral s a.toInt := by
  constructor
  · intro h
    by_cases hs : ∃ z, IsSignedNumeral s z
    · obtain ⟨z, hz⟩ := hs
      obtain ⟨hin, hout⟩ := parse_numeral hn hz
      by_cases hrange : InRange n z
      · obtain ⟨b, rfl, hb⟩ := hin hrange
        cases h.symm.trans hb
        exact hz
      · cases h.symm.trans (hout hrange)
    · obtain ⟨e, he⟩ := parse_other hn (not_exists.mp hs)
      cases h.symm.trans he
  · intro h
    obtain ⟨b, hb, hrun⟩ := (parse_numeral hn h).1 a.toInt_inRange
    rwa [toInt_injective hb] at hrun

end Iwide

/-- A parser of limb arrays, as the parser of a type that wraps them. -/
theorem ParsesNumerals.wrap {n : ℕ} {α : Type} {r : UInt32} (mk : LimbArray n → α)
    (limbs : α → LimbArray n) (hmk : ∀ a, mk (limbs a) = a) (hlimbs : ∀ l, limbs (mk l) = l)
    (h : ParsesNumerals r (2 ^ n) (fun a : LimbArray n => a.val) (LimbArray.parse · r)) :
    ParsesNumerals r (2 ^ n) (fun a => (limbs a).val)
      fun s => (LimbArray.parse s r).map mk := by
  refine ⟨fun s a => ?_, fun s v hs hge => ?_, fun s hs => ?_, rfl, fun s v hs hlt => ?_⟩
  · rw [← h.ok_iff s (limbs a)]
    cases hp : LimbArray.parse (n := n) s r with
    | error e => exact iff_of_false (fun h => nomatch h) (fun h => nomatch h)
    | ok l =>
      constructor
      · intro h
        cases h
        exact congrArg _ (hlimbs l).symm
      · intro h
        cases h
        exact congrArg _ (hmk a)
  · rw [h.overflow s v hs hge]
    rfl
  · obtain ⟨e, he⟩ := h.other s hs
    rw [he]
    exact ⟨e, rfl⟩
  · rw [h.invalid s v hs hlt]
    rfl

/-- The parsers accept exactly the numerals that fit their type. The signed hexadecimal form reads
the bits of the value. -/
theorem parsers_exact {n : ℕ} (hn : WidthOk n) :
    ParsesNumerals 10 (2 ^ n) Uwide.toNat (Uwide.parse hn) ∧
    ParsesNumerals 16 (2 ^ n) Uwide.toNat (Uwide.parseHex hn) ∧
    ParsesNumerals 16 (2 ^ n) (fun a => a.limbs.val) (Iwide.parseHex hn) ∧
    ∀ s, (∀ a, Iwide.parse hn s = .ret (.ok a) ↔ IsSignedNumeral s a.toInt) ∧
      (∀ z, IsSignedNumeral s z → ¬Iwide.InRange n z →
        Iwide.parse hn s = .ret (.error .overflow)) ∧
      ((∀ z, ¬IsSignedNumeral s z) → ∃ e, Iwide.parse hn s = .ret (.error e)) := by
  have hdec := LimbArray.parsesNumerals hn (.inl rfl : Radix 10)
  have hhex := LimbArray.parsesNumerals hn (.inr rfl : Radix 16)
  refine ⟨?_, ?_, ?_, fun s => ⟨Iwide.parse_ok_iff hn s,
    fun z hz => (Iwide.parse_numeral hn hz).2, Iwide.parse_other hn⟩⟩
  · exact hdec.wrap (fun l => (⟨l, hn⟩ : Uwide n)) Uwide.limbs (fun _ => rfl)
      fun _ => rfl
  · exact hhex.wrap (fun l => (⟨l, hn⟩ : Uwide n)) Uwide.limbs (fun _ => rfl)
      fun _ => rfl
  · exact hhex.wrap (fun l => (⟨l, hn⟩ : Iwide n)) Iwide.limbs (fun _ => rfl)
      fun _ => rfl

/-- `-9`, at 64 bits. -/
theorem parsers_exact_minus_nine :
    Iwide.parse (n := 64) (by decide) ['-'.toUInt8, '9'.toUInt8] =
      .ret (.ok ⟨⟨[0xFFFFFFF7, 0xFFFFFFFF], rfl⟩, by decide⟩) := by
  obtain ⟨-, -, -, hsigned⟩ := parsers_exact (by decide : WidthOk 64)
  refine ((hsigned _).1 _).mpr (.inr ⟨['9'.toUInt8], 9, rfl, ⟨by simp, .cons rfl .nil⟩, ?_⟩)
  decide

end FcLang.Wideint
