import FcLang.Wideint.LimbText
import FcLang.Wideint.Uwide
import FcLang.Wideint.Iwide

/-!
# Wide integers as text

Conversions to and from decimal and hexadecimal. The scratch buffer holds ten
bytes for every limb, enough for the ten decimal digits of a full limb. The
negative path formats the magnitude of the minimum, which is not a value of the
signed type but is right as an unsigned number.
-/

namespace FcLang.Wideint

/-- `out[i + off] = c` for every character of `s`. -/
def copyInto (out : List UInt8) (off : ℤ) (s : List UInt8) : Exec (List UInt8) :=
  Exec.forRange 0 s.length (fun i out => Slice.get s i >>= fun c => Slice.set out (i + off) c) out

def heapCopy (s : List UInt8) : Exec (List UInt8) := copyInto (List.replicate s.length 0) 0 s

def heapCopyNeg (digits : List UInt8) : Exec (List UInt8) := do
  let out ← Slice.set (List.replicate (digits.length + 1) 0) 0 '-'.toUInt8
  copyInto out 1 digits

def scratch (n : ℕ) : List UInt8 := List.replicate (n * 5 / 16) 0

theorem copyInto_spec {out s : List UInt8} (off : ℕ) (h : out.length = off + s.length) :
    copyInto out off s = .ret (out.take off ++ s) := by
  have hcopy : Exec.Within True
      (fun out' => out' = out.take off ++ s ++ out.drop (off + s.length)) (copyInto out off s) := by
    apply Slice.forRange_get_within
      (fun done out' => out' = out.take off ++ done ++ out.drop (off + done.length)) (by simp)
    rintro done x rest acc hs rfl
    have hlen : off + done.length < out.length := by
      rw [h, hs, List.length_append, List.length_cons]
      omega
    have htake : (out.take off).length = off := List.length_take_of_le (by omega)
    rw [show (done.length : ℤ) + off = ((off + done.length : ℕ) : ℤ) by push_cast; ring,
      Slice.set_natCast (by simp; omega)]
    apply Exec.Within.ret
    rw [List.set_append_right _ _ (by simp), List.drop_eq_getElem_cons hlen]
    simp [htake, Nat.add_assoc]
  obtain ⟨t, hrun, ht⟩ := hcopy.total trivial
  rw [List.drop_eq_nil_of_le (by omega), List.append_nil] at ht
  rw [← ht]
  exact hrun

theorem heapCopy_eq (s : List UInt8) : heapCopy s = .ret s :=
  copyInto_spec 0 (by simp)

theorem heapCopyNeg_eq (digits : List UInt8) :
    heapCopyNeg digits = .ret ('-'.toUInt8 :: digits) := by
  have hset : Slice.set (List.replicate (digits.length + 1) (0 : UInt8)) 0 '-'.toUInt8 =
      .ret ('-'.toUInt8 :: List.replicate digits.length 0) := by
    rw [List.replicate_succ]
    exact Slice.set_natCast (i := 0) (by simp) _
  unfold heapCopyNeg
  rw [hset, Exec.ret_bind]
  exact copyInto_spec 1 (by simp [Nat.add_comm])

theorem parseDigit_length {r : UInt32} {dst dst' : List UInt32} {c : UInt8}
    (h : parseDigit r dst c = .ok dst') : dst'.length = dst.length := by
  unfold parseDigit at h
  dsimp only at h
  split_ifs at h
  cases h
  simp

theorem limbsParse_length {r : UInt32} {dst dst' : List UInt32} {s : List UInt8}
    (h : limbsParse dst s r = .ok dst') : dst'.length = dst.length := by
  unfold limbsParse at h
  split_ifs at h
  induction s generalizing dst with
  | nil => cases h; rfl
  | cons c s ih =>
    rw [List.foldlM_cons] at h
    cases hc : parseDigit r dst c with
    | error e => rw [hc] at h; cases h
    | ok dst₁ =>
      rw [hc] at h
      cases s with
      | nil => cases h; exact parseDigit_length hc
      | cons c' s => exact (ih (by simp) h).trans (parseDigit_length hc)

namespace LimbArray
variable {n : ℕ}

/-- `limbs_parse` into a zeroed array. -/
def parse (s : List UInt8) (radix : UInt32) : Except ParseError (LimbArray n) :=
  match h : limbsParse (zero (n := n)).1 s radix with
  | .ok dst => .ok ⟨dst, (limbsParse_length h).trans zero.2⟩
  | .error e => .error e

def format (fuel : ℕ) (a : LimbArray n) (radix : UInt32) : Exec (List UInt8) :=
  limbsFormat fuel (scratch n) a.1 radix

theorem parse_text (hn : WidthOk n) {r : UInt32} (hr : Radix r) (a : LimbArray n) :
    parse (text r a.val) r = .ok a := by
  have hlt : a.val < (2 ^ 32) ^ (n / 32) := by
    rw [hn.pow_limbs]
    exact a.val_lt hn
  obtain ⟨dst, hrun, hlen, hval⟩ := Wideint.parse_text hr (n / 32) a.val hlt
  unfold parse
  split
  · rename_i dst' h
    rw [zero, hrun] at h
    cases h
    rw [val_injective (a := ⟨dst, hlen⟩) (b := a) hval]
  · rename_i e h
    rw [zero, hrun] at h
    cases h

/-- Ten digits a limb suffice in either radix. -/
theorem val_lt_scratch (hn : WidthOk n) {r : UInt32} (hr : Radix r) (a : LimbArray n) :
    a.val < r.toNat ^ (scratch n).length := by
  have hmul : 32 * (n / 32) = n := Nat.mul_div_cancel' (Nat.dvd_of_mod_eq_zero hn.1)
  have hlen : (scratch n).length = 10 * (n / 32) := by
    rw [scratch, List.length_replicate]
    omega
  have hval : a.val < (2 ^ 32) ^ (n / 32) := by
    rw [hn.pow_limbs]
    exact a.val_lt hn
  have hlimb : 2 ^ 32 ≤ r.toNat ^ 10 :=
    calc 2 ^ 32 ≤ 10 ^ 10 := by norm_num
      _ ≤ r.toNat ^ 10 := Nat.pow_le_pow_left hr.bounds.1 10
  calc a.val < (2 ^ 32) ^ (n / 32) := hval
    _ ≤ (r.toNat ^ 10) ^ (n / 32) := Nat.pow_le_pow_left hlimb _
    _ = r.toNat ^ (scratch n).length := by rw [hlen, pow_mul]

theorem format_spec (hn : WidthOk n) {r : UInt32} (hr : Radix r) (a : LimbArray n) (fuel : ℕ) :
    Exec.Within (n * 5 / 16 < fuel) (fun s => s = text r a.val) (format fuel a r) := by
  have hlen : (scratch n).length = n * 5 / 16 := List.length_replicate
  have h64 := hn.2
  have h := limbsFormat_spec hr (scratch n) a.1 (by omega)
    (a.val_lt_scratch hn hr) fuel
  rwa [hlen] at h

theorem format_ret (hn : WidthOk n) {r : UInt32} (hr : Radix r) (a : LimbArray n) {fuel : ℕ}
    (hfuel : n * 5 / 16 < fuel) : format fuel a r = .ret (text r a.val) := by
  obtain ⟨s, hrun, rfl⟩ := (format_spec hn hr a fuel).total hfuel
  exact hrun

end LimbArray

namespace Uwide
variable {n : ℕ}

def parse (hn : WidthOk n) (s : List UInt8) : Except ParseError (Uwide n) := do
  let r ← LimbArray.parse s 10
  return ⟨r, hn⟩

def parseHex (hn : WidthOk n) (s : List UInt8) : Except ParseError (Uwide n) := do
  let r ← LimbArray.parse s 16
  return ⟨r, hn⟩

def toStr (fuel : ℕ) (a : Uwide n) : Exec (List UInt8) := do
  let s ← a.limbs.format fuel 10
  heapCopy s

def toHex (fuel : ℕ) (a : Uwide n) : Exec (List UInt8) := do
  let s ← a.limbs.format fuel 16
  heapCopy s

end Uwide

namespace Iwide
variable {n : ℕ}

def parse (hn : WidthOk n) (s : List UInt8) : Exec (Except ParseError (Iwide n)) :=
  if s.head? = some '-'.toUInt8 then do
    let digits ← Slice.range s 1 s.length
    match LimbArray.parse digits 10 with
    | .error e => return .error e
    | .ok mag =>
      let sign ← limbsSign mag.1
      let isMin ← limbsIsMinMag mag.1
      if sign = 1 ∧ isMin = false then return .error .overflow
      else return .ok ⟨mag.neg, hn⟩
  else
    match LimbArray.parse s 10 with
    | .error e => return .error e
    | .ok r => do
      let sign ← limbsSign r.1
      if sign = 1 then return .error .overflow else return .ok ⟨r, hn⟩

def parseHex (hn : WidthOk n) (s : List UInt8) : Except ParseError (Iwide n) := do
  let r ← LimbArray.parse s 16
  return ⟨r, hn⟩

def toStr (fuel : ℕ) (a : Iwide n) : Exec (List UInt8) := do
  let sign ← limbsSign a.limbs.1
  if sign = 1 then do
    let s ← a.neg.limbs.format fuel 10
    heapCopyNeg s
  else do
    let s ← a.limbs.format fuel 10
    heapCopy s

def toHex (fuel : ℕ) (a : Iwide n) : Exec (List UInt8) := do
  let s ← a.limbs.format fuel 16
  heapCopy s

end Iwide

/-- A zero in front stands alone. -/
def NoLeadingZero (digits : List UInt8) : Prop :=
  digits.head? = some '0'.toUInt8 → digits = ['0'.toUInt8]

namespace Uwide
variable {n : ℕ}

theorem toStr_ret {fuel : ℕ} (hfuel : n * 5 / 16 < fuel) (a : Uwide n) :
    a.toStr fuel = .ret (text 10 a.toNat) := by
  simp only [toStr, a.limbs.format_ret a.width (.inl rfl) hfuel, Exec.ret_bind, heapCopy_eq]
  rfl

theorem toHex_ret {fuel : ℕ} (hfuel : n * 5 / 16 < fuel) (a : Uwide n) :
    a.toHex fuel = .ret (text 16 a.toNat) := by
  simp only [toHex, a.limbs.format_ret a.width (.inr rfl) hfuel, Exec.ret_bind, heapCopy_eq]
  rfl

theorem parse_text (a : Uwide n) : parse a.width (text 10 a.toNat) = .ok a := by
  have h := a.limbs.parse_text a.width (.inl rfl)
  unfold parse
  rw [toNat, h]
  rfl

theorem parseHex_text (a : Uwide n) : parseHex a.width (text 16 a.toNat) = .ok a := by
  have h := a.limbs.parse_text a.width (.inr rfl)
  unfold parseHex
  rw [toNat, h]
  rfl

end Uwide

namespace Iwide
variable {n : ℕ}

theorem sign_iff (a : Iwide n) : ∃ s, limbsSign a.limbs.1 = .ret s ∧ (s = 1 ↔ a.toInt < 0) := by
  obtain ⟨s, hs, hiff⟩ := sign_spec a
  refine ⟨s, hs, ?_⟩
  rw [← beq_iff_eq, hiff, decide_eq_true_iff]

/-- The text of a signed value: its magnitude's, behind a minus sign if it is negative. -/
theorem toStr_ret {fuel : ℕ} (hfuel : n * 5 / 16 < fuel) (a : Iwide n) :
    a.toStr fuel = .ret (if a.toInt < 0 then '-'.toUInt8 :: text 10 a.toInt.natAbs
      else text 10 a.toInt.natAbs) := by
  obtain ⟨s, hs, hiff⟩ := sign_iff a
  have hmag := magnitude_val a
  simp only [toStr, hs, Exec.ret_bind, hiff]
  by_cases hneg : a.toInt < 0
  · simp only [hneg, decide_true, if_true] at hmag ⊢
    rw [a.neg.limbs.format_ret a.width (.inl rfl) hfuel, Exec.ret_bind, heapCopyNeg_eq, hmag]
  · simp only [hneg, decide_false, Bool.false_eq_true, if_false] at hmag ⊢
    rw [a.limbs.format_ret a.width (.inl rfl) hfuel, Exec.ret_bind, heapCopy_eq, hmag]

theorem toHex_ret {fuel : ℕ} (hfuel : n * 5 / 16 < fuel) (a : Iwide n) :
    a.toHex fuel = .ret (text 16 a.limbs.val) := by
  simp only [toHex, a.limbs.format_ret a.width (.inr rfl) hfuel, Exec.ret_bind, heapCopy_eq]

theorem parseHex_text (a : Iwide n) : parseHex a.width (text 16 a.limbs.val) = .ok a := by
  have h := a.limbs.parse_text a.width (.inr rfl)
  unfold parseHex
  rw [h]
  rfl

theorem neg_neg (a : Iwide n) : a.neg.neg = a := by
  have hlt := a.limbs.val_lt a.width
  have h1 : a.neg.limbs.val = (2 ^ n - a.limbs.val) % 2 ^ n := LimbArray.neg_val a.width _
  have h2 : a.neg.neg.limbs.val = (2 ^ n - a.neg.limbs.val) % 2 ^ n :=
    LimbArray.neg_val a.width _
  have hval : a.neg.neg.limbs.val = a.limbs.val := by
    rw [h2, h1]
    by_cases hzero : a.limbs.val = 0
    · simp [hzero]
    · rw [Nat.mod_eq_of_lt (by omega : 2 ^ n - a.limbs.val < 2 ^ n), Nat.sub_sub_self hlt.le,
        Nat.mod_eq_of_lt hlt]
  have hlimbs := LimbArray.val_injective hval
  cases a
  exact congrArg (fun l => Iwide.mk l _) hlimbs

/-- A magnitude read back is negated; the one that has its sign bit set is the minimum's. -/
theorem parse_negative {a : Iwide n} (hneg : a.toInt < 0) :
    parse a.width ('-'.toUInt8 :: text 10 a.toInt.natAbs) = .ret (.ok a) := by
  have hmag : a.neg.limbs.val = a.toInt.natAbs := by
    simpa [hneg] using magnitude_val a
  have hread := a.neg.limbs.parse_text a.width (.inl rfl)
  have hrange : Slice.range ('-'.toUInt8 :: text 10 a.toInt.natAbs) 1
      (('-'.toUInt8 :: text 10 a.toInt.natAbs).length : ℤ) = .ret (text 10 a.toInt.natAbs) := by
    simp [Slice.range_eq_ret]
  obtain ⟨s, hs, hsign⟩ := LimbArray.sign_spec a.width a.neg.limbs
  obtain ⟨m, hm, hmin⟩ := LimbArray.isMinMag_spec a.width a.neg.limbs
  have hle := two_mul_natAbs_le a
  have hok : ¬(s = 1 ∧ m = false) := by
    rw [hsign, ← Bool.not_eq_true, hmin]
    omega
  rw [hmag] at hread
  simp only [parse, List.head?_cons, if_true, hrange, Exec.ret_bind, hread, hs, hm, hok, if_false,
    Exec.pure_eq]
  exact congrArg (fun b => Exec.ret (Except.ok b)) (neg_neg a)

theorem parse_nonneg {a : Iwide n} (hneg : ¬a.toInt < 0) :
    parse a.width (text 10 a.toInt.natAbs) = .ret (.ok a) := by
  have hmag : a.limbs.val = a.toInt.natAbs := by
    simpa [hneg] using magnitude_val a
  have hread := a.limbs.parse_text a.width (.inl rfl)
  obtain ⟨s, hs, hsign⟩ := sign_iff a
  rw [hmag] at hread
  simp only [parse, text_ne_minus (.inl rfl) _, if_false, hread, hs, hsign, hneg, Exec.ret_bind,
    Exec.pure_eq]

theorem parse_toStr (a : Iwide n) :
    parse a.width (if a.toInt < 0 then '-'.toUInt8 :: text 10 a.toInt.natAbs
      else text 10 a.toInt.natAbs) = .ret (.ok a) := by
  by_cases hneg : a.toInt < 0
  · rw [if_pos hneg]
    exact parse_negative hneg
  · rw [if_neg hneg]
    exact parse_nonneg hneg

end Iwide

/-- Every value of either type reads back from its decimal and from its hexadecimal text, the
decimal text has no superfluous zero in front and a minus sign exactly for a negative value, and
formatting stays in a scratch buffer of `n * 5 / 16` bytes: an access outside it would abort. -/
theorem text_round_trips {n : ℕ} (hn : WidthOk n) {fuel : ℕ} (hfuel : n * 5 / 16 < fuel) :
    (∀ a : Uwide n, ∃ s h, a.toStr fuel = .ret s ∧ a.toHex fuel = .ret h ∧
      Uwide.parse hn s = .ok a ∧ Uwide.parseHex hn h = .ok a ∧
      NoLeadingZero s ∧ s.head? ≠ some '-'.toUInt8) ∧
    (∀ a : Iwide n, ∃ s h, a.toStr fuel = .ret s ∧ a.toHex fuel = .ret h ∧
      Iwide.parse hn s = .ret (.ok a) ∧ Iwide.parseHex hn h = .ok a ∧
      (s.head? = some '-'.toUInt8 ↔ a.toInt < 0) ∧
      ∃ digits, NoLeadingZero digits ∧
        s = if a.toInt < 0 then '-'.toUInt8 :: digits else digits) ∧
    ∀ (buf : List UInt8) (work : LimbArray n) (radix : UInt32), buf.length = n * 5 / 16 →
      radix = 10 ∨ radix = 16 →
      (∃ s, limbsFormat fuel buf work.1 radix = .ret s) ∧
        ∀ budget, limbsFormat budget buf work.1 radix ≠ .abort := by
  refine ⟨fun a => ?_, fun a => ?_, fun buf work radix hbuf hr => ?_⟩
  · exact ⟨_, _, a.toStr_ret hfuel, a.toHex_ret hfuel, a.parse_text, a.parseHex_text,
      text_leading (.inl rfl) _, text_ne_minus (.inl rfl) _⟩
  · refine ⟨_, _, a.toStr_ret hfuel, a.toHex_ret hfuel, a.parse_toStr, a.parseHex_text, ?_,
      text 10 a.toInt.natAbs, text_leading (.inl rfl) _, rfl⟩
    have hminus := text_ne_minus (.inl rfl : Radix 10) a.toInt.natAbs
    by_cases hneg : a.toInt < 0
    · simp [hneg]
    · simp [hneg, hminus]
  · have h64 := hn.2
    have hfit := work.val_lt_scratch hn hr
    rw [scratch, List.length_replicate, ← hbuf] at hfit
    have hformat := fun budget =>
      limbsFormat_spec hr buf work.1 (by omega) hfit budget
    obtain ⟨s, hrun, -⟩ := (hformat fuel).total (by omega)
    exact ⟨⟨s, hrun⟩, fun budget => (hformat budget).ne_abort⟩

/-- At 64 bits, where the largest value takes the whole buffer. -/
theorem text_round_trips_64 :
    Uwide.toStr (n := 64) 21 ⟨⟨[0xFFFFFFFF, 0xFFFFFFFF], rfl⟩, by decide⟩ =
        .ret ("18446744073709551615".toList.map Char.toUInt8) ∧
      ∀ a : Iwide 64, ∃ s, a.toStr 21 = .ret s ∧ Iwide.parse (by decide) s = .ret (.ok a) := by
  obtain ⟨-, hsigned, -⟩ := text_round_trips (by decide : WidthOk 64) (by decide : 64 * 5 / 16 < 21)
  refine ⟨by decide +kernel, fun a => ?_⟩
  obtain ⟨s, h, hstr, -, hparse, -⟩ := hsigned a
  exact ⟨s, hstr, hparse⟩

end FcLang.Wideint
