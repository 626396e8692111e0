import FcLang.Wideint.LimbArray

/-!
# Limb lists as text

Formatting divides the number by the radix in place and fills the buffer from
its end; parsing multiplies and adds from the front. Both are described by the
digits of the number: what is still to be written and what is written together
stay the same text.
-/

namespace FcLang.Wideint
open Numeral

inductive ParseError where
  | invalid
  | overflow
  deriving DecidableEq, Repr

def mulSmallLimb (m : UInt32) (x : UInt32) (carry : UInt64) : UInt32 × UInt64 :=
  let p := x.toUInt64 * m.toUInt64 + carry
  (p.toUInt32, p >>> 32)

def limbsMulSmall (a : List UInt32) (m : UInt32) : List UInt32 × UInt32 :=
  let r := ripple (mulSmallLimb m) a 0
  (r.1, r.2.toUInt32)

/-- The source walks from the top limb down; `d` is not zero. -/
def limbsDivmodSmall (d : UInt32) : List UInt32 → List UInt32 × UInt64
  | [] => ([], 0)
  | x :: a =>
    let r := limbsDivmodSmall d a
    let cur := (r.2 <<< 32) ||| x.toUInt64
    ((cur / d.toUInt64).toUInt32 :: r.1, cur % d.toUInt64)

/-- Value of an ASCII digit in the given radix, or -1 if it is not a digit of that radix. -/
def digitVal (c : UInt8) (radix : UInt32) : Int32 :=
  let v : Int32 :=
    if '0'.toUInt8 ≤ c ∧ c ≤ '9'.toUInt8 then (c - '0'.toUInt8).toUInt32.toInt32
    else if 'a'.toUInt8 ≤ c ∧ c ≤ 'f'.toUInt8 then (c - 'a'.toUInt8).toUInt32.toInt32 + 10
    else if 'A'.toUInt8 ≤ c ∧ c ≤ 'F'.toUInt8 then (c - 'A'.toUInt8).toUInt32.toInt32 + 10
    else -1
  if v ≥ radix.toInt32 then -1 else v

def hexDigit (v : UInt32) : UInt8 :=
  if v < 10 then '0'.toUInt8 + v.toUInt8 else 'a'.toUInt8 + (v - 10).toUInt8

/-- One character of `limbs_parse`. -/
def parseDigit (radix : UInt32) (dst : List UInt32) (c : UInt8) : Except ParseError (List UInt32) :=
  let dv := digitVal c radix
  if dv < 0 then .error .invalid
  else
    let m := limbsMulSmall dst radix
    let a := limbsAddSmall m.1 dv.toUInt32
    if m.2 ≠ 0 ∨ a.2 ≠ 0 then .error .overflow else .ok a.1

/-- `dst` must come in zeroed. -/
def limbsParse (dst : List UInt32) (s : List UInt8) (radix : UInt32) :
    Except ParseError (List UInt32) :=
  if s.length = 0 then .error .invalid else s.foldlM (parseDigit radix) dst

def formatBody (radix : UInt32) : List UInt8 × List UInt32 × ℤ →
    Exec ((List UInt8 × List UInt32 × ℤ) ⊕ (List UInt8 × ℤ))
  | (buf, work, pos) => do
    let qr := limbsDivmodSmall radix work
    let buf ← Slice.set buf (pos - 1) (hexDigit qr.2.toUInt32)
    if limbsIsZero qr.1 then .ret (.inr (buf, pos - 1)) else .ret (.inl (buf, qr.1, pos - 1))

/-- The written subslice of `buf`. -/
def limbsFormat (fuel : ℕ) (buf : List UInt8) (work : List UInt32) (radix : UInt32) :
    Exec (List UInt8) :=
  if limbsIsZero work then do
    let buf ← Slice.set buf 0 '0'.toUInt8
    Slice.range buf 0 1
  else do
    let r ← Exec.loop (formatBody radix) fuel (buf, work, buf.length)
    Slice.range r.1 r.2 r.1.length

/-- The radices that the conversions use. -/
def Radix (r : UInt32) : Prop := r = 10 ∨ r = 16

theorem Radix.bounds {r : UInt32} (hr : Radix r) : 10 ≤ r.toNat ∧ r.toNat ≤ 16 := by
  rcases hr with rfl | rfl <;> decide

theorem mulSmallLimb_spec (m x : UInt32) (carry : UInt64) (hc : carry.toNat < 2 ^ 32) :
    (mulSmallLimb m x carry).1.toNat + 2 ^ 32 * (mulSmallLimb m x carry).2.toNat =
      m.toNat * x.toNat + carry.toNat ∧ (mulSmallLimb m x carry).2.toNat < 2 ^ 32 := by
  have hx : x.toNat ≤ 2 ^ 32 - 1 := by have := x.toNat_lt; omega
  have hm : m.toNat ≤ 2 ^ 32 - 1 := by have := m.toNat_lt; omega
  have hprod : x.toNat * m.toNat ≤ (2 ^ 32 - 1) * (2 ^ 32 - 1) := Nat.mul_le_mul hx hm
  have hp : (x.toUInt64 * m.toUInt64 + carry).toNat = x.toNat * m.toNat + carry.toNat := by
    rw [UInt64.toNat_add, UInt64.toNat_mul, UInt32.toNat_toUInt64, UInt32.toNat_toUInt64]
    omega
  have hhigh : ∀ t : UInt64, (t >>> 32).toNat = t.toNat / 2 ^ 32 := by
    intro t
    simp [Nat.shiftRight_eq_div_pow]
  simp only [mulSmallLimb, UInt64.toNat_toUInt32, hhigh, hp, Nat.mul_comm m.toNat]
  constructor <;> omega

theorem limbsMulSmall_val (a : List UInt32) (m : UInt32) :
    limbsVal (limbsMulSmall a m).1 + (2 ^ 32) ^ a.length * (limbsMulSmall a m).2.toNat =
      m.toNat * limbsVal a := by
  obtain ⟨hval, hcarry⟩ := ripple_weigh (fun x : UInt32 => m.toNat * x.toNat) UInt32.toNat
    UInt64.toNat (fun c => c.toNat < 2 ^ 32) (mulSmallLimb_spec m) a (c := 0) (by simp)
  have hcast : (limbsMulSmall a m).2.toNat = (ripple (mulSmallLimb m) a 0).2.toNat := by
    simp only [limbsMulSmall, UInt64.toNat_toUInt32]
    omega
  rw [weigh_mul, UInt64.toNat_zero, Nat.add_zero] at hval
  rw [hcast]
  exact hval

@[simp] theorem limbsMulSmall_length (a : List UInt32) (m : UInt32) :
    (limbsMulSmall a m).1.length = a.length := by
  simp [limbsMulSmall]

/-- Long division by one limb: quotient in place, remainder below the divisor. -/
theorem limbsDivmodSmall_spec {d : UInt32} (hd : d ≠ 0) (a : List UInt32) :
    limbsVal (limbsDivmodSmall d a).1 = limbsVal a / d.toNat ∧
      (limbsDivmodSmall d a).2.toNat = limbsVal a % d.toNat := by
  have hpos : 0 < d.toNat := by
    rw [Nat.pos_iff_ne_zero]
    exact fun h => hd (UInt32.toNat_inj.mp h)
  have hlt : d.toNat < 2 ^ 32 := d.toNat_lt
  induction a with
  | nil => simp [limbsDivmodSmall, limbsVal]
  | cons x a ih =>
    obtain ⟨hq, hr⟩ := ih
    have hx : x.toNat < 2 ^ 32 := x.toNat_lt
    have hrem : (limbsDivmodSmall d a).2.toNat < d.toNat := by
      rw [hr]
      exact Nat.mod_lt _ hpos
    have hcur : (((limbsDivmodSmall d a).2 <<< 32) ||| x.toUInt64).toNat =
        2 ^ 32 * (limbsDivmodSmall d a).2.toNat + x.toNat := by
      have hshift : ((limbsDivmodSmall d a).2 <<< 32).toNat =
          2 ^ 32 * (limbsDivmodSmall d a).2.toNat := by
        rw [UInt64.toNat_shiftLeft, Nat.shiftLeft_eq]
        change _ * 2 ^ 32 % 2 ^ 64 = _
        omega
      rw [UInt64.toNat_or, hshift, UInt32.toNat_toUInt64, ← Nat.two_pow_add_eq_or_of_lt hx]
    -- the remainder of the limbs above is below the divisor, so the quotient fits a limb
    have hfit : (2 ^ 32 * (limbsDivmodSmall d a).2.toNat + x.toNat) / d.toNat < 2 ^ 32 := by
      rw [Nat.div_lt_iff_lt_mul hpos]
      nlinarith
    have hval : limbsVal (x :: a) = d.toNat * (2 ^ 32 * (limbsVal a / d.toNat)) +
        (2 ^ 32 * (limbsDivmodSmall d a).2.toNat + x.toNat) := by
      rw [limbsVal_cons, hr]
      have hsplit := Nat.div_add_mod (limbsVal a) d.toNat
      nlinarith
    simp only [limbsDivmodSmall, limbsVal_cons x, limbsVal_cons (UInt64.toUInt32 _),
      UInt64.toNat_toUInt32, UInt64.toNat_div, UInt64.toNat_mod, UInt32.toNat_toUInt64, hcur]
    rw [← limbsVal_cons, hval, Nat.mul_add_div hpos, Nat.mul_add_mod, hq, Nat.mod_eq_of_lt hfit]
    exact ⟨by omega, rfl⟩

theorem digitVal_hexDigit {r d : UInt32} (hr : Radix r) (hd : d < r) :
    ¬digitVal (hexDigit d) r < 0 ∧ (digitVal (hexDigit d) r).toUInt32 = d := by
  obtain ⟨k, rfl⟩ : ∃ k : Fin 16, d = UInt32.ofNat k := by
    have hlt := UInt32.lt_iff_toNat_lt.mp hd
    have h16 := hr.bounds.2
    exact ⟨⟨d.toNat, by omega⟩, by simp⟩
  rcases hr with rfl | rfl
  · revert k
    decide
  · revert k
    decide

/-- The characters of a number in a radix, the most significant first. -/
def numeral (r : UInt32) (v : ℕ) : List UInt8 :=
  ((Nat.digits r.toNat v).map fun d => hexDigit (UInt32.ofNat d)).reverse

@[simp] theorem numeral_zero (r : UInt32) : numeral r 0 = [] := by
  simp [numeral]

theorem numeral_of_pos {r : UInt32} (hr : Radix r) {v : ℕ} (hv : v ≠ 0) :
    numeral r v = numeral r (v / r.toNat) ++ [hexDigit (UInt32.ofNat (v % r.toNat))] := by
  have h10 := hr.bounds.1
  unfold numeral
  rw [Nat.digits_def' (by omega) (by omega), List.map_cons, List.reverse_cons]

theorem parseDigit_spec {r : UInt32} (hr : Radix r) (dst : List UInt32) {d : ℕ} (hd : d < r.toNat)
    (hfit : limbsVal dst * r.toNat + d < (2 ^ 32) ^ dst.length) :
    ∃ dst', parseDigit r dst (hexDigit (UInt32.ofNat d)) = .ok dst' ∧
      dst'.length = dst.length ∧ limbsVal dst' = limbsVal dst * r.toNat + d := by
  have hdval : (UInt32.ofNat d).toNat = d := by
    have hlt := r.toNat_lt
    simp only [UInt32.toNat_ofNat']
    omega
  obtain ⟨hnonneg, hdig⟩ := digitVal_hexDigit hr (d := UInt32.ofNat d)
    (UInt32.lt_iff_toNat_lt.mpr (by rwa [hdval]))
  have hmul := limbsMulSmall_val dst r
  have hadd := limbsAddSmall_val (limbsMulSmall dst r).1 (UInt32.ofNat d)
  rw [limbsMulSmall_length, hdval] at hadd
  generalize (2 ^ 32) ^ dst.length = W at hfit hmul hadd
  rw [Nat.mul_comm (limbsVal dst)] at hfit ⊢
  have hcm : (limbsMulSmall dst r).2.toNat = 0 := by
    by_contra hne
    have := Nat.le_mul_of_pos_right W (Nat.pos_of_ne_zero hne)
    omega
  rw [hcm, Nat.mul_zero, Nat.add_zero] at hmul
  have hca : (limbsAddSmall (limbsMulSmall dst r).1 (UInt32.ofNat d)).2.toNat = 0 := by
    by_contra hne
    have := Nat.le_mul_of_pos_right W (Nat.pos_of_ne_zero hne)
    omega
  rw [hca, Nat.mul_zero, Nat.add_zero, hmul] at hadd
  refine ⟨(limbsAddSmall (limbsMulSmall dst r).1 (UInt32.ofNat d)).1, ?_, by simp, hadd⟩
  have hcm' := UInt32.toNat_inj.mp (hcm.trans UInt32.toNat_zero.symm)
  have hca' := UInt32.toNat_inj.mp (hca.trans UInt32.toNat_zero.symm)
  simp [parseDigit, hnonneg, hdig, hcm', hca']

/-- Reading a numeral from zero gives back its number, no partial value overflowing. -/
theorem foldlM_numeral {r : UInt32} (hr : Radix r) (len v : ℕ) (hv : v < (2 ^ 32) ^ len) :
    ∃ dst, (numeral r v).foldlM (parseDigit r) (List.replicate len 0) = .ok dst ∧
      dst.length = len ∧ limbsVal dst = v := by
  have h10 := hr.bounds.1
  induction v using Nat.strong_induction_on with
  | _ v ih =>
    by_cases hzero : v = 0
    · subst hzero
      exact ⟨List.replicate len 0, by rw [numeral_zero]; rfl, by simp, by simp⟩
    · have hless : v / r.toNat < v := Nat.div_lt_self (Nat.pos_of_ne_zero hzero) (by omega)
      obtain ⟨dst, hrun, hlen, hval⟩ := ih (v / r.toNat) hless (by omega)
      have hsplit := Nat.div_add_mod' v r.toNat
      obtain ⟨dst', hstep, hlen', hval'⟩ := parseDigit_spec hr dst
        (Nat.mod_lt v (by omega : 0 < r.toNat)) (by rw [hval, hlen, hsplit]; exact hv)
      refine ⟨dst', ?_, hlen'.trans hlen, by rw [hval', hval, hsplit]⟩
      rw [numeral_of_pos hr hzero, List.foldlM_append, hrun]
      change List.foldlM (parseDigit r) dst [_] = _
      rw [List.foldlM_cons, hstep]
      rfl

/-- The text of a number: its numeral, and a single zero for zero. -/
def text (r : UInt32) (v : ℕ) : List UInt8 := if v = 0 then ['0'.toUInt8] else numeral r v

theorem text_ne_nil {r : UInt32} (hr : Radix r) (v : ℕ) : text r v ≠ [] := by
  unfold text
  split_ifs with hv
  · simp
  · simp [numeral_of_pos hr hv]

theorem parse_text {r : UInt32} (hr : Radix r) (len v : ℕ) (hv : v < (2 ^ 32) ^ len) :
    ∃ dst, limbsParse (List.replicate len 0) (text r v) r = .ok dst ∧
      dst.length = len ∧ limbsVal dst = v := by
  have hlen : (text r v).length ≠ 0 := by simpa using text_ne_nil hr v
  unfold limbsParse
  rw [if_neg hlen]
  by_cases hzero : v = 0
  · subst hzero
    have h10 := hr.bounds.1
    obtain ⟨dst, hrun, hlen', hval⟩ := parseDigit_spec hr (List.replicate len 0)
      (by omega : 0 < r.toNat) (by simp)
    refine ⟨dst, ?_, by simpa using hlen', by simpa using hval⟩
    change List.foldlM (parseDigit r) _ [hexDigit (UInt32.ofNat 0)] = _
    rw [List.foldlM_cons, hrun]
    rfl
  · have htext : text r v = numeral r v := if_neg hzero
    rw [htext]
    exact foldlM_numeral hr len v hv

/-- The leading digit is not zero, unless the number is. -/
theorem text_head {r : UInt32} (hr : Radix r) (v : ℕ) :
    ∃ d < r.toNat, (d = 0 → v = 0) ∧ ∃ rest, text r v = hexDigit (UInt32.ofNat d) :: rest := by
  have h10 := hr.bounds.1
  unfold text
  induction v using Nat.strong_induction_on with
  | _ v ih =>
    by_cases hzero : v = 0
    · exact ⟨0, by omega, fun _ => hzero, [], by simp [hzero]; rfl⟩
    · rw [if_neg hzero, numeral_of_pos hr hzero]
      by_cases hone : v / r.toNat = 0
      · have hlt : v < r.toNat := by
          rw [Nat.div_eq_zero_iff] at hone
          omega
        refine ⟨v % r.toNat, Nat.mod_lt _ (by omega), ?_, [], ?_⟩
        · rw [Nat.mod_eq_of_lt hlt]
          exact id
        · rw [hone, numeral_zero, List.nil_append]
      · obtain ⟨d, hd, hd0, rest, hrest⟩ := ih (v / r.toNat)
          (Nat.div_lt_self (Nat.pos_of_ne_zero hzero) (by omega))
        rw [if_neg hone] at hrest
        exact ⟨d, hd, fun h => absurd (hd0 h) hone, _, by rw [hrest, List.cons_append]⟩

theorem hexDigit_ne {d : ℕ} (hd : d < 16) :
    hexDigit (UInt32.ofNat d) ≠ '-'.toUInt8 ∧
      (hexDigit (UInt32.ofNat d) = '0'.toUInt8 → d = 0) := by
  obtain ⟨k, rfl⟩ : ∃ k : Fin 16, d = k := ⟨⟨d, hd⟩, rfl⟩
  revert k
  decide

/-- No superfluous leading zero. -/
theorem text_leading {r : UInt32} (hr : Radix r) (v : ℕ) :
    (text r v).head? = some '0'.toUInt8 → text r v = ['0'.toUInt8] := by
  obtain ⟨d, hd, hd0, rest, hrest⟩ := text_head hr v
  intro h
  rw [hrest, List.head?_cons, Option.some.injEq] at h
  have hzero := hd0 ((hexDigit_ne (by have := hr.bounds.2; omega)).2 h)
  exact if_pos hzero

theorem text_ne_minus {r : UInt32} (hr : Radix r) (v : ℕ) :
    (text r v).head? ≠ some '-'.toUInt8 := by
  obtain ⟨d, hd, -, rest, hrest⟩ := text_head hr v
  rw [hrest, List.head?_cons, ne_eq, Option.some.injEq]
  exact (hexDigit_ne (by have := hr.bounds.2; omega)).1

theorem drop_set_self {buf : List UInt8} {pos : ℕ} (h : pos < buf.length) (c : UInt8) :
    (buf.set pos c).drop pos = c :: buf.drop (pos + 1) := by
  rw [List.drop_eq_getElem_cons (by simpa using h), List.getElem_set_self,
    List.drop_set_of_lt (Nat.lt_succ_self pos)]

/-- What remains to be written, followed by what stands in the buffer from `pos` on, is the text;
the remaining number fits in front of `pos`. -/
structure Formatting (r : UInt32) (len v pos : ℕ) (s : List UInt8 × List UInt32 × ℤ) : Prop where
  pos_eq : s.2.2 = pos
  pos_le : pos ≤ len
  length_eq : s.1.length = len
  ne_zero : limbsVal s.2.1 ≠ 0
  fits : limbsVal s.2.1 < r.toNat ^ pos
  text_eq : numeral r (limbsVal s.2.1) ++ s.1.drop pos = numeral r v

theorem formatBody_step {r : UInt32} (hr : Radix r) {len v pos : ℕ}
    {s : List UInt8 × List UInt32 × ℤ} (h : Formatting r len v pos s) :
    (∃ s', formatBody r s = .ret (.inl s') ∧ ∃ m < pos, Formatting r len v m s') ∨
      ∃ t, formatBody r s = .ret (.inr t) ∧
        ∃ m < len, t.2 = m ∧ t.1.length = len ∧ t.1.drop m = numeral r v := by
  obtain ⟨buf, work, p⟩ := s
  obtain ⟨hp, hle, hlen, hne, hfit, htext⟩ := h
  simp only at hp hle hlen hne hfit htext
  subst hp
  have h10 := hr.bounds.1
  obtain ⟨k, rfl⟩ : ∃ k, pos = k + 1 := by
    cases pos with
    | zero => simp at hfit; omega
    | succ k => exact ⟨k, rfl⟩
  have hk : k < buf.length := by omega
  have hr0 : r ≠ 0 := by
    rintro rfl
    simp at h10
  obtain ⟨hq, hrem⟩ := limbsDivmodSmall_spec hr0 work
  have hdig : hexDigit (limbsDivmodSmall r work).2.toUInt32 =
      hexDigit (UInt32.ofNat (limbsVal work % r.toNat)) := by
    congr 1
    rw [← UInt32.toNat_inj, UInt64.toNat_toUInt32, hrem, UInt32.toNat_ofNat']
  have hset : Slice.set buf (((k + 1 : ℕ) : ℤ) - 1) (hexDigit (limbsDivmodSmall r work).2.toUInt32) =
      .ret (buf.set k (hexDigit (UInt32.ofNat (limbsVal work % r.toNat)))) := by
    rw [hdig, show ((k + 1 : ℕ) : ℤ) - 1 = (k : ℤ) by omega, Slice.set_natCast hk]
  have hrun : formatBody r (buf, work, ((k + 1 : ℕ) : ℤ)) =
      if limbsIsZero (limbsDivmodSmall r work).1 then
        .ret (.inr (buf.set k (hexDigit (UInt32.ofNat (limbsVal work % r.toNat))), (k : ℤ)))
      else .ret (.inl (buf.set k (hexDigit (UInt32.ofNat (limbsVal work % r.toNat))),
        (limbsDivmodSmall r work).1, (k : ℤ))) := by
    simp only [formatBody, hset, Exec.ret_bind]
    rw [show ((k + 1 : ℕ) : ℤ) - 1 = (k : ℤ) by omega]
  have htext' : numeral r (limbsVal work / r.toNat) ++
      (buf.set k (hexDigit (UInt32.ofNat (limbsVal work % r.toNat)))).drop k = numeral r v := by
    rw [drop_set_self hk, ← htext, numeral_of_pos hr hne, List.append_assoc, List.singleton_append]
  by_cases hz : limbsVal (limbsDivmodSmall r work).1 = 0
  · right
    rw [hrun, if_pos ((limbsIsZero_iff _).mpr hz)]
    rw [hq] at hz
    rw [hz, numeral_zero, List.nil_append] at htext'
    exact ⟨_, rfl, k, by omega, rfl, by rw [List.length_set, hlen], htext'⟩
  · left
    rw [hrun, if_neg (fun h => hz ((limbsIsZero_iff _).mp h))]
    refine ⟨_, rfl, k, Nat.lt_succ_self k, rfl, by omega, by rw [List.length_set, hlen], hz, ?_, ?_⟩
    · rw [hq, Nat.div_lt_iff_lt_mul (by omega), ← pow_succ]
      exact hfit
    · rw [hq]
      exact htext'

/-- Formatting stays inside a buffer that is long enough for the number, and writes its text. -/
theorem limbsFormat_spec {r : UInt32} (hr : Radix r) (buf : List UInt8) (work : List UInt32)
    (hbuf : 0 < buf.length) (hfit : limbsVal work < r.toNat ^ buf.length) (fuel : ℕ) :
    Exec.Within (buf.length < fuel) (fun s => s = text r (limbsVal work))
      (limbsFormat fuel buf work r) := by
  unfold limbsFormat text
  by_cases hz : limbsVal work = 0
  · rw [if_pos ((limbsIsZero_iff _).mpr hz), if_pos hz]
    obtain ⟨c, rest, rfl⟩ := List.exists_cons_of_length_pos hbuf
    have hset : Slice.set (c :: rest) 0 '0'.toUInt8 = .ret ('0'.toUInt8 :: rest) :=
      Slice.set_natCast (i := 0) hbuf _
    have hrange : Slice.range ('0'.toUInt8 :: rest) 0 1 = .ret ['0'.toUInt8] := by
      simp [Slice.range_eq_ret]
    rw [hset, Exec.ret_bind, hrange]
    exact .ret rfl
  · rw [if_neg (fun h => hz ((limbsIsZero_iff _).mp h)), if_neg hz]
    have hstart : Formatting r buf.length (limbsVal work) buf.length (buf, work, buf.length) :=
      ⟨rfl, le_rfl, rfl, hz, hfit, by simp⟩
    refine (Exec.loop_within _ (fun _ _ => formatBody_step hr) hstart fuel).bind ?_
    rintro ⟨t, p⟩ ⟨m, hm, hp, hlen, hdrop⟩
    simp only at hp hlen hdrop
    subst hp
    have hrange : Slice.range t (m : ℤ) t.length = .ret (t.drop m) := by
      rw [Slice.range_eq_ret]
      refine ⟨by omega, ?_⟩
      rw [Int.toNat_natCast, List.take_of_length_le (by rw [List.length_drop]; omega)]
    rw [hrange, hdrop]
    exact .ret rfl

end FcLang.Wideint
