import FcLang.Wideint.Uwide
import FcLang.Wideint.Iwide

/-!
# Shifts

Each limb of a shifted number joins two neighbouring limbs of the operand. A
routine is described by the bits of its result, since a limb is written once and
no limb depends on another one of the result.
-/

namespace FcLang.Wideint

/-- One limb of `limbs_shl`. -/
def shlLimb (a : List UInt32) (n : UInt32) (i : ℤ) : Exec UInt32 := do
  let ws : ℤ := (n / 32).toNat
  let bs := n % 32
  let src := i - ws
  let v ← (if src ≥ 0 ∧ src < a.length then do
      let x ← Slice.get a src
      return x <<< bs
    else return 0)
  if bs > 0 ∧ src - 1 ≥ 0 ∧ src - 1 < a.length then do
    let y ← Slice.get a (src - 1)
    return v ||| (y >>> (32 - bs))
  else return v

/-- One limb of `limbs_shr`. -/
def shrLimb (a : List UInt32) (n : UInt32) (i : ℤ) : Exec UInt32 := do
  let ws : ℤ := (n / 32).toNat
  let bs := n % 32
  let src := i + ws
  let v ← (if src ≥ 0 ∧ src < a.length then do
      let x ← Slice.get a src
      return x >>> bs
    else return 0)
  if bs > 0 ∧ src + 1 < a.length then do
    let y ← Slice.get a (src + 1)
    return v ||| (y <<< (32 - bs))
  else return v

/-- One limb of `limbs_sar`, with the sign in the limbs past the end. -/
def sarLimb (a : List UInt32) (fill n : UInt32) (i : ℤ) : Exec UInt32 := do
  let ws : ℤ := (n / 32).toNat
  let bs := n % 32
  let src := i + ws
  let lo ← (if src < a.length then Slice.get a src else return fill)
  let hi ← (if src + 1 < a.length then Slice.get a (src + 1) else return fill)
  if bs = 0 then return lo else return (lo >>> bs) ||| (hi <<< (32 - bs))

/-- `dst[i] = limb(i)` at every index. -/
def fillLimbs (limb : ℤ → Exec UInt32) (dst : List UInt32) : Exec (List UInt32) :=
  Exec.forRange 0 dst.length (fun i dst => limb i >>= fun v => Slice.set dst i v) dst

def limbsShl (dst a : List UInt32) (n : UInt32) : Exec (List UInt32) := fillLimbs (shlLimb a n) dst

def limbsShr (dst a : List UInt32) (n : UInt32) : Exec (List UInt32) := fillLimbs (shrLimb a n) dst

def limbsSar (dst a : List UInt32) (n : UInt32) : Exec (List UInt32) := do
  let sign ← limbsSign a
  let fill := if sign = 1 then 0xFFFFFFFF else 0
  fillLimbs (sarLimb a fill n) dst

/-- The bits of a limb list are the bits of its limbs; past the end all are zero. -/
theorem testBit_limbsVal (a : List UInt32) (i b : ℕ) (hb : b < 32) :
    (limbsVal a).testBit (32 * i + b) = (a[i]?.getD 0).toNat.testBit b := by
  induction a generalizing i with
  | nil => simp [limbsVal]
  | cons x a ih =>
    rw [limbsVal_cons, Nat.add_comm, Nat.testBit_two_pow_mul_add _ x.toNat_lt]
    cases i with
    | zero => simp [hb]
    | succ i =>
      rw [if_neg (by omega), show 32 * (i + 1) + b - 32 = 32 * i + b by omega, ih,
        List.getElem?_cons_succ]

theorem testBit_limb (x : UInt32) {b : ℕ} (hb : 32 ≤ b) : x.toNat.testBit b = false :=
  Nat.testBit_lt_two_pow (lt_of_lt_of_le x.toNat_lt (Nat.pow_le_pow_right (by omega) hb))

theorem toNat_shift {s : UInt32} (hs : s.toNat < 32) (x : UInt32) :
    (x <<< s).toNat = x.toNat <<< s.toNat % 2 ^ 32 ∧ (x >>> s).toNat = x.toNat >>> s.toNat := by
  rw [UInt32.toNat_shiftLeft, UInt32.toNat_shiftRight, Nat.mod_eq_of_lt hs]
  exact ⟨rfl, rfl⟩

/-- Two limbs joined at a bit offset: a window of 32 bits into both. -/
theorem testBit_join (lo hi : UInt32) {s t : UInt32} (hs : s.toNat < 32) (ht : t.toNat < 32)
    (hst : s.toNat + t.toNat = 32) {b : ℕ} (hb : b < 32) :
    ((lo >>> s) ||| (hi <<< t)).toNat.testBit b =
      if b + s.toNat < 32 then lo.toNat.testBit (b + s.toNat)
      else hi.toNat.testBit (b + s.toNat - 32) := by
  rw [UInt32.toNat_or, (toNat_shift hs lo).2, (toNat_shift ht hi).1, Nat.testBit_or,
    Nat.testBit_shiftRight, Nat.testBit_mod_two_pow, Nat.testBit_shiftLeft, Nat.add_comm s.toNat]
  split_ifs with h
  · have hlow : ¬t.toNat ≤ b := by omega
    simp [hlow]
  · have hhigh : t.toNat ≤ b := by omega
    rw [testBit_limb lo (by omega), show b - t.toNat = b + s.toNat - 32 by omega]
    simp [hb, hhigh]

/-- The bits that a loop over fresh limbs writes. -/
theorem fillLimbs_bits (limb : ℤ → Exec UInt32) (dst : List UInt32) (B : ℕ → Bool)
    (hlimb : ∀ i : ℕ, i < dst.length → ∃ v, limb i = .ret v ∧
      ∀ b < 32, v.toNat.testBit b = B (32 * i + b)) :
    ∃ r, fillLimbs limb dst = .ret r ∧ r.length = dst.length ∧
      ∀ j < 32 * dst.length, (limbsVal r).testBit j = B j := by
  have hloop : ∃ r, fillLimbs limb dst = .ret r ∧ r.length = dst.length ∧
      ∀ k : ℕ, (k : ℤ) < dst.length → ∀ b < 32,
        (r[k]?.getD 0).toNat.testBit b = B (32 * k + b) := by
    refine Exec.forRange_total
      (fun i (r : List UInt32) => r.length = dst.length ∧
        ∀ k : ℕ, (k : ℤ) < i → ∀ b < 32, (r[k]?.getD 0).toNat.testBit b = B (32 * k + b))
      (by omega) ⟨rfl, fun k hk => by omega⟩ ?_
    rintro i r h0 hlt ⟨hlen, hbits⟩
    obtain ⟨i, rfl⟩ := Int.eq_ofNat_of_zero_le h0
    obtain ⟨v, hv, hvbits⟩ := hlimb i (by omega)
    have hi : i < r.length := by omega
    refine ⟨r.set i v, by rw [hv, Exec.ret_bind, Slice.set_natCast hi], by simpa using hlen, ?_⟩
    intro k hk b hb
    rw [Slice.getElem?_set_of_lt hi]
    by_cases hik : i = k
    · subst hik
      rw [if_pos rfl]
      exact hvbits b hb
    · rw [if_neg hik]
      exact hbits k (by omega) b hb
  obtain ⟨r, hrun, hlen, hbits⟩ := hloop
  refine ⟨r, hrun, hlen, fun j hj => ?_⟩
  rw [← Nat.div_add_mod j 32, testBit_limbsVal r _ _ (Nat.mod_lt _ (by omega))]
  exact hbits (j / 32) (by omega) (j % 32) (Nat.mod_lt _ (by omega))

section Limbs
variable (a : List UInt32) {n : UInt32} {i : ℕ}

/-- A shift count is so many words and so many bits. -/
theorem count_split (n : UInt32) :
    (n / 32).toNat = n.toNat / 32 ∧ (n % 32).toNat = n.toNat % 32 ∧ (n % 32).toNat < 32 := by
  have hdiv : (n / 32).toNat = n.toNat / 32 := UInt32.toNat_div n 32
  have hmod : (n % 32).toNat = n.toNat % 32 := UInt32.toNat_mod n 32
  exact ⟨hdiv, hmod, by omega⟩

theorem offset_pos_iff : n % 32 > 0 ↔ (n % 32).toNat ≠ 0 := by
  rw [gt_iff_lt, UInt32.lt_iff_toNat_lt, UInt32.toNat_zero, Nat.pos_iff_ne_zero]

theorem rest_toNat (h : n % 32 > 0) :
    (32 - n % 32).toNat = 32 - (n % 32).toNat ∧ (32 - n % 32).toNat < 32 := by
  have hpos := offset_pos_iff.mp h
  have hlt := (count_split n).2.2
  have hle : n % 32 ≤ 32 := UInt32.le_iff_toNat_le.mpr hlt.le
  have hsub := UInt32.toNat_sub_of_le 32 (n % 32) hle
  have h32 : (32 : UInt32).toNat = 32 := rfl
  exact ⟨hsub, by omega⟩

theorem shift_zero {bs : UInt32} (x : UInt32) (h : bs.toNat = 0) : x <<< bs = x ∧ x >>> bs = x := by
  obtain rfl : bs = 0 := UInt32.toNat_inj.mp h
  simp

/-- A limb below the first one counts as zero. -/
def limbAt (a : List UInt32) (i : ℤ) : UInt32 := if 0 ≤ i then a[i.toNat]?.getD 0 else 0

theorem testBit_limbAt (i : ℤ) {b : ℕ} (hb : b < 32) :
    (limbAt a i).toNat.testBit b = (decide (0 ≤ i) && (limbsVal a).testBit (32 * i.toNat + b)) := by
  unfold limbAt
  by_cases h : 0 ≤ i
  · rw [if_pos h, testBit_limbsVal a _ _ hb, decide_eq_true h, Bool.true_and]
  · simp [h]

/-- A read behind a test of its index. -/
theorem read_limbAt {i : ℤ} (f : UInt32 → UInt32) (hf : f 0 = 0) :
    (if i ≥ 0 ∧ i < a.length then (do
      let x ← Slice.get a i
      pure (f x)) else pure 0 : Exec UInt32) = .ret (f (limbAt a i)) := by
  unfold limbAt
  by_cases h0 : 0 ≤ i
  · by_cases hlt : i < a.length
    · rw [if_pos ⟨h0, hlt⟩, if_pos h0, Slice.get_of_lt h0 (by omega),
        List.getElem?_eq_getElem (by omega)]
      rfl
    · rw [if_neg (fun h => hlt h.2), if_pos h0, List.getElem?_eq_none (by omega)]
      exact congrArg _ hf.symm
  · rw [if_neg (fun h => h0 h.1), if_neg h0]
    exact congrArg _ hf.symm

theorem shlLimb_eq (n : UInt32) (i : ℤ) : shlLimb a n i =
    .ret (if n % 32 > 0 then (limbAt a (i - (n / 32).toNat) <<< (n % 32)) |||
        (limbAt a (i - (n / 32).toNat - 1) >>> (32 - n % 32))
      else limbAt a (i - (n / 32).toNat) <<< (n % 32)) := by
  unfold shlLimb
  dsimp only
  rw [read_limbAt a (· <<< (n % 32)) (by simp), Exec.ret_bind]
  by_cases hbs : n % 32 > 0
  · rw [if_pos hbs]
    by_cases hsrc : i - (n / 32).toNat - 1 ≥ 0 ∧ i - (n / 32).toNat - 1 < a.length
    · have hread := read_limbAt a (i := i - (n / 32).toNat - 1) id rfl
      rw [if_pos hsrc] at hread
      rw [if_pos ⟨hbs, hsrc⟩]
      obtain ⟨y, hy, hret⟩ := Exec.bind_eq_ret.mp hread
      cases hret
      rw [hy, Exec.ret_bind]
      rfl
    · have hread := read_limbAt a (i := i - (n / 32).toNat - 1) id rfl
      rw [if_neg hsrc] at hread
      have hzero : limbAt a (i - (n / 32).toNat - 1) = 0 := (Exec.ret.inj hread).symm
      rw [if_neg (fun h => hsrc h.2), hzero]
      simp
  · rw [if_neg hbs, if_neg (fun h => hbs h.1)]
    rfl

/-- The bits of a limb of the number shifted up. -/
theorem shlLimb_bits (n : UInt32) (i : ℕ) : ∃ v, shlLimb a n i = .ret v ∧
    ∀ b < 32, v.toNat.testBit b =
      (decide (n.toNat ≤ 32 * i + b) && (limbsVal a).testBit (32 * i + b - n.toNat)) := by
  refine ⟨_, shlLimb_eq a n i, fun b hb => ?_⟩
  obtain ⟨hws, hbs, hlt⟩ := count_split n
  split_ifs with hpos
  · obtain ⟨hrest, hrlt⟩ := rest_toNat hpos
    rw [UInt32.or_comm, testBit_join _ _ hrlt hlt (by omega) hb, hrest]
    split_ifs with hb'
    · rw [testBit_limbAt a _ (by omega)]
      by_cases hsrc : 0 ≤ (i : ℤ) - (n / 32).toNat - 1
      · rw [decide_eq_true hsrc, decide_eq_true (by omega)]
        congr 2
        omega
      · rw [decide_eq_false hsrc, decide_eq_false (by omega)]
        rfl
    · rw [testBit_limbAt a _ (by omega)]
      by_cases hsrc : 0 ≤ (i : ℤ) - (n / 32).toNat
      · rw [decide_eq_true hsrc, decide_eq_true (by omega)]
        congr 2
        omega
      · rw [decide_eq_false hsrc, decide_eq_false (by omega)]
        rfl
  · have hzero : (n % 32).toNat = 0 := not_not.mp fun h => hpos (offset_pos_iff.mpr h)
    rw [(shift_zero _ hzero).1, testBit_limbAt a _ hb]
    by_cases hsrc : 0 ≤ (i : ℤ) - (n / 32).toNat
    · rw [decide_eq_true hsrc, decide_eq_true (by omega)]
      congr 2
      omega
    · rw [decide_eq_false hsrc, decide_eq_false (by omega)]
      rfl

theorem shrLimb_eq (n : UInt32) (i : ℕ) : shrLimb a n i =
    .ret (if n % 32 > 0 then (limbAt a (i + (n / 32).toNat) >>> (n % 32)) |||
        (limbAt a (i + (n / 32).toNat + 1) <<< (32 - n % 32))
      else limbAt a (i + (n / 32).toNat) >>> (n % 32)) := by
  unfold shrLimb
  dsimp only
  rw [read_limbAt a (· >>> (n % 32)) (by simp), Exec.ret_bind]
  have hread := read_limbAt a (i := (i : ℤ) + (n / 32).toNat + 1) id rfl
  have h0 : (i : ℤ) + (n / 32).toNat + 1 ≥ 0 := by omega
  by_cases hbs : n % 32 > 0
  · rw [if_pos hbs]
    by_cases hsrc : (i : ℤ) + (n / 32).toNat + 1 < a.length
    · rw [if_pos ⟨h0, hsrc⟩] at hread
      rw [if_pos ⟨hbs, hsrc⟩]
      obtain ⟨y, hy, hret⟩ := Exec.bind_eq_ret.mp hread
      cases hret
      rw [hy, Exec.ret_bind]
      rfl
    · rw [if_neg (fun h => hsrc h.2)] at hread
      have hzero : limbAt a (i + (n / 32).toNat + 1) = 0 := (Exec.ret.inj hread).symm
      rw [if_neg (fun h => hsrc h.2), hzero]
      simp
  · rw [if_neg hbs, if_neg (fun h => hbs h.1)]
    rfl

theorem sarLimb_eq (fill n : UInt32) (i : ℕ) : sarLimb a fill n i =
    .ret (if n % 32 > 0 then ((a[i + (n / 32).toNat]?.getD fill) >>> (n % 32)) |||
        ((a[i + (n / 32).toNat + 1]?.getD fill) <<< (32 - n % 32))
      else a[i + (n / 32).toNat]?.getD fill) := by
  have hread : ∀ k : ℕ, (if (k : ℤ) < a.length then Slice.get a k else return fill) =
      .ret (a[k]?.getD fill) := by
    intro k
    by_cases hk : k < a.length
    · rw [if_pos (by omega), Slice.get_natCast hk, List.getElem?_eq_getElem hk]
      rfl
    · rw [if_neg (by omega), List.getElem?_eq_none (by omega)]
      rfl
  have hlo := hread (i + (n / 32).toNat)
  have hhi := hread (i + (n / 32).toNat + 1)
  push_cast at hlo hhi
  unfold sarLimb
  dsimp only
  rw [hlo, Exec.ret_bind, hhi, Exec.ret_bind]
  by_cases hbs : n % 32 > 0
  · have hne : n % 32 ≠ 0 := fun h => offset_pos_iff.mp hbs (by rw [h]; rfl)
    rw [if_neg hne, if_pos hbs]
    rfl
  · have heq : n % 32 = 0 := UInt32.toNat_inj.mp (not_not.mp fun h => hbs (offset_pos_iff.mpr h))
    rw [if_pos heq, if_neg hbs]
    rfl

/-- A window of 32 bits into limbs whose bits are those of `B`. -/
theorem window_bits (B : ℕ → Bool) (limb : ℕ → UInt32)
    (hlimb : ∀ i, ∀ b < 32, (limb i).toNat.testBit b = B (32 * i + b)) (n : UInt32) (i : ℕ) {b : ℕ}
    (hb : b < 32) :
    (if n % 32 > 0 then (limb (i + (n / 32).toNat) >>> (n % 32)) |||
        (limb (i + (n / 32).toNat + 1) <<< (32 - n % 32))
      else limb (i + (n / 32).toNat)).toNat.testBit b = B (32 * i + b + n.toNat) := by
  obtain ⟨hws, hbs, hlt⟩ := count_split n
  split_ifs with hpos
  · obtain ⟨hrest, hrlt⟩ := rest_toNat hpos
    rw [testBit_join _ _ hlt hrlt (by omega) hb]
    split_ifs with hb'
    · rw [hlimb _ _ (by omega)]
      congr 1
      omega
    · rw [hlimb _ _ (by omega)]
      congr 1
      omega
  · have hzero : (n % 32).toNat = 0 := not_not.mp fun h => hpos (offset_pos_iff.mpr h)
    rw [hlimb _ _ hb]
    congr 1
    omega

theorem shrLimb_bits (n : UInt32) (i : ℕ) : ∃ v, shrLimb a n i = .ret v ∧
    ∀ b < 32, v.toNat.testBit b = (limbsVal a).testBit (32 * i + b + n.toNat) := by
  refine ⟨_, shrLimb_eq a n i, fun b hb => ?_⟩
  rw [← window_bits (limbsVal a).testBit (fun i => limbAt a i)
    (fun i b hb => by rw [testBit_limbAt a _ hb]; simp) n i hb]
  push_cast
  split_ifs with hpos
  · rfl
  · have hzero : (n % 32).toNat = 0 := not_not.mp fun h => hpos (offset_pos_iff.mpr h)
    rw [(shift_zero _ hzero).2]

theorem sarLimb_bits {fill : UInt32} {sign : Bool}
    (hfill : ∀ b < 32, fill.toNat.testBit b = sign) (n : UInt32) (i : ℕ) :
    ∃ v, sarLimb a fill n i = .ret v ∧ ∀ b < 32, v.toNat.testBit b =
      if 32 * i + b + n.toNat < 32 * a.length then (limbsVal a).testBit (32 * i + b + n.toNat)
      else sign := by
  refine ⟨_, sarLimb_eq a fill n i, fun b hb => ?_⟩
  refine window_bits (fun j => if j < 32 * a.length then (limbsVal a).testBit j else sign)
    (fun i => a[i]?.getD fill) (fun i b hb => ?_) n i hb
  by_cases hi : i < a.length
  · rw [if_pos (by omega), testBit_limbsVal a _ _ hb, List.getElem?_eq_getElem hi]
    rfl
  · rw [if_neg (by omega), List.getElem?_eq_none (by omega)]
    exact hfill b hb

end Limbs

theorem fillLimbs_length {limb : ℤ → Exec UInt32} {dst r : List UInt32}
    (h : fillLimbs limb dst = .ret r) : r.length = dst.length := by
  refine Exec.forRange_partial (fun r : List UInt32 => r.length = dst.length) ?_ rfl h
  intro i s s' hs hstep
  obtain ⟨v, -, hset⟩ := Exec.bind_eq_ret.mp hstep
  exact (Slice.set_length hset).1.trans hs

theorem limbsSar_length {dst a r : List UInt32} {n : UInt32} (h : limbsSar dst a n = .ret r) :
    r.length = dst.length := by
  obtain ⟨sign, -, hfill⟩ := Exec.bind_eq_ret.mp h
  exact fillLimbs_length hfill

namespace LimbArray
variable {n : ℕ}

/-- `limbs_shl` into a zeroed array. -/
def shl (a : LimbArray n) (k : UInt32) : Exec (LimbArray n) := do
  let ⟨dst, h⟩ ← (limbsShl (zero (n := n)).1 a.1 k).attach
  return ⟨dst, (fillLimbs_length h).trans zero.2⟩

def shr (a : LimbArray n) (k : UInt32) : Exec (LimbArray n) := do
  let ⟨dst, h⟩ ← (limbsShr (zero (n := n)).1 a.1 k).attach
  return ⟨dst, (fillLimbs_length h).trans zero.2⟩

def sar (a : LimbArray n) (k : UInt32) : Exec (LimbArray n) := do
  let ⟨dst, h⟩ ← (limbsSar (zero (n := n)).1 a.1 k).attach
  return ⟨dst, (limbsSar_length h).trans zero.2⟩

/-- The array as a word of its width. -/
def word (a : LimbArray n) : BitVec n := BitVec.ofNat n a.val

theorem bits_eq (hn : WidthOk n) : 32 * (n / 32) = n :=
  Nat.mul_div_cancel' (Nat.dvd_of_mod_eq_zero hn.1)

theorem word_toNat (hn : WidthOk n) (a : LimbArray n) : a.word.toNat = a.val := by
  rw [word, BitVec.toNat_ofNat, Nat.mod_eq_of_lt (a.val_lt hn)]

theorem getLsbD_word (a : LimbArray n) {j : ℕ} (hj : j < n) :
    a.word.getLsbD j = a.val.testBit j := by
  rw [word, BitVec.getLsbD_ofNat, decide_eq_true hj, Bool.true_and]

/-- A routine that writes the bits of a word writes that word. -/
theorem word_eq (hn : WidthOk n) {r : LimbArray n} {w : BitVec n}
    (h : ∀ j < 32 * (n / 32), r.val.testBit j = w.getLsbD j) : r.word = w := by
  apply BitVec.eq_of_getLsbD_eq
  intro j hj
  rw [getLsbD_word r hj]
  exact h j (by rw [bits_eq hn]; exact hj)

theorem shl_spec (hn : WidthOk n) (a : LimbArray n) (k : UInt32) :
    ∃ r, a.shl k = .ret r ∧ r.word = a.word <<< k.toNat := by
  obtain ⟨r, hrun, hlen, hbits⟩ := fillLimbs_bits (shlLimb a.1 k) (zero (n := n)).1
    (fun j => decide (k.toNat ≤ j) && (limbsVal a.1).testBit (j - k.toNat))
    fun i _ => shlLimb_bits a.1 k i
  refine ⟨⟨r, hlen.trans zero.2⟩, ?_, word_eq hn fun j hj => ?_⟩
  · have hrun' : limbsShl (zero (n := n)).1 a.1 k = .ret r := hrun
    simp only [shl, Exec.attach_of_eq hrun', Exec.ret_bind, Exec.pure_eq]
  · rw [zero.2] at hbits
    rw [bits_eq hn] at hj
    refine (hbits j (by rw [bits_eq hn]; exact hj)).trans ?_
    rw [BitVec.getLsbD_shiftLeft, decide_eq_true hj, Bool.true_and, ← decide_not]
    by_cases hk : k.toNat ≤ j
    · rw [decide_eq_true hk, decide_eq_true (not_lt.mpr hk), getLsbD_word a (by omega)]
      rfl
    · rw [decide_eq_false hk, decide_eq_false (by omega)]
      rfl

theorem shr_spec (hn : WidthOk n) (a : LimbArray n) (k : UInt32) :
    ∃ r, a.shr k = .ret r ∧ r.word = a.word >>> k.toNat := by
  obtain ⟨r, hrun, hlen, hbits⟩ := fillLimbs_bits (shrLimb a.1 k) (zero (n := n)).1
    (fun j => (limbsVal a.1).testBit (j + k.toNat))
    fun i _ => shrLimb_bits a.1 k i
  refine ⟨⟨r, hlen.trans zero.2⟩, ?_, word_eq hn fun j hj => ?_⟩
  · have hrun' : limbsShr (zero (n := n)).1 a.1 k = .ret r := hrun
    simp only [shr, Exec.attach_of_eq hrun', Exec.ret_bind, Exec.pure_eq]
  · rw [zero.2] at hbits
    refine (hbits j hj).trans ?_
    rw [BitVec.getLsbD_ushiftRight, Nat.add_comm]
    by_cases hlt : k.toNat + j < n
    · exact (getLsbD_word a hlt).symm
    · rw [BitVec.getLsbD_of_ge _ _ (by omega)]
      exact Nat.testBit_lt_two_pow (lt_of_lt_of_le (a.val_lt hn)
        (Nat.pow_le_pow_right (by omega) (by omega)))

/-- The fill limb repeats the sign bit. -/
theorem sar_fill (hn : WidthOk n) (a : LimbArray n) :
    ∃ s, limbsSign a.1 = .ret s ∧
      ∀ b < 32, (if s = 1 then (0xFFFFFFFF : UInt32) else 0).toNat.testBit b = a.word.msb := by
  obtain ⟨s, hs, hsign⟩ := a.sign_spec hn
  refine ⟨s, hs, fun b hb => ?_⟩
  have hmsb : a.word.msb = true ↔ s = 1 := by
    rw [BitVec.msb_eq_true_iff_two_mul_ge, word_toNat hn, hsign]
  by_cases h1 : s = 1
  · rw [if_pos h1, hmsb.mpr h1]
    have hones : (0xFFFFFFFF : UInt32).toNat = 2 ^ 32 - 1 := rfl
    rw [hones, Nat.testBit_two_pow_sub_one, decide_eq_true hb]
  · rw [if_neg h1, Bool.eq_false_iff.mpr fun h => h1 (hmsb.mp h)]
    exact Nat.zero_testBit b

theorem sar_spec (hn : WidthOk n) (a : LimbArray n) (k : UInt32) :
    ∃ r, a.sar k = .ret r ∧ r.word = a.word.sshiftRight k.toNat := by
  obtain ⟨s, hs, hfill⟩ := sar_fill hn a
  obtain ⟨r, hrun, hlen, hbits⟩ := fillLimbs_bits
    (sarLimb a.1 (if s = 1 then 0xFFFFFFFF else 0) k) (zero (n := n)).1
    (fun j => if j + k.toNat < 32 * a.1.length then (limbsVal a.1).testBit (j + k.toNat)
      else a.word.msb)
    fun i _ => sarLimb_bits a.1 hfill k i
  refine ⟨⟨r, hlen.trans zero.2⟩, ?_, word_eq hn fun j hj => ?_⟩
  · have hrun' : limbsSar (zero (n := n)).1 a.1 k = .ret r := by
      simp only [limbsSar, hs, Exec.ret_bind, hrun]
    simp only [sar, Exec.attach_of_eq hrun', Exec.ret_bind, Exec.pure_eq]
  · rw [zero.2] at hbits
    refine (hbits j hj).trans ?_
    rw [bits_eq hn] at hj
    rw [a.2, bits_eq hn, BitVec.getLsbD_sshiftRight, decide_eq_false (not_le.mpr hj),
      Bool.not_false, Bool.true_and, Nat.add_comm]
    split_ifs with hlt
    · exact (getLsbD_word a hlt).symm
    · rfl

end LimbArray

namespace Uwide
variable {n : ℕ}

def shl (a : Uwide n) (k : UInt32) : Exec (Uwide n) := do
  let r ← a.limbs.shl k
  return ⟨r, a.width⟩

def shr (a : Uwide n) (k : UInt32) : Exec (Uwide n) := do
  let r ← a.limbs.shr k
  return ⟨r, a.width⟩

end Uwide

namespace Iwide
variable {n : ℕ}

def shl (a : Iwide n) (k : UInt32) : Exec (Iwide n) := do
  let r ← a.limbs.shl k
  return ⟨r, a.width⟩

def shr (a : Iwide n) (k : UInt32) : Exec (Iwide n) := do
  let r ← a.limbs.sar k
  return ⟨r, a.width⟩

theorem toInt_word (a : Iwide n) : a.toInt = a.limbs.word.toInt :=
  (BitVec.toInt_ofNat' a.limbs.val).symm

end Iwide

namespace Iwide
variable {n : ℕ}

/-- Past the width only the sign is left. -/
theorem floor_sign (a : Iwide n) {k : ℕ} (hk : n ≤ k) :
    a.toInt / 2 ^ k = if a.toInt < 0 then -1 else 0 := by
  have habs := a.two_mul_natAbs_le
  have hpow : 2 ^ n ≤ 2 ^ k := Nat.pow_le_pow_right (by omega) hk
  have hcast : (2 : ℤ) ^ k = ((2 ^ k : ℕ) : ℤ) := by push_cast; rfl
  have hpos : 0 < 2 ^ n := by positivity
  rw [hcast]
  split_ifs with hneg
  · exact Int.ediv_eq_neg_one_of_neg_of_le hneg (by omega)
  · exact Int.ediv_eq_zero_of_lt (by omega) (by omega)

end Iwide

/-- Shifts multiply by a power of two and wrap, or divide by it and round down, at every count: no
limb outside the array is read, which would abort. -/
theorem shifts_exact {n : ℕ} (a : Uwide n) (s : Iwide n) (k : UInt32) :
    (∃ r, a.shl k = .ret r ∧ r.toNat = a.toNat * 2 ^ k.toNat % 2 ^ n) ∧
    (∃ r, a.shr k = .ret r ∧ r.toNat = a.toNat / 2 ^ k.toNat) ∧
    (∃ r, s.shl k = .ret r ∧ r.toInt = (s.toInt * 2 ^ k.toNat).bmod (2 ^ n)) ∧
    ∃ r, s.shr k = .ret r ∧ r.toInt = s.toInt / 2 ^ k.toNat ∧
      (n ≤ k.toNat → r.toInt = if s.toInt < 0 then -1 else 0) := by
  refine ⟨?_, ?_, ?_, ?_⟩
  · obtain ⟨r, hrun, hr⟩ := a.limbs.shl_spec a.width k
    refine ⟨⟨r, a.width⟩, by simp only [Uwide.shl, hrun, Exec.ret_bind, Exec.pure_eq], ?_⟩
    change r.val = a.limbs.val * _ % _
    rw [← LimbArray.word_toNat a.width r, hr, BitVec.toNat_shiftLeft, Nat.shiftLeft_eq,
      LimbArray.word_toNat a.width]
  · obtain ⟨r, hrun, hr⟩ := a.limbs.shr_spec a.width k
    refine ⟨⟨r, a.width⟩, by simp only [Uwide.shr, hrun, Exec.ret_bind, Exec.pure_eq], ?_⟩
    change r.val = a.limbs.val / _
    rw [← LimbArray.word_toNat a.width r, hr, BitVec.toNat_ushiftRight, Nat.shiftRight_eq_div_pow,
      LimbArray.word_toNat a.width]
  · obtain ⟨r, hrun, hr⟩ := s.limbs.shl_spec s.width k
    refine ⟨⟨r, s.width⟩, by simp only [Iwide.shl, hrun, Exec.ret_bind, Exec.pure_eq], ?_⟩
    rw [Iwide.toInt_word, Iwide.toInt_word]
    change r.word.toInt = _
    rw [hr, BitVec.toInt_eq_toNat_bmod, BitVec.toInt_eq_toNat_bmod, BitVec.toNat_shiftLeft,
      Nat.shiftLeft_eq, Int.natCast_mod, Int.emod_bmod, Int.bmod_mul_bmod]
    push_cast
    rfl
  · obtain ⟨r, hrun, hr⟩ := s.limbs.sar_spec s.width k
    have hfloor : (⟨r, s.width⟩ : Iwide n).toInt = s.toInt / 2 ^ k.toNat := by
      rw [Iwide.toInt_word, Iwide.toInt_word]
      change r.word.toInt = _
      rw [hr, BitVec.toInt_sshiftRight, Int.shiftRight_eq_div_pow]
      push_cast
      rfl
    refine ⟨⟨r, s.width⟩, by simp only [Iwide.shr, hrun, Exec.ret_bind, Exec.pure_eq], hfloor, ?_⟩
    exact fun hk => hfloor.trans (Iwide.floor_sign s hk)

end FcLang.Wideint
