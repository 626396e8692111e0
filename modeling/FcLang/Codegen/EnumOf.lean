import FcLang.Facts.Values
import FcLang.Pass1.EnumValues

/-!
# Membership in an enum

`enum_of(E, x)` calls one of two helpers, for `int64_t` and for `uint64_t`. One of them
switches over the values of the variants, the other one clamps and calls it.
-/

namespace FcLang.Codegen
open Pass1 (EnumVariant EnumDecl widthMask bitsValue resolveEnumValues declared)

def int64 : Format := ⟨64, true⟩

def uint64 : Format := ⟨64, false⟩

def signedWidth : IntTy → ℕ
  | .int8 => 8
  | .int16 => 16
  | .int32 => 32
  | _ => 64

/-- The value of a variant's bits in a signed repr. -/
def enumBitsSigned (t : IntTy) (bits : UInt64) : ℤ :=
  let mask := widthMask (signedWidth t)
  int64.wrap (if bits > mask >>> 1 then bits ||| ~~~mask else bits).toNat

/-- The label that the `int64_t` helper of an enum has for a variant. -/
def signedLabel (t : IntTy) (v : EnumVariant) : ℤ :=
  if t.signed then enumBitsSigned t v.valueBits else int64.wrap v.valueBits.toNat

def switchSigned (e : EnumDecl) (v : ℤ) : Option ℤ :=
  if v ∈ e.variants.map (signedLabel e.reprTy) then some (e.reprTy.wrap v) else none

def switchUnsigned (e : EnumDecl) (v : ℤ) : Option ℤ :=
  if v ∈ e.variants.map (fun w => (w.valueBits.toNat : ℤ)) then some (e.reprTy.wrap v) else none

/-- The helper on an `int64_t`. -/
def enumOfI (e : EnumDecl) (v : ℤ) : Option ℤ :=
  if e.reprTy ≠ .uint64 then switchSigned e v
  else if v < 0 then none else switchUnsigned e (uint64.wrap v)

/-- The helper on a `uint64_t`. -/
def enumOfU (e : EnumDecl) (v : ℤ) : Option ℤ :=
  if e.reprTy ≠ .uint64 then if v > 2 ^ 63 - 1 then none else switchSigned e (int64.wrap v)
  else switchUnsigned e v

/-- `enum_of(E, x)` on an operand of the type `ot`. -/
def enumOf (e : EnumDecl) (ot : Facts.IntTy) (x : ℤ) : Option ℤ :=
  if ot = .fixed .uint64 ∨ ot = .usize then enumOfU e (uint64.wrap x)
  else enumOfI e (int64.wrap x)

/-- Sign bits above the width are those of the value minus a power of two. -/
theorem or_not_mask {bits : UInt64} {w : ℕ} (hw : w ≤ 64) (h : bits.toNat < 2 ^ w)
    {mask : UInt64} (hmask : mask.toNat = 2 ^ w - 1) :
    (bits ||| ~~~mask).toNat = bits.toNat + (2 ^ 64 - 2 ^ w) := by
  have hpow : 2 ^ 64 = 2 ^ w * 2 ^ (64 - w) := by rw [← pow_add, Nat.add_sub_cancel' hw]
  have hpos : 0 < 2 ^ w := by positivity
  have hnot : (~~~mask).toNat = 2 ^ w * (2 ^ (64 - w) - 1) := by
    rw [Nat.mul_sub_one, ← hpow, UInt64.toNat_not, hmask]
    have : 2 ^ w ≤ 2 ^ 64 := Nat.pow_le_pow_right (by norm_num) hw
    change 2 ^ 64 - 1 - (2 ^ w - 1) = _
    omega
  rw [UInt64.toNat_or, hnot, Nat.lor_comm, ← Nat.two_pow_add_eq_or_of_lt h, Nat.mul_sub_one,
    ← hpow, Nat.add_comm]

theorem signedWidth_eq {t : IntTy} (ht : t.signed = true) : signedWidth t = t.bits := by
  cases t <;> first | rfl | cases ht

theorem fits_int64 {t : IntTy} (ht : t.signed = true) {z : ℤ} (h : t.Fits z) : int64.Fits z :=
  Format.Fits.mono h ht (by cases t <;> decide)

theorem enumBitsSigned_eq {t : IntTy} (ht : t.signed = true) {bits : UInt64}
    (h : bits.toNat < 2 ^ t.bits) : enumBitsSigned t bits = bitsValue t bits := by
  have hform : enumBitsSigned t bits = int64.wrap
      (if bits > Pass1.maxPos t then bits ||| ~~~Pass1.reprMask t else bits).toNat := by
    have hmax : Pass1.maxPos t = Pass1.reprMask t >>> 1 := if_pos ht
    rw [enumBitsSigned, hmax, signedWidth_eq ht]
    rfl
  obtain ⟨hmin, hmax⟩ := Pass1.limits_signed ht
  have hbits : t.bits ≤ 64 ∧ 0 < t.bits := by cases t <;> decide
  have htwo : 2 ^ t.bits = 2 * 2 ^ (t.bits - 1) := by
    rw [← pow_succ', Nat.sub_add_cancel hbits.2]
  rw [hform]
  split_ifs with hlarge
  · have hlarge : (Pass1.maxPos t).toNat < bits.toNat := UInt64.lt_iff_toNat_lt.mp hlarge
    have hpow : 2 ^ t.bits ≤ 2 ^ 64 := Nat.pow_le_pow_right (by norm_num) hbits.1
    have hfits : t.Fits (bits.toNat - 2 ^ t.bits) := by
      have hcast : (2 : ℤ) ^ t.bits = ((2 ^ t.bits : ℕ) : ℤ) := by push_cast; rfl
      rw [Pass1.fits_iff, hcast]
      omega
    have hvalue : bitsValue t bits = bits.toNat - 2 ^ t.bits := by
      refine Pass1.bitsValue_of_modEq hfits (Int.modEq_iff_dvd.mpr ⟨-1, ?_⟩)
      ring
    rw [hvalue, or_not_mask hbits.1 h (Pass1.reprMask_toNat t),
      ← Format.wrap_of_fits (by decide) (fits_int64 ht hfits)]
    refine Format.wrap_congr (Int.modEq_iff_dvd.mpr ⟨-1, ?_⟩)
    rw [Nat.cast_add, Nat.cast_sub hpow]
    change (bits.toNat : ℤ) - 2 ^ t.bits - (bits.toNat + (((2 ^ 64 : ℕ) : ℤ) - (2 ^ t.bits : ℕ))) =
      2 ^ 64 * -1
    push_cast
    ring
  · have hsmall : bits.toNat ≤ (Pass1.maxPos t).toNat :=
      UInt64.le_iff_toNat_le.mp (UInt64.not_lt.mp hlarge)
    have hfits : t.Fits bits.toNat := (Pass1.fits_iff t _).mpr (by omega)
    rw [bitsValue, IntTy.wrap_of_fits hfits,
      Format.wrap_of_fits (by decide) (fits_int64 ht hfits)]

theorem signedLabel_eq {t : IntTy} (ht : t ≠ .uint64) {v : EnumVariant}
    (h : v.valueBits.toNat < 2 ^ t.bits) : signedLabel t v = bitsValue t v.valueBits := by
  unfold signedLabel
  split_ifs with hs
  · exact enumBitsSigned_eq hs h
  · have hs : t.signed = false := by simpa using hs
    have hfits : t.Fits v.valueBits.toNat := by
      obtain ⟨hmin, hmax⟩ := Pass1.limits_unsigned hs
      rw [Pass1.fits_iff]
      omega
    have hbits : t.format.bits < 64 := by
      revert ht hs
      cases t <;> decide
    rw [bitsValue, IntTy.wrap_of_fits hfits,
      Format.wrap_of_fits (by decide) (hfits.mono_signed hs rfl hbits)]

/-- What a declaration has after its values were resolved. -/
structure Numbered (e : EnumDecl) : Prop where
  fits : ∀ x ∈ e.values, e.reprTy.Fits x
  bounded : ∀ v ∈ e.variants, v.valueBits.toNat < 2 ^ e.reprTy.bits

/-- The value of the enum that an integer is. -/
def member (e : EnumDecl) (x : ℤ) : Option ℤ := if x ∈ e.values then some x else none

section Helpers
variable {e : EnumDecl} {x : ℤ}

theorem switch_eq (h : Numbered e) {labels : List ℤ} (hlabels : labels = e.values) :
    (if x ∈ labels then some (e.reprTy.wrap x) else none) = member e x := by
  unfold member
  rw [hlabels]
  split_ifs with hx
  · rw [IntTy.wrap_of_fits (h.fits x hx)]
  · rfl

theorem switchSigned_eq (h : Numbered e) (hrepr : e.reprTy ≠ .uint64) :
    switchSigned e x = member e x :=
  switch_eq h (List.map_congr_left fun v hv => signedLabel_eq hrepr (h.bounded v hv))

theorem switchUnsigned_eq (h : Numbered e) (hrepr : e.reprTy = .uint64) :
    switchUnsigned e x = member e x := by
  refine switch_eq h (List.map_congr_left fun v hv => ?_)
  have hfits : e.reprTy.Fits v.valueBits.toNat := by
    have := h.bounded v hv
    rw [hrepr] at this ⊢
    exact (Format.fits_unsigned rfl).mpr ⟨Int.natCast_nonneg _, by exact_mod_cast this⟩
  exact (IntTy.wrap_of_fits hfits).symm

theorem member_eq_none (h : Numbered e) (hx : ¬e.reprTy.Fits x) : member e x = none :=
  if_neg fun hmem => hx (h.fits x hmem)

theorem enumOfI_eq (h : Numbered e) (hx : int64.Fits x) : enumOfI e x = member e x := by
  have hbounds := (Format.fits_signed rfl).mp hx
  change -2 ^ 63 ≤ x ∧ x < 2 ^ 63 at hbounds
  unfold enumOfI
  split_ifs with hrepr hneg
  · exact switchSigned_eq h hrepr
  · refine (member_eq_none h fun hfits => ?_).symm
    rw [not_not.mp hrepr] at hfits
    exact absurd ((Format.fits_unsigned rfl).mp hfits).1 (by omega)
  · have hwide : uint64.Fits x := by
      refine (Format.fits_unsigned rfl).mpr ?_
      change 0 ≤ x ∧ x < 2 ^ 64
      omega
    rw [Format.wrap_of_fits (by decide) hwide]
    exact switchUnsigned_eq h (not_not.mp hrepr)

theorem enumOfU_eq (h : Numbered e) (hx : uint64.Fits x) : enumOfU e x = member e x := by
  have hbounds := (Format.fits_unsigned rfl).mp hx
  change 0 ≤ x ∧ x < 2 ^ 64 at hbounds
  unfold enumOfU
  split_ifs with hrepr hlarge
  · refine (member_eq_none h fun hfits => ?_).symm
    have hwide : int64.Fits x := by
      cases hs : e.reprTy.signed with
      | true => exact fits_int64 hs hfits
      | false =>
        refine hfits.mono_signed hs rfl ?_
        revert hrepr hs
        cases e.reprTy <;> decide
    have hmax := ((Format.fits_signed rfl).mp hwide).2
    change x < 2 ^ 63 at hmax
    omega
  · have hwide : int64.Fits x := by
      refine (Format.fits_signed rfl).mpr ?_
      change -2 ^ 63 ≤ x ∧ x < 2 ^ 63
      omega
    rw [Format.wrap_of_fits (by decide) hwide]
    exact switchSigned_eq h hrepr
  · exact switchUnsigned_eq h (not_not.mp hrepr)

/-- The operand passes to the helper unchanged. -/
theorem enumOf_eq (h : Numbered e) {T : Facts.Target} (hT : T.pointerBits ≤ 64)
    {ot : Facts.IntTy} (hx : (ot.format T).Fits x) : enumOf e ot x = member e x := by
  unfold enumOf
  split_ifs with hwide
  · have hfits : uint64.Fits x := by
      obtain rfl | rfl := hwide
      · exact hx
      · exact hx.mono rfl hT
    rw [Format.wrap_of_fits (by decide) hfits]
    exact enumOfU_eq h hfits
  · have hfits : int64.Fits x := by
      rw [not_or] at hwide
      cases ot with
      | fixed t =>
        have ht : t ≠ .uint64 := fun heq => hwide.1 (by rw [heq])
        cases hs : t.signed with
        | true => exact fits_int64 hs hx
        | false =>
          refine Format.Fits.mono_signed hx hs rfl ?_
          change t.bits < 64
          revert ht hs
          clear hx hwide
          cases t <;> decide
      | isize => exact hx.mono rfl hT
      | usize => exact absurd rfl hwide.2
    rw [Format.wrap_of_fits (by decide) hfits]
    exact enumOfI_eq h hfits

end Helpers

/-- A declaration that nothing is reported of declares distinct values of its repr, one of
them 0, and `enum_of` finds a value exactly where it is the value of a variant. -/
theorem enumOf_resolved {d : EnumDecl} (hfresh : d.valuesResolved = false)
    (h : (resolveEnumValues d).2 = []) {T : Facts.Target} (hT : T.pointerBits ≤ 64) :
    ((resolveEnumValues d).1.values = declared none d.variants ∧
      (declared none d.variants).Pairwise (· ≠ ·) ∧
      (∀ x ∈ declared none d.variants, d.reprTy.Fits x) ∧ 0 ∈ declared none d.variants) ∧
    ∀ (ot : Facts.IntTy) (x : ℤ), (ot.format T).Fits x → ∀ v,
      enumOf (resolveEnumValues d).1 ot x = some v ↔
        v = x ∧ ∃ w ∈ (resolveEnumValues d).1.variants,
          bitsValue (resolveEnumValues d).1.reprTy w.valueBits = x := by
  obtain ⟨hvalues, hrepr, hfits, hpairs, hzero, hbounded⟩ :=
    Pass1.resolveEnumValues_values hfresh h
  have hnumbered : Numbered (resolveEnumValues d).1 := by
    constructor <;> rw [hrepr] <;> assumption
  refine ⟨⟨hvalues, hvalues ▸ hpairs, hvalues ▸ hfits, hvalues ▸ hzero⟩, fun ot x hx v => ?_⟩
  rw [enumOf_eq hnumbered hT hx, member, ← List.mem_map]
  change _ ↔ v = x ∧ x ∈ (resolveEnumValues d).1.values
  split_ifs with hmem
  · rw [Option.some.injEq, eq_comm]
    exact (and_iff_left hmem).symm
  · simp [hmem]

/-- `enum e of i8 = | a = -1 | b`, where `b` is 0 across the wrap of the bits. -/
theorem enumOf_resolved_int8 :
    let d : EnumDecl := ⟨"e", some .int8, [⟨"a", true, true, 1⟩, ⟨"b", false, false, 0⟩], false⟩
    enumOf (resolveEnumValues d).1 (.fixed .int64) (-1) = some (-1) := by
  refine ((enumOf_resolved (T := ⟨64, by decide⟩) rfl rfl le_rfl).2 _ _ (by decide) _).mpr ⟨rfl, ?_⟩
  exact ⟨_, List.mem_cons_self, by decide⟩

end FcLang.Codegen
