import FcLang.Codegen.IntExpr

/-!
# The values of an enum

Pass1 numbers the variants of an enum and keeps each value as bits truncated to the
width of the repr. A value that does not fit is reported, as are two variants of one
name or of one value and an enum without a zero.
-/

namespace FcLang.Pass1
open Codegen (IntTy)

structure EnumVariant where
  name : String
  hasExplicit : Bool
  negative : Bool
  valueBits : UInt64

structure EnumDecl where
  name : String
  repr : Option IntTy
  variants : List EnumVariant
  valuesResolved : Bool

def reprName : IntTy → String
  | .int8 => "i8"
  | .int16 => "i16"
  | .int32 => "i32"
  | .int64 => "i64"
  | .uint8 => "u8"
  | .uint16 => "u16"
  | .uint32 => "u32"
  | .uint64 => "u64"

/-- The bits of a width. -/
def widthMask (w : ℕ) : UInt64 :=
  if w = 64 then 0xFFFFFFFFFFFFFFFF else 1 <<< UInt64.ofNat w - 1

def reprMask (t : IntTy) : UInt64 := widthMask t.bits

/-- The largest positive value. -/
def maxPos (t : IntTy) : UInt64 := if t.signed then reprMask t >>> 1 else reprMask t

/-- The magnitude of the most negative value. -/
def minMag (t : IntTy) : UInt64 := if t.signed then (reprMask t >>> 1) + 1 else 0

def enumValStr (t : IntTy) (bits : UInt64) : String :=
  if t.signed ∧ bits > reprMask t >>> 1 then "-" ++ toString ((reprMask t - bits) + 1).toNat
  else toString bits.toNat

def doesNotFit (t : IntTy) (negative : Bool) (mag : UInt64) : String :=
  "enum value " ++ (if negative then "-" else "") ++ toString mag.toNat ++ " does not fit repr " ++
    reprName t

/-- The bits of a variant behind one whose bits are `prev`, and what is reported of it. -/
def variantBits (t : IntTy) (prev : Option UInt64) (v : EnumVariant) : UInt64 × Option String :=
  if v.hasExplicit then
    let mag := v.valueBits
    if v.negative ∧ mag > 0 then
      if ¬t.signed then (0, some (doesNotFit t true mag))
      else if mag > minMag t then (0, some (doesNotFit t true mag))
      else ((0 - mag) &&& reprMask t, none)
    else if mag > maxPos t then (0, some (doesNotFit t false mag))
    else (mag &&& reprMask t, none)
  else
    match prev with
    | none => (0, none)
    | some prev =>
      if prev = maxPos t then
        (0, some ("enum value for '" ++ v.name ++ "' overflows repr " ++ reprName t ++
          " (previous variant holds the largest " ++ reprName t ++ " value)"))
      else ((prev + 1) &&& reprMask t, none)

/-- The variants with their bits, each with what was reported of its value. -/
def resolveBits (t : IntTy) (prev : Option UInt64) :
    List EnumVariant → List (EnumVariant × Option String)
  | [] => []
  | v :: variants =>
    let r := variantBits t prev v
    ({ v with valueBits := r.1 }, r.2) :: resolveBits t (some r.1) variants

/-- What is reported of a variant and an earlier one. -/
def clash (t : IntTy) (ename : String) (vi vj : EnumVariant) : Option String :=
  if vi.name = vj.name then
    some ("duplicate variant name '" ++ vi.name ++ "' in enum '" ++ ename ++ "'")
  else if vi.valueBits = vj.valueBits then
    some ("duplicate value " ++ enumValStr t vi.valueBits ++ " in enum '" ++ ename ++
      "': variants '" ++ vj.name ++ "' and '" ++ vi.name ++ "'")
  else none

/-- Variants that something was reported of are not compared. -/
def duplicates (t : IntTy) (ename : String) (earlier : List EnumVariant) :
    List (EnumVariant × Option String) → List String
  | [] => []
  | (v, none) :: rest =>
    earlier.filterMap (clash t ename v) ++ duplicates t ename (earlier ++ [v]) rest
  | (_, some _) :: rest => duplicates t ename earlier rest

def resolveEnumValues (d : EnumDecl) : EnumDecl × List String :=
  if d.valuesResolved then (d, [])
  else
    let t := d.repr.getD .int32
    let d := { d with valuesResolved := true, repr := some t }
    if d.variants = [] then
      (d, ["enum '" ++ d.name ++ "' must declare at least one variant"])
    else
      let rs := resolveBits t none d.variants
      let zero := if rs.any fun r => r.1.valueBits = 0 then [] else
        ["enum '" ++ d.name ++ "' must have a variant with value 0 " ++
          "(zero-filled memory must be a valid value; default(" ++ d.name ++
          ") is that variant)"]
      ({ d with variants := rs.map Prod.fst },
        rs.filterMap Prod.snd ++ duplicates t d.name [] rs ++ zero)

/-- The value of a variant as the declaration says it, behind one of value `prev`: what is
written, 0 for the first variant and the predecessor plus one for any other. -/
def EnumVariant.value (v : EnumVariant) (prev : Option ℤ) : ℤ :=
  if v.hasExplicit then
    if v.negative then -(v.valueBits.toNat : ℤ) else v.valueBits.toNat
  else (prev.map (· + 1)).getD 0

def declared (prev : Option ℤ) : List EnumVariant → List ℤ
  | [] => []
  | v :: variants => v.value prev :: declared (some (v.value prev)) variants

/-- The value that bits stand for in the repr. -/
def bitsValue (t : IntTy) (bits : UInt64) : ℤ := t.wrap bits.toNat

section Repr
variable {t : IntTy}

theorem reprMask_toNat (t : IntTy) : (reprMask t).toNat = 2 ^ t.bits - 1 := by
  cases t <;> rfl

theorem and_reprMask (t : IntTy) (x : UInt64) : (x &&& reprMask t).toNat = x.toNat % 2 ^ t.bits := by
  rw [UInt64.toNat_and, reprMask_toNat, Nat.and_two_pow_sub_one_eq_mod]

theorem limits_signed (h : t.signed = true) :
    (minMag t).toNat = 2 ^ (t.bits - 1) ∧ (maxPos t).toNat + 1 = 2 ^ (t.bits - 1) := by
  revert h
  cases t <;> decide

theorem limits_unsigned (h : t.signed = false) :
    (minMag t).toNat = 0 ∧ (maxPos t).toNat + 1 = 2 ^ t.bits := by
  revert h
  cases t <;> decide

/-- The limits are those of the repr. -/
theorem fits_iff (t : IntTy) (z : ℤ) :
    t.Fits z ↔ -((minMag t).toNat : ℤ) ≤ z ∧ z ≤ (maxPos t).toNat := by
  cases h : t.signed with
  | true =>
    obtain ⟨hmin, hmax⟩ := limits_signed h
    have hmax : ((maxPos t).toNat : ℤ) + 1 = 2 ^ (t.bits - 1) := by exact_mod_cast hmax
    have hfits := @Format.fits_signed t.format z h
    change t.Fits z ↔ -2 ^ (t.bits - 1) ≤ z ∧ z < 2 ^ (t.bits - 1) at hfits
    rw [hfits, hmin, ← hmax]
    push_cast
    rw [← hmax]
    omega
  | false =>
    obtain ⟨hmin, hmax⟩ := limits_unsigned h
    have hmax : ((maxPos t).toNat : ℤ) + 1 = 2 ^ t.bits := by exact_mod_cast hmax
    have hfits := @Format.fits_unsigned t.format z h
    change t.Fits z ↔ 0 ≤ z ∧ z < 2 ^ t.bits at hfits
    rw [hfits, hmin, ← hmax]
    omega

theorem maxPos_lt (t : IntTy) : (maxPos t).toNat < 2 ^ t.bits := by
  cases t <;> decide

theorem bits_dvd (t : IntTy) : (2 : ℤ) ^ t.bits ∣ 2 ^ 64 := by
  cases t <;> decide

/-- Bits with a value of the repr modulo its width stand for that value. -/
theorem bitsValue_of_modEq {bits : UInt64} {z : ℤ} (hz : t.Fits z)
    (h : (bits.toNat : ℤ) ≡ z [ZMOD 2 ^ t.bits]) : bitsValue t bits = z :=
  (Format.wrap_congr h).trans (IntTy.wrap_of_fits hz)

theorem and_reprMask_modEq (t : IntTy) (x : UInt64) :
    ((x &&& reprMask t).toNat : ℤ) ≡ x.toNat [ZMOD 2 ^ t.bits] := by
  rw [and_reprMask]
  push_cast
  exact Int.mod_modEq _ _

/-- The most a repr holds has the bits of its largest value only. -/
theorem bits_of_max {bits : UInt64} (hlt : bits.toNat < 2 ^ t.bits)
    (h : bitsValue t bits = (maxPos t).toNat) : bits = maxPos t := by
  apply UInt64.toNat_inj.mp
  have hmod : (bits.toNat : ℤ) ≡ (maxPos t).toNat [ZMOD 2 ^ t.bits] := by
    have hwrap := t.format.wrap_modEq bits.toNat
    rw [← h]
    exact hwrap.symm
  have hnat : bits.toNat ≡ (maxPos t).toNat [MOD 2 ^ t.bits] := by
    apply (Int.natCast_modEq_iff).mp
    push_cast
    exact hmod
  rwa [Nat.ModEq, Nat.mod_eq_of_lt hlt, Nat.mod_eq_of_lt (maxPos_lt t)] at hnat

/-- The ways to have bits that nothing is reported of. -/
theorem variantBits_cases {prev : Option UInt64} {v : EnumVariant} {bits : UInt64}
    (h : variantBits t prev v = (bits, none)) :
    (v.hasExplicit = true ∧ v.negative = true ∧ v.valueBits.toNat ≤ (minMag t).toNat ∧
        bits = (0 - v.valueBits) &&& reprMask t) ∨
      (v.hasExplicit = true ∧ (v.negative = true → v.valueBits.toNat = 0) ∧
        v.valueBits.toNat ≤ (maxPos t).toNat ∧ bits = v.valueBits &&& reprMask t) ∨
      (v.hasExplicit = false ∧ prev = none ∧ bits = 0) ∨
      (v.hasExplicit = false ∧ ∃ p, prev = some p ∧ p ≠ maxPos t ∧
        bits = (p + 1) &&& reprMask t) := by
  unfold variantBits at h
  dsimp only at h
  by_cases hexplicit : v.hasExplicit = true
  · rw [if_pos hexplicit] at h
    by_cases hneg : v.negative = true ∧ v.valueBits > 0
    · rw [if_pos hneg] at h
      split_ifs at h with hsigned hmag <;> cases h
      exact .inl ⟨hexplicit, hneg.1, UInt64.le_iff_toNat_le.mp (UInt64.not_lt.mp hmag), rfl⟩
    · rw [if_neg hneg] at h
      split_ifs at h with hmag <;> cases h
      refine .inr (.inl ⟨hexplicit, fun hn => ?_, ?_, rfl⟩)
      · have hzero := UInt64.le_iff_toNat_le.mp (UInt64.not_lt.mp fun hgt => hneg ⟨hn, hgt⟩)
        exact Nat.le_zero.mp hzero
      · exact UInt64.le_iff_toNat_le.mp (UInt64.not_lt.mp hmag)
  · rw [if_neg hexplicit] at h
    have hexplicit : v.hasExplicit = false := by simpa using hexplicit
    cases prev with
    | none =>
      cases h
      exact .inr (.inr (.inl ⟨hexplicit, rfl, rfl⟩))
    | some p =>
      dsimp only at h
      split_ifs at h with hmax <;> cases h
      exact .inr (.inr (.inr ⟨hexplicit, p, rfl, hmax, rfl⟩))

/-- What a variant's bits stand for, if nothing is reported of them. -/
theorem variantBits_value {prev : Option UInt64} {v : EnumVariant} {bits : UInt64}
    (hprev : ∀ p ∈ prev, p.toNat < 2 ^ t.bits) (h : variantBits t prev v = (bits, none)) :
    bits.toNat < 2 ^ t.bits ∧ bitsValue t bits = v.value (prev.map (bitsValue t)) := by
  have hpos : 0 < 2 ^ t.bits := by positivity
  have hmask : ∀ x : UInt64, (x &&& reprMask t).toNat < 2 ^ t.bits := by
    intro x
    rw [and_reprMask]
    exact Nat.mod_lt _ hpos
  unfold EnumVariant.value
  obtain ⟨hexplicit, hneg, hmag, rfl⟩ | ⟨hexplicit, hneg, hmag, rfl⟩ | ⟨hexplicit, rfl, rfl⟩ |
    ⟨hexplicit, p, rfl, hmax, rfl⟩ := variantBits_cases h
  · rw [if_pos hexplicit, if_pos hneg]
    refine ⟨hmask _, bitsValue_of_modEq ((fits_iff t _).mpr (by omega)) ?_⟩
    refine (and_reprMask_modEq t _).trans (Int.ModEq.of_dvd (bits_dvd t) ?_)
    have hlt := v.valueBits.toNat_lt
    rw [UInt64.toNat_sub, Int.modEq_iff_dvd]
    have hzero : (0 : UInt64).toNat = 0 := rfl
    rw [hzero]
    omega
  · refine ⟨hmask _, ?_⟩
    have hvalue : bitsValue t (v.valueBits &&& reprMask t) = v.valueBits.toNat :=
      bitsValue_of_modEq ((fits_iff t _).mpr (by omega)) (and_reprMask_modEq t _)
    rw [hvalue, if_pos hexplicit]
    split_ifs with hn
    · have := hneg hn
      omega
    · rfl
  · rw [if_neg (by simp [hexplicit])]
    exact ⟨hpos, IntTy.wrap_of_fits t.fits_zero⟩
  · rw [if_neg (by simp [hexplicit])]
    refine ⟨hmask _, bitsValue_of_modEq ?_ ?_⟩
    · have hfits := (fits_iff t _).mp (t.fits_wrap p.toNat)
      have hne : bitsValue t p ≠ (maxPos t).toNat :=
        fun heq => hmax (bits_of_max (hprev p rfl) heq)
      have hmax := hfits.2
      rw [fits_iff]
      change _ ≤ bitsValue t p + 1 ∧ bitsValue t p + 1 ≤ _
      have hlo : -((minMag t).toNat : ℤ) ≤ bitsValue t p := hfits.1
      have hhi : bitsValue t p ≤ (maxPos t).toNat := hmax
      omega
    · have hsum : ((p + 1).toNat : ℤ) ≡ p.toNat + 1 [ZMOD 2 ^ t.bits] := by
        refine Int.ModEq.of_dvd (bits_dvd t) ?_
        rw [UInt64.toNat_add]
        push_cast
        exact Int.mod_modEq _ _
      have hp : (p.toNat : ℤ) ≡ bitsValue t p [ZMOD 2 ^ t.bits] :=
        (t.format.wrap_modEq p.toNat).symm
      exact ((and_reprMask_modEq t _).trans hsum).trans (hp.add_right 1)

/-- Bits within the width are told apart by their values. -/
theorem bitsValue_injective {a b : UInt64} (ha : a.toNat < 2 ^ t.bits) (hb : b.toNat < 2 ^ t.bits)
    (h : bitsValue t a = bitsValue t b) : a = b := by
  apply UInt64.toNat_inj.mp
  have hmod : (a.toNat : ℤ) ≡ b.toNat [ZMOD 2 ^ t.bits] := by
    have hwrap := (t.format.wrap_modEq a.toNat).symm
    change _ ≡ bitsValue t a [ZMOD 2 ^ t.bits] at hwrap
    rw [h] at hwrap
    exact hwrap.trans (t.format.wrap_modEq b.toNat)
  have hnat : a.toNat ≡ b.toNat [MOD 2 ^ t.bits] := by
    apply Int.natCast_modEq_iff.mp
    push_cast
    exact hmod
  rwa [Nat.ModEq, Nat.mod_eq_of_lt ha, Nat.mod_eq_of_lt hb] at hnat

theorem resolveBits_values (variants : List EnumVariant) :
    ∀ {prev : Option UInt64}, (∀ p ∈ prev, p.toNat < 2 ^ t.bits) →
      (∀ r ∈ resolveBits t prev variants, r.2 = none) →
      (resolveBits t prev variants).map (fun r => bitsValue t r.1.valueBits) =
          declared (prev.map (bitsValue t)) variants ∧
        ∀ r ∈ resolveBits t prev variants, r.1.valueBits.toNat < 2 ^ t.bits := by
  induction variants with
  | nil =>
    intro prev _ _
    exact ⟨rfl, by rintro r ⟨⟩⟩
  | cons v variants ih =>
    intro prev hprev hnone
    rw [resolveBits] at hnone ⊢
    obtain ⟨hhead, htail⟩ := List.forall_mem_cons.mp hnone
    obtain ⟨hlt, hvalue⟩ := variantBits_value hprev (Prod.ext rfl hhead)
    obtain ⟨hrest, hbounds⟩ := ih (by rintro p ⟨⟩; exact hlt) htail
    refine ⟨?_, List.forall_mem_cons.mpr ⟨hlt, hbounds⟩⟩
    rw [List.map_cons, hrest, declared]
    dsimp only
    rw [hvalue, Option.map_some, hvalue]

theorem clash_eq_none {ename : String} {vi vj : EnumVariant} (h : clash t ename vi vj = none) :
    vi.name ≠ vj.name ∧ vi.valueBits ≠ vj.valueBits := by
  unfold clash at h
  split_ifs at h with hname hbits
  exact ⟨hname, hbits⟩

theorem duplicates_eq_nil {ename : String} (rs : List (EnumVariant × Option String)) :
    ∀ {earlier : List EnumVariant}, (∀ r ∈ rs, r.2 = none) →
      duplicates t ename earlier rs = [] →
      (∀ a ∈ earlier, ∀ r ∈ rs, r.1.valueBits ≠ a.valueBits) ∧
        (rs.map Prod.fst).Pairwise fun a b => b.valueBits ≠ a.valueBits := by
  induction rs with
  | nil =>
    intro earlier _ _
    exact ⟨by rintro a - r ⟨⟩, List.Pairwise.nil⟩
  | cons r rs ih =>
    intro earlier hnone hdup
    obtain ⟨v, reported⟩ := r
    obtain ⟨hhead, htail⟩ := List.forall_mem_cons.mp hnone
    cases hhead
    rw [duplicates, List.append_eq_nil_iff, List.filterMap_eq_nil_iff] at hdup
    obtain ⟨hbefore, hpairs⟩ := ih htail hdup.2
    constructor
    · intro a ha
      refine List.forall_mem_cons.mpr ⟨(clash_eq_none (hdup.1 a ha)).2, fun r hr => ?_⟩
      exact hbefore a (List.mem_append_left _ ha) r hr
    · rw [List.map_cons, List.pairwise_cons]
      refine ⟨fun b hb => ?_, hpairs⟩
      obtain ⟨r, hr, rfl⟩ := List.mem_map.mp hb
      exact hbefore v (List.mem_append_right _ List.mem_cons_self) r hr

end Repr

/-- The type that the values of a declaration are kept in. -/
def EnumDecl.reprTy (d : EnumDecl) : IntTy := d.repr.getD .int32

/-- The values that the bits of the variants stand for. -/
def EnumDecl.values (d : EnumDecl) : List ℤ := d.variants.map fun v => bitsValue d.reprTy v.valueBits

/-- A declaration that nothing is reported of has the values it declares, each fits the repr,
no two are the same and one is 0. -/
theorem resolveEnumValues_values {d : EnumDecl} (hfresh : d.valuesResolved = false)
    (h : (resolveEnumValues d).2 = []) :
    (resolveEnumValues d).1.values = declared none d.variants ∧
      (resolveEnumValues d).1.reprTy = d.reprTy ∧
      (∀ x ∈ (resolveEnumValues d).1.values, d.reprTy.Fits x) ∧
      (resolveEnumValues d).1.values.Pairwise (· ≠ ·) ∧
      0 ∈ (resolveEnumValues d).1.values ∧
      ∀ v ∈ (resolveEnumValues d).1.variants, v.valueBits.toNat < 2 ^ d.reprTy.bits := by
  unfold resolveEnumValues at h ⊢
  rw [if_neg (by simp [hfresh])] at h ⊢
  dsimp only at h ⊢
  by_cases hempty : d.variants = []
  · rw [if_pos hempty] at h
    cases h
  rw [if_neg hempty] at h ⊢
  rw [List.append_eq_nil_iff, List.append_eq_nil_iff, List.filterMap_eq_nil_iff] at h
  obtain ⟨⟨hnone, hdup⟩, hzero⟩ := h
  obtain ⟨hvalues, hbounds⟩ := resolveBits_values d.variants (by rintro p ⟨⟩) hnone
  obtain ⟨-, hpairs⟩ := duplicates_eq_nil _ hnone hdup
  have hmap : EnumDecl.values
      { d with
        variants := (resolveBits d.reprTy none d.variants).map Prod.fst
        valuesResolved := true
        repr := some d.reprTy } = declared none d.variants := by
    rw [EnumDecl.values, List.map_map]
    exact hvalues
  refine ⟨hmap, rfl, ?_, ?_, ?_, ?_⟩
  · intro x hx
    obtain ⟨v, -, rfl⟩ := List.mem_map.mp hx
    exact d.reprTy.fits_wrap _
  · refine List.pairwise_map.mpr (hpairs.imp_of_mem ?_)
    intro a b ha hb hne heq
    obtain ⟨ra, hra, rfl⟩ := List.mem_map.mp ha
    obtain ⟨rb, hrb, rfl⟩ := List.mem_map.mp hb
    exact hne (bitsValue_injective (hbounds ra hra) (hbounds rb hrb) heq).symm
  · split_ifs at hzero with hany
    obtain ⟨r, hr, hbits⟩ := List.any_eq_true.mp hany
    have hbits : r.1.valueBits = 0 := by simpa using hbits
    refine List.mem_map.mpr ⟨r.1, List.mem_map.mpr ⟨r, hr, rfl⟩, ?_⟩
    rw [hbits]
    exact IntTy.wrap_of_fits (IntTy.fits_zero _)
  · intro v hv
    obtain ⟨r, hr, rfl⟩ := List.mem_map.mp hv
    exact hbounds r hr

end FcLang.Pass1
