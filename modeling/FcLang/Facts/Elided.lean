import FcLang.Facts.Expr

/-!
# Guards left out

`some` and `err` go without their test where the payload is provably not null or
not zero. A value that is provably null or zero is so in every execution. The
other way a cast on the way down may lose the value: `Loses` says when, and the
written value reaches the top when no cast does.
-/

namespace FcLang

namespace Format
variable {f : Format} {z : ℤ} {n : ℕ}

theorem fits_zero (f : Format) : f.Fits 0 := by
  unfold Fits
  split
  · exact ⟨by simp, by positivity⟩
  · exact ⟨le_rfl, by positivity⟩

theorem eq_zero_of_dvd (hf : 0 < f.bits) (h : f.Fits z) (hn : f.bits ≤ n) (hd : (2 : ℤ) ^ n ∣ z) :
    z = 0 := by
  have hle : (2 : ℤ) ^ f.bits ≤ 2 ^ n := pow_le_pow_right₀ (by norm_num) hn
  have htwo := two_pow_pred hf
  have hpos : (0 : ℤ) < 2 ^ (f.bits - 1) := by positivity
  apply Int.eq_zero_of_abs_lt_dvd hd
  rw [abs_lt]
  unfold Fits at h
  split at h <;> omega

theorem wrap_eq_zero_iff (hf : 0 < f.bits) : f.wrap z = 0 ↔ (2 : ℤ) ^ f.bits ∣ z := by
  rw [Int.dvd_iff_emod_eq_zero]
  constructor
  · intro h
    have hmod := f.wrap_modEq z
    rw [h] at hmod
    exact hmod.symm
  · intro h
    rw [wrap_congr (f := f) (x := z) (y := 0) h]
    exact wrap_of_fits hf f.fits_zero

end Format

namespace Facts
variable {T : Target} {σ : Env T} {c : Context} {m : Storage T}

theorem IntTy.bits_pos (t : IntTy) : 0 < (t.format T).bits := lt_trans one_pos t.wide

theorem wrap_eq_zero_iff {t : IntTy} {z : ℤ} :
    (T.wrap t z).1 = 0 ↔ (2 : ℤ) ^ (t.format T).bits ∣ z :=
  Format.wrap_eq_zero_iff t.bits_pos

theorem truth_eq_zero_iff (b : Bool) : truth b = 0 ↔ b = false := by
  cases b <;> simp [truth]

theorem two_pow_dvd_truth_iff (t : IntTy) (b : Bool) :
    (2 : ℤ) ^ (t.format T).bits ∣ truth b ↔ b = false := by
  have hlt : (1 : ℤ) < 2 ^ (t.format T).bits := one_lt_pow₀ (by norm_num) t.bits_pos.ne'
  rw [← truth_eq_zero_iff]
  constructor
  · intro hd
    have habs : |truth b| ≤ 1 := by cases b <;> simp [truth]
    exact Int.eq_zero_of_abs_lt_dvd hd (habs.trans_lt hlt)
  · exact fun hz => hz ▸ dvd_zero _

/-- The casts that turn a value that is not 0 into 0. -/
def Loses (T : Target) : {s t : Ty} → CastOk s t → Val T s → Prop
  | _, _, .intToInt s t, v | _, _, .enumToInt s t, v =>
    (t.format T).bits < (s.format T).bits ∧ (2 : ℤ) ^ (t.format T).bits ∣ v.1
  | _, _, .floatToInt _ t, x => Flt.Fraction x ∨ t.isSigned = false ∧ Flt.Negative x
  | _, _, .floatToFloat _ t, x => roundTo t x = .finite 0
  | _, _, _, _ => False

theorem castInt_isZero {s t : IntTy} {v : T.IntVal s} {r : T.IntVal t}
    (h : castInt c t v = some r) :
    r.1 = 0 ↔ v.1 = 0 ∨
      (t.format T).bits < (s.format T).bits ∧ (2 : ℤ) ^ (t.format T).bits ∣ v.1 := by
  unfold castInt at h
  split at h
  · split at h
    · rename_i hfits
      cases h
      constructor
      · exact .inl
      · rintro (hz | ⟨-, hd⟩)
        · exact hz
        · exact Format.eq_zero_of_dvd t.bits_pos hfits le_rfl hd
    · cases h
  · cases h
    rw [wrap_eq_zero_iff]
    constructor
    · intro hd
      by_cases hlt : (t.format T).bits < (s.format T).bits
      · exact .inr ⟨hlt, hd⟩
      · exact .inl (Format.eq_zero_of_dvd s.bits_pos v.2 (not_lt.mp hlt) hd)
    · rintro (hz | ⟨-, hd⟩)
      · exact hz ▸ dvd_zero _
      · exact hd

theorem signed_format (t : IntTy) : (t.format T).signed = t.isSigned := by
  cases t <;> rfl

theorem castFloat_isZero {t : IntTy} {x : Flt} {r : T.IntVal t} (h : castFloat c t x = some r) :
    r.1 = 0 ↔ x.Fraction ∨ t.isSigned = false ∧ x.Negative := by
  unfold castFloat at h
  split at h
  · cases x with
    | infinite negative => cases h
    | nan => cases h
    | finite q =>
      simp only at h
      split at h
      · rename_i hfits
        cases h
        change Flt.trunc q = 0 ↔ _
        rw [Flt.trunc_eq_zero_iff]
        constructor
        · exact .inl
        · rintro (hq | ⟨hs, hneg⟩)
          · exact hq
          · rw [← signed_format (T := T)] at hs
            rw [Format.fits_unsigned hs] at hfits
            have hceil : Flt.trunc q = ⌈q⌉ := if_neg (not_le.mpr hneg)
            have hle : ⌈q⌉ ≤ 0 := Int.ceil_le.mpr (by simpa using le_of_lt hneg)
            exact Flt.trunc_eq_zero_iff.mp (by omega)
      · cases h
  · cases h
    rw [← signed_format (T := T)]
    exact Flt.saturate_eq_zero_iff t.wide x

theorem round_int_eq_zero_iff (f : FloatFormat) (z : ℤ) : f.round z = .finite 0 ↔ z = 0 := by
  constructor
  · intro h
    by_contra hz
    have habs : (1 : ℚ) ≤ |(z : ℚ)| := by exact_mod_cast Int.one_le_abs hz
    exact f.round_ne_zero habs h
  · rintro rfl
    exact_mod_cast f.round_zero

theorem toNat_dvd_iff (a : T.Address) : (2 : ℤ) ^ T.pointerBits ∣ a.toNat ↔ a = 0 := by
  constructor
  · intro h
    have hlt : (a.toNat : ℤ) < 2 ^ T.pointerBits := by exact_mod_cast a.isLt
    have hz := Int.eq_zero_of_abs_lt_dvd h (by rwa [abs_of_nonneg (by positivity)])
    exact BitVec.eq_of_toNat_eq (by simpa using hz)
  · rintro rfl
    simp

theorem ofInt_eq_zero_iff {w : ℕ} {z : ℤ} : BitVec.ofInt w z = 0 ↔ (2 : ℤ) ^ w ∣ z := by
  rw [← BitVec.toNat_inj, BitVec.toNat_ofInt, Int.dvd_iff_emod_eq_zero]
  have hnonneg : 0 ≤ z % ((2 ^ w : ℕ) : ℤ) := Int.emod_nonneg _ (by positivity)
  push_cast at hnonneg ⊢
  simp
  omega

/-- The bytes lead from the address to the null one. -/
def MeetsNull (T : Target) (a : T.Address) (bytes : ℤ) : Prop :=
  (2 : ℤ) ^ T.pointerBits ∣ a.toNat + bytes

theorem advance_eq_zero_iff (a : T.Address) (bytes : ℤ) :
    T.advance a bytes = 0 ↔ MeetsNull T a bytes := by
  have hsum : T.advance a bytes = BitVec.ofInt T.pointerBits (a.toNat + bytes) := by
    rw [BitVec.ofInt_add, BitVec.ofInt_natCast, BitVec.ofNat_toNat, BitVec.setWidth_eq]
    rfl
  rw [hsum]
  exact ofInt_eq_zero_iff

theorem emitSliceElem_eq_zero_iff {t : IntTy} {slice : T.Address × ℕ} {index : T.IntVal t}
    {size offset : ℕ} {a : T.Address} (h : emitSliceElem c slice index size offset = some a) :
    a = 0 ↔ MeetsNull T slice.1 (partBytes (T.wrap (.fixed .int64) index.1).1 size offset) := by
  unfold emitSliceElem at h
  split at h
  · cases h
  · cases h
    exact advance_eq_zero_iff _ _

/-- A cast gives 0 for 0, and otherwise only where it loses the value. -/
theorem emitCast_isZero {s t : Ty} {ok : CastOk s t} {v : Val T s} {r : Val T t}
    (h : emitCast m c ok v = some r) : r.IsZero t ↔ v.IsZero s ∨ Loses T ok v := by
  cases ok with
  | same ty =>
    cases h
    exact (or_iff_left id).symm
  | intToInt s t => exact castInt_isZero h
  | enumToInt repr t => exact castInt_isZero h
  | boolToInt t =>
    cases h
    change (T.wrap t (truth v)).1 = 0 ↔ v = false ∨ False
    rw [or_false, wrap_eq_zero_iff]
    exact two_pow_dvd_truth_iff t v
  | floatToInt s t =>
    refine (castFloat_isZero h).trans ⟨.inr, ?_⟩
    rintro (hz | hloses)
    · cases (hz : v = Flt.finite 0)
      exact .inl (by simp [Flt.Fraction])
    · exact hloses
  | intToFloat s t =>
    cases h
    exact (round_int_eq_zero_iff _ _).trans (or_iff_left id).symm
  | enumToFloat repr t =>
    cases h
    exact (round_int_eq_zero_iff _ _).trans (or_iff_left id).symm
  | boolToFloat t =>
    cases h
    exact (round_int_eq_zero_iff _ _).trans ((truth_eq_zero_iff v).trans (or_iff_left id).symm)
  | floatToFloat s t =>
    cases h
    change roundTo t v = .finite 0 ↔ v = .finite 0 ∨ roundTo t v = .finite 0
    refine ⟨.inr, ?_⟩
    rintro (rfl | hr)
    · exact t.format.round_zero
    · exact hr
  | pointerToPointer s t =>
    cases h
    exact (or_iff_left id).symm
  | pointerToInt s t pointerWidth =>
    cases h
    change (T.wrap t (BitVec.toNat v)).1 = 0 ↔ v = (0 : T.Address) ∨ False
    rw [wrap_eq_zero_iff, or_false]
    obtain rfl | rfl := pointerWidth <;> exact toNat_dvd_iff v
  | intToPointer s t pointerWidth =>
    cases h
    change BitVec.ofInt T.pointerBits v.1 = 0 ↔ v.1 = 0 ∨ False
    rw [ofInt_eq_zero_iff, or_false]
    constructor
    · intro hd
      apply Format.eq_zero_of_dvd s.bits_pos v.2 _ hd
      obtain rfl | rfl := pointerWidth <;> rfl
    · exact fun hz => hz ▸ dvd_zero _
  | strToCstr n =>
    simp only [emitCast] at h
    split at h
    · cases h
    · cases h
      exact iff_of_false m.buffer_ne (by simp [Val.IsZero, Loses])
  | cstrToStr =>
    refine iff_of_false (fun hr : False => hr) ?_
    rintro (hz | hloses)
    · cases (hz : v = (0 : T.Address))
      exact absurd (m.strlen_null.symm.trans h) (by simp)
    · exact hloses

/-- The value at the end of the chain that the predicates follow is not lost on the
way up. Every width but that of isize and usize holds its literals. An option of a
pointer holds no null pointer, any other payload may be 0. A place reached through a
pointer or a slice has the address this holds and the bytes to the part. -/
def Kept (σ : Env T) (c : Context) : {ty : Ty} → Expr ty → Prop
  | _, .intLit t value _ => ¬(2 : ℤ) ^ (t.format T).bits ∣ t.literal value
  | _, .neg _ operand => Kept σ c operand
  | _, .cast ok operand => Kept σ c operand ∧ ∀ v, eval σ c operand = some v → ¬Loses T ok v
  | _, .addressOfPointee _ guards pointer offset =>
    ∀ a, eval σ (c.under guards) pointer = some a → ¬MeetsNull T a offset
  | _, .addressOfElem _ guards pointer index size offset =>
    ∀ a, eval σ (c.under guards) pointer = some a →
      ∀ i, eval σ (c.under guards) index = some i →
        ¬MeetsNull T a (partBytes i.1 size offset)
  | _, .addressOfSliceElem _ guards slice index size offset =>
    ∀ s, σ.slice slice = some s → ∀ i, eval σ (c.under guards) index = some i →
      ¬MeetsNull T s.1 (partBytes (T.wrap (.fixed .int64) i.1).1 size offset)
  | .pointer _, .unwrapOption _ _ => True
  | ty, .unwrapOption _ operand =>
    ∀ o, eval σ c operand = some o → ∀ v, unwrap ty o = some v → ¬v.IsZero ty
  | ty, .unwrapResult _ operand => ∀ r, eval σ c operand = some r → ¬Val.IsZero ty r.2
  | _, _ => True

theorem emitNeg_isZero {ty : Ty} {ok : NegOk ty} {v r : Val T ty} (h : emitNeg c ok v = some r) :
    r.IsZero ty ↔ v.IsZero ty := by
  cases ok with
  | int t isSigned =>
    simp only [emitNeg] at h
    split at h
    · cases h
    · cases h
      change (T.wrap t (-v.1)).1 = 0 ↔ v.1 = 0
      rw [wrap_eq_zero_iff, dvd_neg]
      exact ⟨Format.eq_zero_of_dvd t.bits_pos v.2 le_rfl, fun hz => hz ▸ dvd_zero _⟩
  | float t =>
    cases h
    exact Flt.neg_eq_zero_iff v

theorem unwrap_pointer_ne {p : Bool} {o : Val T (.option (.pointer p))} {a : T.Address}
    (h : unwrap (.pointer p) o = some a) : a ≠ 0 := by
  simp only [unwrap] at h
  split at h
  · cases h
  · rename_i hne
    cases h
    exact hne

theorem errorConstLiteral_ne {index : ℕ} (declared : index < errorCodeLimit) :
    ¬(2 : ℤ) ^ ((IntTy.fixed .int32).format T).bits ∣ (errorCodeBase + index : ℕ) := by
  change ¬(2 : ℤ) ^ 32 ∣ _
  unfold errorCodeLimit at declared
  have hbase : errorCodeBase = 65536 := rfl
  omega

theorem not_forall_some {α : Type} {x : Option α} {a : α} (h : x = some a) (P : α → Prop) :
    (¬∀ b, x = some b → ¬P b) ↔ P a := by
  subst h
  simp

theorem not_forall_some₂ {α β : Type} {x : Option α} {y : Option β} {a : α} {b : β}
    (hx : x = some a) (hy : y = some b) (P : α → β → Prop) :
    (¬∀ a, x = some a → ∀ b, y = some b → ¬P a b) ↔ P a b := by
  subst hx hy
  simp

theorem unwrapOption_isZero {ty : Ty} {op : PostfixOp} {operand : Expr (.option ty)}
    {o : Val T (.option ty)} {v : Val T ty} (ho : eval σ c operand = some o)
    (hov : unwrap ty o = some v) : v.IsZero ty ↔ ¬Kept σ c (.unwrapOption op operand) := by
  have hpayload : v.IsZero ty ↔
      ¬∀ o, eval σ c operand = some o → ∀ v, unwrap ty o = some v → ¬v.IsZero ty := by
    rw [← not_forall_some hov (Val.IsZero ty),
      ← not_forall_some ho fun o => ¬∀ v, unwrap ty o = some v → ¬v.IsZero ty]
    simp only [not_not]
  cases ty with
  | pointer p => exact iff_of_false (unwrap_pointer_ne hov) (not_not.mpr trivial)
  | _ => exact hpayload

/-- What the predicates say of an expression they find a written value in. -/
def Written {ty : Ty} (e : Expr ty) : Prop :=
  intValueProvablyNonzero e = true ∨ ptrValueProvablyNonnull e = true

theorem Written.cast {s t : Ty} {ok : CastOk s t} {operand : Expr s}
    (h : Written (.cast ok operand)) : Written operand := by
  obtain h | h := h
  · exact .inl h
  · cases operand with
    | intLit t value inRange => exact .inl h
    | _ => exact .inr h

theorem isZero_iff_not_kept {ty : Ty} {e : Expr ty} (h : Written e) {v : Val T ty}
    (hv : eval σ c e = some v) : v.IsZero ty ↔ ¬Kept σ c e := by
  induction e with
  | intLit t value inRange =>
    cases hv
    exact wrap_eq_zero_iff.trans not_not.symm
  | errorConst index declared =>
    cases hv
    exact iff_of_false (fun hz => errorConstLiteral_ne declared (wrap_eq_zero_iff.mp hz))
      (not_not.mpr trivial)
  | neg ok operand ih =>
    obtain ⟨u, hu, huv⟩ := Option.bind_eq_some_iff.mp hv
    have hwritten : Written operand := .inl (h.resolve_right Bool.false_ne_true)
    exact (emitNeg_isZero huv).trans (ih hwritten hu)
  | addressOf isCstr name offset =>
    cases hv
    exact iff_of_false (σ.address_ne name offset) (not_not.mpr trivial)
  | addressOfPointee isCstr guards pointer offset ih =>
    obtain ⟨a, ha, rfl⟩ := Option.map_eq_some_iff.mp hv
    exact (advance_eq_zero_iff a offset).trans (not_forall_some ha fun a => MeetsNull T a offset).symm
  | addressOfElem isCstr guards pointer index size offset ihPointer ihIndex =>
    obtain ⟨a, ha, hav⟩ := Option.bind_eq_some_iff.mp hv
    obtain ⟨i, hi, rfl⟩ := Option.map_eq_some_iff.mp hav
    exact (advance_eq_zero_iff a _).trans
      (not_forall_some₂ ha hi fun a i => MeetsNull T a (partBytes i.1 size offset)).symm
  | addressOfSliceElem isCstr guards slice index size offset ih =>
    obtain ⟨s, hs, hsv⟩ := Option.bind_eq_some_iff.mp hv
    obtain ⟨i, hi, hiv⟩ := Option.bind_eq_some_iff.mp hsv
    exact (emitSliceElem_eq_zero_iff hiv).trans
      (not_forall_some₂ hs hi fun s i =>
        MeetsNull T s.1 (partBytes (T.wrap (.fixed .int64) i.1).1 size offset)).symm
  | cstringLit text =>
    cases hv
    exact iff_of_false (σ.staticBytes_ne text) (not_not.mpr trivial)
  | unwrapOption op operand ih =>
    obtain ⟨o, ho, hov⟩ := Option.bind_eq_some_iff.mp hv
    exact unwrapOption_isZero ho hov
  | unwrapResult op operand ih =>
    obtain ⟨r, hr, hrv⟩ := Option.bind_eq_some_iff.mp hv
    unfold unwrapTag at hrv
    split at hrv
    · cases hrv
    · cases hrv
      exact (not_forall_some hr fun r => Val.IsZero _ r.2).symm
  | cast ok operand ih =>
    obtain ⟨u, hu, huv⟩ := Option.bind_eq_some_iff.mp hv
    rw [emitCast_isZero huv, ih h.cast hu, ← not_forall_some hu (Loses T ok), ← not_and_or]
    rfl
  | dflt _ | ifExpr _ _ _ | block _ _ | guard _ _ | someExpr _ | okExpr _ | errExpr _ _
  | other _ _ => exact absurd h (by simp [Written, intValueProvablyNonzero, ptrValueProvablyNonnull])

theorem isZero_of_provably {ty : Ty} {e : Expr ty}
    (h : intValueProvablyZero e = true ∨ ptrValueProvablyNull e = true) {v : Val T ty}
    (hv : eval σ c e = some v) : v.IsZero ty := by
  induction e with
  | intLit t value inRange =>
    have hz : value = 0 := by simpa [intValueProvablyZero, ptrValueProvablyNull] using h
    cases hv
    apply wrap_eq_zero_iff.mpr
    simp [hz, IntTy.literal]
  | errorConst index declared =>
    have hz : BitVec.ofNat 64 (errorCodeBase + index) = 0 :=
      of_decide_eq_true (h.resolve_right Bool.false_ne_true)
    have hmod := congrArg BitVec.toNat hz
    rw [BitVec.toNat_ofNat] at hmod
    unfold errorCodeLimit at declared
    have hbase : errorCodeBase = 65536 := rfl
    simp at hmod
    omega
  | neg ok operand ih =>
    obtain ⟨u, hu, huv⟩ := Option.bind_eq_some_iff.mp hv
    exact (emitNeg_isZero huv).mpr (ih (.inl (h.resolve_right Bool.false_ne_true)) hu)
  | dflt target =>
    cases hv
    cases target with
    | int t => exact wrap_eq_zero_iff.mpr (dvd_zero _)
    | pointer p => rfl
    | _ => exact absurd h (by simp [intValueProvablyZero, ptrValueProvablyNull])
  | cast ok operand ih =>
    obtain ⟨u, hu, huv⟩ := Option.bind_eq_some_iff.mp hv
    have hoperand : intValueProvablyZero operand = true ∨ ptrValueProvablyNull operand = true := by
      obtain h | h := h
      · exact .inl h
      · cases operand with
        | intLit t value inRange => exact .inl h
        | _ => exact .inr h
    exact (emitCast_isZero huv).mpr (.inl (ih hoperand hu))
  | addressOf _ _ _ | addressOfPointee _ _ _ _ | addressOfElem _ _ _ _ _ _
  | addressOfSliceElem _ _ _ _ _ _ | cstringLit _ | unwrapOption _ _ | unwrapResult _ _
  | ifExpr _ _ _ | block _ _ | guard _ _ | someExpr _ | okExpr _ | errExpr _ _ | other _ _ =>
    exact absurd h (by simp [intValueProvablyZero, ptrValueProvablyNull])

section Static

/-- The casts that hold every value of their source. -/
def Holds (T : Target) : {s t : Ty} → CastOk s t → Prop
  | _, _, .intToInt s t | _, _, .enumToInt s t => (s.format T).bits ≤ (t.format T).bits
  | _, _, .floatToInt _ _ | _, _, .floatToFloat _ _ => False
  | _, _, _ => True

theorem Holds.not_loses {s t : Ty} {ok : CastOk s t} (h : Holds T ok) (v : Val T s) :
    ¬Loses T ok v := by
  cases ok with
  | intToInt s t => exact fun hloses => absurd hloses.1 (not_lt.mpr h)
  | enumToInt repr t => exact fun hloses => absurd hloses.1 (not_lt.mpr h)
  | floatToInt s t => exact absurd h id
  | floatToFloat s t => exact absurd h id
  | _ => exact id

/-- The written value has a fixed width or is a pointer, no place is reached through
another pointer, and no cast narrows it. -/
def Direct (T : Target) : {ty : Ty} → Expr ty → Prop
  | _, .intLit (.fixed _) _ _ => True
  | _, .intLit _ _ _ => False
  | _, .neg _ operand => Direct T operand
  | _, .cast ok operand => Direct T operand ∧ Holds T ok
  | _, .addressOfPointee _ _ _ _ | _, .addressOfElem _ _ _ _ _ _
  | _, .addressOfSliceElem _ _ _ _ _ _ => False
  | .pointer _, .unwrapOption _ _ => True
  | _, .unwrapOption _ _ => False
  | _, .unwrapResult _ _ => False
  | _, _ => True

theorem literal_ne_zero {t : IntTy} {value : BitVec 64} (h : value ≠ 0) : t.literal value ≠ 0 := by
  unfold IntTy.literal
  split
  · exact fun hz => h (BitVec.eq_of_toInt_eq (by simpa using hz))
  · exact fun hz => h (BitVec.eq_of_toNat_eq (by simpa using hz))

theorem Direct.kept {ty : Ty} {e : Expr ty} (h : Direct T e) (hw : Written e) : Kept σ c e := by
  induction e with
  | intLit t value inRange =>
    have hne : value ≠ 0 := by
      simpa [Written, intValueProvablyNonzero, ptrValueProvablyNonnull] using hw
    cases t with
    | fixed t => exact fun hd => literal_ne_zero hne (Format.eq_zero_of_dvd t.bits_pos inRange le_rfl hd)
    | isize => exact absurd h id
    | usize => exact absurd h id
  | neg ok operand ih => exact ih h (.inl (hw.resolve_right Bool.false_ne_true))
  | cast ok operand ih => exact ⟨ih h.1 hw.cast, fun v _ => h.2.not_loses v⟩
  | @unwrapOption ty op operand ih =>
    cases ty with
    | pointer p => trivial
    | _ => exact absurd h id
  | unwrapResult op operand ih => exact absurd h id
  | addressOfPointee isCstr guards pointer offset ih => exact absurd h id
  | addressOfElem isCstr guards pointer index size offset ihPointer ihIndex => exact absurd h id
  | addressOfSliceElem isCstr guards slice index size offset ih => exact absurd h id
  | _ => trivial

end Static

theorem buildErr_readsOk {guarded : Bool} {target : Ty} {code : T.IntVal (.fixed .int32)}
    {r : Val T (.result target)} (h : buildErr guarded target code = some r) :
    ReadsOk r ↔ guarded = false ∧ code.1 = 0 := by
  unfold buildErr at h
  split at h
  · cases h
  · rename_i hnot
    cases h
    change code.1 = 0 ↔ _
    cases guarded with
    | false => exact (and_iff_right rfl).symm
    | true => exact iff_of_false (fun hz => hnot ⟨rfl, hz⟩) (by simp)

theorem buildSome_readsNone {guarded p : Bool} {a : Val T (.pointer p)}
    {o : Val T (.option (.pointer p))} (h : buildSome guarded (.pointer p) a = some o) :
    ReadsNone (.pointer p) o ↔ guarded = false ∧ a = (0 : T.Address) := by
  simp only [buildSome] at h
  split at h
  · cases h
  · rename_i hnot
    cases h
    change a = (0 : T.Address) ↔ _
    cases guarded with
    | false => exact (and_iff_right rfl).symm
    | true => exact iff_of_false (fun ha => hnot ⟨rfl, ha⟩) (by simp)

/-- A constant initializer has no statement to test in, so pass2 takes a payload
there only when the predicate holds of it. -/
def ConstAccepted (c : Context) (provably : Bool) : Prop := c.constContext = true → provably = true

theorem guard_elided {provably : Bool} (h : ConstAccepted c provably) :
    (!(c.constContext || provably)) = false ↔ provably = true := by
  cases hconst : c.constContext with
  | false => simp
  | true => simp [h hconst]

/-- The predicates for zero and null are right in every execution. The other two are
right in exactly the executions that keep the written value on its way up, and
there alone is an `err` that reads as ok or a `some` that reads as none built. -/
theorem elided_guards_exact (σ : Env T) (c : Context) :
    (∀ ⦃t⦄ ⦃e : Expr (.int t)⦄ ⦃v⦄, eval σ c e = some v →
      (intValueProvablyZero e = true → v.1 = 0) ∧
      (intValueProvablyNonzero e = true → (v.1 ≠ 0 ↔ Kept σ c e))) ∧
    (∀ ⦃p⦄ ⦃e : Expr (.pointer p)⦄ ⦃a⦄, eval σ c e = some a →
      (ptrValueProvablyNull e = true → a = (0 : T.Address)) ∧
      (ptrValueProvablyNonnull e = true → (a ≠ (0 : T.Address) ↔ Kept σ c e))) ∧
    (∀ ⦃target code r⦄, ConstAccepted c (intValueProvablyNonzero code) →
      eval σ c (.errExpr target code) = some r →
      (ReadsOk r ↔ intValueProvablyNonzero code = true ∧ ¬Kept σ c code)) ∧
    ∀ ⦃p⦄ ⦃e : Expr (.pointer p)⦄ ⦃o⦄, ConstAccepted c (ptrValueProvablyNonnull e) →
      eval σ c (.someExpr e) = some o →
      (ReadsNone (.pointer p) o ↔ ptrValueProvablyNonnull e = true ∧ ¬Kept σ c e) := by
  refine ⟨?_, ?_, ?_, ?_⟩
  · intro t e v hv
    exact ⟨fun h => isZero_of_provably (.inl h) hv,
      fun h => not_iff_comm.mp (isZero_iff_not_kept (.inl h) hv).symm⟩
  · intro p e a ha
    exact ⟨fun h => isZero_of_provably (.inr h) ha,
      fun h => not_iff_comm.mp (isZero_iff_not_kept (.inr h) ha).symm⟩
  · intro target code r hconst hr
    obtain ⟨v, hv, hvr⟩ := Option.bind_eq_some_iff.mp hr
    rw [buildErr_readsOk hvr, guard_elided hconst]
    exact and_congr_right fun h => isZero_iff_not_kept (.inl h) hv
  · intro p e o hconst ho
    obtain ⟨a, ha, hao⟩ := Option.bind_eq_some_iff.mp ho
    rw [buildSome_readsNone hao, guard_elided hconst]
    exact and_congr_right fun h => isZero_iff_not_kept (.inr h) ha

theorem one_ne_null : (1#64 : target64.Address) ≠ 0 := by
  change 1#64 ≠ 0#64
  decide

def quietEnv : Env target64 where
  buffer := 1#64
  buffer_ne := one_ne_null
  strlen _ := none
  strlen_null := rfl
  value _ _ := none
  address _ _ := 1#64
  address_ne _ _ := one_ne_null
  slice _ := none
  staticBytes _ := 1#64
  staticBytes_ne _ := one_ne_null

def plainContext : Context := ⟨false, false, false⟩

def intLit32 (value : BitVec 64) (h : (IntTy.fixed .int32).Accepts value := by decide) :
    Expr (.int (.fixed .int32)) := .intLit (.fixed .int32) value h

/-- `(i32)(u8) 256` -/
def narrowedCode : Expr (.int (.fixed .int32)) :=
  .cast (.intToInt (.fixed .uint8) (.fixed .int32))
    (.cast (.intToInt (.fixed .int32) (.fixed .uint8)) (intLit32 256))

theorem elided_guards_exact_seven :
    eval quietEnv plainContext (.errExpr .other (intLit32 7)) = some (⟨7, by decide⟩, ()) ∧
      ¬@ReadsOk target64 .other (⟨7, by decide⟩, ()) := by
  have heval : eval quietEnv plainContext (.errExpr .other (intLit32 7)) =
      some (⟨7, by decide⟩, ()) := rfl
  refine ⟨heval, fun hok => ?_⟩
  have h := (elided_guards_exact quietEnv plainContext).2.2.1 (fun _ => rfl) heval
  exact (h.mp hok).2 (Direct.kept trivial (.inl rfl))

/-- The literal is not 0, but a byte has no room for it, and the code is that of ok. -/
theorem narrowed_code_reads_ok :
    (¬∀ v, eval quietEnv plainContext narrowedCode = some v →
      intValueProvablyNonzero narrowedCode = true → v.1 ≠ 0) ∧
    ¬∀ r, eval quietEnv plainContext (.errExpr .other narrowedCode) = some r → ¬ReadsOk r := by
  constructor
  · exact fun h => h ⟨0, by decide⟩ rfl rfl rfl
  · exact fun h => h (⟨0, by decide⟩, ()) rfl rfl

/-- `&*p` of a null `p` -/
example : eval quietEnv plainContext
      (.someExpr (.addressOfPointee false [] (.dflt (.pointer false)) 0)) = some 0#64 :=
  rfl

end Facts
end FcLang
