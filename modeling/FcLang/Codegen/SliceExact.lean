import FcLang.Codegen.SliceBuild

/-!
# When a built slice has a length of the range

The guards of indexing and subslicing are exact. Of the constructs that build a
slice, some rely on a check that a build may lack: an assert, a constant the
compiler could evaluate, or the guard that `unguarded` removes.
-/

namespace FcLang.Codegen
open Types (Bindings constExprEval constMaskExtend)
variable {b : Build}

namespace LenRepr

theorem convert_le (r : LenRepr) (z : ℤ) : r.lenT.convert z ≤ r.lenMax := by
  have hs : r.lenT.signed = true := by cases r <;> rfl
  have hfits := (Format.fits_signed hs).mp (CType.fits_convert r.lenT z)
  have hmax : (2 : ℤ) ^ (r.lenT.format.bits - 1) = r.lenMax + 1 := by
    cases r <;> decide
  omega

theorem bits_eq (r : LenRepr) : r.bits < 64 ∨ r.lenMax = 2 ^ 63 - 1 := by
  cases r <;> decide

end LenRepr

/-- A length that is stored is in range when it is not negative. -/
theorem storeLen_inRange {z len : ℤ} (h : storeLen b z = .built len) :
    (0 ≤ len ∧ len ≤ b.lenRepr.lenMax) ↔ 0 ≤ b.lenRepr.lenT.convert z := by
  cases h
  exact and_iff_left (b.lenRepr.convert_le z)

theorem storeLen_of_le {z : ℤ} (h0 : 0 ≤ z) (hz : z ≤ b.lenRepr.lenMax) :
    0 ≤ b.lenRepr.lenT.convert z := by
  rw [lenT_convert ⟨h0, hz⟩]
  exact h0

theorem of_granted {g : Bool} {n len : ℤ} (h : (if g then storeLen b n else .none) = .built len) :
    g = true ∧ storeLen b n = .built len := by
  cases g with
  | true => exact ⟨rfl, h⟩
  | false => cases h

theorem staticLengthOk_iff {r : LenRepr} {n : ℤ} :
    staticLengthOk r n = true ↔ 0 ≤ n ∧ n ≤ r.lenMax := by
  simp [staticLengthOk]

theorem long_le (b : Build) (z : ℤ) (h : ¬(b.lenRepr.bits < 64 ∧ CType.long.convert z > b.lenRepr.lenMax)) :
    CType.long.convert z ≤ b.lenRepr.lenMax := by
  obtain hlt | hmax := b.lenRepr.bits_eq
  · exact not_lt.mp fun h' => h ⟨hlt, h'⟩
  · have hfits := (Format.fits_signed (f := CType.long.format) rfl).mp (CType.fits_convert .long z)
    change -2 ^ 63 ≤ _ ∧ _ < 2 ^ 63 at hfits
    rw [hmax]
    push_cast
    omega

section RawParts
variable {w : PtrWidth}

theorem ScalarTy.fits_int64 {t : ScalarTy} {z : ℤ} (ht : t.canWiden = true)
    (hz : (t.format w).Fits z) : IntTy.int64.Fits z := by
  cases t with
  | isize => cases ht
  | usize => cases ht
  | fixed t =>
    cases hs : t.signed with
    | true => exact Format.Fits.mono hz hs (Const.bits_le t)
    | false =>
      refine Format.Fits.mono_signed hz hs rfl ?_
      change t.format.bits < 64
      cases t <;> first | exact absurd ht (by decide) | exact absurd hs (by decide) | decide

/-- Every cast lands in its type. -/
theorem LenExpr.value_fits (e : LenExpr w) : (e.type.format w).Fits e.value := by
  have hpos : ∀ t : ScalarTy, 0 < (t.format w).bits := fun t => by
    cases w <;> rcases t with (_ | _) | _ | _ <;> decide
  cases e with
  | intLit v => exact v.fits
  | cast target e => exact Format.fits_wrap (hpos target) _
  | other v folds => exact v.fits

/-- The value of a literal, seen through casts, is the value it has when it runs,
as an int64_t. -/
theorem LenExpr.literalValue_eq (e : LenExpr w) {z : ℤ} (h : e.sliceLenLiteralValue = some z) :
    z = IntTy.int64.wrap e.value := by
  induction e generalizing z with
  | intLit v =>
    cases h
    rfl
  | other v folds => cases h
  | cast target e ih =>
    cases target with
    | isize => cases h
    | usize => cases h
    | fixed t =>
      obtain ⟨y, hy, rfl⟩ := Option.map_eq_some_iff.mp h
      have hword : BitVec.ofInt 64 y = Const.word e.value := by
        rw [ih hy]
        exact Words.ofInt_congr (IntTy.int64.format.wrap_modEq e.value)
      rw [hword, Const.constMaskExtend_word]
      exact BitVec.toInt_ofInt _

theorem LenExpr.literalValue_of_canWiden {e : LenExpr w} {z : ℤ} (ht : e.type.canWiden = true)
    (h : e.sliceLenLiteralValue = some z) : z = e.value := by
  rw [e.literalValue_eq h]
  exact IntTy.wrap_of_fits (ScalarTy.fits_int64 ht e.value_fits)

/-- What codegen takes for a literal, pass2 has judged. -/
theorem LenExpr.isSome_of_isLitForCodegen {e : LenExpr w} (h : e.isLitForCodegen = true) :
    ∃ z, e.sliceLenLiteralValue = some z := by
  cases e with
  | intLit v => exact ⟨_, rfl⟩
  | other v folds =>
    unfold isLitForCodegen at h
    split at h <;> cases h
  | cast target e =>
    unfold isLitForCodegen at h
    split at h
    · rename_i htype
      cases e with
      | intLit v =>
        change target = _ at htype
        rw [htype]
        exact ⟨_, rfl⟩
      | other v folds => cases h
      | cast _ _ => cases h
    · cases h

/-- Where the compiler has no length to judge and no code to guard with. -/
def RawPartsGuarded (b : Build) (inConst : Bool) (len : LenExpr b.ptrWidth) : Prop :=
  inConst = true → len.type.canWiden = true → len.sliceLenLiteralValue = none →
    len.folds = false → 0 ≤ b.lenRepr.lenT.convert len.value

theorem rawParts_literal {inConst : Bool} {len : LenExpr b.ptrWidth} {z : ℤ}
    (ht : len.type.canWiden = true) (hz : len.sliceLenLiteralValue = some z) :
    rawParts b inConst len =
      if staticLengthOk b.lenRepr len.value then storeLen b len.value else .rejected := by
  have hvalue := LenExpr.literalValue_of_canWiden ht hz
  subst hvalue
  simp only [rawParts, ht, hz, Option.any_some, Option.isSome_some, Bool.true_or, Bool.not_true,
    Bool.false_and, Bool.false_eq_true, if_false, Bool.not_eq_true']
  by_cases hok : staticLengthOk b.lenRepr len.value = true
  · have hmax := (staticLengthOk_iff.mp hok).2
    have hcap : (decide (b.lenRepr.bits < 64) && !len.isLitForCodegen &&
        decide (len.value > b.lenRepr.lenMax)) = false := by
      rw [Bool.and_eq_false_iff]
      exact .inr (decide_eq_false (not_lt.mpr hmax))
    simp only [hok, hcap, Bool.true_eq_false, if_false, if_true, Bool.false_eq_true, ite_self]
  · simp only [Bool.not_eq_true] at hok
    simp only [hok, if_true, Bool.false_eq_true, if_false]

/-- A constant initializer has no code to check a length with. -/
theorem rawParts_inConst {len : LenExpr b.ptrWidth} (ht : len.type.canWiden = true)
    (hz : len.sliceLenLiteralValue = none) :
    rawParts b true len =
      if len.folds && !staticLengthOk b.lenRepr len.value then .rejected
      else storeLen b len.value := by
  cases hf : len.folds with
  | false => simp [rawParts, ht, hz, hf]
  | true => simp [rawParts, ht, hz, hf]

theorem rawParts_guarded {len : LenExpr b.ptrWidth} {n : ℤ} (ht : len.type.canWiden = true)
    (hz : len.sliceLenLiteralValue = none) (h : rawParts b false len = .built n) :
    0 ≤ len.value ∧ len.value ≤ b.lenRepr.lenMax ∧ storeLen b len.value = .built n := by
  have hint : IntTy.int64.Fits len.value := ScalarTy.fits_int64 ht len.value_fits
  have hlit : len.isLitForCodegen = false := by
    rw [← Bool.not_eq_true]
    intro hlit
    obtain ⟨z, hz'⟩ := LenExpr.isSome_of_isLitForCodegen hlit
    cases hz.symm.trans hz'
  simp only [rawParts, ht, hz, hlit] at h
  simp only [Bool.not_true, Bool.false_eq_true, if_false, Bool.false_and, Option.any_none,
    Option.isSome_none, Bool.false_or, Bool.not_not, Bool.not_false, Bool.and_true,
    Bool.and_eq_true, decide_eq_true_eq] at h
  split at h
  · cases h
  rename_i hneg
  split at h
  · cases h
  rename_i hcap
  refine ⟨?_, ?_, h⟩
  · cases hs : (len.type.format b.ptrWidth).signed with
    | true => exact not_lt.mp fun hlt => hneg ⟨hs, hlt⟩
    | false => exact ((Format.fits_unsigned hs).mp len.value_fits).1
  · have hself : CType.long.convert len.value = len.value := CType.convert_of_fits hint
    have := long_le b len.value (by rwa [hself])
    rwa [hself] at this

theorem rawParts_inRange (inConst : Bool) (len : LenExpr b.ptrWidth) :
    (∀ n, rawParts b inConst len = .built n → 0 ≤ n ∧ n ≤ b.lenRepr.lenMax) ↔
      RawPartsGuarded b inConst len := by
  cases ht : len.type.canWiden with
  | false => simp [rawParts, RawPartsGuarded, ht]
  | true =>
    cases hz : len.sliceLenLiteralValue with
    | some z =>
      refine iff_of_true (fun n hn => ?_) fun _ _ h => absurd (hz.symm.trans h) (by simp)
      rw [rawParts_literal ht hz] at hn
      split at hn
      · rename_i hok
        obtain ⟨h0, hmax⟩ := staticLengthOk_iff.mp hok
        exact (storeLen_inRange hn).mpr (storeLen_of_le h0 hmax)
      · cases hn
    | none =>
      cases inConst with
      | false =>
        refine iff_of_true (fun n hn => ?_) fun h => absurd h Bool.false_ne_true
        obtain ⟨h0, hmax, hn⟩ := rawParts_guarded ht hz hn
        exact (storeLen_inRange hn).mpr (storeLen_of_le h0 hmax)
      | true =>
        rw [rawParts_inConst ht hz]
        cases hf : len.folds with
        | false =>
          constructor
          · intro h _ _ _ _
            exact (storeLen_inRange (b := b) rfl).mp (h _ rfl)
          · intro h n hn
            exact (storeLen_inRange hn).mpr (h rfl ht hz hf)
        | true =>
          refine iff_of_true (fun n hn => ?_) fun _ _ _ h =>
            absurd (hf.symm.trans h) Bool.true_eq_false.mp
          split at hn
          · cases hn
          · rename_i hok
            have hok' : staticLengthOk b.lenRepr len.value = true := by simpa using hok
            obtain ⟨h0, hmax⟩ := staticLengthOk_iff.mp hok'
            exact (storeLen_inRange hn).mpr (storeLen_of_le h0 hmax)

end RawParts

section Sizes

/-- No allocator grants more than any object may have; this one grants the rest. -/
def Allocator.generous (b : Build) : Allocator b where
  grants bytes := bytes ≤ b.objectMax
  refuses_huge _ h := decide_eq_false (not_le.mpr h)

/-- The size of a literal in a generic body is judged in 64 bits and emitted at
the type of its operands. -/
def ArrayLitGuarded (b : Build) (elem : ElemSize b) : SizeExpr → Prop
  | .literal _ _ => True
  | .symbolic e σ => ∀ v n, e.erase.map (constExprEval σ) = some (.value v) →
      staticLengthOk b.lenRepr v.toInt = true → (e.subst σ).eval = some n →
      (b.asserts = false ∨ 0 ≤ n ∧ n < 2 ^ b.ptrWidth.bits) →
      b.toSize n * elem.bytes % 2 ^ b.ptrWidth.bits ≤ b.objectMax →
      0 ≤ b.lenRepr.lenT.convert n

theorem fcToSize_eq {n : ℤ} {m : ℕ} :
    fcToSize b n = .ok m ↔ (b.asserts = false ∨ 0 ≤ n ∧ n < 2 ^ b.ptrWidth.bits) ∧
      m = b.toSize n := by
  unfold fcToSize
  split
  · rename_i h
    simp only [Bool.and_eq_true, Bool.or_eq_true, decide_eq_true_eq] at h
    refine iff_of_false nofun ?_
    rintro ⟨ha | hn, -⟩
    · exact Bool.false_ne_true (ha.symm.trans h.1)
    · omega
  · rename_i h
    simp only [Bool.and_eq_true, Bool.or_eq_true, decide_eq_true_eq, not_and_or,
      Bool.not_eq_true] at h
    have hcond : b.asserts = false ∨ 0 ≤ n ∧ n < 2 ^ b.ptrWidth.bits :=
      h.imp_right fun h => by omega
    exact ⟨fun h => ⟨hcond, (Except.ok.inj h).symm⟩, fun h => congrArg Except.ok h.2.symm⟩

theorem alloca_eq_built {bytes : ℕ} {n len : ℤ} :
    alloca b bytes (storeLen b n) = .built len ↔
      bytes ≤ b.objectMax ∧ storeLen b n = .built len := by
  unfold alloca
  split
  · simp
    omega
  · simp
    omega

theorem literalSize_inRange {value : BitVec 64} {isSigned : Bool}
    (h : literalSizeOk b value isSigned = true) :
    0 ≤ value.toInt ∧ value.toInt ≤ b.lenRepr.lenMax := by
  rw [literalSizeOk, Bool.and_eq_true] at h
  exact staticLengthOk_iff.mp h.2

theorem arrayLit_inRange (elem : ElemSize b) (size : SizeExpr) :
    (∀ n, arrayLit b elem size = .built n → 0 ≤ n ∧ n ≤ b.lenRepr.lenMax) ↔
      ArrayLitGuarded b elem size := by
  cases size with
  | literal value isSigned =>
    refine iff_of_true (fun n hn => ?_) trivial
    rw [arrayLit] at hn
    split at hn
    · cases hn
    · rename_i hok
      obtain ⟨h0, hmax⟩ := literalSize_inRange (by simpa using hok)
      exact (storeLen_inRange hn).mpr (storeLen_of_le h0 hmax)
  | symbolic e σ =>
    have hbuilt : ∀ len, arrayLit b elem (.symbolic e σ) = .built len ↔
        ∃ v n, e.erase.map (constExprEval σ) = some (.value v) ∧
          staticLengthOk b.lenRepr v.toInt = true ∧ (e.subst σ).eval = some n ∧
          (b.asserts = false ∨ 0 ≤ n ∧ n < 2 ^ b.ptrWidth.bits) ∧
          b.toSize n * elem.bytes % 2 ^ b.ptrWidth.bits ≤ b.objectMax ∧
          storeLen b n = .built len := by
      intro len
      rw [arrayLit]
      constructor
      · intro h
        split at h
        · rename_i v hv
          split at h
          · cases h
          rename_i hok
          split at h
          · cases h
          rename_i n hn
          split at h
          · cases h
          rename_i m hm
          obtain ⟨hassert, rfl⟩ := fcToSize_eq.mp hm
          obtain ⟨hbytes, hstore⟩ := alloca_eq_built.mp h
          exact ⟨v, n, hv, by simpa using hok, hn, hassert, hbytes, hstore⟩
        · cases h
      · rintro ⟨v, n, hv, hok, hn, hassert, hbytes, hstore⟩
        simp only [hv, hok, hn, fcToSize_eq.mpr ⟨hassert, rfl⟩, Bool.not_true, Bool.false_eq_true,
          if_false]
        exact alloca_eq_built.mpr ⟨hbytes, hstore⟩
    constructor
    · intro h v n hv hok hn hassert hbytes
      exact (storeLen_inRange (b := b) rfl).mp
        (h _ ((hbuilt _).mpr ⟨v, n, hv, hok, hn, hassert, hbytes, rfl⟩))
    · intro h len hlen
      obtain ⟨v, n, hv, hok, hn, hassert, hbytes, hstore⟩ := (hbuilt len).mp hlen
      exact (storeLen_inRange hstore).mpr (h v n hv hok hn hassert hbytes)

/-- A negative count passes every check but the assert. -/
def AllocGuarded (b : Build) (count : Scalar b.ptrWidth) : Prop :=
  let n := CType.long.convert count.value
  n < 0 → b.asserts = false → 0 ≤ b.lenRepr.lenT.convert n

theorem allocSized_inRange (elem : ElemSize b) (count : Scalar b.ptrWidth) :
    (∀ a n, allocSized b a elem count = .built n → 0 ≤ n ∧ n ≤ b.lenRepr.lenMax) ↔
      AllocGuarded b count := by
  set n := CType.long.convert count.value with hn
  constructor
  · intro h hneg hassert
    have hcap : (decide (b.lenRepr.bits < 64) && decide (n > b.lenRepr.lenMax)) = false := by
      rw [Bool.and_eq_false_iff]
      exact .inr (decide_eq_false (by omega))
    have hbuilt : allocSized b (Allocator.generous b) elem count = storeLen b n := by
      have hone : ¬n > 0 := by omega
      have hgrant : (Allocator.generous b).grants (1 * elem.bytes) = true :=
        decide_eq_true (by rw [one_mul]; exact elem.le_max)
      simp only [allocSized, ← hn, hcap, hassert, hone, Bool.false_and, Bool.false_eq_true, if_false,
        hgrant, if_true]
    exact (storeLen_inRange (b := b) rfl).mp (h _ _ hbuilt)
  · intro h a len hlen
    simp only [allocSized, ← hn] at hlen
    split at hlen
    · cases hlen
    rename_i hcap
    split at hlen
    · cases hlen
    rename_i hassert
    have hmax := long_le b count.value (by simpa [← hn] using hcap)
    rw [storeLen_inRange (of_granted hlen).2]
    by_cases hneg : n < 0
    · refine h hneg (Bool.eq_false_iff.mpr fun ha => hassert ?_)
      simp [ha, hneg]
    · exact storeLen_of_le (not_lt.mp hneg) hmax

/-- As for `alloc`, unless the size in bytes is more than any stack holds. -/
def AllocaGuarded (b : Build) (elem : ElemSize b) (count : Scalar b.ptrWidth) : Prop :=
  let n := CType.long.convert count.value
  n < 0 → b.asserts = false → b.toSize n * elem.bytes % 2 ^ b.ptrWidth.bits ≤ b.objectMax →
    0 ≤ b.lenRepr.lenT.convert n

theorem allocaSized_inRange (elem : ElemSize b) (count : Scalar b.ptrWidth) :
    (∀ n, allocaSized b elem count = .built n → 0 ≤ n ∧ n ≤ b.lenRepr.lenMax) ↔
      AllocaGuarded b elem count := by
  set n := CType.long.convert count.value with hn
  constructor
  · intro h hneg hassert hbytes
    have hcap : (decide (b.lenRepr.bits < 64) && decide (n > b.lenRepr.lenMax)) = false := by
      rw [Bool.and_eq_false_iff]
      exact .inr (decide_eq_false (by omega))
    have hbuilt : allocaSized b elem count = storeLen b n := by
      simp only [allocaSized, ← hn, hcap, fcToSize_eq.mpr ⟨.inl hassert, rfl⟩, Bool.false_eq_true,
        if_false]
      exact alloca_eq_built.mpr ⟨hbytes, rfl⟩
    exact (storeLen_inRange (b := b) rfl).mp (h _ hbuilt)
  · intro h len hlen
    simp only [allocaSized, ← hn] at hlen
    split at hlen
    · cases hlen
    rename_i hcap
    split at hlen
    · cases hlen
    rename_i m hm
    obtain ⟨hassert, rfl⟩ := fcToSize_eq.mp hm
    obtain ⟨hbytes, hstore⟩ := alloca_eq_built.mp hlen
    have hmax := long_le b count.value (by simpa [← hn] using hcap)
    rw [storeLen_inRange hstore]
    by_cases hneg : n < 0
    · exact h hneg (hassert.resolve_right fun h => by omega) hbytes
    · exact storeLen_of_le (not_lt.mp hneg) hmax

theorem toSize_of_neg {n : ℤ} (h0 : n < 0) (hn : -2 ^ 31 ≤ n) : b.objectMax < b.toSize n := by
  unfold Build.objectMax Build.toSize
  cases b.ptrWidth with
  | w32 =>
    change 2 ^ 31 - 1 < (n % 2 ^ 32).toNat
    omega
  | w64 =>
    change 2 ^ 63 - 1 < (n % 2 ^ 64).toNat
    omega

/-- A size that the cast to `int` makes negative asks for more than the allocator grants. -/
theorem allocArrayLit_inRange (a : Allocator b) (elem : ElemSize b) {size : BitVec 64}
    {isSigned : Bool} {elemCount : ℕ} (hcount : elemCount < 2 ^ 31) {n : ℤ}
    (h : allocArrayLit b a elem size isSigned elemCount = .built n) :
    0 ≤ n ∧ n ≤ b.lenRepr.lenMax := by
  simp only [allocArrayLit] at h
  split at h
  · cases h
  rename_i hok
  obtain ⟨h0, hmax⟩ := literalSize_inRange (b := b) (by simpa using hok)
  split at h
  · cases h
  rename_i hexhaustive
  obtain ⟨hgrant, h⟩ := of_granted h
  rw [storeLen_inRange h]
  have hint := (Format.fits_signed (f := CType.int.format) rfl).mp
    (CType.fits_convert .int size.toInt)
  change -2 ^ 31 ≤ _ ∧ _ < 2 ^ 31 at hint
  by_cases hfits : size.toInt < 2 ^ 31
  · have hself : CType.int.convert size.toInt = size.toInt := CType.convert_of_fits <| by
      rw [Format.fits_signed rfl]
      change -2 ^ 31 ≤ _ ∧ _ < 2 ^ 31
      omega
    rw [hself]
    exact storeLen_of_le h0 hmax
  · have hzero : elemCount = 0 := by
      by_contra hne
      refine hexhaustive ?_
      have hnat : (size.toNat : ℤ) = size.toInt := by
        rw [BitVec.toInt_eq_toNat_cond] at h0 ⊢
        split
        · rfl
        · have := size.isLt
          omega
      simp only [Bool.and_eq_true, decide_eq_true_eq]
      omega
    have hunits : (if size.toInt > 0 then CType.int.convert size.toInt else 1) =
        CType.int.convert size.toInt := if_pos (by omega)
    simp only [litBytes, if_pos hzero, hunits] at hgrant
    have hnonneg : 0 ≤ CType.int.convert size.toInt := by
      by_contra hneg
      have hbytes := toSize_of_neg (b := b) (not_le.mp hneg) hint.1
      have hmul : b.toSize (CType.int.convert size.toInt) * 1 ≤
          b.toSize (CType.int.convert size.toInt) * elem.bytes :=
        Nat.mul_le_mul_left _ elem.pos
      rw [a.refuses_huge _ (by omega)] at hgrant
      cases hgrant
    exact storeLen_of_le hnonneg (by omega)

/-- What the emitter takes for the size counts as an `int`, unless nothing can be allocated for it
or the elements do not fit what is. -/
def AllocSymbolicGuarded (b : Build) (elem : ElemSize b) {t : IntTy} (e : Const.Expr (.int t))
    (σ : Bindings) (word : BitVec 64) (elemCount : ℕ) : Prop :=
  let bytes := litBytes b elem word.toInt elemCount
  ∀ v, e.erase.map (constExprEval σ) = some (.value v) →
    staticLengthOk b.lenRepr v.toInt = true → (0 < elemCount → elemCount = v.toInt) →
    bytes ≤ b.objectMax → elemCount * elem.bytes ≤ bytes →
    0 ≤ b.lenRepr.lenT.convert (CType.int.convert word.toInt)

theorem allocSymbolicLit_built {a : Allocator b} {elem : ElemSize b} {t : IntTy}
    {e : Const.Expr (.int t)} {σ : Bindings} {word : BitVec 64} {elemCount : ℕ} {len : ℤ} :
    allocSymbolicLit b a elem e σ word elemCount = .built len ↔
      ∃ v, e.erase.map (constExprEval σ) = some (.value v) ∧
        staticLengthOk b.lenRepr v.toInt = true ∧ (0 < elemCount → elemCount = v.toInt) ∧
        a.grants (litBytes b elem word.toInt elemCount) = true ∧
        elemCount * elem.bytes ≤ litBytes b elem word.toInt elemCount ∧
        storeLen b (CType.int.convert word.toInt) = .built len := by
  rw [allocSymbolicLit]
  constructor
  · intro h
    split at h
    · rename_i v hv
      split at h
      · cases h
      rename_i hok
      split at h
      · cases h
      rename_i hcount
      dsimp only at h
      split at h
      · cases h
      rename_i hgrant
      split at h
      · cases h
      rename_i hfits
      refine ⟨v, hv, by simpa using hok, fun h0 => ?_, by simpa using hgrant, not_lt.mp hfits, h⟩
      simpa [h0] using hcount
    · cases h
  · rintro ⟨v, hv, hok, hcount, hgrant, hfits, hstore⟩
    have hexhaustive : ¬((decide (0 < elemCount) && decide ((elemCount : ℤ) ≠ v.toInt)) = true) := by
      simp only [Bool.and_eq_true, decide_eq_true_eq, not_and, not_not]
      exact hcount
    simp only [hv, hok, hgrant, Bool.not_true, Bool.false_eq_true, if_false, if_neg hexhaustive,
      if_neg (not_lt.mpr hfits), hstore]

theorem allocSymbolicLit_inRange (elem : ElemSize b) {t : IntTy} (e : Const.Expr (.int t))
    (σ : Bindings) (word : BitVec 64) (elemCount : ℕ) :
    (∀ a n, allocSymbolicLit b a elem e σ word elemCount = .built n →
        0 ≤ n ∧ n ≤ b.lenRepr.lenMax) ↔ AllocSymbolicGuarded b elem e σ word elemCount := by
  constructor
  · intro h v hv hok hcount hbytes hfits
    exact (storeLen_inRange (b := b) rfl).mp (h (Allocator.generous b) _
      (allocSymbolicLit_built.mpr ⟨v, hv, hok, hcount, decide_eq_true hbytes, hfits, rfl⟩))
  · intro h a len hlen
    obtain ⟨v, hv, hok, hcount, hgrant, hfits, hstore⟩ := allocSymbolicLit_built.mp hlen
    refine (storeLen_inRange hstore).mpr (h v hv hok hcount (not_lt.mp fun hhuge => ?_) hfits)
    rw [a.refuses_huge _ hhuge] at hgrant
    cases hgrant

theorem allocCopy_inRange (a : Allocator b) (elem : ElemSize b) (operand : SliceLen b.lenRepr)
    {n : ℤ} (h : allocCopy b a elem operand = .built n) : 0 ≤ n ∧ n ≤ b.lenRepr.lenMax := by
  simp only [allocCopy] at h
  split at h
  · cases h
  exact (storeLen_inRange (of_granted h).2).mpr (storeLen_of_le operand.nonneg operand.le_max)

theorem allocString_inRange (a : Allocator b) {length : ℕ} {n : ℤ}
    (h : allocString b a length = .built n) : 0 ≤ n ∧ n ≤ b.lenRepr.lenMax := by
  unfold allocString at h
  cases hok : staticLengthOk b.lenRepr length with
  | false =>
    rw [hok] at h
    cases h
  | true =>
    rw [hok] at h
    obtain ⟨h0, hmax⟩ := staticLengthOk_iff.mp hok
    exact (storeLen_inRange (of_granted h).2).mpr (storeLen_of_le h0 hmax)

theorem interpBuffer_inRange (a : Allocator b) {total written n : ℤ} (h0 : 0 ≤ total)
    (hlong : CType.long.convert total = total) (h : interpBuffer b a total written = .built n) :
    0 ≤ n ∧ n ≤ b.lenRepr.lenMax := by
  unfold interpBuffer at h
  split at h
  · cases h
  rename_i hcap
  have hmax := long_le b total (by
    rw [hlong]
    simpa only [Bool.and_eq_true, decide_eq_true_eq] using hcap)
  rw [hlong] at hmax
  split at h
  · cases h
  rw [storeLen_inRange (of_granted h).2]
  split
  · rename_i hwritten
    exact storeLen_of_le hwritten.1 (hwritten.2.trans hmax)
  · exact storeLen_of_le h0 hmax

theorem long_result {z w : ℤ} (h : CType.long.result z = .ok w) :
    w = z ∧ CType.long.convert w = w := by
  have hfits := CType.result_ok h
  refine ⟨?_, CType.convert_of_fits hfits⟩
  unfold CType.result at h
  split at h
  · rename_i hs
    cases hs
  · split at h
    · exact (Except.ok.inj h).symm
    · cases h

theorem sharesTotal_nonneg (shares : List ℕ) : 0 ≤ sharesTotal shares := by
  induction shares with
  | nil => exact le_refl 0
  | cons share shares ih => exact add_nonneg (Int.natCast_nonneg share) ih

theorem allocInterpString_inRange (a : Allocator b) {shares : List ℕ} {written n : ℤ}
    (h : allocInterpString b a shares written = .built n) : 0 ≤ n ∧ n ≤ b.lenRepr.lenMax := by
  have h0 := sharesTotal_nonneg shares
  unfold allocInterpString at h
  split at h
  · cases h
  · rename_i z hz
    obtain ⟨rfl, hlong⟩ := long_result hz
    exact interpBuffer_inRange a h0 hlong h

end Sizes

section Subslice

theorem ScalarTy.format_emitType (t : ScalarTy) (w : PtrWidth) :
    (t.emitType w).format = t.format w := by
  cases w <;> rcases t with (_ | _) | _ | _ <;> rfl

/-- A variable of a scalar type yields the value it was given. -/
theorem yields_operand {charSigned : Bool} {w : PtrWidth} {env : AccessName → Option ℤ}
    {name : String} {v : Scalar w} (h : env (.operand name) = some v.value) :
    Yields charSigned env (.var (.operand name) (v.type.emitType w)) v.value := by
  intro env' henv
  rw [eval_var ((henv name).trans h), CType.convert_of_fits]
  exact (v.type.format_emitType w).symm ▸ v.fits

theorem boundYields_operand {charSigned : Bool} {w : PtrWidth} {env : AccessName → Option ℤ}
    {name : String} {bound : Option (Scalar w)} {omitted : ℤ}
    (h : env (.operand name) = bound.map Scalar.value) :
    BoundYields charSigned env w
      (bound.map fun v => (v.type, CExpr.var (.operand name) (v.type.emitType w))) omitted
      ((bound.map Scalar.value).getD omitted) := by
  cases bound with
  | none => rfl
  | some v => exact ⟨yields_operand h, v.fits⟩

theorem subslice_guarded (charSigned : Bool) (operand : SliceLen b.lenRepr)
    (lo hi : Option (Scalar b.ptrWidth)) :
    subslice b charSigned true operand lo hi =
      let vlo := (lo.map Scalar.value).getD 0
      let vhi := (hi.map Scalar.value).getD operand.len
      if 0 ≤ vlo ∧ vlo ≤ vhi ∧ vhi ≤ operand.len then .built (vhi - vlo)
      else .stopped .abort := by
  have hlen := And.intro operand.nonneg operand.le_max
  unfold subslice
  rw [if_pos rfl]
  rw [emitSlice_eval (w := b.ptrWidth) (fun env' henv => ?_) hlen (boundYields_operand rfl)
    (boundYields_operand rfl)]
  · dsimp only
    split_ifs <;> rfl
  · rw [eval_var ((henv "s").trans rfl), lenT_convert hlen]

/-- Without the test the bounds have to be in order by themselves. -/
def SubsliceGuarded (b : Build) (guarded : Bool) (operand : SliceLen b.lenRepr)
    (lo hi : Option (Scalar b.ptrWidth)) : Prop :=
  let vlo := (lo.map fun v => CType.long.convert v.value).getD 0
  let vhi := (hi.map fun v => CType.long.convert v.value).getD operand.len
  guarded = false → CType.long.format.Fits (vhi - vlo) → 0 ≤ b.lenRepr.lenT.convert (vhi - vlo)

theorem subslice_unguarded (charSigned : Bool) (operand : SliceLen b.lenRepr)
    (lo hi : Option (Scalar b.ptrWidth)) :
    subslice b charSigned false operand lo hi =
      match CType.long.result ((hi.map fun v => CType.long.convert v.value).getD operand.len -
          (lo.map fun v => CType.long.convert v.value).getD 0) with
      | .ok n => storeLen b n
      | .error s => .stopped s := by
  unfold subslice
  exact if_neg Bool.false_ne_true

theorem subslice_inRange (guarded : Bool) (operand : SliceLen b.lenRepr)
    (lo hi : Option (Scalar b.ptrWidth)) :
    (∀ charSigned n, subslice b charSigned guarded operand lo hi = .built n →
        0 ≤ n ∧ n ≤ b.lenRepr.lenMax) ↔ SubsliceGuarded b guarded operand lo hi := by
  cases guarded with
  | true =>
    refine iff_of_true (fun charSigned n hn => ?_) fun h => nomatch h
    rw [subslice_guarded] at hn
    dsimp only at hn
    split at hn
    · rename_i h
      cases hn
      have := operand.le_max
      omega
    · cases hn
  | false =>
    constructor
    · intro h _ hfits
      refine (storeLen_inRange (b := b) rfl).mp (h true _ ?_)
      rw [subslice_unguarded, CType.result_of_fits hfits]
      rfl
    · intro h charSigned n hn
      rw [subslice_unguarded] at hn
      split at hn
      · rename_i z hz
        obtain ⟨rfl, -⟩ := long_result hz
        exact (storeLen_inRange hn).mpr (h rfl (CType.result_ok hz))
      · cases hn

end Subslice

namespace Construct

/-- The length that is stored has been checked somewhere, or is in order by itself. -/
def Guarded : Construct b → Prop
  | .rawParts inConst len => RawPartsGuarded b inConst len
  | .arrayLit elem size => ArrayLitGuarded b elem size
  | .subslice guarded operand lo hi => SubsliceGuarded b guarded operand lo hi
  | .alloc _ count => AllocGuarded b count
  | .alloca elem count => AllocaGuarded b elem count
  | .allocSymbolicLit elem e σ word elemCount => AllocSymbolicGuarded b elem e σ word elemCount
  | _ => True

theorem buildsInRange_iff (c : Construct b) : c.BuildsInRange ↔ c.Guarded := by
  cases c with
  | rawParts inConst len =>
    rw [Guarded, ← rawParts_inRange]
    exact ⟨fun h n => h true (Allocator.generous b) n, fun h _ _ n => h n⟩
  | arrayLit elem size =>
    rw [Guarded, ← arrayLit_inRange]
    exact ⟨fun h n => h true (Allocator.generous b) n, fun h _ _ n => h n⟩
  | subslice guarded operand lo hi =>
    rw [Guarded, ← subslice_inRange]
    exact ⟨fun h charSigned n => h charSigned (Allocator.generous b) n,
      fun h charSigned _ n => h charSigned n⟩
  | alloc elem count =>
    rw [Guarded, ← allocSized_inRange elem]
    exact ⟨fun h a n => h true a n, fun h _ a n => h a n⟩
  | alloca elem count =>
    rw [Guarded, ← allocaSized_inRange]
    exact ⟨fun h n => h true (Allocator.generous b) n, fun h _ _ n => h n⟩
  | allocArrayLit elem size isSigned elemCount hcount =>
    exact iff_of_true (fun _ a _ h => allocArrayLit_inRange a elem hcount h) trivial
  | allocSymbolicLit elem e σ word elemCount =>
    rw [Guarded, ← allocSymbolicLit_inRange]
    exact ⟨fun h a n => h true a n, fun h _ a n => h a n⟩
  | allocCopy elem operand =>
    exact iff_of_true (fun _ a _ h => allocCopy_inRange a elem operand h) trivial
  | allocString length => exact iff_of_true (fun _ a _ h => allocString_inRange a h) trivial
  | allocInterpString shares written =>
    exact iff_of_true (fun _ a _ h => allocInterpString_inRange a h) trivial

/-- The slices a construct reads. -/
def operands : Construct b → List (SliceLen b.lenRepr)
  | .subslice _ operand _ _ => [operand]
  | .allocCopy _ operand => [operand]
  | _ => []

end Construct

/-- Constructs that run one after another, each on slices built before it, and the
lengths of the slices they build. -/
inductive Runs (b : Build) (charSigned : Bool) (a : Allocator b) :
    List (Construct b) → List ℤ → Prop where
  | nil : Runs b charSigned a [] []
  | step {cs : List (Construct b)} {lens : List ℤ} {c : Construct b} {len : ℤ}
      (before : Runs b charSigned a cs lens) (reads : ∀ s ∈ c.operands, s.len ∈ lens)
      (builds : c.outcome charSigned a = .built len) : Runs b charSigned a (c :: cs) (len :: lens)

theorem Runs.inRange {charSigned : Bool} {a : Allocator b} {cs : List (Construct b)} {lens : List ℤ}
    (h : Runs b charSigned a cs lens) (hcs : ∀ c ∈ cs, c.Guarded) :
    ∀ len ∈ lens, 0 ≤ len ∧ len ≤ b.lenRepr.lenMax := by
  induction h with
  | nil => exact fun _ hlen => nomatch hlen
  | step before reads builds ih =>
    intro len hlen
    cases hlen with
    | head =>
      exact (Construct.buildsInRange_iff _).mpr (hcs _ List.mem_cons_self) _ _ _ builds
    | tail _ hlen => exact ih (fun c hc => hcs c (List.mem_cons_of_mem _ hc)) len hlen

/-- The bounds checks are exact, and a slice is built with a length of the range
exactly where its length is guarded. -/
theorem slice_bounds_exact (b : Build) :
    (∀ (charSigned : Bool) (tid : ℕ) (env : AccessName → Option ℤ) (objLen index : AccessCode)
        (s : SliceLen b.lenRepr) (i : Scalar b.ptrWidth), Yields charSigned env objLen s.len →
        Yields charSigned env index i.value →
        (emitIndex b.lenRepr tid i.type objLen index).eval charSigned env =
          if 0 ≤ i.value ∧ i.value < s.len then .ok i.value else .error .abort) ∧
      (∀ (charSigned : Bool) (tid : ℕ) (env : AccessName → Option ℤ) (objLen : AccessCode)
        (s : SliceLen b.lenRepr) (lo hi : Option Bound) (vlo vhi : ℤ) (field : SliceField),
        Yields charSigned env objLen s.len → BoundYields charSigned env b.ptrWidth lo 0 vlo →
        BoundYields charSigned env b.ptrWidth hi s.len vhi →
        (emitSlice b.lenRepr tid field objLen lo hi).eval charSigned env =
          if 0 ≤ vlo ∧ vlo ≤ vhi ∧ vhi ≤ s.len then
            .ok (match field with
              | .ptr => vlo
              | .len => vhi - vlo)
          else .error .abort) ∧
      (∀ c : Construct b, c.BuildsInRange ↔ c.Guarded) ∧
      ∀ (charSigned : Bool) (a : Allocator b) (cs : List (Construct b)) (lens : List ℤ),
        Runs b charSigned a cs lens → (∀ c ∈ cs, c.Guarded) →
          ∀ len ∈ lens, 0 ≤ len ∧ len ≤ b.lenRepr.lenMax :=
  ⟨fun _ _ _ _ _ s i hobj hindex => emitIndex_eval hobj ⟨s.nonneg, s.le_max⟩ hindex i.fits,
    fun _ _ _ _ s _ _ _ _ _ hobj hlo hhi => emitSlice_eval hobj ⟨s.nonneg, s.le_max⟩ hlo hhi,
    Construct.buildsInRange_iff, fun _ _ _ _ h hcs => h.inRange hcs⟩

/-- Element 2 of a slice of 3, under an i8 index. -/
theorem slice_bounds_exact_index :
    (emitIndex .w16 0 (.fixed .int8) (.var (.operand "s") .short)
      (.var (.operand "i") .schar)).eval true
        (fun name => if name = .operand "s" then some 3 else some 2) = .ok 2 := by
  refine (slice_bounds_exact ⟨⟨.w16, .w64⟩, true⟩).1 true 0 _ _ _ ⟨3, by decide, by decide⟩
    ⟨.fixed .int8, 2, by decide⟩ ?_ ?_
  · intro env henv
    rw [eval_var (henv "s")]
    rfl
  · intro env henv
    rw [eval_var (henv "i")]
    rfl

/-- `(i64) (isize) -1`. -/
def pointerWideLen : LenExpr .w64 :=
  .cast (.fixed .int64) (.cast .isize (.intLit ⟨.fixed .int32, -1, by decide⟩))

/-- A module constant whose length the compiler cannot evaluate is built with
length -1. -/
theorem pointerWideLen_built :
    rawParts ⟨⟨.w64, .w64⟩, true⟩ true pointerWideLen = .built (-1) ∧
      ¬∀ (b : Build) (c : Construct b), c.BuildsInRange := by
  have hbuilt : rawParts ⟨⟨.w64, .w64⟩, true⟩ true pointerWideLen = .built (-1) := by
    decide
  refine ⟨hbuilt, fun h => ?_⟩
  have hrange := h ⟨⟨.w64, .w64⟩, true⟩ (.rawParts true pointerWideLen) true (Allocator.generous _)
    (-1) hbuilt
  exact absurd hrange.1 (by decide)

end FcLang.Codegen
