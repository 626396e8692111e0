import FcLang.Codegen.IntEmit

/-!
# Emitted operators

C reads the emitted text by its own types. A literal, `default` and what is
built from them alone have the C type of the digits, not the type of the
expression. `Expr.ctype` is the type a node has in C; the rest says what each
emitted operator gives on operands that carry their values.
-/

namespace FcLang.Codegen
open FcLang.Types

section Types

/-- The C type of an operand, given the one it has on its own. -/
def operandCType {ty : Ty} (isXor : Bool) (operand : Expr ty) (plain : CType) : CType :=
  match isXor, operand with
  | true, .intLit t value _ => (emitIntLit t value true).type
  | _, _ => plain

def hoistedCType (hoist : Bool) (t : IntTy) (plain : CType) : CType :=
  if hoist then emitType t else plain

def IntOp.ctype (op : IntOp) (t : IntTy) (A B : CType) : CType :=
  if op.isArith ∧ (typeIsSubint t ∨ t.signed) then emitType t else CType.usual A B

def Expr.ctype : {ty : Ty} → Expr ty → CType
  | _, .intLit t value _ => (emitIntLit t value false).type
  | _, .charLit _ => .int
  | _, .ident _ ty => ty.emitType
  | _, .dflt _ => .int
  | _, .ifExpr _ a b => CType.usual a.ctype b.ctype
  | .int t, .neg _ _ => emitType t
  | .int t, .tilde a => if typeIsSubint t then emitType t else a.ctype.promote
  | .int t, .binary op a b =>
    if op.isDivmod then CType.usual (emitType t) (emitType t)
    else
      op.ctype t (hoistedCType (Expr.hoists false a b) t (operandCType (op = .caret) a a.ctype))
        (operandCType (op = .caret) b b.ctype)
  | .int t, .shift op a b =>
    match op with
    | .ltlt => emitType t
    | .gtgt => (hoistedCType (Expr.hoists false a b) t a.ctype).promote
  | _, .compare .. => .int
  | _, .cast target _ => emitType target

theorem type_emitBinaryOperand {ty : Ty} (isXor : Bool) (a : Expr ty) (plain : Code) :
    (emitBinaryOperand isXor a plain).type = operandCType isXor a plain.type := by
  cases isXor <;> cases a <;> rfl

theorem type_emitOrdered {hoist : Bool} {t : IntTy} {left right : ℕ → Code × ℕ}
    {op : Code → Code → Code} {A B : CType} {k : CType → CType → CType}
    (hop : ∀ l r, (op l r).type = k l.type r.type) (hl : ∀ n, (left n).1.type = A)
    (hr : ∀ n, (right n).1.type = B) (n : ℕ) :
    (emitOrdered hoist (emitType t) left right op n).1.type = k (hoistedCType hoist t A) B := by
  unfold emitOrdered hoistedCType
  split
  · simp only [CExpr.type, hop, hr]
  · simp only [hop, hl, hr]

theorem type_emitBinaryOp (op : IntOp) (t : IntTy) (l r : Code) :
    (emitBinaryOp op t l r).type = op.ctype t l.type r.type := by
  have bare : ∀ op : IntOp, (CExpr.bin op.toC l r).type = CType.usual l.type r.type := by
    intro op
    cases op <;> rfl
  unfold emitBinaryOp emitIntArith IntOp.ctype
  cases op.isArith with
  | false => simp [bare]
  | true =>
    cases typeIsSubint t with
    | true => simp [CExpr.type]
    | false => cases t.signed <;> simp [CExpr.type, bare]

theorem type_emitIntDivmod (op : IntOp) (hop : op.isDivmod = true) (t : IntTy) (n : ℕ)
    (l r : Code) : (emitIntDivmod op t n l r).type = CType.usual (emitType t) (emitType t) := by
  cases op with
  | slash | percent => cases t <;> rfl
  | _ => cases hop

theorem type_emitExpr {ty : Ty} (e : Expr ty) (n : ℕ) : (emitExpr e n).1.type = e.ctype := by
  induction e generalizing n with
  | intLit t value h => rfl
  | charLit value => rfl
  | ident name ty => rfl
  | dflt t => rfl
  | ifExpr c a b ihc iha ihb => simp only [emitExpr, CExpr.type, Expr.ctype, iha, ihb]
  | neg h a ih => rfl
  | @tilde t a ih =>
    simp only [emitExpr, Expr.ctype]
    split
    · rfl
    · simp only [CExpr.type, ih]
  | @binary t op a b iha ihb =>
    simp only [emitExpr, Expr.ctype]
    split
    · exact type_emitIntDivmod _ ‹_› ..
    · rw [type_emitOrdered (type_emitBinaryOp op t)
        (fun n => (type_emitBinaryOperand _ a _).trans (by rw [iha n]))
        (fun n => (type_emitBinaryOperand _ b _).trans (by rw [ihb n])) n]
  | @shift t s op a b iha ihb =>
    simp only [emitExpr, Expr.ctype]
    cases op with
    | ltlt => exact type_emitOrdered (k := fun _ _ => emitType t) (fun _ _ => rfl) iha ihb n
    | gtgt => exact type_emitOrdered (k := fun A _ => A.promote) (fun _ _ => rfl) iha ihb n
  | @compare t op a b iha ihb =>
    have hop : ∀ l r : Code, (CExpr.bin op.toC l r).type = .int := by
      intro l r
      cases op <;> rfl
    exact type_emitOrdered (k := fun _ _ => .int) hop iha ihb n
  | cast t a ih => rfl

end Types

section Admitted
variable {t : IntTy} {z : ℤ}

/-- The promoted types that C may give an expression of type `t`. -/
def IntTy.ctypes : IntTy → List CType
  | .int8 | .int16 | .uint8 | .uint16 => [.int]
  | .int32 => [.int, .long]
  | .int64 => [.int, .long, .llong]
  | .uint32 => [.int, .uint, .long]
  | .uint64 => [.int, .ulong]

def Ty.ctypes : Ty → List CType
  | .bool => [.int]
  | .int t => t.ctypes

theorem emitType_admitted (ty : Ty) : ty.emitType.promote ∈ ty.ctypes := by
  cases ty with
  | bool => decide
  | int t => cases t <;> decide

theorem usual_admitted {A B : CType} (hA : A.promote ∈ t.ctypes) (hB : B.promote ∈ t.ctypes) :
    CType.usual A B ∈ t.ctypes := by
  cases t <;> cases A <;> cases B <;> revert hA hB <;> decide

theorem signed_of_admitted {A : CType} (hA : A ∈ t.ctypes) (ht : t.signed = true) :
    A.signed = true := by
  cases t <;> cases A <;> revert hA ht <;> decide

theorem format_of_admitted {A : CType} (hA : A ∈ t.ctypes) (hs : A.signed = false) :
    A.format = t.format := by
  cases t <;> cases A <;> revert hA hs <;> decide

theorem format_emitType (t : IntTy) : (emitType t).format = t.format := by
  cases t <;> rfl

theorem format_unsignedCounterpart (t : IntTy) :
    (unsignedCounterpart t).format = ⟨t.bits, false⟩ := by
  cases t <;> rfl

theorem convert_emitType (t : IntTy) (z : ℤ) : (emitType t).convert z = t.wrap z := by
  cases t <;> rfl

theorem convert_unsignedCounterpart (t : IntTy) (z : ℤ) :
    (unsignedCounterpart t).convert z = Format.wrap ⟨t.bits, false⟩ z := by
  cases t <;> rfl

/-- A literal without its sign: the list of its C types starts with two, of
which the second holds it. -/
theorem lit_admitted {hex : Bool} {suffix : CSuffix} {n : ℕ} {c d : CType} {rest : List CType}
    (hl : suffix.candidates hex = c :: d :: rest) (hd : d.format.Fits n)
    (hc : c.promote ∈ t.ctypes) (hd' : c.format.Fits n ∨ d.promote ∈ t.ctypes) :
    (CExpr.lit (ν := Name) hex suffix n).type.promote ∈ t.ctypes := by
  obtain h | ⟨hnc, h⟩ := CExpr.lit_type_two (ν := Name) hl hd
  · rwa [h]
  · rw [h]
    exact hd'.resolve_left hnc

def IntTy.suffix : IntTy → CSuffix
  | .int64 => .l
  | .uint64 => .ul
  | _ => .none

/-- A literal that is not the lowest int64_t: its digits, after a sign. -/
theorem emitIntLit_eq {v : ℤ} (hmin : t = .int64 → v ≠ -2 ^ 63) (hex : Bool) :
    emitIntLit t v hex =
      if v < 0 then .neg (.lit false t.suffix v.natAbs) else .lit hex t.suffix v.natAbs := by
  unfold emitIntLit
  obtain hv | hv := lt_or_ge v 0
  · cases t <;> simp [hv, hv.not_ge, IntTy.suffix]
    exact fun h => absurd h (hmin rfl)
  · cases t <;> simp [hv, hv.not_gt, IntTy.suffix]
    exact fun h => absurd h (hmin rfl)

theorem digits_admitted {n : ℕ} {hex : Bool} (hn : t.Fits n ∨ hex = false ∧ t.Fits (-n))
    (hmin : t = .int64 → n ≠ 2 ^ 63) :
    (CExpr.lit (ν := Name) hex t.suffix n).type.promote ∈ t.ctypes := by
  cases t <;> cases hex <;>
    simp [IntTy.Fits, IntTy.format, IntTy.bits, IntTy.signed, IntTy.prim, Prim.fixedIntBits,
      Prim.isSigned, Format.Fits] at hn hmin <;>
    refine lit_admitted rfl ?_ (by decide) ?_ <;>
    simp [Format.Fits, CType.format, CType.bits, CType.signed, CType.promote, CType.rank,
      IntTy.ctypes] <;> omega

theorem digits_candidate {n : ℕ} {hex : Bool} (hn : t.Fits n ∨ hex = false ∧ t.Fits (-n))
    (hmin : t = .int64 → n ≠ 2 ^ 63) : ∃ c ∈ t.suffix.candidates hex, c.format.Fits n := by
  refine ⟨if t = .uint64 then .ulong else .long, ?_, ?_⟩
  · cases t <;> cases hex <;> decide
  · cases t <;>
      simp [IntTy.Fits, IntTy.format, IntTy.bits, IntTy.signed, IntTy.prim, Prim.fixedIntBits,
        Prim.isSigned, Format.Fits] at hn hmin <;>
      simp [Format.Fits, CType.format, CType.bits, CType.signed] <;> omega

theorem signed_of_neg {v : ℤ} (hv : t.Fits v) (h : v < 0) : t.signed = true := by
  cases hs : t.signed with
  | true => rfl
  | false =>
    have := ((Format.fits_unsigned (f := t.format) hs).mp hv).1
    omega

theorem promote_promote (A : CType) : A.promote.promote = A.promote := by
  cases A <;> rfl

theorem emitIntLit_spec (charSigned : Bool) (env : Name → Option ℤ) {v : ℤ} (hv : t.Fits v)
    (hex : Bool) :
    (emitIntLit t v hex).type.promote ∈ t.ctypes ∧
      (emitIntLit t v hex).eval charSigned env = .ok v := by
  by_cases hmin : t = .int64 ∧ v = -2 ^ 63
  · obtain ⟨rfl, rfl⟩ := hmin
    exact ⟨by cases hex <;> decide, rfl⟩
  · have hmin' : t = .int64 → v ≠ -2 ^ 63 := fun h hv => hmin ⟨h, hv⟩
    rw [emitIntLit_eq hmin']
    split
    · rename_i hneg
      obtain ⟨n, rfl⟩ := Int.exists_eq_neg_ofNat hneg.le
      have hnat : (-(n : ℤ)).natAbs = n := by omega
      have hn : t.Fits n ∨ false = false ∧ t.Fits (-n) := .inr ⟨rfl, hv⟩
      have hn' : t = .int64 → n ≠ 2 ^ 63 := by
        intro ht h
        exact hmin' ht (by rw [h]; norm_num)
      rw [hnat]
      have hA := digits_admitted hn hn'
      have hfits := CExpr.lit_type (ν := Name) (digits_candidate hn hn')
      have hs := signed_of_admitted hA (signed_of_neg hv hneg)
      constructor
      · change CType.promote (CType.promote _) ∈ _
        rwa [promote_promote]
      · simp only [CExpr.eval, hfits.2, CType.result_of_fits]
        exact CType.result_of_fits ((CType.fits_promote hfits.2).neg hs (by positivity))
    · rename_i hneg
      obtain ⟨n, rfl⟩ := Int.eq_ofNat_of_zero_le (not_lt.mp hneg)
      have hn : t.Fits n ∨ hex = false ∧ t.Fits (-n) := .inl hv
      have hn' : t = .int64 → n ≠ 2 ^ 63 := by
        rintro rfl rfl
        revert hv
        decide
      exact ⟨digits_admitted hn hn', CExpr.eval_lit (digits_candidate hn hn')⟩

theorem hoistedCType_admitted {A : CType} (hA : A.promote ∈ t.ctypes) (hoist : Bool) :
    (hoistedCType hoist t A).promote ∈ t.ctypes := by
  cases hoist with
  | true => exact emitType_admitted (.int t)
  | false => exact hA

theorem operandCType_admitted {A : CType} (hA : A.promote ∈ t.ctypes) (isXor : Bool)
    (e : Expr (.int t)) : (operandCType isXor e A).promote ∈ t.ctypes := by
  cases isXor with
  | false => cases e <;> exact hA
  | true =>
    cases e with
    | intLit _ v hv => exact (emitIntLit_spec false (fun _ => none) hv true).1
    | _ => exact hA

theorem intOp_ctype_admitted {A B : CType} (hA : A.promote ∈ t.ctypes) (hB : B.promote ∈ t.ctypes)
    (op : IntOp) : (op.ctype t A B).promote ∈ t.ctypes := by
  unfold IntOp.ctype
  split
  · exact emitType_admitted (.int t)
  · rw [CType.promote_usual]
    exact usual_admitted hA hB

theorem ctype_admitted {ty : Ty} (e : Expr ty) : e.ctype.promote ∈ ty.ctypes := by
  induction e with
  | intLit t v hv => exact (emitIntLit_spec false (fun _ => none) hv false).1
  | charLit value => exact List.mem_singleton.mpr rfl
  | ident name ty => exact emitType_admitted ty
  | dflt t => cases t <;> decide
  | ifExpr c a b ihc iha ihb =>
    rw [Expr.ctype, CType.promote_usual]
    exact usual_admitted iha ihb
  | @neg t h a ih => exact emitType_admitted (.int t)
  | @tilde t a ih =>
    rw [Expr.ctype]
    split
    · exact emitType_admitted (.int t)
    · rwa [promote_promote]
  | @binary t op a b iha ihb =>
    rw [Expr.ctype]
    split
    · rw [CType.promote_usual]
      exact usual_admitted (emitType_admitted (.int t)) (emitType_admitted (.int t))
    · exact intOp_ctype_admitted (hoistedCType_admitted (operandCType_admitted iha _ a) _)
        (operandCType_admitted ihb _ b) op
  | @shift t s op a b iha ihb =>
    cases op with
    | ltlt => exact emitType_admitted (.int t)
    | gtgt =>
      change CType.promote (CType.promote _) ∈ _
      rw [promote_promote]
      exact hoistedCType_admitted iha _
  | compare op a b iha ihb => exact List.mem_singleton.mpr rfl
  | cast target a ih => exact emitType_admitted (.int target)

end Admitted

section Operators
variable {charSigned : Bool} {env : Name → Option ℤ} {t s : IntTy} {l r : Code} {o o' : Option ℤ}
variable {x y : ℤ}

def out : Option ℤ → COut
  | some z => .ok z
  | none => .error .abort

/-- The code `c` gives what an expression of type `t` evaluates to. -/
structure Carries (charSigned : Bool) (env : Name → Option ℤ) (t : IntTy) (c : Code)
    (o : Option ℤ) : Prop where
  admitted : c.type.promote ∈ t.ctypes
  eval : c.eval charSigned env = out o
  fits : ∀ z ∈ o, t.Fits z

theorem Carries.type_fits (h : Carries charSigned env t l (some x)) : l.type.format.Fits x :=
  CExpr.eval_fits l h.eval

theorem nonneg_or_signed (hx : t.Fits x) {A : CType} (hA : A ∈ t.ctypes) :
    0 ≤ x ∨ A.signed = true := by
  cases hs : t.signed with
  | true => exact .inr (signed_of_admitted hA hs)
  | false => exact .inl ((Format.fits_unsigned (f := t.format) hs).mp hx).1

/-- The common type of two operands of type `t` holds what they evaluate to. -/
theorem Carries.usual_left (h : Carries charSigned env t l (some x)) {B : CType}
    (hB : B.promote ∈ t.ctypes) : (CType.usual l.type B).format.Fits x :=
  CType.fits_usual_left h.type_fits
    (nonneg_or_signed (h.fits x rfl) (usual_admitted h.admitted hB))

theorem Carries.usual_right (h : Carries charSigned env t r (some y)) {A : CType}
    (hA : A.promote ∈ t.ctypes) : (CType.usual A r.type).format.Fits y :=
  CType.fits_usual_right h.type_fits
    (nonneg_or_signed (h.fits y rfl) (usual_admitted hA h.admitted))

theorem both_out {k : ℤ → ℤ → COut} {f : ℤ → ℤ → Option ℤ}
    (h : ∀ x ∈ o, ∀ y ∈ o', k x y = out (f x y)) :
    COut.both (out o) (out o') k = out (o.bind fun x => o'.bind fun y => f x y) := by
  cases o with
  | none => cases o' <;> rfl
  | some x =>
    cases o' with
    | none => rfl
    | some y => exact h x rfl y rfl

/-- An operator on operands of one type sees them as they are. -/
theorem Carries.common (hl : Carries charSigned env t l (some x))
    (hr : Carries charSigned env t r (some y)) {op : COp} (hop : op.isShift = false) :
    op.apply l.type r.type x y = op.onCommon (CType.usual l.type r.type) x y := by
  rw [COp.apply_common hop, CType.convert_of_fits (hl.usual_left hr.admitted),
    CType.convert_of_fits (hr.usual_right hl.admitted)]

theorem eval_compare (hl : Carries charSigned env t l o) (hr : Carries charSigned env t r o')
    (op : CmpOp) :
    (CExpr.bin op.toC l r).eval charSigned env =
      out (o.bind fun x => o'.bind fun y => some (if op.holds x y then 1 else 0)) := by
  rw [CExpr.eval, hl.eval, hr.eval]
  apply both_out
  rintro x rfl y rfl
  rw [hl.common hr (by cases op <;> rfl)]
  cases op <;> rfl

theorem eval_bitwise (hl : Carries charSigned env t l o) (hr : Carries charSigned env t r o')
    {op : IntOp} (ha : op.isArith = false) (hd : op.isDivmod = false) :
    (CExpr.bin op.toC l r).eval charSigned env =
      out (o.bind fun x => o'.bind fun y => op.apply t x y) := by
  rw [CExpr.eval, hl.eval, hr.eval]
  apply both_out
  rintro x rfl y rfl
  rw [hl.common hr (by cases op <;> rfl)]
  have hx := hl.usual_left hr.admitted
  have hy := hr.usual_right hl.admitted
  cases op with
  | amp => exact CType.result_of_fits (hx.land hy)
  | pipe => exact CType.result_of_fits (hx.lor hy)
  | caret => exact CType.result_of_fits (hx.xor hy)
  | plus | minus | star => cases ha
  | slash | percent => cases hd

theorem eval_cast {c : Code} (h : c.eval charSigned env = out o) (A : CType) :
    (CExpr.cast A c).eval charSigned env = out (o.map A.convert) := by
  rw [CExpr.eval, h]
  cases o <;> rfl

theorem exact_modEq {n x' y' : ℤ} (op : IntOp) (hx : x ≡ x' [ZMOD n]) (hy : y ≡ y' [ZMOD n]) :
    op.exact x y ≡ op.exact x' y' [ZMOD n] := by
  cases op with
  | plus => exact hx.add hy
  | minus => exact hx.sub hy
  | star => exact hx.mul hy
  | _ => rfl

theorem onCommon_arith {op : IntOp} (ha : op.isArith = true) (A : CType) (x y : ℤ) :
    op.toC.onCommon A x y = A.result (op.exact x y) := by
  cases op <;> first | rfl | cases ha

theorem apply_arith {op : IntOp} (ha : op.isArith = true) (t : IntTy) (x y : ℤ) :
    op.apply t x y = some (t.wrap (op.exact x y)) := by
  cases op <;> first | rfl | cases ha

theorem unsigned_modEq (t : IntTy) (z : ℤ) :
    (unsignedCounterpart t).convert z ≡ z [ZMOD 2 ^ t.bits] := by
  rw [convert_unsignedCounterpart]
  exact Format.wrap_modEq _ z

theorem uint_modEq (ht : typeIsSubint t = true) (z : ℤ) : CType.uint.convert z ≡ z [ZMOD 2 ^ t.bits] :=
  (Format.wrap_modEq CType.uint.format z).of_dvd
    (pow_dvd_pow 2 (by revert ht; cases t <;> decide))

/-- Operands brought to an unsigned type and the result brought back: the
operator is that of the modular integers. -/
theorem eval_modular {op : IntOp} (ha : op.isArith = true) {A : CType}
    (hA : CType.usual A A = A) (hs : A.signed = false) {l r : Code} {f : ℤ → ℤ}
    (hl : l.eval charSigned env = out (o.map f)) (hr : r.eval charSigned env = out (o'.map f))
    (hlt : l.type = A) (hrt : r.type = A) (hf : ∀ z, A.convert (f z) ≡ z [ZMOD 2 ^ t.bits])
    (hb : t.bits ≤ A.bits) {g : ℤ → ℤ} (hg : ∀ z, g z ≡ z [ZMOD 2 ^ t.bits]) :
    ((CExpr.bin op.toC l r).eval charSigned env >>= fun z => .ok (t.wrap (g z))) =
      out (o.bind fun x => o'.bind fun y => op.apply t x y) := by
  rw [CExpr.eval, hl, hr, hlt, hrt]
  cases o with
  | none => cases o' <;> rfl
  | some x =>
    cases o' with
    | none => rfl
    | some y =>
      have hc : op.toC.apply A A (f x) (f y) =
          .ok (A.format.wrap (op.exact (A.convert (f x)) (A.convert (f y)))) := by
        rw [COp.apply_common (by cases op <;> rfl), hA, onCommon_arith ha,
          CType.result_unsigned hs]
      have hw : t.wrap (g (A.format.wrap (op.exact (A.convert (f x)) (A.convert (f y))))) =
          t.wrap (op.exact x y) := by
        apply Format.wrap_congr
        exact (hg _).trans (((Format.wrap_modEq A.format _).of_dvd (pow_dvd_pow 2 hb)).trans
          (exact_modEq op (hf x) (hf y)))
      change (op.toC.apply A A (f x) (f y) >>= _) = out (op.apply t x y)
      rw [hc, apply_arith ha, ← hw]
      rfl

theorem eval_subint {op : IntOp} (ha : op.isArith = true) (ht : typeIsSubint t = true)
    (hl : Carries charSigned env t l o) (hr : Carries charSigned env t r o') :
    (emitBinaryOp op t l r).eval charSigned env =
      out (o.bind fun x => o'.bind fun y => op.apply t x y) := by
  have operand : ∀ {c : Code} {p : Option ℤ}, c.eval charSigned env = out p →
      (CExpr.cast .uint (.cast (unsignedCounterpart t) c)).eval charSigned env =
        out (p.map (CType.uint.convert ∘ (unsignedCounterpart t).convert)) := by
    intro c p h
    rw [eval_cast (eval_cast h _), Option.map_map]
  have hf : ∀ z, CType.uint.convert ((CType.uint.convert ∘ (unsignedCounterpart t).convert) z) ≡ z
      [ZMOD 2 ^ t.bits] := fun z =>
    (uint_modEq ht _).trans ((uint_modEq ht _).trans (unsigned_modEq t z))
  have hb : t.bits ≤ CType.uint.bits := by
    revert ht
    cases t <;> decide
  have modular : ∀ g : ℤ → ℤ, (∀ z, g z ≡ z [ZMOD 2 ^ t.bits]) → _ := fun g hg =>
    eval_modular (t := t) ha (A := .uint) rfl rfl (operand hl.eval) (operand hr.eval) rfl rfl hf hb
      hg
  unfold emitBinaryOp emitIntArith
  simp only [ha, ht, if_true, Option.getD_some]
  cases hs : t.signed with
  | true =>
    rw [← modular (unsignedCounterpart t).convert (unsigned_modEq t)]
    simp only [if_true, CExpr.eval, bind_assoc, convert_emitType]
    rfl
  | false =>
    rw [← modular id fun z => rfl]
    simp only [Bool.false_eq_true, if_false, CExpr.eval, convert_emitType, id_eq]

theorem eval_signed {op : IntOp} (ha : op.isArith = true) (ht : typeIsSubint t = false)
    (hs : t.signed = true) (hl : Carries charSigned env t l o) (hr : Carries charSigned env t r o') :
    (emitBinaryOp op t l r).eval charSigned env =
      out (o.bind fun x => o'.bind fun y => op.apply t x y) := by
  have hA : CType.usual (unsignedCounterpart t) (unsignedCounterpart t) = unsignedCounterpart t := by
    revert ht
    cases t <;> decide
  have hu : (unsignedCounterpart t).signed = false := by cases t <;> rfl
  have hb : t.bits ≤ (unsignedCounterpart t).bits := by cases t <;> decide
  unfold emitBinaryOp emitIntArith
  simp only [ha, ht, hs, if_true, Bool.false_eq_true, if_false, Option.getD_some]
  rw [← eval_modular ha hA hu (eval_cast hl.eval _) (eval_cast hr.eval _) rfl rfl
    (fun z => (unsigned_modEq t _).trans (unsigned_modEq t z)) hb (g := id) (fun z => rfl)]
  simp only [CExpr.eval, convert_emitType, id_eq]
  rfl

/-- The plain operator of an unsigned type of at least 32 bits: right when the
operands have an unsigned C type, and otherwise only without a wraparound. -/
theorem eval_plain {op : IntOp} (ha : op.isArith = true) (ht : typeIsSubint t = false)
    (hs : t.signed = false) (hl : Carries charSigned env t l o)
    (hr : Carries charSigned env t r o') :
    (emitBinaryOp op t l r).eval charSigned env =
        out (o.bind fun x => o'.bind fun y => op.apply t x y) ↔
      ((CType.usual l.type r.type).signed = true → ∀ x ∈ o, ∀ y ∈ o',
        (CType.usual l.type r.type).format.Fits (op.exact x y) ∧ t.Fits (op.exact x y)) := by
  have hplain : emitBinaryOp op t l r = .bin op.toC l r := by
    simp [emitBinaryOp, emitIntArith, ha, ht, hs]
  rw [hplain, CExpr.eval, hl.eval, hr.eval]
  cases o with
  | none =>
    simp only [Option.bind_none, Option.not_mem_none, IsEmpty.forall_iff, implies_true, iff_true]
    cases o' <;> rfl
  | some x =>
    cases o' with
    | none => simp [out, COut.both]
    | some y =>
      change op.toC.apply l.type r.type x y = out (op.apply t x y) ↔ _
      rw [hl.common hr (by cases op <;> rfl), onCommon_arith ha, apply_arith ha]
      have hC := usual_admitted hl.admitted hr.admitted
      simp only [Option.mem_some_iff, forall_eq']
      cases hCs : (CType.usual l.type r.type).signed with
      | false =>
        rw [CType.result_unsigned hCs, format_of_admitted hC hCs]
        simp [out, IntTy.wrap]
      | true =>
        simp only [true_implies]
        constructor
        · intro h
          unfold CType.result at h
          rw [if_neg (by simp [hCs])] at h
          split at h
          · injection h with h
            have hw := t.fits_wrap (op.exact x y)
            rw [← h] at hw
            exact ⟨‹_›, hw⟩
          · cases h
        · rintro ⟨hz, hzt⟩
          rw [CType.result_of_fits hz, IntTy.wrap_of_fits hzt]
          rfl

theorem carries_num {n : ℕ} (hn : n ≤ 100) : Carries charSigned env s (num n) (some n) := by
  have hint : CType.int.format.Fits n := by
    rw [Format.fits_signed rfl]
    change -2 ^ 31 ≤ (n : ℤ) ∧ (n : ℤ) < 2 ^ 31
    omega
  have htype : (num n).type = .int := by
    simp [num, CExpr.type, CSuffix.candidates, hint]
  refine ⟨?_, ?_, ?_⟩
  · rw [htype]
    cases s <;> decide
  · exact CExpr.eval_lit ⟨.int, by decide, hint⟩
  · rintro z ⟨rfl⟩
    cases s <;>
      simp [IntTy.Fits, IntTy.format, IntTy.bits, IntTy.signed, IntTy.prim, Prim.fixedIntBits,
        Prim.isSigned, Format.Fits] <;> omega

def shiftCount (t : IntTy) (r : Code) : Code := .bin .band r (num (shiftMaskFor t))

theorem eval_shiftCount (hr : Carries charSigned env s r o') (t : IntTy) :
    (shiftCount t r).eval charSigned env = out (o'.map (· % t.bits)) := by
  have hmask : Carries charSigned env s (num (shiftMaskFor t)) (some (shiftMaskFor t)) :=
    carries_num (by cases t <;> decide)
  have hland : ∀ y : ℤ, Int.land y (shiftMaskFor t) = y % t.bits := by
    intro y
    cases t with
    | int8 | uint8 => exact Format.land_mask 3 y
    | int16 | uint16 => exact Format.land_mask 4 y
    | int32 | uint32 => exact Format.land_mask 5 y
    | int64 | uint64 => exact Format.land_mask 6 y
  have h : (CExpr.bin IntOp.amp.toC r (num (shiftMaskFor t))).eval charSigned env = _ :=
    eval_bitwise hr hmask rfl rfl
  unfold shiftCount
  rw [show COp.band = IntOp.amp.toC from rfl, h]
  cases o' with
  | none => rfl
  | some y =>
    change out (some (Int.land y (shiftMaskFor t))) = _
    rw [hland]
    rfl

theorem count_bounds (t : IntTy) (y : ℤ) : 0 ≤ y % t.bits ∧ y % t.bits < t.bits := by
  have hb : (0 : ℤ) < t.bits := by exact_mod_cast t.bits_pos
  exact ⟨Int.emod_nonneg y hb.ne', Int.emod_lt_of_pos y hb⟩

/-- The count reaches the shift as it is. -/
theorem convert_count (hr : Carries charSigned env s r (some y)) (t : IntTy) :
    (shiftCount t r).type.promote.convert (y % t.bits) = y % t.bits :=
  CType.convert_of_fits (CType.fits_promote (CExpr.eval_fits _ (eval_shiftCount hr t)))

theorem shl_modEq (t : IntTy) (x : ℤ) {k : ℕ} (hk : k < t.bits) :
    ∃ z, COp.shl.onShift (unsignedCounterpart t).promote ((unsignedCounterpart t).convert x) k =
      .ok z ∧ z ≡ x * 2 ^ k [ZMOD 2 ^ t.bits] := by
  have hfit := (unsignedCounterpart t).fits_convert x
  have hmod := unsigned_modEq t x
  generalize (unsignedCounterpart t).convert x = x' at hfit hmod
  rw [format_unsignedCounterpart, Format.fits_unsigned rfl] at hfit
  have hbits : (t.bits : ℤ) ≤ (unsignedCounterpart t).promote.format.bits := by
    cases t <;> decide
  simp only [COp.onShift, Int.toNat_natCast]
  rw [if_neg (by omega), if_neg (by omega)]
  cases hs : (unsignedCounterpart t).promote.signed with
  | false =>
    refine ⟨_, CType.result_unsigned hs, ?_⟩
    exact ((Format.wrap_modEq _ _).of_dvd (pow_dvd_pow 2 (by exact_mod_cast hbits))).trans
      (hmod.mul_right _)
  | true =>
    refine ⟨_, CType.result_of_fits ?_, hmod.mul_right _⟩
    have hpow : t.bits + (t.bits - 1) ≤ (unsignedCounterpart t).promote.format.bits - 1 := by
      revert hs
      cases t <;> decide
    have hlt : x' * 2 ^ k < 2 ^ ((unsignedCounterpart t).promote.format.bits - 1) :=
      calc x' * 2 ^ k < 2 ^ t.bits * 2 ^ k := by
            apply mul_lt_mul_of_pos_right hfit.2
            positivity
        _ ≤ 2 ^ t.bits * 2 ^ (t.bits - 1) := by
            apply mul_le_mul_of_nonneg_left _ (by positivity)
            exact pow_le_pow_right₀ (by norm_num) (by omega)
        _ = 2 ^ (t.bits + (t.bits - 1)) := (pow_add ..).symm
        _ ≤ _ := pow_le_pow_right₀ (by norm_num) hpow
    have hnn : 0 ≤ x' * 2 ^ k := mul_nonneg hfit.1 (by positivity)
    have hp : (0 : ℤ) < 2 ^ ((unsignedCounterpart t).promote.format.bits - 1) := by positivity
    rw [Format.fits_signed hs]
    omega

theorem eval_shl (hl : Carries charSigned env t l o) (hr : Carries charSigned env s r o') :
    (emitShift .ltlt t l r).eval charSigned env =
      out (o.bind fun x => o'.bind fun y => some (ShiftOp.ltlt.apply t x y)) := by
  have hcode : emitShift .ltlt t l r =
    .cast (emitType t) (.bin .shl (.cast (unsignedCounterpart t) l) (shiftCount t r)) := rfl
  rw [hcode, CExpr.eval, CExpr.eval, eval_cast hl.eval, eval_shiftCount hr]
  cases o with
  | none => cases o' <;> rfl
  | some x =>
    cases o' with
    | none => rfl
    | some y =>
      have hk := count_bounds t y
      obtain ⟨k, hky⟩ := Int.eq_ofNat_of_zero_le hk.1
      obtain ⟨z, hz, hmod⟩ := shl_modEq t x (k := k) (by omega)
      have happly : COp.shl.apply (unsignedCounterpart t) (shiftCount t r).type
          ((unsignedCounterpart t).convert x) (y % t.bits) = .ok z := by
        rw [COp.apply_shift rfl, convert_count hr, CType.convert_of_fits
          (CType.fits_promote ((unsignedCounterpart t).fits_convert x)), hky]
        exact hz
      change (COp.shl.apply _ _ _ _ >>= _) = _
      rw [show (CExpr.cast (unsignedCounterpart t) l).type = unsignedCounterpart t from rfl, happly]
      change Except.ok ((emitType t).convert z) = out (some (t.wrap _))
      rw [convert_emitType, hky, Int.toNat_natCast]
      exact congrArg Except.ok (Format.wrap_congr hmod)

/-- `>>` asks of the promoted left operand that it is wider than the count. -/
theorem eval_shr (hl : Carries charSigned env t l o) (hr : Carries charSigned env s r o') :
    (emitShift .gtgt t l r).eval charSigned env =
        out (o.bind fun x => o'.bind fun y => some (ShiftOp.gtgt.apply t x y)) ↔
      ∀ x ∈ o, ∀ y ∈ o', y % t.bits < l.type.promote.bits := by
  have hcode : emitShift .gtgt t l r = .bin .shr l (shiftCount t r) := rfl
  rw [hcode, CExpr.eval, hl.eval, eval_shiftCount hr]
  cases o with
  | none =>
    simp only [Option.bind_none, Option.not_mem_none, IsEmpty.forall_iff, implies_true, iff_true]
    cases o' <;> rfl
  | some x =>
    cases o' with
    | none => simp [out, COut.both]
    | some y =>
      have hk := count_bounds t y
      have hx := CType.fits_promote hl.type_fits
      simp only [Option.mem_some_iff, forall_eq']
      change COp.shr.apply _ _ x (y % t.bits) = out (some (x / 2 ^ (y % t.bits).toNat)) ↔ _
      rw [COp.apply_shift rfl, convert_count hr, CType.convert_of_fits hx]
      simp only [COp.onShift]
      split
      · rename_i h
        change _ ∨ (l.type.promote.bits : ℤ) ≤ _ at h
        simp only [out, reduceCtorEq, false_iff]
        omega
      · rename_i h
        change ¬(_ ∨ (l.type.promote.bits : ℤ) ≤ _) at h
        rw [CType.result_of_fits (hx.ediv (by positivity))]
        simp only [out, true_iff]
        omega

theorem neg_modEq (t : IntTy) (x : ℤ) :
    ∃ z, (unsignedCounterpart t).promote.result (-(unsignedCounterpart t).convert x) = .ok z ∧
      z ≡ -x [ZMOD 2 ^ t.bits] := by
  have hfit := (unsignedCounterpart t).fits_convert x
  have hmod := (unsigned_modEq t x).neg
  cases hs : (unsignedCounterpart t).promote.signed with
  | false =>
    have hbits : t.bits ≤ (unsignedCounterpart t).promote.format.bits := by
      cases t <;> decide
    refine ⟨_, CType.result_unsigned hs, ?_⟩
    exact ((Format.wrap_modEq _ _).of_dvd (pow_dvd_pow 2 hbits)).trans hmod
  | true =>
    have hnn := hfit
    rw [format_unsignedCounterpart, Format.fits_unsigned rfl] at hnn
    exact ⟨_, CType.result_of_fits ((CType.fits_promote hfit).neg hs hnn.1), hmod⟩

/-- `(T)(-((UT)c))` -/
theorem eval_neg {c : Code} (h : c.eval charSigned env = out o) (t : IntTy) :
    (CExpr.cast (emitType t) (.neg (.cast (unsignedCounterpart t) c))).eval charSigned env =
      out (o.map fun z => t.wrap (-z)) := by
  rw [CExpr.eval, CExpr.eval, eval_cast h]
  cases o with
  | none => rfl
  | some x =>
    obtain ⟨z, hz, hmod⟩ := neg_modEq t x
    change ((unsignedCounterpart t).promote.result _ >>= _) = _
    rw [hz]
    change Except.ok ((emitType t).convert z) = out (some (t.wrap (-x)))
    rw [convert_emitType]
    exact congrArg Except.ok (Format.wrap_congr hmod)

theorem eval_tilde_subint (ht : typeIsSubint t = true) (hl : Carries charSigned env t l o) :
    (CExpr.cast (emitType t) (.compl l)).eval charSigned env =
      out (o.map fun z => t.wrap (-z - 1)) := by
  rw [CExpr.eval, CExpr.eval, hl.eval]
  cases o with
  | none => rfl
  | some x =>
    have hint : l.type.promote.signed = true := by
      have hone : t.ctypes = [.int] := by
        revert ht
        cases t <;> decide
      have hmem := hl.admitted
      rw [hone, List.mem_singleton] at hmem
      rw [hmem]
      rfl
    have hx := (Format.fits_complement hint).mpr (CType.fits_promote hl.type_fits)
    change (l.type.promote.result (-x - 1) >>= _) = _
    rw [CType.result_of_fits hx]
    change Except.ok ((emitType t).convert _) = _
    rw [convert_emitType]
    rfl

/-- A plain `~` needs an unsigned C type where the type is unsigned. -/
theorem eval_tilde (hl : Carries charSigned env t l o) :
    (CExpr.compl l).eval charSigned env = out (o.map fun z => t.wrap (-z - 1)) ↔
      (t.signed = false → o.isSome = true → l.type.promote.signed = false) := by
  rw [CExpr.eval, hl.eval]
  cases o with
  | none => simp [out]; rfl
  | some x =>
    have hx := CType.fits_promote hl.type_fits
    change l.type.promote.result (-x - 1) = out (some (t.wrap (-x - 1))) ↔ _
    cases hs : l.type.promote.signed with
    | false =>
      rw [CType.result_unsigned hs, format_of_admitted hl.admitted hs]
      simp [out, IntTy.wrap]
    | true =>
      rw [CType.result_of_fits ((Format.fits_complement (f := l.type.promote.format) hs).mpr hx)]
      cases ht : t.signed with
      | true =>
        have hfit : t.Fits (-x - 1) :=
          (Format.fits_complement (f := t.format) ht).mpr (hl.fits x rfl)
        simp [out, IntTy.wrap_of_fits hfit]
      | false =>
        have hx0 := ((Format.fits_unsigned (f := t.format) ht).mp (hl.fits x rfl)).1
        have hw := ((Format.fits_unsigned (f := t.format) ht).mp (t.fits_wrap (-x - 1))).1
        simp only [out, Except.ok.injEq, Option.isSome_some, true_implies, reduceCtorEq, iff_false]
        omega

/-- A conditional whose test is known. -/
theorem eval_cond {test a b : Code} {z : ℤ} (ht : test.eval charSigned env = .ok z)
    (ha : a.type.promote ∈ t.ctypes) (hb : b.type.promote ∈ t.ctypes)
    (h : Carries charSigned env t (if z ≠ 0 then a else b) o) :
    (CExpr.cond test a b).eval charSigned env = out o := by
  rw [CExpr.eval, ht]
  change ((if z ≠ 0 then a.eval charSigned env else b.eval charSigned env) >>= fun v =>
    Except.ok ((CType.usual a.type b.type).convert v)) = _
  split at h <;> rename_i hz
  · rw [if_pos hz, h.eval]
    cases o with
    | none => rfl
    | some v =>
      change Except.ok _ = Except.ok v
      rw [CType.convert_of_fits (h.usual_left hb)]
  · rw [if_neg hz, h.eval]
    cases o with
    | none => rfl
    | some v =>
      change Except.ok _ = Except.ok v
      rw [CType.convert_of_fits (h.usual_right ha)]

/-- A quotient or remainder whose divisor is neither 0 nor -1. -/
theorem eval_quotient (hl : Carries charSigned env t l (some x))
    (hr : Carries charSigned env t r (some y)) {op : IntOp} (hop : op.isDivmod = true) (hy : y ≠ 0)
    (hy' : y ≠ -1) : (CExpr.bin op.toC l r).eval charSigned env = out (op.apply t x y) := by
  rw [CExpr.eval, hl.eval, hr.eval]
  change op.toC.apply l.type r.type x y = _
  rw [hl.common hr (by cases op <;> rfl)]
  have hx := hl.usual_left hr.admitted
  have hC := usual_admitted hl.admitted hr.admitted
  have hquot : (CType.usual l.type r.type).format.Fits (x.tdiv y) :=
    hx.tdiv hy hy' fun hs => (nonneg_or_signed (hr.fits y rfl) hC).resolve_right (by
      rw [show (CType.usual l.type r.type).signed = false from hs]
      simp)
  have hquot' : t.Fits (x.tdiv y) :=
    Format.Fits.tdiv (hl.fits x rfl) hy hy' fun hs =>
      ((Format.fits_unsigned (f := t.format) hs).mp (hr.fits y rfl)).1
  cases op with
  | slash =>
    simp only [IntOp.toC, COp.onCommon, IntOp.apply, if_neg hy, CType.result_of_fits hquot,
      IntTy.wrap_of_fits hquot', out]
  | percent =>
    simp only [IntOp.toC, COp.onCommon, IntOp.apply, hy, hquot, not_true, or_self, if_false,
      CType.result_of_fits (hx.tmod y), out]
  | _ => cases hop

/-- The environment gives the variables of the source their contents. -/
def Agrees (ρ : String → ℤ) (env : Name → Option ℤ) : Prop := ∀ x, env (.ident x) = some (ρ x)

theorem Agrees.update {ρ : String → ℤ} (h : Agrees ρ env) {n : Name} (hn : ∀ x, n ≠ .ident x)
    (v : Option ℤ) : Agrees ρ (Function.update env n v) := by
  intro x
  rw [Function.update_of_ne (Ne.symm (hn x))]
  exact h x

theorem carries_var {n : Name} (hn : env n = some x) (hx : t.Fits x) :
    Carries charSigned env t (.var n (emitType t)) (some x) where
  admitted := emitType_admitted (.int t)
  eval := by
    rw [CExpr.eval, hn]
    change Except.ok _ = Except.ok x
    rw [convert_emitType, IntTy.wrap_of_fits hx]
  fits := by
    rintro z ⟨rfl⟩
    exact hx

theorem carries_cast {c : Code} {z : ℤ} (h : c.eval charSigned env = out (some z)) :
    Carries charSigned env t (.cast (emitType t) c) (some (t.wrap z)) where
  admitted := emitType_admitted (.int t)
  eval := by
    rw [eval_cast h, Option.map_some, convert_emitType]
  fits := by
    rintro z ⟨rfl⟩
    exact t.fits_wrap _

theorem carries_minusOne (hs : t.signed = true) :
    Carries charSigned env t (.neg (num 1)) (some (-1)) where
  admitted := by cases t <;> decide
  eval := rfl
  fits := by
    rintro z ⟨rfl⟩
    cases t <;> first | decide | cases hs

/-- What follows the zero test, on the two temporaries. -/
theorem eval_divided (hl : Carries charSigned env t l (some x))
    (hr : Carries charSigned env t r (some y)) {op : IntOp} (hop : op.isDivmod = true) (hy : y ≠ 0)
    (hs : t.signed = true) :
    (CExpr.cond (.bin .eq r (.neg (num 1)))
      (if op = .percent then .cast (emitType t) (num 0)
        else .cast (emitType t) (.neg (.cast (unsignedCounterpart t) l)))
      (.cast (emitType t) (.bin op.toC l r))).eval charSigned env = out (op.apply t x y) := by
  have htest : (CExpr.bin .eq r (.neg (num 1))).eval charSigned env =
      .ok (if y = -1 then 1 else 0) := by
    have h := eval_compare hr (carries_minusOne hs) .eqeq
    simpa [CmpOp.toC, CmpOp.holds, out] using h
  have hcast : ∀ c : Code, (CExpr.cast (emitType t) c).type.promote ∈ t.ctypes := fun c =>
    emitType_admitted (.int t)
  have hthen : (if op = .percent then .cast (emitType t) (num 0)
      else .cast (emitType t) (.neg (.cast (unsignedCounterpart t) l)) : Code).type.promote ∈
      t.ctypes := by
    split <;> exact hcast _
  apply eval_cond htest hthen (hcast _)
  by_cases hm : y = -1
  · subst hm
    rw [if_pos (by simp)]
    have hsome : op.apply t x (-1) = some (if op = .percent then t.wrap 0 else t.wrap (-x)) := by
      cases op with
      | slash => simp [IntOp.apply]
      | percent => simp [IntOp.apply, IntTy.wrap_of_fits t.fits_zero]
      | _ => cases hop
    rw [hsome]
    split
    · exact carries_cast (carries_num (s := t) (by norm_num)).eval
    · exact ⟨hcast _, eval_neg hl.eval t, by
        rintro z ⟨rfl⟩
        exact t.fits_wrap _⟩
  · rw [if_neg (by simp [hm])]
    have hq := eval_quotient hl hr hop hy hm
    obtain ⟨z, hz⟩ : ∃ z, op.apply t x y = some z := by
      cases op with
      | slash | percent => exact ⟨_, if_neg hy⟩
      | _ => cases hop
    rw [hz] at hq ⊢
    have hfit : t.Fits z := IntOp.apply_fits (hl.fits x rfl) (hr.fits y rfl) hz
    have hc := carries_cast (t := t) hq
    rwa [IntTy.wrap_of_fits hfit] at hc

/-- The expression behind the zero test of `emitIntDivmod`. -/
theorem eval_guarded (hl : Carries charSigned env t l (some x))
    (hr : Carries charSigned env t r (some y)) {op : IntOp} (hop : op.isDivmod = true) (hy : y ≠ 0) :
    (if t.signed = false then CExpr.bin op.toC l r
      else if op = .percent then
        .cond (.bin .eq r (.neg (num 1))) (.cast (emitType t) (num 0))
          (.cast (emitType t) (.bin .mod l r))
      else
        .cond (.bin .eq r (.neg (num 1)))
          (.cast (emitType t) (.neg (.cast (unsignedCounterpart t) l)))
          (.cast (emitType t) (.bin .div l r)) : Code).eval charSigned env =
      out (op.apply t x y) := by
  cases hs : t.signed with
  | false =>
    rw [if_pos rfl]
    have hy0 := ((Format.fits_unsigned (f := t.format) hs).mp (hr.fits y rfl)).1
    exact eval_quotient hl hr hop hy (by omega)
  | true =>
    rw [if_neg (by simp)]
    have h := eval_divided hl hr hop hy hs
    cases op with
    | slash | percent => exact h
    | _ => cases hop

theorem eval_divmod {ρ : String → ℤ} {op : IntOp} (hop : op.isDivmod = true)
    (hl : ∀ env, Agrees ρ env → Carries charSigned env t l o)
    (hr : ∀ env, Agrees ρ env → Carries charSigned env t r o') (henv : Agrees ρ env) (tid : ℕ) :
    (emitIntDivmod op t tid l r).eval charSigned env =
      out (o.bind fun x => o'.bind fun y => op.apply t x y) := by
  have notIdent : ∀ z, Name.nv tid ≠ .ident z ∧ Name.dv tid ≠ .ident z := by simp
  have hnv : ∀ v, Agrees ρ (Function.update env (.nv tid) v) :=
    henv.update fun z => (notIdent z).1
  have hdv : ∀ v w, Agrees ρ (Function.update (Function.update env (.nv tid) v) (.dv tid) w) :=
    fun v w => (hnv v).update (fun z => (notIdent z).2) w
  unfold emitIntDivmod
  rw [CExpr.eval, (hl _ (hnv none)).eval]
  cases o with
  | none => rfl
  | some x =>
    have hx : t.Fits x := (hl env henv).fits x rfl
    change CExpr.eval charSigned _ (CExpr.decl ..) = _
    rw [convert_emitType, IntTy.wrap_of_fits hx, CExpr.eval, (hr _ (hdv _ none)).eval]
    cases o' with
    | none => rfl
    | some y =>
      have hy : t.Fits y := (hr env henv).fits y rfl
      change CExpr.eval charSigned _ (CExpr.abortIf ..) = _
      rw [convert_emitType, IntTy.wrap_of_fits hy]
      generalize henv' : Function.update (Function.update env _ _) (Name.dv tid) _ = env'
      have hcl : Carries charSigned env' t (.var (.nv tid) (emitType t)) (some x) := by
        apply carries_var _ hx
        rw [← henv', Function.update_of_ne (by simp), Function.update_self]
      have hcr : Carries charSigned env' t (.var (.dv tid) (emitType t)) (some y) := by
        apply carries_var _ hy
        rw [← henv', Function.update_self]
      have hzero : (CExpr.bin .eq (.var (.dv tid) (emitType t)) (num 0)).eval charSigned env' =
          .ok (if y = 0 then 1 else 0) := by
        have h := eval_compare hcr (carries_num (n := 0) (by norm_num)) .eqeq
        simpa [CmpOp.toC, CmpOp.holds, out] using h
      rw [CExpr.eval, hzero]
      change (if _ ≠ (0 : ℤ) then _ else _) = out (op.apply t x y)
      by_cases h0 : y = 0
      · rw [if_pos (by simp [h0])]
        cases op with
        | slash | percent => simp [IntOp.apply, h0, out]
        | _ => cases hop
      · rw [if_neg (by simp [h0])]
        exact eval_guarded hcl hcr hop h0

/-- An operator on ordered operands, given what it does with operands that are
evaluated in place. -/
theorem eval_emitOrdered {ρ : String → ℤ} {left right : ℕ → Code × ℕ} {op : Code → Code → Code}
    {A B : CType} {res : Option ℤ} {P : CType → CType → Prop} {hoist : Bool}
    (hA : ∀ n, (left n).1.type = A) (hB : ∀ n, (right n).1.type = B)
    (hleft : ∀ n env, Agrees ρ env → Carries charSigned env t (left n).1 o)
    (hright : ∀ n env, Agrees ρ env → Carries charSigned env s (right n).1 o')
    (hop : ∀ l r env, Carries charSigned env t l o → Carries charSigned env s r o' →
      ((op l r).eval charSigned env = out res ↔ P l.type r.type))
    (hnone : o = none → res = none ∧ ∀ A B, P A B) (henv : Agrees ρ env) (n : ℕ) :
    (emitOrdered hoist (emitType t) left right op n).1.eval charSigned env = out res ↔
      P (hoistedCType hoist t A) B := by
  unfold emitOrdered hoistedCType
  cases hoist with
  | false =>
    have h := hop _ _ env (hleft n env henv) (hright (left n).2 env henv)
    rwa [hA, hB] at h
  | true =>
    have hsq : ∀ v, Agrees ρ (Function.update env (.sq n) v) := henv.update (by simp)
    simp only [if_true]
    rw [CExpr.eval, (hleft (n + 1) _ (hsq none)).eval]
    cases ho : o with
    | none =>
      obtain ⟨rfl, hP⟩ := hnone ho
      simp only [hP, iff_true]
      rfl
    | some x =>
      subst ho
      have hx : t.Fits x := (hleft n env henv).fits x rfl
      change (op _ _).eval charSigned _ = out res ↔ _
      rw [convert_emitType, IntTy.wrap_of_fits hx]
      have h := hop _ _ _ (carries_var (Function.update_self ..) hx)
        (hright (left (n + 1)).2 _ (hsq (some x)))
      rwa [hB] at h

end Operators



end FcLang.Codegen
