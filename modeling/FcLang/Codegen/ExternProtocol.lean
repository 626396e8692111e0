import FcLang.Match.Predicate

/-!
# Extern error protocols

An extern function that returns a result names how the C function signals a failure.
Pass1 checks the payload against the protocol. The call keeps the C return in a
temporary, tests it and builds the result, whose code 0 says that there was no failure.
-/

namespace FcLang.Codegen
open Types (Prim)

inductive ExternProtocol where
  | none | error
  | errnoNeg1 | errnoNull
  | status | negErrno | hresult
  | lasterr0 | lasterrNull | lasterrNeg1
  | wsaNeg1
  deriving DecidableEq, Repr

def isIntegerTy : Types.Ty → Bool
  | .prim kind => Match.isInteger kind
  | _ => false

def isSignedTy : Types.Ty → Bool
  | .prim kind => kind.isSigned
  | _ => false

def isVoid : Types.Ty → Bool
  | .prim .void => true
  | _ => false

def isPointer : Types.Ty → Bool
  | .pointer .. | .anyPtr _ => true
  | _ => false

/-- What is reported of a declaration; `typeName` is how a type is shown. -/
def validateExternProtocol (typeName : Types.Ty → String) (srcName : String)
    (proto : ExternProtocol) (ret : Types.Ty) : Option String :=
  let subject := "extern '" ++ srcName ++ "'"
  if proto = .error then none
  else
    match proto, ret with
    | .none, .result _ =>
      some (subject ++ " returns " ++ typeName ret ++ " but declares no error protocol; add " ++
        "`from <protocol>` after the type (errno(-1), errno(null), status, neg_errno, hresult, " ++
        "last_error(<sentinel>), wsa_error(-1))")
    | .none, _ => none
    | proto, .result pay =>
      let payInt := isIntegerTy pay
      let paySint := payInt && isSignedTy pay
      match proto with
      | .errnoNeg1 | .lasterrNeg1 | .wsaNeg1 =>
        if !isVoid pay && !paySint then
          some (subject ++ ": the -1 sentinel needs a signed integer or void payload, got " ++
            typeName pay)
        else none
      | .errnoNull | .lasterrNull =>
        if !isPointer pay then
          some (subject ++ ": the null sentinel needs a pointer payload, got " ++ typeName pay)
        else none
      | .status =>
        if !isVoid pay then
          some (subject ++ ": the status protocol carries no payload (the return value IS the " ++
            "error code); declare void!, got " ++ typeName pay)
        else none
      | .negErrno =>
        if !isVoid pay && !paySint then
          some (subject ++ ": neg_errno reads the code from a negative return; the payload must " ++
            "be a signed integer or void, got " ++ typeName pay)
        else none
      | .hresult =>
        if !isVoid pay && !(match pay with | .prim .int32 => true | _ => false) then
          some (subject ++ ": hresult payload must be i32 (the success-mode HRESULT) or void, got " ++
            typeName pay)
        else none
      | .lasterr0 =>
        if !isVoid pay && !payInt then
          some (subject ++ ": the 0 sentinel needs an integer or void payload, got " ++ typeName pay)
        else none
      | _ => none
    | _, _ =>
      some (subject ++ " declares an error protocol but returns " ++
        (match ret with | .null => "void" | ret => typeName ret) ++ ", not a result type (T!)")

inductive Var where
  | xv | xe
  deriving DecidableEq

/-- A condition on the temporary. -/
inductive Test where
  | expr (e : CExpr Var)
  | isNull

inductive CodeSource where
  | errno | lastError | wsaLastError
  deriving DecidableEq, Repr

/-- The type of a code source. A `DWORD` has 32 bits and no sign. -/
def CodeSource.type : CodeSource → CType
  | .errno | .wsaLastError => .int
  | .lastError => .uint

/-- The statement expression of a call. The temporary of a pointer payload has no integer
type. -/
inductive CallCode where
  /-- `(T!){ .err = (int32_t)f(…) }` -/
  | status
  /-- The code is the return value where it is negative. -/
  | negative (temp : CType) (payVoid : Bool)
  /-- The code is elsewhere where the return value is the sentinel. -/
  | sentinel (temp : Option CType) (test : Test) (source : CodeSource) (payVoid : Bool)

/-- The C type of the temporary for a payload. -/
def tempType (proto : ExternProtocol) (pay : Types.Ty) : Option CType :=
  if isVoid pay then some (if proto = .hresult then .int else .llong)
  else
    match pay with
    | .prim kind => some (Match.emitKind kind)
    | _ => none

def minusOne : CExpr Var := .neg (.lit false .none 1)

def emitProtocolExternCall (proto : ExternProtocol) (pay : Types.Ty) : CallCode :=
  let temp := tempType proto pay
  let payVoid := isVoid pay
  let xv := CExpr.var Var.xv (temp.getD .llong)
  match proto with
  | .status => .status
  | .negErrno | .hresult => .negative (temp.getD .llong) payVoid
  | proto =>
    let test :=
      match proto with
      | .errnoNull | .lasterrNull => Test.isNull
      | .lasterr0 => .expr (.bin .eq xv (.lit false .none 0))
      | _ => .expr (.bin .eq xv minusOne)
    let source :=
      match proto with
      | .errnoNeg1 | .errnoNull => CodeSource.errno
      | .wsaNeg1 => .wsaLastError
      | _ => .lastError
    .sentinel temp test source payVoid

/-- A value of `T!`. A payload of type void is not there. -/
structure CResult where
  err : ℤ
  value : Option ℤ
  deriving DecidableEq, Repr

/-- What the temporary is initialized with. -/
def tempValue (temp : Option CType) (raw : ℤ) : ℤ := (temp.map fun t => t.convert raw).getD raw

/-- The temporary holds `xv`. -/
def tempEnv (xv : ℤ) : Var → Option ℤ
  | .xv => some xv
  | .xe => none

def Test.run (charSigned : Bool) (xv : ℤ) : Test → COut
  | .expr e => e.eval charSigned (tempEnv xv)
  | .isNull => .ok (if xv = 0 then 1 else 0)

/-- The result of the call if the C function returned `raw` and `code` is at the code source. -/
def CallCode.run (charSigned : Bool) (raw code : ℤ) : CallCode → Except Stop CResult
  | .status => .ok ⟨CType.int.convert raw, none⟩
  | .negative temp payVoid => do
    let xv := temp.convert raw
    let negative := CExpr.bin .lt (.var Var.xv temp) (.lit false .none 0)
    let narrowed := CExpr.cast .int (.var Var.xv temp)
    if payVoid then
      let err ← (CExpr.cond negative narrowed (.lit false .none 0)).eval charSigned (tempEnv xv)
      .ok ⟨CType.int.convert err, none⟩
    else
      let test ← negative.eval charSigned (tempEnv xv)
      if test ≠ 0 then
        let err ← narrowed.eval charSigned (tempEnv xv)
        .ok ⟨CType.int.convert err, some 0⟩
      else .ok ⟨0, some xv⟩
  | .sentinel temp test source payVoid => do
    let xv := tempValue temp raw
    let failed ← test.run charSigned xv
    if failed ≠ 0 then
      let xe := CType.int.convert (source.type.convert code)
      -- fc_zero_err
      if xe = 0 then .error .abort
      else .ok ⟨xe, if payVoid then none else some 0⟩
    else .ok ⟨0, if payVoid then none else some xv⟩

/-- The failure test of a protocol. -/
def ExternProtocol.failed (proto : ExternProtocol) (raw : ℤ) : Prop :=
  match proto with
  | .errnoNeg1 | .lasterrNeg1 | .wsaNeg1 => raw = -1
  | .errnoNull | .lasterrNull | .lasterr0 => raw = 0
  | .status => raw ≠ 0
  | .negErrno | .hresult => raw < 0
  | .none | .error => False

instance (proto : ExternProtocol) (raw : ℤ) : Decidable (proto.failed raw) :=
  match proto with
  | .errnoNeg1 | .lasterrNeg1 | .wsaNeg1 => inferInstanceAs (Decidable (raw = -1))
  | .errnoNull | .lasterrNull | .lasterr0 => inferInstanceAs (Decidable (raw = 0))
  | .status => inferInstanceAs (Decidable (raw ≠ 0))
  | .negErrno | .hresult => inferInstanceAs (Decidable (raw < 0))
  | .none | .error => inferInstanceAs (Decidable False)

/-- The return value itself is the code. -/
def ExternProtocol.inBand (proto : ExternProtocol) : Prop :=
  proto = .status ∨ proto = .negErrno ∨ proto = .hresult

/-- Where the code is if it is not the return value. -/
def ExternProtocol.source : ExternProtocol → CodeSource
  | .errnoNeg1 | .errnoNull => .errno
  | .wsaNeg1 => .wsaLastError
  | _ => .lastError

/-- What a C function can return for a payload: a value of the payload's type. Where there is
no payload, a status that `long long` holds, and for `hresult` an HRESULT, which has 32 bits. -/
def RawFits (proto : ExternProtocol) (pay : Types.Ty) (raw : ℤ) : Prop :=
  match pay with
  | .prim .void => (if proto = .hresult then CType.int else .llong).format.Fits raw
  | .prim kind => (Match.emitKind kind).format.Fits raw
  | _ => 0 ≤ raw ∧ raw < 2 ^ 64

/-- A declaration with a protocol that pass1 accepts. -/
def Accepted (proto : ExternProtocol) (pay : Types.Ty) : Prop :=
  proto ≠ .none ∧ proto ≠ .error ∧
    ∀ typeName srcName, validateExternProtocol typeName srcName proto (.result pay) = none

/-- The result is an error with a code exactly where the failure test holds, except that a
code source of 0 aborts, and the unchanged return value elsewhere. -/
def Faithful (charSigned : Bool) (proto : ExternProtocol) (pay : Types.Ty) (raw code : ℤ) : Prop :=
  let out := (emitProtocolExternCall proto pay).run charSigned raw code
  (proto.failed raw → ¬proto.inBand → code = 0 → out = .error .abort) ∧
    (proto.failed raw → proto.inBand ∨ code ≠ 0 → ∃ r, out = .ok r ∧ r.err ≠ 0) ∧
    (¬proto.failed raw → out = .ok ⟨0, if isVoid pay then none else some raw⟩)

/-- A code that is lost in 32 bits. -/
def CodeLost (proto : ExternProtocol) (raw : ℤ) : Prop :=
  proto.inBand ∧ proto.failed raw ∧ 2 ^ 32 ∣ raw

section Tests
variable {charSigned : Bool} {t : CType} {z : ℤ}

theorem int_convert_eq_zero (z : ℤ) : CType.int.convert z = 0 ↔ 2 ^ 32 ∣ z := by
  have hconvert : CType.int.convert z = CType.int.format.wrap z := rfl
  have hmod := CType.int.format.wrap_modEq z
  rw [hconvert]
  constructor
  · intro h
    rw [h] at hmod
    exact Int.modEq_zero_iff_dvd.mp hmod.symm
  · intro h
    have hzero : CType.int.format.wrap z = CType.int.format.wrap 0 :=
      Format.wrap_congr (Int.modEq_zero_iff_dvd.mpr h)
    rw [hzero]
    rfl

/-- A comparison of the temporary with an `int` is one of the values. -/
theorem eval_temp_compare {op : COp} (hop : op.isComparison = true) {n : ℤ} {right : CExpr Var}
    (htype : right.type = .int) (heval : right.eval charSigned (tempEnv z) = .ok n)
    (hz : t.format.Fits z) (hn : CType.int.format.Fits n)
    (hsign : t.signed = true ∨ 0 ≤ z ∧ 0 ≤ n) :
    (CExpr.bin op (.var Var.xv t) right).eval charSigned (tempEnv z) =
      .ok (if op.holds z n then 1 else 0) := by
  have hshift : op.isShift = false := by
    revert hop
    cases op <;> decide
  have hpromote : t.signed = true → (CType.usual t .int).signed = true := by
    cases t <;> decide
  have hleft : (CType.usual t .int).convert z = z :=
    CType.convert_of_fits (CType.fits_usual_left hz (hsign.symm.imp (·.1) hpromote))
  have hright : (CType.usual t .int).convert n = n :=
    CType.convert_of_fits (CType.fits_usual_right hn (hsign.symm.imp (·.2) hpromote))
  have hvar : (CExpr.var Var.xv t).eval charSigned (tempEnv z) = .ok (t.convert z) := rfl
  rw [CExpr.eval, hvar, heval, CType.convert_of_fits hz, CExpr.both_ok, htype]
  change op.apply t .int z n = _
  rw [COp.apply_common hshift, hleft, hright, COp.onCommon_comparison hop]

theorem eval_minusOne : minusOne.eval charSigned (tempEnv z) = .ok (-1) := rfl

theorem eval_zero : (CExpr.lit false .none 0).eval charSigned (tempEnv z) = .ok 0 := rfl

theorem eval_negative (hz : t.format.Fits z) (hsigned : t.signed = true) :
    (CExpr.bin .lt (.var Var.xv t) (.lit false .none 0)).eval charSigned (tempEnv z) =
      .ok (if z < 0 then 1 else 0) := by
  have h := @eval_temp_compare charSigned t z .lt rfl 0 _ rfl eval_zero hz (by decide) (.inl hsigned)
  simpa [COp.holds] using h

theorem eval_narrowed (hz : t.format.Fits z) :
    (CExpr.cast .int (.var Var.xv t)).eval charSigned (tempEnv z) = .ok (CType.int.convert z) := by
  have hvar : (CExpr.var Var.xv t).eval charSigned (tempEnv z) = .ok (t.convert z) := rfl
  rw [CExpr.eval, hvar, CType.convert_of_fits hz]
  rfl

theorem int_convert_idem (z : ℤ) :
    CType.int.convert (CType.int.convert z) = CType.int.convert z :=
  CType.convert_of_fits (CType.fits_convert .int z)

theorem ok_bind {α β : Type} (x : α) (f : α → Except Stop β) : (Except.ok x >>= f) = f x := rfl

theorem eval_negative_or_zero (hz : t.format.Fits z) (hsigned : t.signed = true) :
    (CExpr.cond (.bin .lt (.var Var.xv t) (.lit false .none 0)) (.cast .int (.var Var.xv t))
        (.lit false .none 0)).eval charSigned (tempEnv z) =
      .ok (if z < 0 then CType.int.convert z else 0) := by
  have htype : CType.usual (CExpr.cast .int (.var Var.xv t)).type
      (CExpr.lit false .none 0 : CExpr Var).type = .int := rfl
  rw [CExpr.eval, eval_negative hz hsigned, ok_bind, htype]
  by_cases hneg : z < 0
  · rw [if_pos hneg, if_pos hneg, if_pos (by decide), eval_narrowed hz, ok_bind, int_convert_idem]
  · rw [if_neg hneg, if_neg hneg, if_neg (by decide), eval_zero, ok_bind]
    rfl

/-- A call whose code is its negative return value. -/
theorem run_negative (hz : t.format.Fits z) (hsigned : t.signed = true) (payVoid : Bool)
    (code : ℤ) :
    (CallCode.negative t payVoid).run charSigned z code =
      .ok (if z < 0 then ⟨CType.int.convert z, if payVoid then none else some 0⟩
        else ⟨0, if payVoid then none else some z⟩) := by
  unfold CallCode.run
  simp only [CType.convert_of_fits hz, eval_negative_or_zero hz hsigned, eval_negative hz hsigned,
    eval_narrowed hz, ok_bind]
  by_cases hneg : z < 0
  · cases payVoid <;> simp [hneg, int_convert_idem]
  · cases payVoid with
    | true =>
      rw [if_pos rfl, if_neg hneg, if_neg hneg]
      rfl
    | false => rw [if_neg (by decide), if_neg hneg, if_neg hneg, if_neg (by decide), if_neg (by decide)]

/-- A code of a code source is kept. -/
theorem convert_code {source : CodeSource} {code : ℤ} (hcode : source.type.format.Fits code)
    (h : CType.int.convert code = 0) : code = 0 := by
  have hdvd := (int_convert_eq_zero code).mp h
  have hbounds : -2 ^ 31 ≤ code ∧ code < 2 ^ 32 := by
    cases source with
    | lastError =>
      have hrange := (Format.fits_unsigned rfl).mp hcode
      change 0 ≤ code ∧ code < 2 ^ 32 at hrange
      omega
    | errno | wsaLastError =>
      have hrange := (Format.fits_signed rfl).mp hcode
      change -2 ^ 31 ≤ code ∧ code < 2 ^ 31 at hrange
      omega
  omega

/-- A call whose code is elsewhere. -/
theorem run_sentinel {temp : Option CType} (hz : ∀ t ∈ temp, t.format.Fits z) {test : Test}
    {sentinel : ℤ}
    (htest : test.run charSigned z = .ok (if z = sentinel then 1 else 0)) {source : CodeSource}
    {code : ℤ} (hcode : source.type.format.Fits code) (payVoid : Bool) :
    (CallCode.sentinel temp test source payVoid).run charSigned z code =
      if z = sentinel then
        if code = 0 then .error .abort
        else .ok ⟨CType.int.convert code, if payVoid then none else some 0⟩
      else .ok ⟨0, if payVoid then none else some z⟩ := by
  have hxv : tempValue temp z = z := by
    cases temp with
    | none => rfl
    | some t => exact CType.convert_of_fits (hz t rfl)
  have hzero : CType.int.convert code = 0 ↔ code = 0 :=
    ⟨convert_code hcode, fun h => by rw [h]; rfl⟩
  unfold CallCode.run
  simp only [hxv, htest, ok_bind, CType.convert_of_fits hcode]
  by_cases hfail : z = sentinel
  · rw [if_pos hfail, if_pos hfail, if_pos (by decide)]
    by_cases hnone : code = 0
    · rw [if_pos (hzero.mpr hnone), if_pos hnone]
    · rw [if_neg fun h => hnone (hzero.mp h), if_neg hnone]
  · rw [if_neg hfail, if_neg hfail, if_neg (by decide)]

end Tests

section Protocols
variable {charSigned : Bool} {proto : ExternProtocol} {pay : Types.Ty} {raw code : ℤ}

theorem emitKind_signed {kind : Prim} (h : Match.isInteger kind = true) :
    (Match.emitKind kind).signed = kind.isSigned := by
  revert h
  cases kind <;> decide

theorem isVoid_eq (h : isVoid pay = true) : pay = .prim .void := by
  unfold isVoid at h
  split at h
  · rfl
  · cases h

theorem isInteger_eq (h : isIntegerTy pay = true) :
    ∃ kind, pay = .prim kind ∧ Match.isInteger kind = true := by
  unfold isIntegerTy at h
  split at h
  · exact ⟨_, rfl, h⟩
  · cases h

/-- The temporary of an integer payload or of none holds every return value. -/
theorem temp_integer (hpay : isVoid pay = true ∨ isIntegerTy pay = true)
    (hraw : RawFits proto pay raw) :
    ∃ t, tempType proto pay = some t ∧ t.format.Fits raw ∧
      (isVoid pay = true ∨ isSignedTy pay = true → t.signed = true) ∧
      (t.signed = true ∨ 0 ≤ raw) := by
  obtain hvoid | hint := hpay
  · obtain rfl := isVoid_eq hvoid
    refine ⟨_, rfl, hraw, fun _ => ?_, .inl ?_⟩ <;> split_ifs <;> rfl
  · obtain ⟨kind, rfl, hkind⟩ := isInteger_eq hint
    have hvoid : isVoid (.prim kind) = false := by cases kind <;> first | rfl | cases hkind
    have htemp : tempType proto (.prim kind) = some (Match.emitKind kind) := by
      rw [tempType, if_neg (by simp [hvoid])]
    have hfits : (Match.emitKind kind).format.Fits raw := by
      cases kind <;> first | exact hraw | cases hkind
    refine ⟨_, htemp, hfits, ?_, ?_⟩
    · rw [hvoid, emitKind_signed hkind]
      rintro (h | h)
      · cases h
      · exact h
    · cases hs : (Match.emitKind kind).signed with
      | true => exact .inl rfl
      | false => exact .inr ((Format.fits_unsigned hs).mp hfits).1

/-- What pass1 accepts. -/
theorem accepted_payload (h : Accepted proto pay) :
    match proto with
    | .none | .error => False
    | .status => isVoid pay = true
    | .errnoNull | .lasterrNull => isPointer pay = true
    | .lasterr0 => isVoid pay = true ∨ isIntegerTy pay = true
    | _ => (isVoid pay = true ∨ isIntegerTy pay = true) ∧
        (isVoid pay = true ∨ isSignedTy pay = true) := by
  obtain ⟨hnone, herror, hvalid⟩ := h
  have hvalid := hvalid (fun _ => "") ""
  unfold validateExternProtocol at hvalid
  dsimp only at hvalid
  rw [if_neg herror] at hvalid
  cases proto with
  | none => exact hnone rfl
  | error => exact herror rfl
  | hresult =>
    simp only [ite_eq_right_iff, reduceCtorEq, imp_false, Bool.and_eq_true, not_and,
      Bool.not_eq_true', Bool.not_eq_false] at hvalid
    by_cases hvoid : isVoid pay = true
    · exact ⟨.inl hvoid, .inl hvoid⟩
    · have hint := hvalid (by simpa using hvoid)
      split at hint
      · exact ⟨.inr rfl, .inr rfl⟩
      · cases hint
  | status | errnoNull | lasterrNull | lasterr0 | errnoNeg1 | lasterrNeg1 | wsaNeg1 | negErrno =>
    simp only [ite_eq_right_iff, reduceCtorEq, imp_false, Bool.and_eq_true, not_and,
      Bool.not_eq_true', Bool.not_eq_false] at hvalid
    first
      | exact hvalid
      | (by_cases hvoid : isVoid pay = true
         · first | exact .inl hvoid | exact ⟨.inl hvoid, .inl hvoid⟩
         · have hint := hvalid (by simpa using hvoid)
           first | exact .inr hint | exact ⟨.inr hint.1, .inr hint.2⟩)

/-- A call whose code is the return value is faithful unless the code is lost. -/
theorem faithful_inBand (hband : proto.inBand) (z : Option ℤ)
    (hrun : (emitProtocolExternCall proto pay).run charSigned raw code =
      .ok (if proto.failed raw then ⟨CType.int.convert raw, z⟩
        else ⟨0, if isVoid pay then none else some raw⟩)) :
    Faithful charSigned proto pay raw code ↔ ¬CodeLost proto raw := by
  unfold Faithful CodeLost
  dsimp only
  rw [hrun]
  by_cases hfail : proto.failed raw
  · rw [if_pos hfail]
    constructor
    · rintro ⟨-, herr, -⟩ ⟨-, -, hlost⟩
      obtain ⟨r, hr, hne⟩ := herr hfail (.inl hband)
      cases hr
      exact hne ((int_convert_eq_zero raw).mpr hlost)
    · intro hkept
      refine ⟨fun _ hout => absurd hband hout, fun _ _ => ⟨_, rfl, fun hzero => ?_⟩,
        fun hok => absurd hfail hok⟩
      exact hkept ⟨hband, hfail, (int_convert_eq_zero raw).mp hzero⟩
  · rw [if_neg hfail]
    exact ⟨fun _ hlost => hfail hlost.2.1, fun _ => ⟨fun h => absurd h hfail,
      fun h => absurd h hfail, fun _ => rfl⟩⟩

/-- A call whose code is elsewhere is faithful. -/
theorem faithful_outOfBand (hband : ¬proto.inBand) (sentinel : ℤ) (z : Option ℤ)
    (hsentinel : proto.failed raw ↔ raw = sentinel)
    (hkept : CType.int.convert code = 0 → code = 0)
    (hrun : (emitProtocolExternCall proto pay).run charSigned raw code =
      if raw = sentinel then
        if code = 0 then .error .abort else .ok ⟨CType.int.convert code, z⟩
      else .ok ⟨0, if isVoid pay then none else some raw⟩) :
    Faithful charSigned proto pay raw code ↔ ¬CodeLost proto raw := by
  refine iff_of_true ?_ fun hlost => hband hlost.1
  unfold Faithful
  dsimp only
  rw [hrun, hsentinel]
  by_cases hfail : raw = sentinel
  · rw [if_pos hfail]
    refine ⟨fun _ _ hzero => if_pos hzero, fun _ hcode => ?_, fun hok => absurd hfail hok⟩
    have hcode := hcode.resolve_left hband
    rw [if_neg hcode]
    exact ⟨_, rfl, fun hzero => hcode (hkept hzero)⟩
  · rw [if_neg hfail]
    exact ⟨fun h => absurd h hfail, fun h => absurd h hfail, fun _ => rfl⟩

/-- An accepted call translates faithfully exactly where no code is lost. -/
theorem faithful_iff_kept (charSigned : Bool) (h : Accepted proto pay)
    (hraw : RawFits proto pay raw) (hcode : proto.source.type.format.Fits code) :
    Faithful charSigned proto pay raw code ↔ ¬CodeLost proto raw := by
  have hpay := accepted_payload h
  have hkept := convert_code hcode
  cases proto with
  | none => exact hpay.elim
  | error => exact hpay.elim
  | status =>
    refine faithful_inBand (.inl rfl) none ?_
    have hvoid : isVoid pay = true := hpay
    rw [hvoid]
    by_cases hzero : raw = 0
    · subst hzero
      rfl
    · have hfail : ExternProtocol.status.failed raw := hzero
      rw [if_pos hfail]
      rfl
  | negErrno | hresult =>
    obtain ⟨hint, hsigned⟩ := hpay
    obtain ⟨t, htemp, hfits, hsign, -⟩ := temp_integer hint hraw
    have hrun := @run_negative charSigned t raw hfits (hsign hsigned) (isVoid pay) code
    refine faithful_inBand (by unfold ExternProtocol.inBand; decide)
      (if isVoid pay then none else some 0) ?_
    unfold emitProtocolExternCall
    simp only [htemp, Option.getD_some]
    exact hrun
  | errnoNull | lasterrNull =>
    refine faithful_outOfBand (by unfold ExternProtocol.inBand; decide) 0
      (if isVoid pay then none else some 0) Iff.rfl hkept (run_sentinel ?_ rfl hcode _)
    intro t htemp
    cases pay <;> first | cases htemp | cases hpay
  | lasterr0 =>
    obtain ⟨t, htemp, hfits, -, hsign⟩ := temp_integer hpay hraw
    refine faithful_outOfBand (by unfold ExternProtocol.inBand; decide) 0
      (if isVoid pay then none else some 0) Iff.rfl hkept (run_sentinel ?_ ?_ hcode _)
    · rw [htemp]
      rintro u ⟨⟩
      exact hfits
    · have htest := @eval_temp_compare charSigned t raw .eq rfl 0 _ rfl eval_zero hfits (by decide)
        (hsign.imp id fun hpos => ⟨hpos, le_rfl⟩)
      simpa [htemp, Test.run, COp.holds] using htest
  | errnoNeg1 | lasterrNeg1 | wsaNeg1 =>
    obtain ⟨hint, hsigned⟩ := hpay
    obtain ⟨t, htemp, hfits, hsign, -⟩ := temp_integer hint hraw
    refine faithful_outOfBand (by unfold ExternProtocol.inBand; decide) (-1)
      (if isVoid pay then none else some 0) Iff.rfl hkept (run_sentinel ?_ ?_ hcode _)
    · rw [htemp]
      rintro u ⟨⟩
      exact hfits
    · have htest := @eval_temp_compare charSigned t raw .eq rfl (-1) minusOne rfl eval_minusOne hfits
        (by decide) (.inl (hsign hsigned))
      simpa [htemp, Test.run, COp.holds] using htest

end Protocols

/-- A failing `open` is the error 2. -/
theorem faithful_iff_kept_errno :
    Faithful true .errnoNeg1 (.prim .int32) (-1) 2 ↔ ¬CodeLost .errnoNeg1 (-1) := by
  refine faithful_iff_kept true ⟨by decide, by decide, fun _ _ => rfl⟩ ?_ ?_
  · change CType.int.format.Fits (-1)
    decide
  · change CType.int.format.Fits 2
    decide

/-- A return value of `-2 ^ 32` is an `ok` of the protocol `neg_errno`. -/
theorem negErrno_loses_failure :
    Accepted .negErrno (.prim .int64) ∧ RawFits .negErrno (.prim .int64) (-2 ^ 32) ∧
      (emitProtocolExternCall .negErrno (.prim .int64)).run true (-2 ^ 32) 0 = .ok ⟨0, some 0⟩ ∧
      ¬Faithful true .negErrno (.prim .int64) (-2 ^ 32) 0 := by
  have hrun : (emitProtocolExternCall .negErrno (.prim .int64)).run true (-2 ^ 32) 0 =
      .ok ⟨0, some 0⟩ := by rfl
  refine ⟨⟨by decide, by decide, fun _ _ => rfl⟩, ?_, hrun, ?_⟩
  · change CType.long.format.Fits (-2 ^ 32)
    decide
  · rintro ⟨-, herr, -⟩
    obtain ⟨r, hr, hne⟩ := herr (by decide) (.inl (.inr (.inl rfl)))
    rw [hrun] at hr
    cases hr
    exact hne rfl

end FcLang.Codegen
