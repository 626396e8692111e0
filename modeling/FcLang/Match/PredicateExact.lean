import FcLang.Match.Predicate

/-!
# The C of a pattern is exact

On the object of a value of its type, the predicate of a pattern is defined and
says whether the pattern matches, a char literal of byte 128 or more aside, and
the paths of its bindings lead to the components that it binds.
-/

namespace FcLang.Match
open FcLang.Types (Prim)

variable {charSigned once : Bool} {o : CObj} {path : Path} {t inner : Ty} {v w : Val}
  {types : List (String × Ty)} {vs : List (String × Val)}

section Objects

theorem read_snoc {o' : CObj} (h : o.read path = some o') (a : Access) :
    o.read (path ++ [a]) = o'.member a := by
  rw [CObj.read] at h ⊢
  rw [List.foldlM_append, h]
  simp

theorem scalarAt_eq {z : ℤ} (h : o.read path = some (.scalar z)) : o.scalarAt path = some z := by
  rw [CObj.scalarAt, h]

theorem exists_field {name : String} (names : vs.map Prod.fst = types.map Prod.fst)
    (vals : List.Forall₂ (HasTy false) (vs.map Prod.snd) (types.map Prod.snd))
    (ht : types.lookup name = some t) :
    ∃ v, vs.lookup name = some v ∧ HasTy false v t ∧
      (reprFields types vs).lookup name = some (repr t v) := by
  induction types generalizing vs with
  | nil => cases ht
  | cons f types ih =>
    obtain ⟨name', t'⟩ := f
    cases vs with
    | nil => cases vals
    | cons g vs =>
      obtain ⟨name'', v'⟩ := g
      obtain ⟨hhead, hnames⟩ := List.cons.inj names
      obtain rfl : name'' = name' := hhead
      cases vals with
      | cons hv vals =>
        simp only [List.lookup_cons, reprFields] at ht ⊢
        cases hname : name == name'' with
        | true =>
          rw [hname] at ht
          cases ht
          exact ⟨v', rfl, hv, rfl⟩
        | false =>
          rw [hname] at ht
          exact ih hnames vals ht

theorem read_payload {first : String × Option Ty} {rest : List (String × Option Ty)} {name : String}
    {payload : Ty} (hl : (Ty.union first rest).variants.lookup name = some (some payload))
    (hr : o.read path = some (repr (.union first rest) (.variant name (some v)))) :
    o.read (path ++ [.payload name]) = some (repr payload v) := by
  rw [read_snoc hr, repr, CObj.member, if_pos rfl,
    show ((first :: rest).lookup name).join = some payload from congrArg Option.join hl]
  rfl

theorem read_elem {members : List (String × CObj)} {i : ℕ} {name name' : String}
    (hr : o.read path = some (.agg members))
    (hd : members.drop i = reprFields ((name, t) :: types) ((name', v) :: vs)) :
    o.read (path ++ [.elem i]) = some (repr t v) ∧ members.drop (i + 1) = reprFields types vs := by
  have hi : members[i]? = some (name', repr t v) := by
    rw [← List.head?_drop, hd]
    rfl
  constructor
  · rw [read_snoc hr, CObj.member, hi]
    rfl
  · rw [← List.tail_drop, hd]
    rfl

theorem evalAll_append (cs ds : List Cond) :
    evalAll charSigned o (cs ++ ds) =
      match evalAll charSigned o cs with
      | some true => evalAll charSigned o ds
      | r => r := by
  induction cs with
  | nil => simp [evalAll]
  | cons c cs ih =>
    rw [List.cons_append, evalAll, evalAll]
    cases c.eval charSigned o with
    | none => rfl
    | some b => cases b <;> simp [ih]

theorem evalAll_and {cs ds : List Cond} {a b : Bool} (ha : evalAll charSigned o cs = some a)
    (hb : evalAll charSigned o ds = some b) :
    evalAll charSigned o (cs ++ ds) = some (a && b) := by
  rw [evalAll_append, ha]
  cases a <;> simp [hb]

theorem evalAll_singleton (c : Cond) : evalAll charSigned o [c] = c.eval charSigned o := by
  rw [evalAll]
  cases c.eval charSigned o with
  | none => rfl
  | some b => cases b <;> simp [evalAll]

/-- A test before the rest, which is evaluated only where the test holds. -/
theorem evalAll_cons {c : Cond} {cs : List Cond} {a b : Bool} (ha : c.eval charSigned o = some a)
    (hb : a = true → evalAll charSigned o cs = some b) :
    evalAll charSigned o (c :: cs) = some (a && b) := by
  rw [evalAll, ha]
  cases a <;> simp [hb]

end Objects

section NoPredicate

mutual
theorem emit_of_no_predicate : (p : Pat) → ∀ {path t}, patternHasPredicate p = false →
    emitPatPredicate p path t = []
  | .wildcard, _, _, _ => rfl
  | .binding _, _, _, _ => rfl
  | .struct fs, path, t, h => by
    cases t with
    | struct _ fields => exact emitFields_of_no_predicate fs h
    | _ => rfl
  | .tuple ps, path, t, h => by
    cases t with
    | struct _ fields => exact emitElems_of_no_predicate ps h
    | _ => rfl
  | .or p ps, path, t, h => by
    rw [patternHasPredicate] at h
    rw [emitPatPredicate, if_neg (by simp [h])]

theorem emitFields_of_no_predicate : (fs : List (String × Pat)) → ∀ {path fields},
    fieldsHavePredicate fs = false → emitFields fs path fields = []
  | [], _, _, _ => rfl
  | (name, p) :: fs, path, fields, h => by
    obtain ⟨hp, hfs⟩ := Bool.or_eq_false_iff.mp h
    rw [emitFields, emitFields_of_no_predicate fs hfs, List.append_nil]
    cases fields.lookup name with
    | none => rfl
    | some t => exact emit_of_no_predicate p hp

theorem emitElems_of_no_predicate : (ps : List Pat) → ∀ {path i fields},
    someHasPredicate ps = false → emitElems ps path i fields = []
  | [], _, _, _, _ => rfl
  | p :: ps, path, i, fields, h => by
    obtain ⟨hp, hps⟩ := Bool.or_eq_false_iff.mp h
    cases fields with
    | nil => rfl
    | cons f fields =>
      rw [emitElems, emit_of_no_predicate p hp, emitElems_of_no_predicate ps hps, List.append_nil]
end

/-- An alternative without a predicate prints 1, the empty chain. -/
theorem emit_ite (p : Pat) :
    (if patternHasPredicate p then emitPatPredicate p path t else []) =
      emitPatPredicate p path t := by
  split
  · rfl
  · rename_i h
    exact (emit_of_no_predicate p (by simpa using h)).symm

end NoPredicate

section Tests

theorem eval_test_bool {value b : Bool} (h : o.read path = some (.scalar (if b then 1 else 0))) :
    (Cond.test (.bin .eq (.var path .bool) (.lit false .none (if value then 1 else 0)))).eval
      charSigned o = some (decide (value = b)) := by
  have hvar : (CExpr.var path .bool).eval charSigned o.scalarAt = .ok (if b then 1 else 0) := by
    rw [CExpr.eval, scalarAt_eq h]
    cases b <;> rfl
  have hlit : (CExpr.lit false .none (if value then 1 else 0)).eval charSigned o.scalarAt =
      .ok (if value then 1 else 0) := by
    cases value <;> rfl
  have hconvert : ∀ x y : Bool, CType.int.convert (if y then 1 else 0) =
      CType.int.convert (if x then 1 else 0) ↔ x = y := by decide
  refine eval_test_eq hvar hlit ?_
  cases value
  · exact hconvert false b
  · exact hconvert true b

theorem eval_test_char {value : UInt8} {bits : UInt64} (hr : inRange .uint8 bits = true)
    (h : o.read path = some (.scalar (kindValue .uint8 bits))) :
    (Cond.test (.bin .eq (.var path .uchar) (.chr value))).eval charSigned o =
      some (decide (value.toUInt64 = bits) && !(charSigned && decide (128 ≤ value))) := by
  have hfit := kindValue_fits rfl hr
  have hvar : (CExpr.var path .uchar).eval charSigned o.scalarAt = .ok (kindValue .uint8 bits) := by
    rw [CExpr.eval, scalarAt_eq h]
    exact congrArg Except.ok (CType.convert_of_fits hfit)
  have hnat : kindValue .uint8 bits = bits.toNat := rfl
  have hint : CType.int.format.Fits (kindValue .uint8 bits) := CType.fits_promote hfit
  have hchr : CType.int.format.Fits (CExpr.chrValue charSigned value) := by
    cases charSigned
    · exact CType.fits_promote (CType.fits_convert .uchar _)
    · exact CType.fits_promote (CType.fits_convert .schar _)
  have hiff : (CType.usual .uchar .int).convert (kindValue .uint8 bits) =
      (CType.usual .uchar .int).convert (CExpr.chrValue charSigned value) ↔
        value.toUInt64 = bits ∧ ¬(charSigned = true ∧ 128 ≤ value) := by
    change CType.int.convert _ = CType.int.convert _ ↔ _
    rw [CType.convert_of_fits hint, CType.convert_of_fits hchr, hnat, eq_comm,
      CExpr.chrValue_eq_iff, ← UInt64.toNat_inj, UInt8.toNat_toUInt64, UInt8.le_iff_toNat_le]
    refine and_congr_right fun _ => ?_
    rw [not_and, not_le]
    rfl
  have hlit : (CExpr.chr value).eval charSigned o.scalarAt =
      .ok (CExpr.chrValue charSigned value) := by
    rw [CExpr.eval]
  rw [eval_test_eq hvar hlit hiff, Bool.decide_and, decide_not, Bool.decide_and,
    Bool.decide_eq_true]

theorem eval_test_err (charSigned : Bool) {code : ℤ} (hfit : CType.int.format.Fits code)
    (h : o.read path = some (.scalar code)) :
    (Cond.test (.bin .eq (.var path .int) (.lit false .none 0))).eval charSigned o =
        some (decide (code = 0)) ∧
      (Cond.test (.bin .ne (.var path .int) (.lit false .none 0))).eval charSigned o =
        some (decide ¬code = 0) := by
  have hvar : (CExpr.var path .int).eval charSigned o.scalarAt = .ok code := by
    rw [CExpr.eval, scalarAt_eq h]
    exact congrArg Except.ok (CType.convert_of_fits hfit)
  have hlit : (CExpr.lit false .none 0).eval charSigned o.scalarAt = .ok 0 := rfl
  have hiff : (CType.usual .int .int).convert code = (CType.usual .int .int).convert 0 ↔
      code = 0 := by
    change CType.int.convert code = 0 ↔ code = 0
    rw [CType.convert_of_fits hfit]
  exact ⟨eval_test_eq hvar hlit hiff, eval_test_ne hvar hlit hiff⟩

end Tests

section Predicates

theorem eval_hasValue {v : Option CObj} (h : o.read path = some (.option v)) :
    (Cond.hasValue path).eval charSigned o = some v.isSome ∧
      (Cond.notHasValue path).eval charSigned o = some v.isNone := by
  simp [Cond.eval, h]

theorem eval_notNull {p : Option ℕ} (h : o.read path = some (.pointer p)) :
    (Cond.notNull path).eval charSigned o = some p.isSome ∧
      (Cond.isNull path).eval charSigned o = some p.isNone := by
  simp [Cond.eval, h]

theorem isNullSentinel_iff : isNullSentinel (.option inner) = true ↔ inner = .pointer := by
  cases inner <;> simp [isNullSentinel]

/-- A value of pointer type is a pointer that is not null. -/
theorem repr_pointer (hv : HasTy false v .pointer) : ∃ id, repr .pointer v = .pointer (some id) := by
  cases hv with
  | other h _ => exact ⟨_, rfl⟩
  | bare h => cases h
  | payload h _ => cases h

theorem int32_code {code : Val} (hv : HasTy false code (.prim .int32))
    (hne : code ≠ .int 0) (inner : Ty) :
    ∃ bits, code = .int bits ∧ repr (.result inner) (.err code) = .result (kindValue .int32 bits) none ∧
      CType.int.format.Fits (kindValue .int32 bits) ∧ kindValue .int32 bits ≠ 0 := by
  obtain ⟨bits, rfl, hin⟩ := hv.int_inv rfl
  refine ⟨bits, rfl, rfl, kindValue_fits rfl hin, fun h => hne ?_⟩
  have hmod := kindValue_modEq .int32 bits
  have hlt := bits.toNat_lt
  rw [h] at hmod
  unfold Int.ModEq at hmod
  rw [Val.int.injEq, ← UInt64.toNat_inj]
  change bits.toNat = 0
  omega

/-- On the object of a value, the predicate of the pattern is defined and says whether it
matches. -/
def EmitsExactly (charSigned once : Bool) (o : CObj) (p : Pat) : Prop :=
  ∀ path t v, Typed once p t → HasTy false v t → o.read path = some (repr t v) →
    evalAll charSigned o (emitPatPredicate p path t) = some (p.matchesC charSigned v)

variable {p : Pat} {name : String}

theorem EmitsExactly.intLit {value : UInt64} {litType : Prim} {oor neg : Bool} :
    EmitsExactly charSigned once o (.intLit value litType oor neg) := by
  intro path t v ht hv hr
  cases ht with
  | intLit hk hrange =>
    rw [emitPatPredicate, evalAll_singleton]
    obtain ⟨bits, rfl, hin⟩ := hv.int_inv hk
    exact eval_test_int hk hin hrange (scalarAt_eq hr)

theorem EmitsExactly.charLit {value : UInt8} : EmitsExactly charSigned once o (.charLit value) := by
  intro path t v ht hv hr
  cases ht
  rw [emitPatPredicate, evalAll_singleton]
  obtain ⟨bits, rfl, hin⟩ := hv.int_inv rfl
  exact eval_test_char hin hr

theorem EmitsExactly.boolLit {value : Bool} : EmitsExactly charSigned once o (.boolLit value) := by
  intro path t v ht hv hr
  cases ht
  rw [emitPatPredicate, evalAll_singleton]
  obtain ⟨b, rfl⟩ := hv.bool_inv
  exact eval_test_bool hr

theorem EmitsExactly.stringLit {value : List UInt8} :
    EmitsExactly charSigned once o (.stringLit value) := by
  intro path t v ht hv hr
  cases ht
  rw [emitPatPredicate, evalAll_singleton]
  obtain ⟨bytes, rfl⟩ := hv.str_inv
  rw [Cond.eval, hr]
  simp only [repr, Pat.matchesC, eq_comm]

theorem EmitsExactly.none : EmitsExactly charSigned once o .none := by
  intro path t v ht hv hr
  cases ht with
  | @none inner =>
    rw [emitPatPredicate]
    by_cases hs : isNullSentinel (.option inner) = true
    · obtain rfl := isNullSentinel_iff.mp hs
      rw [if_pos hs, evalAll_singleton]
      obtain rfl | ⟨w, rfl, hw⟩ := hv.option_inv
      · exact (eval_notNull hr).2
      · obtain ⟨id, hid⟩ := repr_pointer hw
        rw [repr, if_pos hs, hid] at hr
        exact (eval_notNull hr).2
    · rw [if_neg hs, evalAll_singleton]
      obtain rfl | ⟨w, rfl, -⟩ := hv.option_inv
      · rw [repr, if_neg hs] at hr
        exact (eval_hasValue hr).2
      · rw [repr, if_neg hs] at hr
        exact (eval_hasValue hr).2

theorem EmitsExactly.some (hp : EmitsExactly charSigned once o p) :
    EmitsExactly charSigned once o (.some p) := by
  intro path t v ht hv hr
  cases ht with
  | @some _ inner ht =>
    rw [emitPatPredicate]
    by_cases hs : isNullSentinel (.option inner) = true
    · obtain rfl := isNullSentinel_iff.mp hs
      rw [if_pos hs]
      obtain rfl | ⟨w, rfl, hw⟩ := hv.option_inv
      · exact evalAll_cons (b := false) (eval_notNull hr).1 nofun
      · rw [repr, if_pos hs] at hr
        obtain ⟨id, hid⟩ := repr_pointer hw
        exact evalAll_cons (eval_notNull (hr.trans (congrArg Option.some hid))).1
          fun _ => hp _ _ _ ht hw hr
    · rw [if_neg hs]
      obtain rfl | ⟨w, rfl, hw⟩ := hv.option_inv
      · rw [repr, if_neg hs] at hr
        exact evalAll_cons (b := false) (eval_hasValue hr).1 nofun
      · rw [repr, if_neg hs] at hr
        exact evalAll_cons (eval_hasValue hr).1
          fun _ => hp _ _ _ ht hw (read_snoc hr .value)

/-- The test of the code, where the result is an error. -/
theorem eval_test_failed (charSigned : Bool) {code : Val} {inner : Ty}
    (hcode : HasTy false code (.prim .int32)) (hne : code ≠ .int 0)
    (hr : o.read path = Option.some (repr (.result inner) (.err code))) :
    (Cond.test (.bin .eq (.var (path ++ [.err]) .int) (.lit false .none 0))).eval charSigned o =
        Option.some false ∧
      (Cond.test (.bin .ne (.var (path ++ [.err]) .int) (.lit false .none 0))).eval charSigned o =
        Option.some true ∧
      o.read (path ++ [.err]) = Option.some (repr (.prim .int32) code) := by
  obtain ⟨bits, rfl, hrepr, hfit, hz⟩ := int32_code hcode hne inner
  rw [hrepr] at hr
  have hread := read_snoc hr .err
  obtain ⟨heq, hneq⟩ := eval_test_err charSigned hfit hread
  rw [decide_eq_false hz] at heq
  rw [decide_eq_true hz] at hneq
  exact ⟨heq, hneq, hread⟩

theorem EmitsExactly.okBare : EmitsExactly charSigned once o (.ok Option.none) := by
  intro path t v ht hv hr
  cases ht with
  | okBare =>
    rw [emitPatPredicate]
    obtain ⟨w, rfl, -⟩ | ⟨code, rfl, hcode, hne⟩ := hv.result_inv
    · rw [repr] at hr
      exact evalAll_cons (eval_test_err _ (by decide) (read_snoc hr .err)).1 fun _ => rfl
    · have h := (eval_test_failed charSigned hcode (hne.resolve_left (by decide)) hr).1
      exact evalAll_cons (b := false) h nofun

theorem EmitsExactly.ok (hp : EmitsExactly charSigned once o p) :
    EmitsExactly charSigned once o (.ok (Option.some p)) := by
  intro path t v ht hv hr
  cases ht with
  | ok ht =>
    rw [emitPatPredicate]
    obtain ⟨w, rfl, hw⟩ | ⟨code, rfl, hcode, hne⟩ := hv.result_inv
    · rw [repr] at hr
      exact evalAll_cons (eval_test_err _ (by decide) (read_snoc hr .err)).1
        fun _ => hp _ _ _ ht hw (read_snoc hr .value)
    · have h := (eval_test_failed charSigned hcode (hne.resolve_left (by decide)) hr).1
      exact evalAll_cons (b := false) h nofun

theorem EmitsExactly.err (hp : EmitsExactly charSigned once o p) :
    EmitsExactly charSigned once o (.err p) := by
  intro path t v ht hv hr
  cases ht with
  | err ht =>
    rw [emitPatPredicate]
    obtain ⟨w, rfl, -⟩ | ⟨code, rfl, hcode, hne⟩ := hv.result_inv
    · rw [repr] at hr
      exact evalAll_cons (b := false) (eval_test_err _ (by decide) (read_snoc hr .err)).2 nofun
    · obtain ⟨-, htest, hread⟩ := eval_test_failed charSigned hcode (hne.resolve_left (by decide)) hr
      exact evalAll_cons htest fun _ => hp _ _ _ ht hcode hread

theorem EmitsExactly.bareVariant :
    EmitsExactly charSigned once o (.variant name Option.none) := by
  intro path t v ht hv hr
  cases ht with
  | bare hl =>
    obtain ⟨name', payload', w, rfl, -, -⟩ := hv.variant_inv hl
    cases t with
    | union first rest =>
      refine evalAll_cons (b := true) (a := decide (name = name')) ?_ fun _ => rfl
      rw [Cond.eval, hr]
      simp only [repr, eq_comm]
    | enum first rest =>
      rw [emitPatPredicate, evalAll_singleton, Cond.eval, hr]
      simp [repr, Pat.matchesC, payloadMatchesC, eq_comm]
    | _ => cases hl

theorem EmitsExactly.variant (hp : EmitsExactly charSigned once o p) :
    EmitsExactly charSigned once o (.variant name (Option.some p)) := by
  intro path t v ht hv hr
  cases ht with
  | @payload _ payload _ _ hl ht =>
    obtain ⟨name', payload', w, rfl, hl', hw⟩ := hv.variant_inv hl
    cases t with
    | union first rest =>
      have htag : (Cond.tagIs path name).eval charSigned o =
          Option.some (decide (name = name')) := by
        rw [Cond.eval, hr]
        simp only [repr, eq_comm]
      refine evalAll_cons htag fun hname => ?_
      obtain rfl := of_decide_eq_true hname
      cases hl.symm.trans hl'
      cases hw with
      | some hw =>
        rw [show ((Ty.union first rest).variants.lookup name).join = Option.some payload from
          congrArg Option.join hl]
        exact hp _ _ _ ht hw (read_payload hl hr)
    | enum first rest => cases lookup_bare hl
    | _ => cases hl

/-- An alternative without a predicate always matches, and none is tested then. -/
theorem EmitsExactly.or {ps : List Pat} (hp : EmitsExactly charSigned once o p)
    (hps : ∀ path t v, (∀ q ∈ ps, Typed once q t) → HasTy false v t →
      o.read path = Option.some (repr t v) →
      evalAny charSigned o (emitAlts ps path t) = Option.some (someMatchesC charSigned ps v)) :
    EmitsExactly charSigned once o (.or p ps) := by
  intro path t v ht hv hr
  cases ht with
  | or ht hts =>
    have hp := hp _ _ _ ht hv hr
    have hps := hps _ _ _ hts hv hr
    rw [emitPatPredicate]
    split
    · rw [evalAll_singleton, Cond.eval, evalAny, emit_ite, hp, Pat.matchesC]
      cases p.matchesC charSigned v <;> simp [hps]
    · rename_i hno
      have hno : patternHasPredicate p = false := by
        simp only [Bool.or_eq_true, not_or, Bool.not_eq_true] at hno
        exact hno.1
      rw [emit_of_no_predicate p hno] at hp
      have htrue : p.matchesC charSigned v = true := (Option.some.inj hp).symm
      rw [Pat.matchesC, htrue]
      rfl

end Predicates

mutual
theorem emitPatPredicate_spec : (p : Pat) → EmitsExactly charSigned once o p
  | .wildcard => fun _ _ _ _ _ _ => rfl
  | .binding _ => fun _ _ _ _ _ _ => rfl
  | .intLit value litType oor neg => .intLit
  | .charLit value => .charLit
  | .boolLit value => .boolLit
  | .stringLit value => .stringLit
  | .none => .none
  | .some p => (emitPatPredicate_spec p).some
  | .ok none => .okBare
  | .ok (some p) => (emitPatPredicate_spec p).ok
  | .err p => (emitPatPredicate_spec p).err
  | .variant name none => .bareVariant
  | .variant name (some p) => (emitPatPredicate_spec p).variant
  | .struct fs => fun path t v ht hv hr => by
    cases ht with
    | struct names lookups typed =>
      obtain ⟨vs, rfl, names, vals⟩ := hv.struct_inv
      exact emitFields_spec fs lookups typed names vals hr
  | .tuple ps => fun path t v ht hv hr => by
    cases ht with
    | tuple typed =>
      obtain ⟨vs, rfl, -, vals⟩ := hv.struct_inv
      exact emitElems_spec ps typed vals hr rfl
  | .or p ps => (emitPatPredicate_spec p).or fun _ _ _ => emitAlts_spec ps

theorem emitFields_spec : (fs : List (String × Pat)) → ∀ {path fields types vs},
    fs.map (fun f => fields.lookup f.1) = types.map some →
    List.Forall₂ (Typed once) (fs.map Prod.snd) types → vs.map Prod.fst = fields.map Prod.fst →
    List.Forall₂ (HasTy false) (vs.map Prod.snd) (fields.map Prod.snd) →
    o.read path = some (.agg (reprFields fields vs)) →
    evalAll charSigned o (emitFields fs path fields) = some (fieldsMatchC charSigned fs vs)
  | [], _, _, _, _, _, _, _, _, _ => rfl
  | (name, p) :: fs, path, fields, types, vs, hl, ht, names, vals, hr => by
    cases ht with
    | cons htp hts =>
      obtain ⟨hlp, hls⟩ := List.cons.inj hl
      obtain ⟨v, hlv, hv, hlr⟩ := exists_field names vals hlp
      have hp := emitPatPredicate_spec p _ _ _ htp hv ((read_snoc hr (.field name)).trans hlr)
      have hlp : fields.lookup name = some _ := hlp
      rw [emitFields, hlp, fieldsMatchC, hlv]
      exact evalAll_and hp (emitFields_spec fs hls hts names vals hr)

theorem emitElems_spec : (ps : List Pat) → ∀ {path members i fields vs},
    List.Forall₂ (Typed once) ps (fields.map Prod.snd) →
    List.Forall₂ (HasTy false) (vs.map Prod.snd) (fields.map Prod.snd) →
    o.read path = some (.agg members) → members.drop i = reprFields fields vs →
    evalAll charSigned o (emitElems ps path i fields) = some (elemsMatchC charSigned ps vs)
  | [], _, _, _, [], [], _, _, _, _ => rfl
  | [], _, _, _, [], _ :: _, _, hv, _, _ => nomatch hv
  | [], _, _, _, _ :: _, _, ht, _, _, _ => nomatch ht
  | p :: ps, path, members, i, (name, t) :: fields, (name', v) :: vs, ht, hv, hr, hd => by
    cases ht with
    | cons htp hts =>
      cases hv with
      | cons hv hvs =>
        obtain ⟨hread, hnext⟩ := read_elem hr hd
        exact evalAll_and (emitPatPredicate_spec p _ _ _ htp hv hread)
          (emitElems_spec ps hts hvs hr hnext)
  | _ :: _, _, _, _, [], _, ht, _, _, _ => nomatch ht
  | _ :: _, _, _, _, _ :: _, [], _, hv, _, _ => nomatch hv

theorem emitAlts_spec : (ps : List Pat) → ∀ {path t v}, (∀ p ∈ ps, Typed once p t) →
    HasTy false v t → o.read path = some (repr t v) →
    evalAny charSigned o (emitAlts ps path t) = some (someMatchesC charSigned ps v)
  | [], _, _, _, _, _, _ => rfl
  | p :: ps, path, t, v, ht, hv, hr => by
    obtain ⟨htp, hts⟩ := List.forall_mem_cons.mp ht
    rw [emitAlts, evalAny, emit_ite, emitPatPredicate_spec p _ _ _ htp hv hr, someMatchesC]
    cases p.matchesC charSigned v <;> simp [emitAlts_spec ps hts hv hr]
end

section Bindings

/-- A name read from a path, and the component it binds. -/
def Bound (o : CObj) (b : String × Path) (c : String × Ty × Val) : Prop :=
  b.1 = c.1 ∧ o.read b.2 = some (repr c.2.1 c.2.2)

mutual
theorem emitPatBindings_spec : (p : Pat) → ∀ {path t v}, Typed once p t → HasTy false v t →
    o.read path = some (repr t v) → p.matches v = true →
    List.Forall₂ (Bound o) (emitPatBindings p path t) (p.binds t v)
  | .wildcard, _, _, _, _, _, _, _ => .nil
  | .binding _, _, _, _, _, _, hr, _ => .cons ⟨rfl, hr⟩ .nil
  | .intLit .., _, _, _, _, _, _, _ => .nil
  | .charLit _, _, _, _, _, _, _, _ => .nil
  | .boolLit _, _, _, _, _, _, _, _ => .nil
  | .stringLit _, _, _, _, _, _, _, _ => .nil
  | .none, _, _, _, _, _, _, _ => .nil
  | .or .., _, _, _, _, _, _, _ => .nil
  | .some p, path, t, v, ht, hv, hr, hm => by
    cases ht with
    | @some _ inner ht =>
      obtain rfl | ⟨w, rfl, hw⟩ := hv.option_inv
      · cases hm
      · rw [emitPatBindings, Pat.binds]
        rw [repr] at hr
        by_cases hs : isNullSentinel (.option inner) = true
        · rw [if_pos hs] at hr ⊢
          exact emitPatBindings_spec p ht hw hr hm
        · rw [if_neg hs] at hr ⊢
          exact emitPatBindings_spec p ht hw (read_snoc hr .value) hm
  | .ok none, path, t, v, ht, hv, _, _ => by
    cases ht with
    | okBare =>
      obtain ⟨w, rfl, -⟩ | ⟨code, rfl, -, -⟩ := hv.result_inv <;> exact .nil
  | .ok (some p), path, t, v, ht, hv, hr, hm => by
    cases ht with
    | ok ht =>
      obtain ⟨w, rfl, hw⟩ | ⟨code, rfl, -, -⟩ := hv.result_inv
      · exact emitPatBindings_spec p ht hw (read_snoc hr .value) hm
      · cases hm
  | .err p, path, t, v, ht, hv, hr, hm => by
    cases ht with
    | @err _ inner ht =>
      obtain ⟨w, rfl, -⟩ | ⟨code, rfl, hcode, hne⟩ := hv.result_inv
      · cases hm
      · obtain ⟨bits, rfl, hrepr, -⟩ := int32_code hcode (hne.resolve_left (by decide)) inner
        rw [hrepr] at hr
        exact emitPatBindings_spec p ht hcode (read_snoc hr .err) hm
  | .variant name none, path, t, v, ht, hv, _, _ => by
    cases ht with
    | bare hl =>
      obtain ⟨name', payload', w, rfl, -, -⟩ := hv.variant_inv hl
      exact .nil
  | .variant name (some p), path, t, v, ht, hv, hr, hm => by
    cases ht with
    | @payload _ payload _ _ hl ht =>
      obtain ⟨name', payload', w, rfl, hl', hw⟩ := hv.variant_inv hl
      obtain ⟨hname, hmp⟩ := Bool.and_eq_true_iff.mp hm
      obtain rfl := of_decide_eq_true hname
      cases hl.symm.trans hl'
      cases hw with
      | some hw =>
        rw [emitPatBindings, Pat.binds, hl]
        cases t with
        | union first rest => exact emitPatBindings_spec p ht hw (read_payload hl hr) hmp
        | enum first rest => cases lookup_bare hl
        | _ => cases hl
  | .struct fs, path, t, v, ht, hv, hr, hm => by
    cases ht with
    | struct names lookups typed =>
      obtain ⟨vs, rfl, names, vals⟩ := hv.struct_inv
      exact bindFields_spec fs lookups typed names vals hr hm
  | .tuple ps, path, t, v, ht, hv, hr, hm => by
    cases ht with
    | tuple typed =>
      obtain ⟨vs, rfl, -, vals⟩ := hv.struct_inv
      exact bindElems_spec ps typed vals hr rfl hm

theorem bindFields_spec : (fs : List (String × Pat)) → ∀ {path fields types vs},
    fs.map (fun f => fields.lookup f.1) = types.map some →
    List.Forall₂ (Typed once) (fs.map Prod.snd) types → vs.map Prod.fst = fields.map Prod.fst →
    List.Forall₂ (HasTy false) (vs.map Prod.snd) (fields.map Prod.snd) →
    o.read path = some (.agg (reprFields fields vs)) → fieldsMatch fs vs = true →
    List.Forall₂ (Bound o) (bindFields fs path fields) (fieldBinds fs fields vs)
  | [], _, _, _, _, _, _, _, _, _, _ => .nil
  | (name, p) :: fs, _, fields, types, vs, hl, ht, names, vals, hr, hm => by
    cases ht with
    | cons htp hts =>
      obtain ⟨hlp, hls⟩ := List.cons.inj hl
      have hlp : fields.lookup name = some _ := hlp
      obtain ⟨v, hlv, hv, hlr⟩ := exists_field names vals hlp
      obtain ⟨hmp, hms⟩ := Bool.and_eq_true_iff.mp hm
      rw [hlv] at hmp
      rw [bindFields, fieldBinds, hlp, hlv]
      exact List.rel_append
        (emitPatBindings_spec p htp hv ((read_snoc hr (.field name)).trans hlr) hmp)
        (bindFields_spec fs hls hts names vals hr hms)

theorem bindElems_spec : (ps : List Pat) → ∀ {path members i fields vs},
    List.Forall₂ (Typed once) ps (fields.map Prod.snd) →
    List.Forall₂ (HasTy false) (vs.map Prod.snd) (fields.map Prod.snd) →
    o.read path = some (.agg members) → members.drop i = reprFields fields vs →
    elemsMatch ps vs = true →
    List.Forall₂ (Bound o) (bindElems ps path i fields) (elemBinds ps fields vs)
  | [], _, _, _, _, _, _, _, _, _, _ => .nil
  | p :: ps, _, _, _, (_, _) :: fields, (_, _) :: vs, ht, hv, hr, hd, hm => by
    obtain ⟨hmp, hms⟩ := Bool.and_eq_true_iff.mp hm
    obtain ⟨hread, hnext⟩ := read_elem hr hd
    cases ht with
    | cons htp hts =>
      cases hv with
      | cons hv hvs =>
        exact List.rel_append (emitPatBindings_spec p htp hv hread hmp)
          (bindElems_spec ps hts hvs hr hnext hms)
  | _ :: _, _, _, _, [], _, ht, _, _, _, _ => nomatch ht
  | _ :: _, _, _, _, _ :: _, [], _, hv, _, _, _ => nomatch hv
end

end Bindings

section CharLiterals

mutual
/-- The C of a pattern never matches more than the pattern. -/
theorem matches_of_matchesC : (p : Pat) → ∀ {v}, p.matchesC charSigned v = true →
    p.matches v = true
  | .wildcard, _, _ => rfl
  | .binding _, _, _ => rfl
  | .intLit .., v, h => by cases v <;> exact h
  | .charLit _, v, h => by
    cases v with
    | int bits => exact (Bool.and_eq_true_iff.mp h).1
    | _ => cases h
  | .boolLit _, v, h => by cases v <;> exact h
  | .stringLit _, v, h => by cases v <;> exact h
  | .none, v, h => by cases v <;> exact h
  | .some p, v, h => by
    cases v with
    | some w => exact matches_of_matchesC p h
    | _ => cases h
  | .ok p, v, h => by
    cases v with
    | ok w => exact payloadMatches_of_matchesC p h
    | _ => cases h
  | .err p, v, h => by
    cases v with
    | err code => exact matches_of_matchesC p h
    | _ => cases h
  | .variant name p, v, h => by
    cases v with
    | variant name' w =>
      obtain ⟨hname, hp⟩ := Bool.and_eq_true_iff.mp h
      exact Bool.and_eq_true_iff.mpr ⟨hname, payloadMatches_of_matchesC p hp⟩
    | _ => cases h
  | .struct fs, v, h => by
    cases v with
    | struct vs => exact fieldsMatch_of_matchesC fs h
    | _ => cases h
  | .tuple ps, v, h => by
    cases v with
    | struct vs => exact elemsMatch_of_matchesC ps h
    | _ => cases h
  | .or p ps, v, h => by
    obtain h | h := Bool.or_eq_true_iff.mp h
    · exact Bool.or_eq_true_iff.mpr (.inl (matches_of_matchesC p h))
    · exact Bool.or_eq_true_iff.mpr (.inr (someMatches_of_matchesC ps h))

theorem payloadMatches_of_matchesC : (p : Option Pat) → ∀ {v},
    payloadMatchesC charSigned p v = true → payloadMatches p v = true
  | none, _, _ => rfl
  | some p, v, h => by
    cases v with
    | none => cases h
    | some w => exact matches_of_matchesC p h

theorem fieldsMatch_of_matchesC : (fs : List (String × Pat)) → ∀ {vs},
    fieldsMatchC charSigned fs vs = true → fieldsMatch fs vs = true
  | [], _, _ => rfl
  | (name, p) :: fs, vs, h => by
    obtain ⟨hp, hfs⟩ := Bool.and_eq_true_iff.mp h
    refine Bool.and_eq_true_iff.mpr ⟨?_, fieldsMatch_of_matchesC fs hfs⟩
    cases hl : vs.lookup name with
    | none => rw [hl] at hp; cases hp
    | some v =>
      rw [hl] at hp
      exact matches_of_matchesC p hp

theorem elemsMatch_of_matchesC : (ps : List Pat) → ∀ {vs},
    elemsMatchC charSigned ps vs = true → elemsMatch ps vs = true
  | [], [], _ => rfl
  | p :: ps, (_, v) :: vs, h => by
    obtain ⟨hp, hps⟩ := Bool.and_eq_true_iff.mp h
    exact Bool.and_eq_true_iff.mpr ⟨matches_of_matchesC p hp, elemsMatch_of_matchesC ps hps⟩

theorem someMatches_of_matchesC : (ps : List Pat) → ∀ {v},
    someMatchesC charSigned ps v = true → someMatches ps v = true
  | p :: ps, v, h => by
    obtain h | h := Bool.or_eq_true_iff.mp h
    · exact Bool.or_eq_true_iff.mpr (.inl (matches_of_matchesC p h))
    · exact Bool.or_eq_true_iff.mpr (.inr (someMatches_of_matchesC ps h))
end

end CharLiterals

end FcLang.Match
