import FcLang.Lib.CExpr
import FcLang.Match.Pattern

/-!
# The C of a pattern

`emit_pat_predicate` and `emit_pat_bindings` on the C object of the subject. A
path leads from the subject to a component; to read the payload of a variant,
option or result that is not the live one is undefined. Names stay those of the
source, and an enumerator is told from the others by its name. `int64_t` and
`ptrdiff_t` are the `long` of an LP64 target.
-/

namespace FcLang.Match
open FcLang.Types (Prim)

inductive CObj where
  | scalar (z : ℤ)
  | other (id : ℕ)
  | pointer (target : Option ℕ)
  | str (bytes : List UInt8)
  | enum (variant : String)
  | option (value : Option CObj)
  | result (err : ℤ) (value : Option CObj)
  | union (tag : String) (payload : Option CObj)
  | agg (members : List (String × CObj))

inductive Access where
  | value
  | err
  | payload (variant : String)
  | field (name : String)
  | elem (i : ℕ)
  deriving DecidableEq

abbrev Path := List Access

def CObj.member : CObj → Access → Option CObj
  | .option v, .value => v
  | .result _ v, .value => v
  | .result e _, .err => some (.scalar e)
  | .union tag p, .payload variant => if tag = variant then p else none
  | .agg members, .field name => members.lookup name
  | .agg members, .elem i => members[i]?.map Prod.snd
  | _, _ => none

def CObj.read (o : CObj) (path : Path) : Option CObj := path.foldlM CObj.member o

def isNullSentinel : Ty → Bool
  | .option .pointer => true
  | _ => false

mutual
/-- The C object of a value. -/
def repr : Ty → Val → CObj
  | .prim kind, .int bits => .scalar (kindValue kind bits)
  | _, .bool b => .scalar (if b then 1 else 0)
  | _, .str bytes => .str bytes
  | .pointer, .other id => .pointer (some id)
  | _, .other id => .other id
  | .option inner, .some v =>
    if isNullSentinel (.option inner) then repr inner v else .option (some (repr inner v))
  | .option inner, .none => if isNullSentinel (.option inner) then .pointer none else .option none
  | .result inner, .ok v => .result 0 (some (repr inner v))
  | .result _, .err (.int code) => .result (kindValue .int32 code) none
  | .enum .., .variant name _ => .enum name
  | .union first rest, .variant name p =>
    .union name (reprPayload ((first :: rest).lookup name).join p)
  | .struct _ types, .struct fields => .agg (reprFields types fields)
  | _, _ => .other 0

def reprPayload : Option Ty → Option Val → Option CObj
  | some t, some v => some (repr t v)
  | _, _ => none

def reprFields : List (String × Ty) → List (String × Val) → List (String × CObj)
  | (_, t) :: types, (name, v) :: fields => (name, repr t v) :: reprFields types fields
  | _, _ => []
end

inductive Cond where
  | test (e : CExpr Path)
  | notNull (path : Path)
  | isNull (path : Path)
  | hasValue (path : Path)
  | notHasValue (path : Path)
  | tagIs (path : Path) (variant : String)
  | enumIs (path : Path) (variant : String)
  | eqStr (path : Path) (bytes : List UInt8)
  | or (alts : List (List Cond))

def CObj.scalarAt (o : CObj) (path : Path) : Option ℤ :=
  match o.read path with
  | some (.scalar z) => some z
  | _ => none

mutual
/-- None where the evaluation is undefined. -/
def Cond.eval (charSigned : Bool) (o : CObj) : Cond → Option Bool
  | .test e => (e.eval charSigned o.scalarAt).toOption.map (· != 0)
  | .notNull path =>
    match o.read path with
    | some (.pointer p) => some p.isSome
    | _ => none
  | .isNull path =>
    match o.read path with
    | some (.pointer p) => some p.isNone
    | _ => none
  | .hasValue path =>
    match o.read path with
    | some (.option v) => some v.isSome
    | _ => none
  | .notHasValue path =>
    match o.read path with
    | some (.option v) => some v.isNone
    | _ => none
  | .tagIs path variant =>
    match o.read path with
    | some (.union tag _) => some (tag = variant)
    | _ => none
  | .enumIs path variant =>
    match o.read path with
    | some (.enum v) => some (v = variant)
    | _ => none
  | .eqStr path bytes =>
    match o.read path with
    | some (.str s) => some (s = bytes)
    | _ => none
  | .or alts => evalAny charSigned o alts

/-- A chain of `&&`, where the empty one is the constant 1. -/
def evalAll (charSigned : Bool) (o : CObj) : List Cond → Option Bool
  | [] => some true
  | c :: cs =>
    match c.eval charSigned o with
    | some true => evalAll charSigned o cs
    | r => r

def evalAny (charSigned : Bool) (o : CObj) : List (List Cond) → Option Bool
  | [] => some false
  | cs :: alts =>
    match evalAll charSigned o cs with
    | some false => evalAny charSigned o alts
    | r => r
end

def emitKind : Prim → CType
  | .int8 => .schar
  | .int16 => .short
  | .int32 => .int
  | .int64 | .isize => .long
  | .uint8 => .uchar
  | .uint16 => .ushort
  | .uint32 => .uint
  | .uint64 | .usize => .ulong
  | .bool => .bool
  | _ => .int

def Ty.emitScalar : Ty → CType
  | .prim kind => emitKind kind
  | _ => .int

/-- `%PRIu64` where the literal's type is unsigned and `%PRId64` elsewhere. -/
def emitPatInt (value : UInt64) (litType : Prim) : CExpr Path :=
  if isInteger litType && !litType.isSigned then .lit false .none value.toNat
  else
    let z := value.toBitVec.toInt
    if z < 0 then .neg (.lit false .none z.natAbs) else .lit false .none z.natAbs

mutual
def patternHasPredicate : Pat → Bool
  | .wildcard | .binding _ => false
  | .struct fs => fieldsHavePredicate fs
  | .tuple ps => someHasPredicate ps
  | .or p ps => patternHasPredicate p || someHasPredicate ps
  | _ => true

def fieldsHavePredicate : List (String × Pat) → Bool
  | [] => false
  | (_, p) :: fs => patternHasPredicate p || fieldsHavePredicate fs

def someHasPredicate : List Pat → Bool
  | [] => false
  | p :: ps => patternHasPredicate p || someHasPredicate ps
end

mutual
/-- The predicates that `&&` joins. -/
def emitPatPredicate : Pat → Path → Ty → List Cond
  | .wildcard, _, _ | .binding _, _, _ => []
  | .intLit value litType .., path, t =>
    [.test (.bin .eq (.var path t.emitScalar) (emitPatInt value litType))]
  | .boolLit value, path, t =>
    [.test (.bin .eq (.var path t.emitScalar) (.lit false .none (if value then 1 else 0)))]
  | .charLit value, path, t => [.test (.bin .eq (.var path t.emitScalar) (.chr value))]
  | .some p, path, t =>
    match t with
    | .option inner =>
      if isNullSentinel (.option inner) then .notNull path :: emitPatPredicate p path inner
      else .hasValue path :: emitPatPredicate p (path ++ [.value]) inner
    | _ => []
  | .none, path, t => if isNullSentinel t then [.isNull path] else [.notHasValue path]
  | .ok p, path, t =>
    match t with
    | .result inner =>
      .test (.bin .eq (.var (path ++ [.err]) .int) (.lit false .none 0)) ::
        emitPayload p (path ++ [.value]) (some inner)
    | _ => []
  | .err p, path, _ =>
    .test (.bin .ne (.var (path ++ [.err]) .int) (.lit false .none 0)) ::
      emitPatPredicate p (path ++ [.err]) (.prim .int32)
  | .variant name p, path, t =>
    match t with
    | .enum .. => [.enumIs path name]
    | t => .tagIs path name :: emitPayload p (path ++ [.payload name]) (t.variants.lookup name).join
  | .struct fs, path, t =>
    match t with
    | .struct _ fields => emitFields fs path fields
    | _ => []
  | .stringLit value, path, _ => [.eqStr path value]
  | .or p ps, path, t =>
    if patternHasPredicate p || someHasPredicate ps then
      [.or ((if patternHasPredicate p then emitPatPredicate p path t else []) ::
        emitAlts ps path t)]
    else []
  | .tuple ps, path, t =>
    match t with
    | .struct _ fields => emitElems ps path 0 fields
    | _ => []

def emitPayload : Option Pat → Path → Option Ty → List Cond
  | some p, path, some t => emitPatPredicate p path t
  | _, _, _ => []

def emitFields : List (String × Pat) → Path → List (String × Ty) → List Cond
  | [], _, _ => []
  | (name, p) :: fs, path, fields =>
    (match fields.lookup name with
      | some t => emitPatPredicate p (path ++ [.field name]) t
      | none => []) ++ emitFields fs path fields

def emitElems : List Pat → Path → ℕ → List (String × Ty) → List Cond
  | p :: ps, path, i, (_, t) :: types =>
    emitPatPredicate p (path ++ [.elem i]) t ++ emitElems ps path (i + 1) types
  | _, _, _, _ => []

def emitAlts : List Pat → Path → Ty → List (List Cond)
  | [], _, _ => []
  | p :: ps, path, t =>
    (if patternHasPredicate p then emitPatPredicate p path t else []) :: emitAlts ps path t
end

mutual
/-- The names bound and the paths they are read from, in order. -/
def emitPatBindings : Pat → Path → Ty → List (String × Path)
  | .binding name, path, _ => [(name, path)]
  | .some p, path, t =>
    match t with
    | .option inner =>
      emitPatBindings p (if isNullSentinel (.option inner) then path else path ++ [.value]) inner
    | _ => []
  | .ok p, path, t =>
    match t with
    | .result inner => bindPayload p (path ++ [.value]) (some inner)
    | _ => []
  | .err p, path, _ => emitPatBindings p (path ++ [.err]) (.prim .int32)
  | .variant name p, path, t =>
    bindPayload p (path ++ [.payload name]) (t.variants.lookup name).join
  | .struct fs, path, t =>
    match t with
    | .struct _ fields => bindFields fs path fields
    | _ => []
  | .tuple ps, path, t =>
    match t with
    | .struct _ fields => bindElems ps path 0 fields
    | _ => []
  | _, _, _ => []

def bindPayload : Option Pat → Path → Option Ty → List (String × Path)
  | some p, path, some t => emitPatBindings p path t
  | _, _, _ => []

def bindFields : List (String × Pat) → Path → List (String × Ty) → List (String × Path)
  | [], _, _ => []
  | (name, p) :: fs, path, fields =>
    (match fields.lookup name with
      | some t => emitPatBindings p (path ++ [.field name]) t
      | none => []) ++ bindFields fs path fields

def bindElems : List Pat → Path → ℕ → List (String × Ty) → List (String × Path)
  | p :: ps, path, i, (_, t) :: types =>
    emitPatBindings p (path ++ [.elem i]) t ++ bindElems ps path (i + 1) types
  | _, _, _, _ => []
end

mutual
/-- What a pattern binds: each name and the component at its position. -/
def Pat.binds : Pat → Ty → Val → List (String × Ty × Val)
  | .binding name, t, v => [(name, t, v)]
  | .some p, .option inner, .some v => p.binds inner v
  | .ok p, .result inner, .ok v => payloadBinds p (some inner) (some v)
  | .err p, _, .err code => p.binds (.prim .int32) code
  | .variant name p, t, .variant _ v => payloadBinds p (t.variants.lookup name).join v
  | .struct fs, .struct _ types, .struct vs => fieldBinds fs types vs
  | .tuple ps, .struct _ types, .struct vs => elemBinds ps types vs
  | _, _, _ => []

def payloadBinds : Option Pat → Option Ty → Option Val → List (String × Ty × Val)
  | some p, some t, some v => p.binds t v
  | _, _, _ => []

def fieldBinds : List (String × Pat) → List (String × Ty) → List (String × Val) →
    List (String × Ty × Val)
  | [], _, _ => []
  | (name, p) :: fs, types, vs =>
    (match types.lookup name, vs.lookup name with
      | some t, some v => p.binds t v
      | _, _ => []) ++ fieldBinds fs types vs

def elemBinds : List Pat → List (String × Ty) → List (String × Val) → List (String × Ty × Val)
  | p :: ps, (_, t) :: types, (_, v) :: vs => p.binds t v ++ elemBinds ps types vs
  | _, _, _ => []
end

mutual
/-- The meaning of a pattern where a char literal of byte 128 or more matches
nothing if plain `char` is signed. -/
def Pat.matchesC (charSigned : Bool) : Pat → Val → Bool
  | .wildcard, _ => true
  | .binding _, _ => true
  | .intLit value .., .int bits => value = bits
  | .charLit value, .int bits => value.toUInt64 = bits && !(charSigned && decide (128 ≤ value))
  | .boolLit value, .bool b => value = b
  | .stringLit value, .str bytes => value = bytes
  | .some p, .some v => p.matchesC charSigned v
  | .none, .none => true
  | .ok p, .ok v => payloadMatchesC charSigned p (some v)
  | .err p, .err code => p.matchesC charSigned code
  | .variant name p, .variant name' v => name = name' && payloadMatchesC charSigned p v
  | .struct fs, .struct vs => fieldsMatchC charSigned fs vs
  | .tuple ps, .struct vs => elemsMatchC charSigned ps vs
  | .or p ps, v => p.matchesC charSigned v || someMatchesC charSigned ps v
  | _, _ => false

def payloadMatchesC (charSigned : Bool) : Option Pat → Option Val → Bool
  | some p, some v => p.matchesC charSigned v
  | some _, none => false
  | none, _ => true

def fieldsMatchC (charSigned : Bool) : List (String × Pat) → List (String × Val) → Bool
  | [], _ => true
  | (name, p) :: fs, vs =>
    (match vs.lookup name with
      | some v => p.matchesC charSigned v
      | none => false) && fieldsMatchC charSigned fs vs

def elemsMatchC (charSigned : Bool) : List Pat → List (String × Val) → Bool
  | [], [] => true
  | p :: ps, (_, v) :: vs => p.matchesC charSigned v && elemsMatchC charSigned ps vs
  | _, _ => false

def someMatchesC (charSigned : Bool) : List Pat → Val → Bool
  | [], _ => false
  | p :: ps, v => p.matchesC charSigned v || someMatchesC charSigned ps v
end

section Integers
variable {charSigned : Bool} {env : Path → Option ℤ} {A B : CType} {x y : ℤ} {l r : CExpr Path}

theorem usual_cases (A B : CType) :
    CType.usual A B ∈ [CType.int, .uint, .long, .ulong, .llong, .ullong] := by
  cases A <;> cases B <;> decide

theorem fits_long (hs : A.signed = true) (h : A.format.Fits x) : -2 ^ 63 ≤ x ∧ x < 2 ^ 63 := by
  have hlong : CType.long.format.Fits x := h.mono hs (by cases A <;> decide)
  exact (Format.fits_signed rfl).mp hlong

/-- Two integers that 64 bits hold are compared modulo `2 ^ 64`, unless they are
compared as `unsigned int`, which takes them not to be negative. -/
theorem convert_usual_eq_iff (hx : A.format.Fits x) (hy : B.format.Fits y)
    (hu : CType.usual A B = .uint → 0 ≤ x ∧ 0 ≤ y) :
    (CType.usual A B).convert x = (CType.usual A B).convert y ↔ x ≡ y [ZMOD 2 ^ 64] := by
  have hcases := usual_cases A B
  have hsigned : (CType.usual A B).signed = true →
      ((CType.usual A B).convert x = (CType.usual A B).convert y ↔ x ≡ y [ZMOD 2 ^ 64]) := by
    intro hs
    have hx := CType.fits_usual_left (b := B) hx (.inr hs)
    have hy := CType.fits_usual_right (a := A) hy (.inr hs)
    rw [CType.convert_of_fits hx, CType.convert_of_fits hy]
    have hx := fits_long hs hx
    have hy := fits_long hs hy
    unfold Int.ModEq
    omega
  simp only [List.mem_cons, List.not_mem_nil, or_false] at hcases
  obtain h | h | h | h | h | h := hcases
  · exact hsigned (by rw [h]; rfl)
  · obtain ⟨hx0, hy0⟩ := hu h
    have hx := CType.fits_usual_left (b := B) hx (.inl hx0)
    have hy := CType.fits_usual_right (a := A) hy (.inl hy0)
    rw [CType.convert_of_fits hx, CType.convert_of_fits hy]
    rw [h, Format.fits_unsigned rfl] at hx hy
    change 0 ≤ x ∧ x < 2 ^ 32 at hx
    change 0 ≤ y ∧ y < 2 ^ 32 at hy
    unfold Int.ModEq
    omega
  · exact hsigned (by rw [h]; rfl)
  · rw [h]
    exact Iff.rfl
  · exact hsigned (by rw [h]; rfl)
  · rw [h]
    exact Iff.rfl

theorem eval_test_eq {o : CObj} {P : Prop} [Decidable P] (hl : l.eval charSigned o.scalarAt = .ok x)
    (hr : r.eval charSigned o.scalarAt = .ok y)
    (h : (CType.usual l.type r.type).convert x = (CType.usual l.type r.type).convert y ↔ P) :
    (Cond.test (.bin .eq l r)).eval charSigned o = some (decide P) := by
  by_cases hP : P <;>
    simp [Cond.eval, CExpr.eval, hl, hr, COut.both, COp.apply, COp.isShift, COp.onCommon,
      COp.holds, Except.toOption, h, hP]

theorem eval_test_ne {o : CObj} {P : Prop} [Decidable P] (hl : l.eval charSigned o.scalarAt = .ok x)
    (hr : r.eval charSigned o.scalarAt = .ok y)
    (h : (CType.usual l.type r.type).convert x = (CType.usual l.type r.type).convert y ↔ P) :
    (Cond.test (.bin .ne l r)).eval charSigned o = some (decide ¬P) := by
  by_cases hP : P <;>
    simp [Cond.eval, CExpr.eval, hl, hr, COut.both, COp.apply, COp.isShift, COp.onCommon,
      COp.holds, Except.toOption, h, hP]

theorem promote_of_mem (hA : A ∈ [CType.int, .long, .ullong]) : A.promote = A := by
  revert hA
  cases A <;> decide

theorem result_neg (hA : A ∈ [CType.int, .long, .ullong]) (h : A.format.Fits x) (hx : 0 ≤ x) :
    ∃ z, A.promote.result (-x) = .ok z ∧ A.format.Fits z ∧ z ≡ -x [ZMOD 2 ^ 64] := by
  simp only [List.mem_cons, List.not_mem_nil, or_false] at hA
  obtain rfl | rfl | rfl := hA
  · exact ⟨-x, CType.result_of_fits (h.neg rfl hx), h.neg rfl hx, rfl⟩
  · exact ⟨-x, CType.result_of_fits (h.neg rfl hx), h.neg rfl hx, rfl⟩
  · exact ⟨_, CType.result_unsigned rfl, Format.fits_wrap (by decide) _, Format.wrap_modEq _ _⟩

theorem fits_ullong {n : ℕ} (h : n < 2 ^ 64) : CType.ullong.format.Fits n := by
  rw [Format.fits_unsigned rfl, show CType.ullong.format.bits = 64 from rfl]
  omega

/-- An expression that prints the integer `m`, as far as 64 bits tell. -/
def Printed (charSigned : Bool) (env : Path → Option ℤ) (e : CExpr Path) (m : ℤ) : Prop :=
  ∃ z, e.eval charSigned env = .ok z ∧ e.type ∈ [CType.int, .long, .ullong] ∧
    e.type.format.Fits z ∧ z ≡ m [ZMOD 2 ^ 64]

theorem Printed.congr {e : CExpr Path} {m m' : ℤ} (h : Printed charSigned env e m)
    (hm : m ≡ m' [ZMOD 2 ^ 64]) : Printed charSigned env e m' := by
  obtain ⟨z, hz, ht, hfit, hmod⟩ := h
  exact ⟨z, hz, ht, hfit, hmod.trans hm⟩

section Literals
variable {hex : Bool} {suffix : CSuffix} {n : ℕ}

/-- A decimal literal that no signed type holds is taken to be unsigned. -/
theorem dec_type (hl : suffix.candidates hex = [.int, .long, .llong]) (h : n < 2 ^ 64) :
    (CExpr.lit (ν := Path) hex suffix n).type ∈ [CType.int, .long, .ullong] ∧
      (CExpr.lit (ν := Path) hex suffix n).type.format.Fits n := by
  by_cases hn : CType.long.format.Fits n
  · obtain ht | ⟨hi, ht⟩ := CExpr.lit_type_two (ν := Path) hl hn
    · refine ⟨by simp [ht], (CExpr.lit_type ⟨.long, by simp [hl], hn⟩).2⟩
    · rw [ht]
      exact ⟨by simp, hn⟩
  · have hi : ¬CType.int.format.Fits n := fun h => hn (h.mono rfl (by decide))
    have hll : ¬CType.llong.format.Fits n := fun h => hn (h.mono rfl (by decide))
    have ht : (CExpr.lit (ν := Path) hex suffix n).type = .ullong := by
      simp [CExpr.type, hl, hi, hn, hll]
    rw [ht]
    exact ⟨by simp, fits_ullong h⟩

theorem printed_dec (hl : suffix.candidates hex = [.int, .long, .llong]) (h : n < 2 ^ 64) :
    Printed charSigned env (.lit hex suffix n) n :=
  ⟨n, CType.result_of_fits (dec_type hl h).2, (dec_type hl h).1, (dec_type hl h).2, rfl⟩

theorem printed_neg (hl : suffix.candidates hex = [.int, .long, .llong]) (h : n < 2 ^ 64) :
    Printed charSigned env (.neg (.lit hex suffix n)) (-n) := by
  obtain ⟨ht, hf⟩ := dec_type hl h
  obtain ⟨z, hz, hfit, hmod⟩ := result_neg ht hf (Int.natCast_nonneg n)
  have hp : (CExpr.neg (CExpr.lit (ν := Path) hex suffix n)).type =
      (CExpr.lit (ν := Path) hex suffix n).type := promote_of_mem ht
  have hlit : (CExpr.lit hex suffix n).eval charSigned env = .ok n := CType.result_of_fits hf
  refine ⟨z, ?_, by rwa [hp], by rwa [hp], hmod⟩
  rw [CExpr.eval, hlit]
  exact hz

end Literals

theorem printed_emitPatInt (value : UInt64) (litType : Prim) :
    Printed charSigned env (emitPatInt value litType) value.toNat := by
  have hlt := value.toNat_lt
  have htoInt := BitVec.toInt_eq_toNat_cond value.toBitVec
  rw [show value.toBitVec.toNat = value.toNat from rfl] at htoInt
  have habs : value.toBitVec.toInt.natAbs < 2 ^ 64 := by
    split at htoInt <;> omega
  unfold emitPatInt
  split
  · exact printed_dec rfl hlt
  · dsimp only
    split
    · refine Printed.congr (printed_neg rfl habs) ?_
      unfold Int.ModEq
      split at htoInt <;> omega
    · refine Printed.congr (printed_dec rfl habs) ?_
      unfold Int.ModEq
      split at htoInt <;> omega

theorem kindValue_modEq (kind : Prim) (bits : UInt64) :
    kindValue kind bits ≡ bits.toNat [ZMOD 2 ^ 64] := by
  unfold kindValue
  split
  · have htoInt := BitVec.toInt_eq_toNat_cond bits.toBitVec
    rw [show bits.toBitVec.toNat = bits.toNat from rfl] at htoInt
    unfold Int.ModEq
    split at htoInt <;> omega
  · rfl

theorem kindValue_fits {kind : Prim} {bits : UInt64} (h : isInteger kind = true)
    (hr : inRange kind bits = true) : (emitKind kind).format.Fits (kindValue kind bits) := by
  have hformat : (emitKind kind).format = kindFormat kind := by
    cases kind <;> first | rfl | cases h
  rw [hformat]
  exact of_decide_eq_true hr

theorem usual_eq_uint {kind : Prim} (hA : A ∈ [CType.int, .long, .ullong])
    (h : isInteger kind = true) (hu : CType.usual (emitKind kind) A = .uint) :
    kind = .uint32 ∧ A = .int := by
  revert hA h hu
  cases kind <;> cases A <;> decide

theorem checkIntLiteralRange_uint32 {value : UInt64} {oor neg : Bool}
    (h : checkIntLiteralRange value .uint32 oor neg = true) : value.toNat < 2 ^ 32 := by
  simp only [checkIntLiteralRange, isInteger, Prim.isSigned, Prim.fixedIntBits] at h
  split_ifs at h
  · simp_all
  · have := of_decide_eq_true h
    omega

/-- Where two values of the kind `uint32` are compared as C compares them, the
literal is one of the kind, which the range check sees to. -/
theorem eval_test_int {kind : Prim} {bits value : UInt64} {litType : Prim} {oor neg : Bool}
    {path : Path} {o : CObj} (h : isInteger kind = true) (hr : inRange kind bits = true)
    (hcheck : checkIntLiteralRange value kind oor neg = true)
    (ho : o.scalarAt path = some (kindValue kind bits)) :
    (Cond.test (.bin .eq (.var path (emitKind kind)) (emitPatInt value litType))).eval charSigned o =
      some (decide (value = bits)) := by
  have hfit := kindValue_fits h hr
  obtain ⟨z, hz, ht, hzfit, hmod⟩ : Printed charSigned o.scalarAt (emitPatInt value litType) _ :=
    printed_emitPatInt value litType
  have hvar : (CExpr.var path (emitKind kind)).eval charSigned o.scalarAt =
      .ok (kindValue kind bits) := by
    rw [CExpr.eval, ho]
    exact congrArg Except.ok (CType.convert_of_fits hfit)
  have hu : CType.usual (emitKind kind) (emitPatInt value litType).type = .uint →
      0 ≤ kindValue kind bits ∧ 0 ≤ z := by
    generalize (emitPatInt value litType).type = T at ht hzfit
    intro hu
    obtain ⟨rfl, rfl⟩ := usual_eq_uint ht h hu
    rw [Format.fits_signed rfl] at hzfit
    have hmax := checkIntLiteralRange_uint32 hcheck
    change -2 ^ 31 ≤ z ∧ z < 2 ^ 31 at hzfit
    unfold Int.ModEq at hmod
    refine ⟨Int.natCast_nonneg _, ?_⟩
    omega
  have hiff : (CType.usual (emitKind kind) (emitPatInt value litType).type).convert
      (kindValue kind bits) =
        (CType.usual (emitKind kind) (emitPatInt value litType).type).convert z ↔ value = bits := by
    rw [convert_usual_eq_iff hfit hzfit hu]
    have hlt := value.toNat_lt
    have hlt' := bits.toNat_lt
    have hbits := kindValue_modEq kind bits
    unfold Int.ModEq at *
    rw [← UInt64.toNat_inj]
    omega
  exact eval_test_eq hvar hz hiff

end Integers

end FcLang.Match
