import Mathlib.Data.List.Forall2
import FcLang.Lib.IntFormat
import FcLang.Types.Type

/-!
# Match patterns

Subject types with their definitions in place of names, the values they have,
and patterns. A union or enum declares at least one variant. Integers are the
64-bit patterns that literals hold, sign-extended; `isize` and `usize` have 64
bits. A value without structure that no literal denotes is one of `other`. A path to an error constant has become an integer
literal, and extern unions, which no pattern takes apart, are among the other types.
-/

namespace FcLang.Match
open FcLang.Types (Prim)

inductive Ty where
  | prim (kind : Prim)
  | str
  | pointer
  | other
  | option (inner : Ty)
  | result (inner : Ty)
  | union (first : String × Option Ty) (rest : List (String × Option Ty))
  | enum (first : String) (rest : List String)
  | struct (isTuple : Bool) (fields : List (String × Ty))

inductive Pat where
  | wildcard
  | binding (name : String)
  | intLit (value : UInt64) (litType : Prim) (outOfRange negative : Bool)
  | charLit (value : UInt8)
  | boolLit (value : Bool)
  | stringLit (value : List UInt8)
  | some (inner : Pat)
  | none
  | ok (inner : Option Pat)
  | err (inner : Pat)
  | variant (name : String) (payload : Option Pat)
  | struct (fields : List (String × Pat))
  | tuple (patterns : List Pat)
  | or (first : Pat) (rest : List Pat)

inductive Val where
  | bool (b : Bool)
  | int (bits : UInt64)
  | str (bytes : List UInt8)
  | other (id : ℕ)
  | some (v : Val)
  | none
  | ok (v : Val)
  | err (code : Val)
  | variant (name : String) (payload : Option Val)
  | struct (fields : List (String × Val))

/-- `type_is_integer`, on a kind. -/
def isInteger : Prim → Bool
  | .int8 | .int16 | .int32 | .int64 | .uint8 | .uint16 | .uint32 | .uint64 | .isize | .usize => true
  | _ => false

def kindFormat (kind : Prim) : Format :=
  ⟨if kind.fixedIntBits = 0 then 64 else kind.fixedIntBits, kind.isSigned⟩

def kindValue (kind : Prim) (bits : UInt64) : ℤ :=
  if kind.isSigned then bits.toBitVec.toInt else bits.toNat

/-- The bits are those of an integer of the kind. -/
def inRange (kind : Prim) (bits : UInt64) : Bool :=
  decide ((kindFormat kind).Fits (kindValue kind bits))

def Ty.variants : Ty → List (String × Option Ty)
  | .union first rest => first :: rest
  | .enum first rest => (first :: rest).map fun name => (name, none)
  | _ => []

theorem lookup_bare {names : List String} {name : String} {payload : Option Ty}
    (h : (names.map fun n => (n, (none : Option Ty))).lookup name = some payload) :
    payload = none := by
  induction names with
  | nil => cases h
  | cons n names ih =>
    rw [List.map_cons, List.lookup_cons] at h
    split at h
    · cases h
      rfl
    · exact ih h

def Ty.isLeaf : Ty → Bool
  | .prim kind => kind != .bool
  | .str | .pointer | .other => true
  | _ => false

/-- Literals denote values of the type. -/
def Ty.hasLiterals : Ty → Bool
  | .prim kind => isInteger kind
  | .str => true
  | _ => false

/-- The values of a type. The payload of an error is the i32 code, which is not 0.
The ideal values include more: they are not exhausted by literals. -/
inductive HasTy (ideal : Bool) : Val → Ty → Prop where
  | bool {b : Bool} : HasTy ideal (.bool b) (.prim .bool)
  | int {bits : UInt64} {kind : Prim} (h : isInteger kind = true)
    (range : inRange kind bits = true) : HasTy ideal (.int bits) (.prim kind)
  | str {bytes : List UInt8} : HasTy ideal (.str bytes) .str
  | other {t : Ty} {id : ℕ} (h : t.isLeaf = true) (ok : ideal = true ∨ t.hasLiterals = false) :
    HasTy ideal (.other id) t
  | some {v : Val} {inner : Ty} (h : HasTy ideal v inner) : HasTy ideal (.some v) (.option inner)
  | none {inner : Ty} : HasTy ideal .none (.option inner)
  | ok {v : Val} {inner : Ty} (h : HasTy ideal v inner) : HasTy ideal (.ok v) (.result inner)
  | err {code : Val} {inner : Ty} (h : HasTy ideal code (.prim .int32))
    (ok : ideal = true ∨ code ≠ .int 0) : HasTy ideal (.err code) (.result inner)
  | bare {t : Ty} {name : String} (h : t.variants.lookup name = Option.some Option.none) :
    HasTy ideal (.variant name .none) t
  | payload {t payload : Ty} {name : String} {v : Val}
    (h : t.variants.lookup name = Option.some (Option.some payload)) (hv : HasTy ideal v payload) :
    HasTy ideal (.variant name (.some v)) t
  | struct {isTuple : Bool} {fields : List (String × Val)} {types : List (String × Ty)}
    (names : fields.map Prod.fst = types.map Prod.fst)
    (vals : List.Forall₂ (HasTy ideal) (fields.map Prod.snd) (types.map Prod.snd)) :
    HasTy ideal (.struct fields) (.struct isTuple types)

namespace HasTy
variable {ideal : Bool} {v : Val} {t inner : Ty}

theorem bool_inv (h : HasTy ideal v (.prim .bool)) : ∃ b, v = .bool b := by
  cases h with
  | bool => exact ⟨_, rfl⟩
  | int h _ => cases h
  | other h _ => exact absurd h (by decide)
  | bare h => cases h
  | payload h _ => cases h

theorem int_inv {kind : Prim} (hk : isInteger kind = true) (h : HasTy false v (.prim kind)) :
    ∃ bits, v = .int bits ∧ inRange kind bits = true := by
  cases h with
  | bool => cases hk
  | int _ range => exact ⟨_, rfl, range⟩
  | other _ ok => exact absurd (ok.resolve_left (by decide)) (by simp [Ty.hasLiterals, hk])
  | bare h => cases h
  | payload h _ => cases h

theorem str_inv (h : HasTy false v .str) : ∃ bytes, v = .str bytes := by
  cases h with
  | str => exact ⟨_, rfl⟩
  | other _ ok => exact absurd ok (by decide)
  | bare h => cases h
  | payload h _ => cases h

theorem option_inv (h : HasTy ideal v (.option inner)) :
    v = .none ∨ ∃ w, v = .some w ∧ HasTy ideal w inner := by
  cases h with
  | some h => exact .inr ⟨_, rfl, h⟩
  | none => exact .inl rfl
  | other h _ => cases h
  | bare h => cases h
  | payload h _ => cases h

theorem result_inv (h : HasTy ideal v (.result inner)) :
    (∃ w, v = .ok w ∧ HasTy ideal w inner) ∨ ∃ code, v = .err code ∧
      HasTy ideal code (.prim .int32) ∧ (ideal = true ∨ code ≠ .int 0) := by
  cases h with
  | ok h => exact .inl ⟨_, rfl, h⟩
  | err h ok => exact .inr ⟨_, rfl, h, ok⟩
  | other h _ => cases h
  | bare h => cases h
  | payload h _ => cases h

theorem struct_inv {isTuple : Bool} {types : List (String × Ty)}
    (h : HasTy ideal v (.struct isTuple types)) :
    ∃ fields, v = .struct fields ∧ fields.map Prod.fst = types.map Prod.fst ∧
      List.Forall₂ (HasTy ideal) (fields.map Prod.snd) (types.map Prod.snd) := by
  cases h with
  | struct names vals => exact ⟨_, rfl, names, vals⟩
  | other h _ => cases h
  | bare h => cases h
  | payload h _ => cases h

/-- The values of a type with variants are its variants. -/
theorem variant_inv {name : String} {payload : Option Ty}
    (hl : t.variants.lookup name = Option.some payload)
    (h : HasTy ideal v t) : ∃ name' payload' w, v = .variant name' w ∧
      t.variants.lookup name' = Option.some payload' ∧ Option.Rel (HasTy ideal) w payload' := by
  cases h with
  | bare h => exact ⟨_, _, _, rfl, h, .none⟩
  | payload h hv => exact ⟨_, _, _, rfl, h, .some hv⟩
  | other h _ =>
    cases t with
    | union | enum => cases h
    | _ => cases hl
  | _ => cases hl

end HasTy

mutual
/-- Every value is an ideal one. -/
theorem hasTy_ideal : (v : Val) → ∀ {t}, HasTy false v t → HasTy true v t
  | .bool _, _, h => by
    cases h with
    | bool => exact .bool
  | .int _, _, h => by
    cases h with
    | int h range => exact .int h range
  | .str _, _, h => by
    cases h with
    | str => exact .str
  | .other _, _, h => by
    cases h with
    | other h _ => exact .other h (.inl rfl)
  | .some v, _, h => by
    cases h with
    | some h => exact .some (hasTy_ideal v h)
  | .none, _, h => by
    cases h with
    | none => exact .none
  | .ok v, _, h => by
    cases h with
    | ok h => exact .ok (hasTy_ideal v h)
  | .err code, _, h => by
    cases h with
    | err h _ => exact .err (hasTy_ideal code h) (.inl rfl)
  | .variant _ none, _, h => by
    cases h with
    | bare h => exact .bare h
  | .variant _ (some v), _, h => by
    cases h with
    | payload h hv => exact .payload h (hasTy_ideal v hv)
  | .struct fields, _, h => by
    cases h with
    | struct names vals => exact .struct names (fields_ideal fields vals)

theorem fields_ideal : (fields : List (String × Val)) → ∀ {types},
    List.Forall₂ (HasTy false) (fields.map Prod.snd) types →
    List.Forall₂ (HasTy true) (fields.map Prod.snd) types
  | [], _, h => by
    cases h
    exact .nil
  | (_, v) :: fields, _, h => by
    cases h with
    | cons hv hvs => exact .cons (hasTy_ideal v hv) (fields_ideal fields hvs)
end

mutual
/-- The meaning of a pattern. -/
def Pat.matches : Pat → Val → Bool
  | .wildcard, _ => true
  | .binding _, _ => true
  | .intLit value .., .int bits => value = bits
  | .charLit value, .int bits => value.toUInt64 = bits
  | .boolLit value, .bool b => value = b
  | .stringLit value, .str bytes => value = bytes
  | .some p, .some v => p.matches v
  | .none, .none => true
  | .ok p, .ok v => payloadMatches p (.some v)
  | .err p, .err code => p.matches code
  | .variant name p, .variant name' v => name = name' && payloadMatches p v
  | .struct fs, .struct vs => fieldsMatch fs vs
  | .tuple ps, .struct vs => elemsMatch ps vs
  | .or p ps, v => p.matches v || someMatches ps v
  | _, _ => false

/-- A pattern without a payload asks nothing of it. -/
def payloadMatches : Option Pat → Option Val → Bool
  | .some p, .some v => p.matches v
  | .some _, .none => false
  | .none, _ => true

/-- Every field pattern matches the field it names. -/
def fieldsMatch : List (String × Pat) → List (String × Val) → Bool
  | [], _ => true
  | (name, p) :: fs, vs =>
    (match vs.lookup name with
      | .some v => p.matches v
      | .none => false) && fieldsMatch fs vs

def elemsMatch : List Pat → List (String × Val) → Bool
  | [], [] => true
  | p :: ps, (_, v) :: vs => p.matches v && elemsMatch ps vs
  | _, _ => false

def someMatches : List Pat → Val → Bool
  | [], _ => false
  | p :: ps, v => p.matches v || someMatches ps v
end

/-- `check_int_literal_range` without its report. -/
def checkIntLiteralRange (value : UInt64) (kind : Prim) (outOfRange negative : Bool) : Bool :=
  let w := kind.fixedIntBits
  let umax : ℕ := 2 ^ w - 1
  if outOfRange then false
  else if negative && isInteger kind && !kind.isSigned then false
  else if w = 0 then true
  else if kind.isSigned then
    let max : ℕ := umax / 2
    let v : ℤ := value.toBitVec.toInt
    if negative then v ≤ 0 && -(max : ℤ) - 1 ≤ v else value.toNat ≤ max
  else value.toNat ≤ umax

mutual
/-- `check_match_pattern`: the pattern with its variants resolved, or none where
the source reports an error. -/
def checkMatchPattern (rejectBindings : Bool) : Pat → Ty → Option Pat
  | .wildcard, _ => some .wildcard
  | .binding name, t =>
    match t.variants.lookup name with
    | some none => some (.variant name none)
    | some (some _) => none
    | none => if rejectBindings then none else some (.binding name)
  | .intLit value litType outOfRange negative, t =>
    match t with
    | .prim kind =>
      if isInteger kind && checkIntLiteralRange value kind outOfRange negative then
        some (.intLit value litType outOfRange negative)
      else none
    | _ => none
  | .boolLit value, t =>
    match t with
    | .prim .bool => some (.boolLit value)
    | _ => none
  | .charLit value, t =>
    match t with
    | .prim .uint8 => some (.charLit value)
    | _ => none
  | .stringLit value, t =>
    match t with
    | .str => some (.stringLit value)
    | _ => none
  | .some p, t =>
    match t with
    | .option inner => (checkMatchPattern rejectBindings p inner).map .some
    | _ => none
  | .none, t =>
    match t with
    | .option _ => some .none
    | _ => none
  | .ok p, t =>
    match t with
    | .result (.prim .void) => if p.isSome then none else some (.ok none)
    | .result inner =>
      if p.isNone then none else (checkPayload rejectBindings p (some inner)).map .ok
    | _ => none
  | .err p, t =>
    match t with
    | .result _ => (checkMatchPattern rejectBindings p (.prim .int32)).map .err
    | _ => none
  | .variant name p, t =>
    match t.variants.lookup name with
    | some payload => (checkPayload rejectBindings p payload).map (.variant name)
    | none => none
  | .tuple ps, t =>
    match t with
    | .struct true fields => (checkElems rejectBindings ps fields).map .tuple
    | _ => none
  | .struct fs, t =>
    match t with
    | .struct false fields => (checkFields rejectBindings fs fields).map .struct
    | _ => none
  | .or p ps, t => do
    let p ← checkMatchPattern true p t
    let ps ← checkAlts ps t
    some (.or p ps)

/-- The shape of the pattern says whether there is a payload. -/
def checkPayload (rejectBindings : Bool) : Option Pat → Option Ty → Option (Option Pat)
  | some p, some t => (checkMatchPattern rejectBindings p t).map some
  | none, none => some none
  | _, _ => none

def checkElems (rejectBindings : Bool) : List Pat → List (String × Ty) → Option (List Pat)
  | [], [] => some []
  | p :: ps, (_, t) :: ts => do
    let p ← checkMatchPattern rejectBindings p t
    let ps ← checkElems rejectBindings ps ts
    some (p :: ps)
  | _, _ => none

def checkFields (rejectBindings : Bool) :
    List (String × Pat) → List (String × Ty) → Option (List (String × Pat))
  | [], _ => some []
  | (name, p) :: fs, fields =>
    match fields.lookup name with
    | some t => do
      let p ← checkMatchPattern rejectBindings p t
      let fs ← checkFields rejectBindings fs fields
      some ((name, p) :: fs)
    | none => none

def checkAlts : List Pat → Ty → Option (List Pat)
  | [], _ => some []
  | p :: ps, t => do
    let p ← checkMatchPattern true p t
    let ps ← checkAlts ps t
    some (p :: ps)
end

mutual
/-- No struct pattern names a field twice. -/
def Pat.fieldsOnce : Pat → Bool
  | .some p | .err p | .ok (.some p) | .variant _ (.some p) => p.fieldsOnce
  | .struct fs => decide (fs.map Prod.fst).Nodup && fieldPatsOnce fs
  | .tuple ps => allFieldsOnce ps
  | .or p ps => p.fieldsOnce && allFieldsOnce ps
  | _ => true

def fieldPatsOnce : List (String × Pat) → Bool
  | [] => true
  | (_, p) :: fs => p.fieldsOnce && fieldPatsOnce fs

def allFieldsOnce : List Pat → Bool
  | [] => true
  | p :: ps => p.fieldsOnce && allFieldsOnce ps
end

/-- A pattern whose shape is that of its type; with `once`, no struct pattern
names a field twice. -/
inductive Typed (once : Bool) : Pat → Ty → Prop where
  | wildcard {t : Ty} : Typed once .wildcard t
  | binding {t : Ty} {name : String} : Typed once (.binding name) t
  | intLit {kind litType : Prim} {value : UInt64} {oor neg : Bool} (h : isInteger kind = true)
    (range : checkIntLiteralRange value kind oor neg = true) :
    Typed once (.intLit value litType oor neg) (.prim kind)
  | charLit {value : UInt8} : Typed once (.charLit value) (.prim .uint8)
  | boolLit {value : Bool} : Typed once (.boolLit value) (.prim .bool)
  | stringLit {value : List UInt8} : Typed once (.stringLit value) .str
  | some {p : Pat} {inner : Ty} (h : Typed once p inner) : Typed once (.some p) (.option inner)
  | none {inner : Ty} : Typed once .none (.option inner)
  | okBare {inner : Ty} : Typed once (.ok .none) (.result inner)
  | ok {p : Pat} {inner : Ty} (h : Typed once p inner) : Typed once (.ok (.some p)) (.result inner)
  | err {p : Pat} {inner : Ty} (h : Typed once p (.prim .int32)) :
    Typed once (.err p) (.result inner)
  | bare {t : Ty} {name : String} (h : t.variants.lookup name = Option.some Option.none) :
    Typed once (.variant name .none) t
  | payload {t payload : Ty} {name : String} {p : Pat}
    (h : t.variants.lookup name = Option.some (Option.some payload)) (hp : Typed once p payload) :
    Typed once (.variant name (.some p)) t
  | struct {fs : List (String × Pat)} {fields : List (String × Ty)} {types : List Ty}
    (names : once = true → (fs.map Prod.fst).Nodup)
    (lookups : fs.map (fun f => fields.lookup f.1) = types.map Option.some)
    (typed : List.Forall₂ (Typed once) (fs.map Prod.snd) types) :
    Typed once (.struct fs) (.struct false fields)
  | tuple {ps : List Pat} {fields : List (String × Ty)}
    (typed : List.Forall₂ (Typed once) ps (fields.map Prod.snd)) :
    Typed once (.tuple ps) (.struct true fields)
  | or {p : Pat} {ps : List Pat} {t : Ty} (h : Typed once p t) (hs : ∀ q ∈ ps, Typed once q t) :
    Typed once (.or p ps) t

variable {once : Bool}

theorem imp_and_eq_true {P : Prop} {a b : Bool} :
    (P → (a && b) = true) ↔ (P → a = true) ∧ (P → b = true) := by
  rw [Bool.and_eq_true, imp_and]

/-- What the check makes of the pattern has the type it was checked against. -/
def ChecksTyped (once : Bool) (p : Pat) : Prop := ∀ r t q, checkMatchPattern r p t = some q →
  (once = true → p.fieldsOnce = true) → Typed once q t

section
variable {p : Pat} {name : String}

-- this generates the equations before the lemmas that all use them
attribute [local simp] checkMatchPattern

theorem ChecksTyped.binding : ChecksTyped once (.binding name) := by
  intro r t q h _
  simp only [checkMatchPattern] at h
  split at h
  · cases h
    exact .bare ‹_›
  · cases h
  · split at h <;> cases h
    exact .binding

theorem ChecksTyped.intLit {value : UInt64} {litType : Prim} {oor neg : Bool} :
    ChecksTyped once (.intLit value litType oor neg) := by
  intro r t q h _
  simp only [checkMatchPattern] at h
  split at h
  · split at h <;> cases h
    rename_i hk
    obtain ⟨hkind, hrange⟩ := Bool.and_eq_true_iff.mp hk
    exact .intLit hkind hrange
  · cases h

theorem ChecksTyped.charLit {value : UInt8} : ChecksTyped once (.charLit value) := by
  intro r t q h _
  simp only [checkMatchPattern] at h
  split at h <;> cases h
  exact .charLit

theorem ChecksTyped.boolLit {value : Bool} : ChecksTyped once (.boolLit value) := by
  intro r t q h _
  simp only [checkMatchPattern] at h
  split at h <;> cases h
  exact .boolLit

theorem ChecksTyped.stringLit {value : List UInt8} : ChecksTyped once (.stringLit value) := by
  intro r t q h _
  simp only [checkMatchPattern] at h
  split at h <;> cases h
  exact .stringLit

theorem ChecksTyped.none : ChecksTyped once .none := by
  intro r t q h _
  simp only [checkMatchPattern] at h
  split at h <;> cases h
  exact .none

theorem ChecksTyped.some (hp : ChecksTyped once p) : ChecksTyped once (.some p) := by
  intro r t q h hf
  simp only [checkMatchPattern] at h
  split at h
  · obtain ⟨p', hp', rfl⟩ := Option.map_eq_some_iff.mp h
    exact .some (hp _ _ _ hp' hf)
  · cases h

theorem ChecksTyped.okBare : ChecksTyped once (.ok Option.none) := by
  intro r t q h _
  simp only [checkMatchPattern] at h
  split at h
  · cases h
    exact .okBare
  · cases h
  · cases h

theorem ChecksTyped.ok (hp : ChecksTyped once p) : ChecksTyped once (.ok (Option.some p)) := by
  intro r t q h hf
  simp only [checkMatchPattern] at h
  split at h
  · cases h
  · obtain ⟨p', hp', rfl⟩ := Option.map_eq_some_iff.mp h
    obtain ⟨p'', hp'', rfl⟩ := Option.map_eq_some_iff.mp hp'
    exact .ok (hp _ _ _ hp'' hf)
  · cases h

theorem ChecksTyped.err (hp : ChecksTyped once p) : ChecksTyped once (.err p) := by
  intro r t q h hf
  simp only [checkMatchPattern] at h
  split at h
  · obtain ⟨p', hp', rfl⟩ := Option.map_eq_some_iff.mp h
    exact .err (hp _ _ _ hp' hf)
  · cases h

theorem ChecksTyped.bareVariant : ChecksTyped once (.variant name Option.none) := by
  intro r t q h _
  simp only [checkMatchPattern] at h
  split at h
  · rename_i payload hl
    obtain ⟨p', hp', rfl⟩ := Option.map_eq_some_iff.mp h
    cases payload with
    | none =>
      cases hp'
      exact .bare hl
    | some t => cases hp'
  · cases h

theorem ChecksTyped.variant (hp : ChecksTyped once p) :
    ChecksTyped once (.variant name (Option.some p)) := by
  intro r t q h hf
  simp only [checkMatchPattern] at h
  split at h
  · rename_i payload hl
    obtain ⟨p', hp', rfl⟩ := Option.map_eq_some_iff.mp h
    cases payload with
    | none => cases hp'
    | some t =>
      obtain ⟨p'', hp'', rfl⟩ := Option.map_eq_some_iff.mp hp'
      exact .payload hl (hp _ _ _ hp'' hf)
  · cases h

end

mutual
theorem checkMatchPattern_typed : (p : Pat) → ChecksTyped once p
  | .wildcard => fun r t q h _ => by
    cases h
    exact .wildcard
  | .binding name => .binding
  | .intLit value litType oor neg => .intLit
  | .charLit value => .charLit
  | .boolLit value => .boolLit
  | .stringLit value => .stringLit
  | .none => .none
  | .some p => (checkMatchPattern_typed p).some
  | .ok none => .okBare
  | .ok (some p) => (checkMatchPattern_typed p).ok
  | .err p => (checkMatchPattern_typed p).err
  | .variant name none => .bareVariant
  | .variant name (some p) => (checkMatchPattern_typed p).variant
  | .struct fs => fun r t q h hf => by
    simp only [checkMatchPattern] at h
    split at h
    · obtain ⟨fs', hfs', rfl⟩ := Option.map_eq_some_iff.mp h
      obtain ⟨honce, hf⟩ := imp_and_eq_true.mp hf
      obtain ⟨hnames, types, hl, ht⟩ := checkFields_typed fs hfs' hf
      exact .struct (fun h => hnames ▸ of_decide_eq_true (honce h)) hl ht
    · cases h
  | .tuple ps => fun r t q h hf => by
    simp only [checkMatchPattern] at h
    split at h
    · obtain ⟨ps', hps', rfl⟩ := Option.map_eq_some_iff.mp h
      exact .tuple (checkElems_typed ps hps' hf)
    · cases h
  | .or p ps => fun r t q h hf => by
    simp only [checkMatchPattern] at h
    obtain ⟨p', hp', h⟩ := Option.bind_eq_some_iff.mp h
    obtain ⟨ps', hps', h⟩ := Option.bind_eq_some_iff.mp h
    cases h
    obtain ⟨hf₁, hf₂⟩ := imp_and_eq_true.mp hf
    exact .or (checkMatchPattern_typed p _ _ _ hp' hf₁) (checkAlts_typed ps hps' hf₂)

theorem checkFields_typed : (fs : List (String × Pat)) → ∀ {r fields qs},
    checkFields r fs fields = some qs → (once = true → fieldPatsOnce fs = true) →
    qs.map Prod.fst = fs.map Prod.fst ∧ ∃ types : List Ty,
      qs.map (fun f => fields.lookup f.1) = types.map some ∧
        List.Forall₂ (Typed once) (qs.map Prod.snd) types
  | [], r, fields, qs, h, _ => by
    cases h
    exact ⟨rfl, [], rfl, .nil⟩
  | (name, p) :: fs, r, fields, qs, h, hf => by
    simp only [checkFields] at h
    split at h
    · rename_i t hl
      obtain ⟨p', hp', h⟩ := Option.bind_eq_some_iff.mp h
      obtain ⟨fs', hfs', h⟩ := Option.bind_eq_some_iff.mp h
      cases h
      obtain ⟨hf₁, hf₂⟩ := imp_and_eq_true.mp hf
      obtain ⟨hnames, types, hls, ht⟩ := checkFields_typed fs hfs' hf₂
      refine ⟨congrArg (name :: ·) hnames, t :: types, ?_, .cons (checkMatchPattern_typed p _ _ _ hp' hf₁) ht⟩
      simp only [List.map_cons, hl, hls]
    · cases h

theorem checkElems_typed : (ps : List Pat) → ∀ {r fields qs},
    checkElems r ps fields = some qs → (once = true → allFieldsOnce ps = true) →
    List.Forall₂ (Typed once) qs (fields.map Prod.snd)
  | [], r, [], qs, h, _ => by
    cases h
    exact .nil
  | [], r, _ :: _, qs, h, _ => by cases h
  | _ :: _, r, [], qs, h, _ => by cases h
  | p :: ps, r, (_, t) :: fields, qs, h, hf => by
    simp only [checkElems] at h
    obtain ⟨p', hp', h⟩ := Option.bind_eq_some_iff.mp h
    obtain ⟨ps', hps', h⟩ := Option.bind_eq_some_iff.mp h
    cases h
    obtain ⟨hf₁, hf₂⟩ := imp_and_eq_true.mp hf
    exact .cons (checkMatchPattern_typed p _ _ _ hp' hf₁) (checkElems_typed ps hps' hf₂)

theorem checkAlts_typed : (ps : List Pat) → ∀ {t qs}, checkAlts ps t = some qs →
    (once = true → allFieldsOnce ps = true) → ∀ q ∈ qs, Typed once q t
  | [], t, qs, h, _ => by
    cases h
    simp
  | p :: ps, t, qs, h, hf => by
    simp only [checkAlts] at h
    obtain ⟨p', hp', h⟩ := Option.bind_eq_some_iff.mp h
    obtain ⟨ps', hps', h⟩ := Option.bind_eq_some_iff.mp h
    cases h
    obtain ⟨hf₁, hf₂⟩ := imp_and_eq_true.mp hf
    exact List.forall_mem_cons.mpr
      ⟨checkMatchPattern_typed p _ _ _ hp' hf₁, checkAlts_typed ps hps' hf₂⟩
end

end FcLang.Match
