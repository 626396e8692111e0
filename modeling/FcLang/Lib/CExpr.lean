import FcLang.Lib.IntFormat

/-!
# Integer expressions of C

C11 on a target with a 32-bit `int` and 64-bit `long` and `long long`. An
expression has a static type, by the rules for literals, the integer promotions
and the usual arithmetic conversions, and a value in that type, unless its
evaluation calls `abort` or is undefined. A compound expression leaves the order
of its operands open, so it is undefined as soon as one of them is.
-/

namespace FcLang

inductive CType where
  | bool
  | schar | short | int | long | llong
  | uchar | ushort | uint | ulong | ullong
  deriving DecidableEq, Repr

inductive Stop where
  | abort
  | undefined
  deriving DecidableEq, Repr

abbrev COut := Except Stop ℤ

namespace CType

/-- The conversion rank. -/
def rank : CType → ℕ
  | .bool => 0
  | .schar | .uchar => 1
  | .short | .ushort => 2
  | .int | .uint => 3
  | .long | .ulong => 4
  | .llong | .ullong => 5

def bits : CType → ℕ
  | .bool => 1
  | .schar | .uchar => 8
  | .short | .ushort => 16
  | .int | .uint => 32
  | .long | .ulong | .llong | .ullong => 64

def signed : CType → Bool
  | .schar | .short | .int | .long | .llong => true
  | _ => false

def toUnsigned : CType → CType
  | .schar => .uchar
  | .short => .ushort
  | .int => .uint
  | .long => .ulong
  | .llong => .ullong
  | t => t

def format (t : CType) : Format := ⟨t.bits, t.signed⟩

theorem bits_pos (t : CType) : 0 < t.format.bits := by
  cases t <;> decide

/-- A conversion to `t`. One to `_Bool` compares with 0. -/
def convert (t : CType) (z : ℤ) : ℤ :=
  if t = .bool then (if z = 0 then 0 else 1) else t.format.wrap z

/-- The integer promotions: `int` holds every value of the lower ranks. -/
def promote (t : CType) : CType := if t.rank < int.rank then .int else t

/-- The usual arithmetic conversions. -/
def usual (a b : CType) : CType :=
  let a := a.promote
  let b := b.promote
  if a.signed = b.signed then (if a.rank < b.rank then b else a)
  else
    let u := if a.signed then b else a
    let s := if a.signed then a else b
    if s.rank ≤ u.rank then u else if u.bits < s.bits then s else s.toUnsigned

/-- The exact result `z` of an operator of type `t`: an unsigned type reduces
it, a signed one has to hold it. -/
def result (t : CType) (z : ℤ) : COut :=
  if t.signed = false then .ok (t.format.wrap z)
  else if t.format.Fits z then .ok z
  else .error .undefined

end CType

/-- What an integer literal ends with. -/
inductive CSuffix where
  | none | l | ul | ll
  deriving DecidableEq, Repr

/-- The types a literal may take, in the order in which they are tried. -/
def CSuffix.candidates : CSuffix → Bool → List CType
  | .none, false => [.int, .long, .llong]
  | .none, true => [.int, .uint, .long, .ulong, .llong, .ullong]
  | .l, false => [.long, .llong]
  | .l, true => [.long, .ulong, .llong, .ullong]
  | .ul, _ => [.ulong, .ullong]
  | .ll, false => [.llong]
  | .ll, true => [.llong, .ullong]

inductive COp where
  | add | sub | mul | div | mod | shl | shr | band | bor | bxor
  | eq | ne | lt | gt | le | ge
  deriving DecidableEq, Repr

def COp.isShift : COp → Bool
  | .shl | .shr => true
  | _ => false

def COp.isComparison : COp → Bool
  | .eq | .ne | .lt | .gt | .le | .ge => true
  | _ => false

/-- The type an operator yields on operands of types `a` and `b`. -/
def COp.resultType (op : COp) (a b : CType) : CType :=
  if op.isShift then a.promote
  else if op.isComparison then .int
  else CType.usual a b

def COp.holds : COp → ℤ → ℤ → Bool
  | .eq, x, y => x = y
  | .ne, x, y => x ≠ y
  | .lt, x, y => x < y
  | .gt, x, y => x > y
  | .le, x, y => x ≤ y
  | .ge, x, y => x ≥ y
  | _, _, _ => false

/-- An operator on operand values that were converted to its common type `t`. -/
def COp.onCommon (t : CType) (x y : ℤ) : COp → COut
  | .add => t.result (x + y)
  | .sub => t.result (x - y)
  | .mul => t.result (x * y)
  | .div => if y = 0 then .error .undefined else t.result (x.tdiv y)
  | .mod => if y = 0 ∨ ¬t.format.Fits (x.tdiv y) then .error .undefined else t.result (x.tmod y)
  | .band => t.result (Int.land x y)
  | .bor => t.result (Int.lor x y)
  | .bxor => t.result (Int.xor x y)
  | op => .ok (if op.holds x y then 1 else 0)

/-- A shift of a value of the promoted type `t`. -/
def COp.onShift (t : CType) (x y : ℤ) : COp → COut
  | .shl =>
    if y < 0 ∨ t.format.bits ≤ y then .error .undefined
    else if t.signed ∧ x < 0 then .error .undefined
    else t.result (x * 2 ^ y.toNat)
  | _ => if y < 0 ∨ t.format.bits ≤ y then .error .undefined else t.result (x / 2 ^ y.toNat)

def COp.apply (op : COp) (a b : CType) (x y : ℤ) : COut :=
  if op.isShift then op.onShift a.promote (a.promote.convert x) (b.promote.convert y)
  else op.onCommon (CType.usual a b) ((CType.usual a b).convert x) ((CType.usual a b).convert y)

/-- Two operands whose order is open. -/
def COut.both (x y : COut) (k : ℤ → ℤ → COut) : COut :=
  match x, y with
  | .ok a, .ok b => k a b
  | .error .undefined, _ => .error .undefined
  | _, .error .undefined => .error .undefined
  | _, _ => .error .abort

/-- Expressions over names `ν`. The last two are statement expressions:
`({ t x = init; body; })` and `({ if (test) abort(); body; })`. -/
inductive CExpr (ν : Type*) where
  | lit (hex : Bool) (suffix : CSuffix) (n : ℕ)
  | chr (byte : UInt8)
  | var (x : ν) (t : CType)
  | neg (e : CExpr ν)
  | compl (e : CExpr ν)
  | cast (t : CType) (e : CExpr ν)
  | bin (op : COp) (l r : CExpr ν)
  | cond (test thn els : CExpr ν)
  | decl (x : ν) (t : CType) (init body : CExpr ν)
  | abortIf (test body : CExpr ν)

namespace CExpr
variable {ν : Type*}

/-- The static type. -/
def type : CExpr ν → CType
  | .lit hex suffix n =>
    ((suffix.candidates hex).find? fun t => decide (t.format.Fits n)).getD .ullong
  | .chr _ => .int
  | .var _ t => t
  | .neg e => e.type.promote
  | .compl e => e.type.promote
  | .cast t _ => t
  | .bin op l r => op.resultType l.type r.type
  | .cond _ a b => CType.usual a.type b.type
  | .decl _ _ _ body => body.type
  | .abortIf _ body => body.type

/-- A character constant has the value of a plain `char`, whose sign the
implementation chooses. -/
def chrValue (charSigned : Bool) (byte : UInt8) : ℤ :=
  (if charSigned then CType.schar else .uchar).convert byte.toNat

variable [DecidableEq ν]

/-- The value under an environment that says what each name stores; a name that
stores nothing yet is read with undefined behaviour. -/
def eval (charSigned : Bool) (env : ν → Option ℤ) : CExpr ν → COut
  | .lit hex suffix n => (CExpr.lit (ν := ν) hex suffix n).type.result n
  | .chr byte => .ok (chrValue charSigned byte)
  | .var x t =>
    match env x with
    | some z => .ok (t.convert z)
    | none => .error .undefined
  | .neg e => do
    let z ← e.eval charSigned env
    e.type.promote.result (-z)
  | .compl e => do
    let z ← e.eval charSigned env
    e.type.promote.result (-z - 1)
  | .cast t e => do
    let z ← e.eval charSigned env
    .ok (t.convert z)
  | .bin op l r =>
    COut.both (l.eval charSigned env) (r.eval charSigned env) (op.apply l.type r.type)
  | .cond test a b => do
    let z ← test.eval charSigned env
    (if z ≠ 0 then a.eval charSigned env else b.eval charSigned env) >>= fun v =>
      .ok ((CType.usual a.type b.type).convert v)
  | .decl x t init body => do
    let z ← init.eval charSigned (Function.update env x none)
    body.eval charSigned (Function.update env x (some (t.convert z)))
  | .abortIf test body => do
    let z ← test.eval charSigned env
    if z ≠ 0 then .error .abort else body.eval charSigned env

end CExpr

section Laws
variable {ν : Type*} [DecidableEq ν] {charSigned : Bool} {env : ν → Option ℤ} {x y z : ℤ}
variable {a b t : CType} {e l r : CExpr ν}

namespace CType

theorem result_ok {w : ℤ} (h : t.result z = .ok w) : t.format.Fits w := by
  unfold result at h
  split_ifs at h with hs hf
  · cases h
    exact Format.fits_wrap t.bits_pos z
  · cases h
    exact hf

theorem result_of_fits (h : t.format.Fits z) : t.result z = .ok z := by
  unfold result
  rw [if_pos h, Format.wrap_of_fits t.bits_pos h, ite_self]

theorem result_unsigned (hs : t.signed = false) : t.result z = .ok (t.format.wrap z) := if_pos hs

theorem fits_convert (t : CType) (z : ℤ) : t.format.Fits (t.convert z) := by
  unfold convert
  split
  · rename_i ht
    subst ht
    split <;> decide
  · exact Format.fits_wrap t.bits_pos z

theorem fits_int (h : 0 ≤ z ∧ z ≤ 1) : int.format.Fits z := by
  rw [Format.fits_signed rfl]
  change -2 ^ 31 ≤ z ∧ z < 2 ^ 31
  omega

theorem convert_of_fits (h : t.format.Fits z) : t.convert z = z := by
  unfold convert
  split
  · rename_i ht
    subst ht
    rw [Format.fits_unsigned rfl] at h
    change 0 ≤ z ∧ z < 2 ^ 1 at h
    split <;> omega
  · exact Format.wrap_of_fits t.bits_pos h

theorem promote_or_eq (t : CType) :
    t.promote = t ∨ t.promote = .int ∧ t.bits < int.bits := by
  cases t <;> decide

theorem fits_promote (h : t.format.Fits z) : t.promote.format.Fits z := by
  obtain ht | ⟨ht, hb⟩ := promote_or_eq t
  · rwa [ht]
  · rw [ht]
    cases hs : t.signed with
    | true => exact h.mono hs hb.le
    | false => exact h.mono_signed hs rfl hb

theorem bits_le_usual (a b : CType) :
    a.promote.bits ≤ (usual a b).bits ∧ b.promote.bits ≤ (usual a b).bits := by
  cases a <;> cases b <;> decide

/-- A common type that is signed holds every value of its two operands. -/
theorem usual_signed (a b : CType) (hs : (usual a b).signed = true) :
    (a.promote.signed = false → a.promote.bits < (usual a b).bits) ∧
      (b.promote.signed = false → b.promote.bits < (usual a b).bits) := by
  revert hs
  cases a <;> cases b <;> decide

theorem fits_usual_left (h : a.format.Fits z) (hz : 0 ≤ z ∨ (usual a b).signed = true) :
    (usual a b).format.Fits z := by
  have hp := fits_promote h
  have hb := (bits_le_usual a b).1
  cases hs : (usual a b).signed with
  | true =>
    cases ha : a.promote.signed with
    | true => exact hp.mono (ha.trans hs.symm) hb
    | false => exact hp.mono_signed ha hs ((usual_signed a b hs).1 ha)
  | false => exact hp.mono_unsigned (hz.resolve_right (by simp [hs])) hs hb

theorem fits_usual_right (h : b.format.Fits z) (hz : 0 ≤ z ∨ (usual a b).signed = true) :
    (usual a b).format.Fits z := by
  have hp := fits_promote h
  have hb := (bits_le_usual a b).2
  cases hs : (usual a b).signed with
  | true =>
    cases ha : b.promote.signed with
    | true => exact hp.mono (ha.trans hs.symm) hb
    | false => exact hp.mono_signed ha hs ((usual_signed a b hs).2 ha)
  | false => exact hp.mono_unsigned (hz.resolve_right (by simp [hs])) hs hb

theorem promote_usual (a b : CType) : (usual a b).promote = usual a b := by
  cases a <;> cases b <;> decide

end CType

namespace COp

theorem onShift_fits {op : COp} {w : ℤ} (h : op.onShift t x y = .ok w) : t.format.Fits w := by
  cases op with
  | shl =>
    simp only [onShift] at h
    split_ifs at h
    exact CType.result_ok h
  | _ =>
    simp only [onShift] at h
    split_ifs at h
    exact CType.result_ok h

theorem onCommon_fits {op : COp} {w : ℤ} (hc : op.isComparison = false) (hs : op.isShift = false)
    (h : op.onCommon t x y = .ok w) : t.format.Fits w := by
  cases op with
  | add => exact CType.result_ok h
  | sub => exact CType.result_ok h
  | mul => exact CType.result_ok h
  | band => exact CType.result_ok h
  | bor => exact CType.result_ok h
  | bxor => exact CType.result_ok h
  | div =>
    simp only [onCommon] at h
    split_ifs at h
    exact CType.result_ok h
  | mod =>
    simp only [onCommon] at h
    split_ifs at h
    exact CType.result_ok h
  | shl | shr => cases hs
  | eq | ne | lt | gt | le | ge => cases hc

theorem onCommon_comparison {op : COp} (hc : op.isComparison = true) :
    op.onCommon t x y = .ok (if op.holds x y then 1 else 0) := by
  cases op <;> first | rfl | cases hc

theorem apply_shift {op : COp} (hop : op.isShift = true) :
    op.apply a b x y = op.onShift a.promote (a.promote.convert x) (b.promote.convert y) :=
  if_pos hop

theorem apply_common {op : COp} (hop : op.isShift = false) :
    op.apply a b x y =
      op.onCommon (CType.usual a b) ((CType.usual a b).convert x) ((CType.usual a b).convert y) :=
  if_neg (by simp [hop])

theorem apply_fits {op : COp} {w : ℤ} (h : op.apply a b x y = .ok w) :
    (op.resultType a b).format.Fits w := by
  unfold apply at h
  unfold resultType
  split_ifs at h ⊢ with hs hc
  · exact onShift_fits h
  · rw [onCommon_comparison hc] at h
    cases h
    apply CType.fits_int
    split <;> norm_num
  · exact onCommon_fits (by simpa using hc) (by simpa using hs) h

end COp

namespace CExpr

omit [DecidableEq ν] in
theorem lit_type {hex : Bool} {suffix : CSuffix} {n : ℕ}
    (h : ∃ c ∈ suffix.candidates hex, c.format.Fits n) :
    (lit (ν := ν) hex suffix n).type ∈ suffix.candidates hex ∧
      (lit (ν := ν) hex suffix n).type.format.Fits n := by
  obtain ⟨c, hc, hn⟩ := h
  obtain ⟨d, hd⟩ := Option.isSome_iff_exists.mp
    (List.find?_isSome (p := fun t : CType => decide (t.format.Fits n)).mpr
      ⟨c, hc, decide_eq_true hn⟩)
  simp only [type, hd, Option.getD_some]
  have hfits := List.find?_some hd
  exact ⟨List.mem_of_find?_eq_some hd, of_decide_eq_true hfits⟩

omit [DecidableEq ν] in
/-- A literal has the first type of its list unless it needs the second. -/
theorem lit_type_two {hex : Bool} {suffix : CSuffix} {n : ℕ} {c d : CType} {rest : List CType}
    (hl : suffix.candidates hex = c :: d :: rest) (hd : d.format.Fits n) :
    (lit (ν := ν) hex suffix n).type = c ∨
      ¬c.format.Fits n ∧ (lit (ν := ν) hex suffix n).type = d := by
  simp only [type, hl, List.find?_cons]
  by_cases hc : c.format.Fits n
  · simp [hc]
  · simp [hc, hd]

theorem eval_lit {hex : Bool} {suffix : CSuffix} {n : ℕ}
    (h : ∃ c ∈ suffix.candidates hex, c.format.Fits n) :
    (lit hex suffix n).eval charSigned env = .ok (n : ℤ) :=
  CType.result_of_fits (lit_type h).2

@[simp] theorem both_ok (x y : ℤ) (k : ℤ → ℤ → COut) : COut.both (.ok x) (.ok y) k = k x y := rfl

theorem both_eq_ok {p q : COut} {k : ℤ → ℤ → COut} {w : ℤ} (h : COut.both p q k = .ok w) :
    ∃ x y, p = .ok x ∧ q = .ok y ∧ k x y = .ok w := by
  unfold COut.both at h
  split at h
  · exact ⟨_, _, rfl, rfl, h⟩
  all_goals cases h

theorem bind_ok {p : COut} {k : ℤ → COut} {w : ℤ} (h : p >>= k = .ok w) :
    ∃ z, p = .ok z ∧ k z = .ok w := by
  cases p with
  | error s => cases h
  | ok z => exact ⟨z, rfl, h⟩

theorem eval_fits (e : CExpr ν) {w : ℤ} (h : e.eval charSigned env = .ok w) :
    e.type.format.Fits w := by
  induction e generalizing env w with
  | lit hex suffix n => exact CType.result_ok h
  | chr byte =>
    cases h
    cases charSigned with
    | true => exact CType.fits_promote (CType.fits_convert .schar _)
    | false => exact CType.fits_promote (CType.fits_convert .uchar _)
  | var x t =>
    simp only [eval] at h
    split at h <;> cases h
    exact CType.fits_convert _ _
  | neg e ih =>
    obtain ⟨z, -, h⟩ := bind_ok h
    exact CType.result_ok h
  | compl e ih =>
    obtain ⟨z, -, h⟩ := bind_ok h
    exact CType.result_ok h
  | cast t e ih =>
    obtain ⟨z, -, h⟩ := bind_ok h
    cases h
    exact CType.fits_convert _ _
  | bin op l r ihl ihr =>
    obtain ⟨x, y, -, -, h⟩ := both_eq_ok h
    exact COp.apply_fits h
  | cond test a b iht iha ihb =>
    obtain ⟨z, -, h⟩ := bind_ok h
    obtain ⟨v, -, h⟩ := bind_ok h
    cases h
    exact CType.fits_convert _ _
  | decl x t init body ihi ihb =>
    obtain ⟨z, -, h⟩ := bind_ok h
    exact ihb h
  | abortIf test body iht ihb =>
    obtain ⟨z, -, h⟩ := bind_ok h
    split at h
    · cases h
    · exact ihb h

/-- A character constant is a nonnegative number only where it is its byte. -/
theorem chrValue_eq_iff (charSigned : Bool) (byte : UInt8) (n : ℕ) :
    chrValue charSigned byte = n ↔ byte.toNat = n ∧ (charSigned = true → byte.toNat < 128) := by
  have hlt := byte.toNat_lt
  cases charSigned with
  | false =>
    change (byte.toNat : ℤ) % 2 ^ 8 = n ↔ _
    simp only [Bool.false_eq_true, false_implies, and_true]
    omega
  | true =>
    have hchr : chrValue true byte = (byte.toNat : ℤ).bmod 256 := by
      simp [chrValue, CType.convert, CType.format, Format.wrap, CType.bits, CType.signed]
    rw [hchr, Int.bmod_def]
    simp only [true_implies]
    split <;> omega

end CExpr

end Laws

end FcLang
