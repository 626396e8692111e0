import FcLang.Codegen.IntEmit

/-!
# Guarded slice access

The C of `s[i]` and `s[lo..hi]` outside `unguarded`, for every width of a stored
length. One unsigned compare covers a negative index and one past the end. The
pointer part of a result is an offset from the pointer of the operand.
-/

namespace FcLang.Codegen

/-- `--len-repr`, the width of a stored length. -/
inductive LenRepr where
  | w16 | w32 | w64
  deriving DecidableEq, Repr

/-- The width of a pointer of the target. -/
inductive PtrWidth where
  | w32 | w64
  deriving DecidableEq, Repr

structure Target where
  lenRepr : LenRepr
  ptrWidth : PtrWidth
  deriving DecidableEq, Repr

inductive ScalarTy where
  | fixed (t : IntTy)
  | isize | usize
  deriving DecidableEq, Repr

def LenRepr.bits : LenRepr → ℕ
  | .w16 => 16
  | .w32 => 32
  | .w64 => 64

/-- `FC_LEN_MAX`. -/
def LenRepr.lenMax (r : LenRepr) : ℕ := 2 ^ (r.bits - 1) - 1

def PtrWidth.bits : PtrWidth → ℕ
  | .w32 => 32
  | .w64 => 64

namespace ScalarTy

def emitType (w : PtrWidth) : ScalarTy → CType
  | .fixed t => Codegen.emitType t
  | .isize => match w with
    | .w32 => .int
    | .w64 => .long
  | .usize => match w with
    | .w32 => .uint
    | .w64 => .ulong

def format (w : PtrWidth) : ScalarTy → Format
  | .fixed t => t.format
  | .isize => ⟨w.bits, true⟩
  | .usize => ⟨w.bits, false⟩

/-- What `guard_bits` takes an index type for: the pointer-wide types count as 64 bits. -/
def rangeBits : ScalarTy → ℕ
  | .fixed t => t.bits
  | .isize | .usize => 64

end ScalarTy

/-- The widths a bounds compare runs at. -/
inductive GuardWidth where
  | g16 | g32 | g64
  deriving DecidableEq, Repr

def GuardWidth.bits : GuardWidth → ℕ
  | .g16 => 16
  | .g32 => 32
  | .g64 => 64

def GuardWidth.unsigned : GuardWidth → CType
  | .g16 => .ushort
  | .g32 => .uint
  | .g64 => .ulong

/-- `fc_len_t`. -/
def LenRepr.lenT : LenRepr → CType
  | .w16 => .short
  | .w32 => .int
  | .w64 => .long

def LenRepr.guard : LenRepr → GuardWidth
  | .w16 => .g16
  | .w32 => .g32
  | .w64 => .g64

def GuardWidth.max (a b : GuardWidth) : GuardWidth :=
  if a.bits > b.bits then a else b

def guardBits (r : LenRepr) (idxType : ScalarTy) : GuardWidth :=
  if r.bits ≥ 64 then .g64
  else
    let b := match idxType.rangeBits with
      | 8 | 16 => .g16
      | 32 => .g32
      | _ => .g64
    if b.bits > r.bits then b else r.guard

/-- The temporaries of an access. `_s` is a slice, of which the length is kept. -/
inductive AccessName where
  | slen (tid : ℕ)
  | i (tid : ℕ)
  | lo (tid : ℕ)
  | hi (tid : ℕ)
  | operand (name : String)
  deriving DecidableEq, Repr

abbrev AccessCode := CExpr AccessName

section Emit
variable (r : LenRepr) (tid : ℕ)

/-- The operand's length in `_s`. The value is the offset of the element. -/
def emitIndex (idxType : ScalarTy) (objLen index : AccessCode) : AccessCode :=
  let u := (guardBits r idxType).unsigned
  let i : AccessCode := .var (.i tid) .long
  let len : AccessCode := .var (.slen tid) r.lenT
  .decl (.slen tid) r.lenT objLen (.decl (.i tid) .long (.cast .long index)
    (.abortIf (.bin .ge (.cast u i) (.cast u len)) i))

/-- A bound of a subslice, its type and its code. -/
abbrev Bound := ScalarTy × AccessCode

inductive SliceField where
  | ptr | len
  deriving DecidableEq, Repr

/-- The width of a bound's compare. An omitted one is a constant or the length. -/
def boundBits (r : LenRepr) : Option Bound → GuardWidth
  | some b => guardBits r b.1
  | none => r.guard

/-- One field of the subslice. The first test is the `||` of two compares. -/
def emitSlice (field : SliceField) (objLen : AccessCode) (lo hi : Option Bound) : AccessCode :=
  let u := ((boundBits r lo).max (boundBits r hi)).unsigned
  let vlo : AccessCode := .var (.lo tid) .long
  let vhi : AccessCode := .var (.hi tid) .long
  let len : AccessCode := .var (.slen tid) r.lenT
  let test := .cond (.bin .gt (.cast u vlo) (.cast u vhi)) (.lit false .none 1)
    (.bin .gt (.cast u vhi) (.cast u len))
  let result := match field with
    | .ptr => vlo
    | .len => .cast r.lenT (.bin .sub vhi vlo)
  .decl (.slen tid) r.lenT objLen
    (.decl (.lo tid) .long ((lo.map fun b => .cast .long b.2).getD (.lit false .none 0))
      (.decl (.hi tid) .long ((hi.map fun b => .cast .long b.2).getD len)
        (.abortIf test result)))

end Emit

section Widths
variable {r : LenRepr} {w : PtrWidth} {t : ScalarTy} {g : GuardWidth} {z len : ℤ}

theorem le_guardBits (r : LenRepr) (t : ScalarTy) :
    r.bits ≤ (guardBits r t).bits ∧ t.rangeBits ≤ (guardBits r t).bits := by
  cases r <;> rcases t with (_ | _) | _ | _ <;> decide

theorem format_bits_le (w : PtrWidth) (t : ScalarTy) : (t.format w).bits ≤ t.rangeBits := by
  cases w <;> rcases t with (_ | _) | _ | _ <;> decide

theorem guardBits_le (g : GuardWidth) : g.bits ≤ 64 := by
  cases g <;> decide

theorem le_max_left (a b : GuardWidth) : a.bits ≤ (a.max b).bits := by
  cases a <;> cases b <;> decide

theorem le_max_right (a b : GuardWidth) : b.bits ≤ (a.max b).bits := by
  cases a <;> cases b <;> decide

theorem two_pow_le {m n : ℕ} (h : m ≤ n) : (2 : ℤ) ^ m ≤ 2 ^ n :=
  pow_le_pow_right₀ (by norm_num) h

theorem lenMax_lt (hg : r.bits ≤ g.bits) (hlen : len ≤ r.lenMax) : 2 * len + 2 ≤ 2 ^ g.bits := by
  have hpow := two_pow_le hg
  have hmax : 2 * ((r.lenMax : ℕ) : ℤ) + 2 = 2 ^ r.bits := by
    cases r <;> decide
  omega

/-- The values of an index type that fits the guard: a negative one is not below
half of the unsigned range. -/
theorem range_of_fits (hz : (t.format w).Fits z) (hg : t.rangeBits ≤ g.bits) :
    -2 ^ (g.bits - 1) ≤ z ∧ z < 2 ^ g.bits := by
  have hb : (t.format w).bits ≤ g.bits := (format_bits_le w t).trans hg
  have h1 := two_pow_le hb
  have h2 : (2 : ℤ) ^ ((t.format w).bits - 1) ≤ 2 ^ (g.bits - 1) := two_pow_le (by omega)
  have h3 : (2 : ℤ) ^ ((t.format w).bits - 1) ≤ 2 ^ g.bits := two_pow_le (by omega)
  have hpos : (0 : ℤ) < 2 ^ (g.bits - 1) := by positivity
  unfold Format.Fits at hz
  split at hz <;> omega

/-- The cast of a stored index to the unsigned type of the guard. -/
theorem unsigned_wrap (hz : -2 ^ (g.bits - 1) ≤ z ∧ z < 2 ^ g.bits) :
    g.unsigned.convert (CType.long.convert z) = if 0 ≤ z then z else 2 ^ g.bits + z := by
  have hlong : CType.long.convert z = CType.long.format.wrap z := rfl
  have hconv : ∀ y, g.unsigned.convert y = y % 2 ^ g.bits := fun y => by
    cases g <;> rfl
  have hmod : CType.long.format.wrap z % 2 ^ g.bits = z % 2 ^ g.bits :=
    (CType.long.format.wrap_modEq z).of_dvd (pow_dvd_pow 2 (guardBits_le g))
  have hdouble : (2 : ℤ) ^ g.bits = 2 * 2 ^ (g.bits - 1) := by
    cases g <;> norm_num [GuardWidth.bits]
  rw [hlong, hconv, hmod]
  split
  · exact Int.emod_eq_of_lt ‹_› hz.2
  · rw [← Int.add_emod_left]
    exact Int.emod_eq_of_lt (by omega) (by omega)

theorem unsigned_len (hg : r.bits ≤ g.bits) (hlen : 0 ≤ len ∧ len ≤ r.lenMax) :
    g.unsigned.convert len = len := by
  have h := lenMax_lt hg hlen.2
  have hconv : ∀ y, g.unsigned.convert y = y % 2 ^ g.bits := fun y => by
    cases g <;> rfl
  rw [hconv]
  exact Int.emod_eq_of_lt hlen.1 (by omega)

/-- The fused compare lets through exactly the indices from 0 to the length. -/
theorem unsigned_lt_iff (hg : r.bits ≤ g.bits) (hlen : 0 ≤ len ∧ len ≤ r.lenMax)
    (hz : -2 ^ (g.bits - 1) ≤ z ∧ z < 2 ^ g.bits) :
    g.unsigned.convert (CType.long.convert z) < g.unsigned.convert len ↔ 0 ≤ z ∧ z < len := by
  have h := lenMax_lt hg hlen.2
  have hdouble : (2 : ℤ) ^ g.bits = 2 * 2 ^ (g.bits - 1) := by
    cases g <;> norm_num [GuardWidth.bits]
  rw [unsigned_wrap hz, unsigned_len hg hlen]
  split <;> omega

theorem unsigned_le_iff (hg : r.bits ≤ g.bits) (hlen : 0 ≤ len ∧ len ≤ r.lenMax)
    (hz : -2 ^ (g.bits - 1) ≤ z ∧ z < 2 ^ g.bits) :
    g.unsigned.convert (CType.long.convert z) ≤ g.unsigned.convert len ↔ 0 ≤ z ∧ z ≤ len := by
  have h := lenMax_lt hg hlen.2
  have hdouble : (2 : ℤ) ^ g.bits = 2 * 2 ^ (g.bits - 1) := by
    cases g <;> norm_num [GuardWidth.bits]
  rw [unsigned_wrap hz, unsigned_len hg hlen]
  split <;> omega

end Widths

section Exact
variable {charSigned : Bool} {env : AccessName → Option ℤ} {r : LenRepr} {w : PtrWidth}

/-- The code of an operand has the value `z`, whatever the temporaries hold. -/
def Yields (charSigned : Bool) (env : AccessName → Option ℤ) (e : AccessCode) (z : ℤ) : Prop :=
  ∀ env', (∀ name, env' (.operand name) = env (.operand name)) → e.eval charSigned env' = .ok z

theorem nonneg_convert (g : GuardWidth) (z : ℤ) : 0 ≤ g.unsigned.convert z := by
  have hs : g.unsigned.signed = false := by cases g <;> rfl
  exact ((Format.fits_unsigned hs).mp (CType.fits_convert g.unsigned z)).1

theorem eval_guardCompare (op : COp) (hop : op.isComparison = true) {a b : AccessCode} {x y : ℤ}
    (ha : a.eval charSigned env = .ok x) (hb : b.eval charSigned env = .ok y) (g : GuardWidth) :
    (CExpr.bin op (.cast g.unsigned a) (.cast g.unsigned b)).eval charSigned env =
      .ok (if op.holds (g.unsigned.convert x) (g.unsigned.convert y) then 1 else 0) := by
  have hshift : op.isShift = false := by cases op <;> first | rfl | cases hop
  have hx : (CType.usual g.unsigned g.unsigned).convert (g.unsigned.convert x) =
      g.unsigned.convert x := CType.convert_of_fits
    (CType.fits_usual_left (CType.fits_convert _ _) (.inl (nonneg_convert g x)))
  have hy : (CType.usual g.unsigned g.unsigned).convert (g.unsigned.convert y) =
      g.unsigned.convert y := CType.convert_of_fits
    (CType.fits_usual_left (CType.fits_convert _ _) (.inl (nonneg_convert g y)))
  have hcast : ∀ {e : AccessCode} {z : ℤ}, e.eval charSigned env = .ok z →
      (CExpr.cast g.unsigned e).eval charSigned env = .ok (g.unsigned.convert z) := fun h => by
    rw [CExpr.eval, h]
    rfl
  rw [CExpr.eval, hcast ha, hcast hb, CExpr.both_ok, COp.apply_common hshift]
  simp only [CExpr.type, hx, hy]
  exact COp.onCommon_comparison hop

theorem eval_var {x : AccessName} {t : CType} {z : ℤ} (h : env x = some z) :
    (CExpr.var x t).eval charSigned env = .ok (t.convert z) := by
  simp only [CExpr.eval, h]

theorem eval_decl {x : AccessName} {t : CType} {init body : AccessCode} {z : ℤ}
    (h : init.eval charSigned (Function.update env x none) = .ok z) :
    (CExpr.decl x t init body).eval charSigned env =
      body.eval charSigned (Function.update env x (some (t.convert z))) := by
  rw [CExpr.eval, h]
  rfl

theorem lenT_convert {len : ℤ} (hlen : 0 ≤ len ∧ len ≤ r.lenMax) : r.lenT.convert len = len := by
  apply CType.convert_of_fits
  have hs : r.lenT.signed = true := by cases r <;> rfl
  have hmax : ((r.lenMax : ℕ) : ℤ) < 2 ^ (r.lenT.format.bits - 1) := by
    cases r <;> decide
  have hpos : (0 : ℤ) < 2 ^ (r.lenT.format.bits - 1) := by positivity
  rw [Format.fits_signed hs]
  omega

theorem update_operand (x : AccessName) {v : Option ℤ} (hx : ∀ name, x ≠ .operand name)
    (name : String) : Function.update env x v (.operand name) = env (.operand name) :=
  Function.update_of_ne (hx name).symm _ _

/-- The guarded index gives the element's offset for exactly the indices of the slice. -/
theorem emitIndex_eval {tid : ℕ} {idxType : ScalarTy} {objLen index : AccessCode} {len i : ℤ}
    (hobj : Yields charSigned env objLen len) (hlen : 0 ≤ len ∧ len ≤ r.lenMax)
    (hindex : Yields charSigned env index i) (hi : (idxType.format w).Fits i) :
    (emitIndex r tid idxType objLen index).eval charSigned env =
      if 0 ≤ i ∧ i < len then .ok i else .error .abort := by
  have hg := le_guardBits r idxType
  have hrange := range_of_fits hi hg.2
  unfold emitIndex
  rw [eval_decl (hobj _ (update_operand (.slen tid) fun _ => nofun)), lenT_convert hlen]
  set env₁ := Function.update env (.slen tid) (some len)
  have hindex₁ : index.eval charSigned (Function.update env₁ (.i tid) none) = .ok i :=
    hindex _ fun name => (update_operand (.i tid) (fun _ => nofun) name).trans
      (update_operand (.slen tid) (fun _ => nofun) name)
  have hcast : (CExpr.cast .long index).eval charSigned (Function.update env₁ (.i tid) none) =
      .ok (CType.long.convert i) := by
    rw [CExpr.eval, hindex₁]
    rfl
  rw [eval_decl hcast, CType.convert_of_fits (CType.fits_convert _ _)]
  set env₂ := Function.update env₁ (.i tid) (some (CType.long.convert i))
  have hvi : (CExpr.var (.i tid) .long).eval charSigned env₂ = .ok (CType.long.convert i) := by
    rw [eval_var (Function.update_self _ _ _), CType.convert_of_fits (CType.fits_convert _ _)]
  have hvlen : (CExpr.var (.slen tid) r.lenT).eval charSigned env₂ = .ok len := by
    have hread : env₂ (.slen tid) = some len := by
      simp [env₂, env₁]
    rw [eval_var hread, lenT_convert hlen]
  have hcmp := unsigned_lt_iff hg.1 hlen hrange
  rw [CExpr.eval, eval_guardCompare .ge rfl hvi hvlen]
  by_cases h : 0 ≤ i ∧ i < len
  · have hlong : CType.long.convert i = i := CType.convert_of_fits <| by
      rw [Format.fits_signed rfl]
      have hmax := lenMax_lt (g := .g64) (by cases r <;> decide) hlen.2
      change -2 ^ 63 ≤ i ∧ i < 2 ^ 63
      change 2 * len + 2 ≤ 2 ^ 64 at hmax
      omega
    have htest : COp.ge.holds ((guardBits r idxType).unsigned.convert (CType.long.convert i))
        ((guardBits r idxType).unsigned.convert len) = false := by
      simpa [COp.holds] using hcmp.mpr h
    rw [htest, if_pos h]
    simp only [Bool.false_eq_true, if_false]
    exact hvi.trans (congrArg Except.ok hlong)
  · have htest : COp.ge.holds ((guardBits r idxType).unsigned.convert (CType.long.convert i))
        ((guardBits r idxType).unsigned.convert len) = true := by
      simpa [COp.holds] using hcmp.not.mpr h
    rw [htest, if_neg h]
    rfl

/-- A bound is worth `z`: its expression has that value, or it is omitted and `z` is
the default. -/
def BoundYields (charSigned : Bool) (env : AccessName → Option ℤ) (w : PtrWidth)
    (bound : Option Bound) (omitted z : ℤ) : Prop :=
  match bound with
  | none => z = omitted
  | some (t, code) => Yields charSigned env code z ∧ (t.format w).Fits z

theorem bound_range {bound : Option Bound} {omitted z len : ℤ} {g : GuardWidth}
    (hz : BoundYields charSigned env w bound omitted z) (ho : 0 ≤ omitted ∧ omitted ≤ len)
    (hlen : len ≤ r.lenMax) (hg : (boundBits r bound).bits ≤ g.bits) (hr : r.bits ≤ g.bits) :
    -2 ^ (g.bits - 1) ≤ z ∧ z < 2 ^ g.bits := by
  cases bound with
  | none =>
    have hmax := lenMax_lt hr (ho.2.trans hlen)
    have hpos : (0 : ℤ) < 2 ^ (g.bits - 1) := by positivity
    cases hz
    omega
  | some b => exact range_of_fits hz.2 ((le_guardBits r b.1).2.trans hg)

/-- The code of a bound, whose temporary keeps its low 64 bits. -/
theorem eval_bound {bound : Option Bound} {omitted z : ℤ} (dflt : AccessCode)
    (env' : AccessName → Option ℤ) (hz : BoundYields charSigned env w bound omitted z)
    (henv : ∀ name, env' (.operand name) = env (.operand name))
    (hdflt : dflt.eval charSigned env' = .ok omitted) :
    ∃ v, ((bound.map fun b => CExpr.cast .long b.2).getD dflt).eval charSigned env' = .ok v ∧
      CType.long.convert v = CType.long.convert z := by
  cases bound with
  | none =>
    cases hz
    exact ⟨_, hdflt, rfl⟩
  | some b =>
    refine ⟨CType.long.convert z, ?_, CType.convert_of_fits (CType.fits_convert _ _)⟩
    change (CExpr.cast .long b.2).eval charSigned env' = _
    rw [CExpr.eval, hz.1 env' henv]
    rfl

/-- The two fused compares let through exactly the ordered bounds of the slice. -/
theorem unsigned_bounds_iff {g : GuardWidth} {lo hi len : ℤ} (hg : r.bits ≤ g.bits)
    (hlen : 0 ≤ len ∧ len ≤ r.lenMax) (hlo : -2 ^ (g.bits - 1) ≤ lo ∧ lo < 2 ^ g.bits)
    (hhi : -2 ^ (g.bits - 1) ≤ hi ∧ hi < 2 ^ g.bits) :
    g.unsigned.convert (CType.long.convert lo) ≤ g.unsigned.convert (CType.long.convert hi) ∧
        g.unsigned.convert (CType.long.convert hi) ≤ g.unsigned.convert len ↔
      0 ≤ lo ∧ lo ≤ hi ∧ hi ≤ len := by
  rw [unsigned_le_iff hg hlen hhi]
  constructor
  · rintro ⟨hle, h0, hmax⟩
    have hself : g.unsigned.convert (CType.long.convert hi) = hi := by
      rw [unsigned_wrap hhi, if_pos h0]
    have hlo' := (unsigned_le_iff hg ⟨h0, hmax.trans hlen.2⟩ hlo).mp <| by
      rwa [unsigned_len hg ⟨h0, hmax.trans hlen.2⟩, ← hself]
    exact ⟨hlo'.1, hlo'.2, hmax⟩
  · rintro ⟨h0, hle, hmax⟩
    have h0' : 0 ≤ hi := h0.trans hle
    rw [unsigned_wrap hlo, unsigned_wrap hhi, if_pos h0, if_pos h0']
    exact ⟨hle, h0', hmax⟩

theorem long_convert_of_le {z len : ℤ} (h0 : 0 ≤ z) (hz : z ≤ len) (hlen : len ≤ r.lenMax) :
    CType.long.convert z = z := by
  apply CType.convert_of_fits
  have hmax := lenMax_lt (g := .g64) (by cases r <;> decide) hlen
  rw [Format.fits_signed rfl]
  change -2 ^ 63 ≤ z ∧ z < 2 ^ 63
  change 2 * len + 2 ≤ 2 ^ 64 at hmax
  omega

/-- `a || b` on the results of two compares. -/
theorem eval_either {test els : AccessCode} {p q : Bool} (htype : els.type = .int)
    (hp : test.eval charSigned env = .ok (if p then 1 else 0))
    (hq : els.eval charSigned env = .ok (if q then 1 else 0)) :
    (CExpr.cond test (.lit false .none 1) els).eval charSigned env =
      .ok (if p || q then 1 else 0) := by
  rw [CExpr.eval, hp, hq, htype]
  cases p with
  | true => rfl
  | false => cases q <;> rfl

/-- The guarded subslice has the pointer and the length of exactly the bounds in order. -/
theorem emitSlice_eval {tid : ℕ} {field : SliceField} {objLen : AccessCode} {lo hi : Option Bound}
    {len vlo vhi : ℤ} (hobj : Yields charSigned env objLen len)
    (hlen : 0 ≤ len ∧ len ≤ r.lenMax) (hlo : BoundYields charSigned env w lo 0 vlo)
    (hhi : BoundYields charSigned env w hi len vhi) :
    (emitSlice r tid field objLen lo hi).eval charSigned env =
      if 0 ≤ vlo ∧ vlo ≤ vhi ∧ vhi ≤ len then
        .ok (match field with
          | .ptr => vlo
          | .len => vhi - vlo)
      else .error .abort := by
  set g := (boundBits r lo).max (boundBits r hi) with hg
  have hgr : r.bits ≤ g.bits := by
    refine le_trans ?_ (le_max_left _ _)
    cases lo with
    | none => cases r <;> decide
    | some b => exact (le_guardBits r b.1).1
  have hrlo := bound_range hlo ⟨le_refl 0, hlen.1⟩ hlen.2 (le_max_left _ (boundBits r hi)) hgr
  have hrhi := bound_range hhi ⟨hlen.1, le_refl len⟩ hlen.2 (le_max_right (boundBits r lo) _) hgr
  have hself : ∀ z, CType.long.convert (CType.long.convert z) = CType.long.convert z := fun z =>
    CType.convert_of_fits (CType.fits_convert _ _)
  unfold emitSlice
  rw [eval_decl (hobj _ (update_operand (.slen tid) fun _ => nofun)), lenT_convert hlen]
  set env₁ := Function.update env (.slen tid) (some len) with henv₁
  have h₁ : ∀ name, env₁ (.operand name) = env (.operand name) :=
    update_operand (.slen tid) fun _ => nofun
  obtain ⟨v, hv, hvlo⟩ := eval_bound (.lit false .none 0) (Function.update env₁ (.lo tid) none) hlo
    (fun name => (update_operand (.lo tid) (fun _ => nofun) name).trans (h₁ name)) rfl
  rw [eval_decl hv, hvlo]
  set env₂ := Function.update env₁ (.lo tid) (some (CType.long.convert vlo)) with henv₂
  have h₂ : ∀ name, env₂ (.operand name) = env (.operand name) := fun name =>
    (update_operand (.lo tid) (fun _ => nofun) name).trans (h₁ name)
  have hlenvar : (CExpr.var (.slen tid) r.lenT).eval charSigned
      (Function.update env₂ (.hi tid) none) = .ok len := by
    have hread : Function.update env₂ (.hi tid) none (.slen tid) = some len := by
      simp [env₂, env₁]
    rw [eval_var hread, lenT_convert hlen]
  obtain ⟨v', hv', hvhi⟩ := eval_bound _ (Function.update env₂ (.hi tid) none) hhi
    (fun name => (update_operand (.hi tid) (fun _ => nofun) name).trans (h₂ name)) hlenvar
  rw [eval_decl hv', hvhi]
  set env₃ := Function.update env₂ (.hi tid) (some (CType.long.convert vhi)) with henv₃
  have hxlo : (CExpr.var (.lo tid) .long).eval charSigned env₃ = .ok (CType.long.convert vlo) := by
    have hread : env₃ (.lo tid) = some (CType.long.convert vlo) := by simp [env₃, env₂]
    rw [eval_var hread, hself]
  have hxhi : (CExpr.var (.hi tid) .long).eval charSigned env₃ = .ok (CType.long.convert vhi) := by
    rw [eval_var (Function.update_self _ _ _), hself]
  have hxlen : (CExpr.var (.slen tid) r.lenT).eval charSigned env₃ = .ok len := by
    have hread : env₃ (.slen tid) = some len := by simp [env₃, env₂, env₁]
    rw [eval_var hread, lenT_convert hlen]
  have hcmp := unsigned_bounds_iff hgr hlen hrlo hrhi
  have htest := eval_either rfl (eval_guardCompare .gt rfl hxlo hxhi g) (eval_guardCompare .gt rfl hxhi hxlen g)
  rw [CExpr.eval, htest]
  by_cases h : 0 ≤ vlo ∧ vlo ≤ vhi ∧ vhi ≤ len
  · have hlo' := long_convert_of_le h.1 (h.2.1.trans h.2.2) hlen.2
    have hhi' := long_convert_of_le (h.1.trans h.2.1) h.2.2 hlen.2
    have hfalse : (COp.gt.holds (g.unsigned.convert (CType.long.convert vlo))
        (g.unsigned.convert (CType.long.convert vhi)) ||
        COp.gt.holds (g.unsigned.convert (CType.long.convert vhi)) (g.unsigned.convert len)) =
          false := by
      simpa [COp.holds] using hcmp.mpr h
    rw [hfalse, if_pos h]
    cases field with
    | ptr => exact hxlo.trans (congrArg Except.ok hlo')
    | len =>
      have hdiff := long_convert_of_le (sub_nonneg.mpr h.2.1)
        ((sub_le_self vhi h.1).trans h.2.2) hlen.2
      have hsub : (CExpr.bin .sub (.var (.hi tid) .long) (.var (.lo tid) .long)).eval charSigned
          env₃ = .ok (vhi - vlo) := by
        rw [CExpr.eval, hxhi, hxlo, CExpr.both_ok, COp.apply_common rfl, hhi', hlo']
        change CType.long.result (CType.long.convert vhi - CType.long.convert vlo) = _
        rw [hhi', hlo']
        exact CType.result_of_fits (hdiff ▸ CType.fits_convert .long (vhi - vlo))
      have hlenT := lenT_convert (r := r) ⟨sub_nonneg.mpr h.2.1,
        ((sub_le_self vhi h.1).trans h.2.2).trans hlen.2⟩
      change (CExpr.cast r.lenT _).eval charSigned env₃ = _
      rw [CExpr.eval, hsub]
      exact congrArg Except.ok hlenT
  · have htrue : (COp.gt.holds (g.unsigned.convert (CType.long.convert vlo))
        (g.unsigned.convert (CType.long.convert vhi)) ||
        COp.gt.holds (g.unsigned.convert (CType.long.convert vhi)) (g.unsigned.convert len)) =
          true := by
      have hnot := hcmp.not.mpr h
      rw [not_and_or, not_le, not_le] at hnot
      simpa [COp.holds] using hnot
    rw [htrue, if_neg h]
    rfl

end Exact

end FcLang.Codegen
