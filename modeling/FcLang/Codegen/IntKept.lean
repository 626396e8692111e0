import FcLang.Codegen.IntExact

/-!
# Emitted integer expressions keep their values

`Expr.Exact` says that the C of an expression evaluates to the value of the
expression, and aborts where that does. It holds of every node of a tree if and
only if every node is `Kept`: a character constant is not read as a negative
`char`, and an operator that is emitted plainly has operands of a C type in
which it means the same.
-/

namespace FcLang.Codegen
variable {charSigned : Bool} {ρ : String → ℤ} {t s : IntTy}

namespace Expr

/-- The C type of the left operand of an operator that is emitted in place. -/
def leftCType (isXor : Bool) (a b : Expr (.int t)) : CType :=
  hoistedCType (hoists false a b) t (operandCType isXor a a.ctype)

/-- What one node asks for. Only four kinds of node ask for anything. -/
def Kept (charSigned : Bool) (ρ : String → ℤ) : {ty : Ty} → Expr ty → Prop
  | _, .charLit value => charSigned = true → value.toNat < 128
  | .int t, .tilde a =>
    typeIsSubint t = false → t.signed = false → (a.eval ρ).isSome = true →
      a.ctype.promote.signed = false
  | .int t, .binary op a b =>
    op.isArith = true → typeIsSubint t = false → t.signed = false →
      let common := CType.usual (leftCType false a b) b.ctype
      common.signed = true → ∀ x ∈ a.eval ρ, ∀ y ∈ b.eval ρ,
        common.format.Fits (op.exact x y) ∧ t.Fits (op.exact x y)
  | .int t, .shift .gtgt a b =>
    ∀ x ∈ a.eval ρ, ∀ y ∈ b.eval ρ,
      y % t.bits < (hoistedCType (hoists false a b) t a.ctype).promote.bits
  | _, _ => True

def Exact (charSigned : Bool) (ρ : String → ℤ) {ty : Ty} (e : Expr ty) : Prop :=
  ∀ n env, Agrees ρ env → (emitExpr e n).1.eval charSigned env = out (e.eval ρ)

/-- `P` at every node. -/
def Every (P : {ty : Ty} → Expr ty → Prop) : {ty : Ty} → Expr ty → Prop
  | _, e@(.intLit ..) | _, e@(.charLit _) | _, e@(.ident ..) | _, e@(.dflt _) => P e
  | _, e@(.ifExpr c a b) => P e ∧ c.Every P ∧ a.Every P ∧ b.Every P
  | _, e@(.neg _ a) | _, e@(.tilde a) | _, e@(.cast _ a) => P e ∧ a.Every P
  | _, e@(.binary _ a b) | _, e@(.shift _ a b) | _, e@(.compare _ a b) =>
    P e ∧ a.Every P ∧ b.Every P

theorem Every.self {P : {ty : Ty} → Expr ty → Prop} {ty : Ty} {e : Expr ty} (h : e.Every P) :
    P e := by
  cases e <;> first | exact h | exact h.1

theorem Exact.carries {e : Expr (.int t)} (h : e.Exact charSigned ρ) (n : ℕ)
    (env : Name → Option ℤ) (henv : Agrees ρ env) :
    Carries charSigned env t (emitExpr e n).1 (e.eval ρ) where
  admitted := by
    rw [type_emitExpr]
    exact ctype_admitted e
  eval := h n env henv
  fits := fun _ hz => eval_fits e hz

theorem Exact.carries_operand {e : Expr (.int t)} (h : e.Exact charSigned ρ) (isXor : Bool) (n : ℕ)
    (env : Name → Option ℤ) (henv : Agrees ρ env) :
    Carries charSigned env t (emitBinaryOperand isXor e (emitExpr e n).1) (e.eval ρ) := by
  have hc := h.carries n env henv
  cases isXor with
  | false => cases e <;> exact hc
  | true =>
    cases e with
    | intLit _ v hv =>
      have hspec := emitIntLit_spec charSigned env hv true
      exact ⟨hspec.1, hspec.2, hc.fits⟩
    | _ => exact hc

/-- The environment in which no temporary has been declared. -/
def initial (ρ : String → ℤ) : Name → Option ℤ
  | .ident x => some (ρ x)
  | _ => none

theorem agrees_initial (ρ : String → ℤ) : Agrees ρ (initial ρ) := fun _ => rfl

theorem exact_iff {ty : Ty} {e : Expr ty} {P : Prop}
    (h : ∀ n env, Agrees ρ env → ((emitExpr e n).1.eval charSigned env = out (e.eval ρ) ↔ P)) :
    e.Exact charSigned ρ ↔ P :=
  ⟨fun he => (h 0 _ (agrees_initial ρ)).mp (he 0 _ (agrees_initial ρ)),
    fun hP n env henv => (h n env henv).mpr hP⟩

theorem chrValue_iff (charSigned : Bool) (byte : UInt8) :
    CExpr.chrValue charSigned byte = byte.toNat ↔ (charSigned = true → byte.toNat < 128) := by
  rw [CExpr.chrValue_eq_iff, and_iff_right rfl]

/-- What an operator emitted on the C types `A` and `B` asks of its operands. -/
def PlainKept (op : IntOp) (t : IntTy) (o o' : Option ℤ) (A B : CType) : Prop :=
  op.isArith = true → typeIsSubint t = false → t.signed = false →
    (CType.usual A B).signed = true → ∀ x ∈ o, ∀ y ∈ o',
      (CType.usual A B).format.Fits (op.exact x y) ∧ t.Fits (op.exact x y)

theorem eval_emitBinaryOp {op : IntOp} (hd : op.isDivmod = false) {env : Name → Option ℤ}
    {l r : Code} {o o' : Option ℤ} (hl : Carries charSigned env t l o)
    (hr : Carries charSigned env t r o') :
    (emitBinaryOp op t l r).eval charSigned env =
        out (o.bind fun x => o'.bind fun y => op.apply t x y) ↔
      PlainKept op t o o' l.type r.type := by
  cases ha : op.isArith with
  | false =>
    have hplain : emitBinaryOp op t l r = .bin op.toC l r := by simp [emitBinaryOp, ha]
    rw [hplain]
    exact iff_of_true (eval_bitwise hl hr ha hd) fun h => absurd (ha.symm.trans h) (by simp)
  | true =>
    cases ht : typeIsSubint t with
    | true =>
      exact iff_of_true (eval_subint ha ht hl hr) fun _ h => absurd (ht.symm.trans h) (by simp)
    | false =>
      cases hs : t.signed with
      | true =>
        exact iff_of_true (eval_signed ha ht hs hl hr) fun _ _ h => absurd (hs.symm.trans h) (by simp)
      | false =>
        rw [eval_plain ha ht hs hl hr]
        exact ⟨fun h _ _ _ => h, fun h => h ha ht hs⟩

theorem operandCType_false {ty : Ty} (e : Expr ty) (A : CType) : operandCType false e A = A := by
  cases e <;> rfl

theorem exact_binary {a b : Expr (.int t)} (ha : a.Exact charSigned ρ) (hb : b.Exact charSigned ρ)
    (op : IntOp) :
    (Expr.binary op a b).Exact charSigned ρ ↔ (Expr.binary op a b).Kept charSigned ρ := by
  apply exact_iff
  intro n env henv
  simp only [emitExpr]
  split
  · rename_i hd
    have hk : (Expr.binary op a b).Kept charSigned ρ := by
      intro harith
      cases op with
      | slash | percent => cases harith
      | _ => cases hd
    simp only [hk, iff_true]
    exact eval_divmod hd (ha.carries _) (hb.carries _) henv n
  · rename_i hd
    have hd : op.isDivmod = false := by simpa using hd
    refine (eval_emitOrdered (P := PlainKept op t (a.eval ρ) (b.eval ρ))
      (fun n => (type_emitBinaryOperand _ a _).trans (by rw [type_emitExpr]))
      (fun n => (type_emitBinaryOperand _ b _).trans (by rw [type_emitExpr]))
      (ha.carries_operand _) (hb.carries_operand _)
      (fun _ _ _ hl hr => eval_emitBinaryOp hd hl hr)
      (fun ho => by
        rw [ho]
        exact ⟨rfl, fun _ _ _ _ _ _ x hx => by cases hx⟩) henv n).trans
      (imp_congr_right fun harith => ?_)
    have hop : decide (op = .caret) = false := by
      cases op with
      | caret => cases harith
      | _ => rfl
    rw [hop, operandCType_false, operandCType_false, leftCType, operandCType_false]

theorem exact_shift {a : Expr (.int t)} {b : Expr (.int s)} (ha : a.Exact charSigned ρ)
    (hb : b.Exact charSigned ρ) (op : ShiftOp) :
    (Expr.shift op a b).Exact charSigned ρ ↔ (Expr.shift op a b).Kept charSigned ρ := by
  apply exact_iff
  intro n env henv
  cases op with
  | ltlt =>
    exact eval_emitOrdered (P := fun _ _ => True) (type_emitExpr a) (type_emitExpr b) ha.carries
      hb.carries (fun _ _ _ hl hr => iff_of_true (eval_shl hl hr) trivial)
      (fun ho => by
        rw [ho]
        exact ⟨rfl, fun _ _ => trivial⟩) henv n
  | gtgt =>
    exact eval_emitOrdered
      (P := fun A _ => ∀ x ∈ a.eval ρ, ∀ y ∈ b.eval ρ, y % t.bits < A.promote.bits)
      (type_emitExpr a) (type_emitExpr b) ha.carries hb.carries
      (fun _ _ _ hl hr => eval_shr hl hr)
      (fun ho => by
        rw [ho]
        exact ⟨rfl, fun _ _ x hx => by cases hx⟩) henv n

theorem exact_compare {a b : Expr (.int t)} (ha : a.Exact charSigned ρ)
    (hb : b.Exact charSigned ρ) (op : CmpOp) : (Expr.compare op a b).Exact charSigned ρ := by
  intro n env henv
  exact (eval_emitOrdered (P := fun _ _ => True) (type_emitExpr a) (type_emitExpr b) ha.carries
    hb.carries (fun _ _ _ hl hr => iff_of_true (eval_compare hl hr op) trivial)
    (fun ho => by
      rw [ho]
      exact ⟨rfl, fun _ _ => trivial⟩) henv n).mpr trivial

theorem exact_ifExpr {c : Expr .bool} {a b : Expr (.int t)} (hc : c.Exact charSigned ρ)
    (ha : a.Exact charSigned ρ) (hb : b.Exact charSigned ρ) :
    (Expr.ifExpr c a b).Exact charSigned ρ := by
  intro n env henv
  have htest := hc n env henv
  have hA := ha.carries (emitExpr c n).2 env henv
  have hB := hb.carries (emitExpr a (emitExpr c n).2).2 env henv
  have hval : (Expr.ifExpr c a b).eval ρ =
      (c.eval ρ).bind fun z => if z ≠ 0 then a.eval ρ else b.eval ρ := rfl
  rw [hval]
  cases hz : c.eval ρ with
  | none =>
    rw [hz] at htest
    simp only [emitExpr, CExpr.eval, htest]
    rfl
  | some z =>
    rw [hz] at htest
    apply eval_cond htest hA.admitted hB.admitted
    change Carries _ _ _ _ (if z ≠ 0 then a.eval ρ else b.eval ρ)
    split
    · exact hA
    · exact hB

/-- A tree whose subtrees are exact everywhere is exact if it is kept. -/
theorem every_cons {P Q R S : Prop} (hR : R ↔ S) (h : R → (P ↔ Q)) : P ∧ R ↔ Q ∧ S := by
  rw [← hR]
  exact ⟨fun ⟨p, r⟩ => ⟨(h r).mp p, r⟩, fun ⟨q, r⟩ => ⟨(h r).mpr q, r⟩⟩

theorem every_exact_iff_kept {ty : Ty} (e : Expr ty) :
    e.Every (Exact charSigned ρ) ↔ e.Every (Kept charSigned ρ) := by
  induction e with
  | intLit t v hv =>
    exact iff_of_true (fun _ env _ => (emitIntLit_spec charSigned env hv false).2) trivial
  | charLit value =>
    refine exact_iff fun n env henv => ?_
    change _ ↔ (charSigned = true → value.toNat < 128)
    rw [← chrValue_iff]
    exact ⟨fun h => Except.ok.inj h, fun h => congrArg Except.ok h⟩
  | ident name ty =>
    refine iff_of_true (fun n env henv => ?_) trivial
    simp only [emitExpr, CExpr.eval, henv name]
    cases ty with
    | bool => rfl
    | int t => exact congrArg Except.ok (convert_emitType t _)
  | dflt t =>
    exact iff_of_true (fun _ env _ => (carries_num (s := t) (n := 0) (by norm_num)).eval) trivial
  | ifExpr c a b ihc iha ihb =>
    exact every_cons (and_congr ihc (and_congr iha ihb)) fun h =>
      iff_of_true (exact_ifExpr h.1.self h.2.1.self h.2.2.self) trivial
  | @neg t hs a ih =>
    exact every_cons ih fun h =>
      iff_of_true (fun n env henv => eval_neg (h.self n env henv) t) trivial
  | @tilde t a ih =>
    refine every_cons ih fun h => exact_iff fun n env henv => ?_
    have hc := Exact.carries h.self n env henv
    simp only [emitExpr]
    split
    · rename_i ht
      exact iff_of_true (eval_tilde_subint ht hc) fun h => absurd (ht.symm.trans h) (by simp)
    · rename_i ht
      refine (eval_tilde hc).trans ?_
      rw [type_emitExpr]
      exact ⟨fun h _ => h, fun h => h (by simpa using ht)⟩
  | binary op a b iha ihb =>
    exact every_cons (and_congr iha ihb) fun h => exact_binary h.1.self h.2.self op
  | shift op a b iha ihb =>
    exact every_cons (and_congr iha ihb) fun h => exact_shift h.1.self h.2.self op
  | compare op a b iha ihb =>
    exact every_cons (and_congr iha ihb) fun h =>
      iff_of_true (exact_compare h.1.self h.2.self op) trivial
  | cast target a ih =>
    refine every_cons ih fun h => iff_of_true (fun n env henv => ?_) trivial
    simp only [emitExpr]
    rw [eval_cast (h.self n env henv)]
    congr 2
    funext z
    exact convert_emitType target z

end Expr

/-- Every node of the tree evaluates in C to its value if and only if every node
is kept; then so does the tree. -/
theorem emitExpr_exact_iff {ty : Ty} (e : Expr ty) :
    (e.Every (Expr.Exact charSigned ρ) ↔ e.Every (Expr.Kept charSigned ρ)) ∧
      (e.Every (Expr.Kept charSigned ρ) → ∀ n,
        (emitExpr e n).1.eval charSigned (Expr.initial ρ) = out (e.eval ρ)) :=
  ⟨e.every_exact_iff_kept, fun h n =>
    (e.every_exact_iff_kept.mpr h).self n _ (Expr.agrees_initial ρ)⟩

def zeroMinusOne : Expr (.int .uint32) :=
  .binary .minus (.intLit .uint32 0 (by decide)) (.intLit .uint32 1 (by decide))

/-- `0u32 - 1u32` is emitted as `(0 - 1)`. -/
theorem unsigned_literals_do_not_wrap :
    (emitExpr zeroMinusOne 0).1 = .bin .sub (num 0) (num 1) ∧
      (emitExpr zeroMinusOne 0).1.eval true (Expr.initial fun _ => 0) = .ok (-1) ∧
      zeroMinusOne.eval (fun _ => 0) = some 4294967295 ∧
      ¬∀ (ty : Ty) (e : Expr ty) (charSigned : Bool) (ρ : String → ℤ),
        (emitExpr e 0).1.eval charSigned (Expr.initial ρ) = out (e.eval ρ) := by
  have hc : (emitExpr zeroMinusOne 0).1.eval true (Expr.initial fun _ => 0) = .ok (-1) := by
    decide
  refine ⟨rfl, hc, by decide, fun h => ?_⟩
  have := h _ zeroMinusOne true fun _ => 0
  rw [hc] at this
  revert this
  decide

end FcLang.Codegen
