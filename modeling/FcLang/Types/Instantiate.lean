import FcLang.Types.Substitute

/-!
# What a substitution computes

`instantiate` replaces every variable once and folds the const expressions that
the bindings decide; `Fails` says that one of them has no value. `substitute` is
these two with the stashed error between them. `vars` are the variables of a type,
`consts` its const arguments and array sizes, each with the element count that
stands beside it.
-/

namespace FcLang.Types

def ConstExpr.vars : ConstExpr → List String
  | .typeVarRef name => [name]
  | .unaryPrefix _ e => e.vars
  | .binary _ l r => l.vars ++ r.vars
  | .cast _ e => e.vars
  | _ => []

def ConstOutcome.isFailed : ConstOutcome → Bool
  | .failed _ => true
  | _ => false

mutual

def Ty.vars : Ty → List String
  | .pointer _ t => t.vars
  | .slice _ t => t.vars
  | .option t => t.vars
  | .result t => t.vars
  | .func params ret _ => varsAll params ++ ret.vars
  | .struct _ _ _ fields typeArgs => varsAll fields ++ varsAll typeArgs
  | .union _ _ variants typeArgs => varsAll variants ++ varsAll typeArgs
  | .typeVar name => [name]
  | .fixedArray elem _ sizeRef => elem.vars ++ sizeRef.vars
  | .constExpr e => e.vars
  | .stub _ _ typeArgs => varsAll typeArgs
  | _ => []

def varsAll : List Ty → List String
  | [] => []
  | t :: ts => t.vars ++ varsAll ts

end

mutual

def Ty.consts : Ty → List (BitVec 64 × Ty)
  | .pointer _ t => t.consts
  | .slice _ t => t.consts
  | .option t => t.consts
  | .result t => t.consts
  | .func params ret _ => constsAll params ++ ret.consts
  | .struct _ _ _ fields typeArgs => constsAll fields ++ constsAll typeArgs
  | .union _ _ variants typeArgs => constsAll variants ++ constsAll typeArgs
  | .fixedArray elem size sizeRef => elem.consts ++ [(size, sizeRef)]
  | .constExpr e => [(0, .constExpr e)]
  | .stub _ _ typeArgs => constsAll typeArgs
  | _ => []

def constsAll : List Ty → List (BitVec 64 × Ty)
  | [] => []
  | t :: ts => t.consts ++ constsAll ts

end

/-- One of the const values is missing under the bindings, and not because it is symbolic. -/
def FailsIn (σ : Bindings) (consts : List (BitVec 64 × Ty)) : Prop :=
  ∃ p ∈ consts, (constTypeEval p.2 σ).isFailed = true

def Fails (σ : Bindings) (t : Ty) : Prop :=
  FailsIn σ t.consts

/-- A const expression: its value if the bindings decide it, else with the bindings put in. -/
def instantiateConst (σ : Bindings) (e : ConstExpr) : Ty :=
  match constExprEval σ e with
  | .value v => .constInt v
  | _ => .constExpr (constExprSubst σ e)

def instantiateLeaf (σ : Bindings) : Ty → Ty
  | .typeVar name => (σ.lookup name).getD (.typeVar name)
  | .constExpr e => instantiateConst σ e
  | t => t

def instantiateSize (σ : Bindings) (elem : Ty) (size : BitVec 64) (sizeRef : Ty) : Ty :=
  match sizeRef with
  | .null => .fixedArray elem size .null
  | _ =>
    match constTypeEval sizeRef σ with
    | .value v => .fixedArray elem v .null
    | _ =>
      match instantiateLeaf σ sizeRef with
      | .error => .error
      | ref => .fixedArray elem 0 ref

mutual

def instantiate (σ : Bindings) : Ty → Ty
  | .pointer c t => .pointer c (instantiate σ t)
  | .slice c t => .slice c (instantiate σ t)
  | .option t => .option (instantiate σ t)
  | .result t => .result (instantiate σ t)
  | .func params ret isVariadic => .func (instantiateAll σ params) (instantiate σ ret) isVariadic
  | .struct name template isTuple fields typeArgs =>
    .struct name template isTuple (instantiateAll σ fields) (instantiateAll σ typeArgs)
  | .union name template variants typeArgs =>
    .union name template (instantiateAll σ variants) (instantiateAll σ typeArgs)
  | .fixedArray elem size sizeRef => instantiateSize σ (instantiate σ elem) size sizeRef
  | .stub name baseName typeArgs => .stub name baseName (instantiateAll σ typeArgs)
  | t => instantiateLeaf σ t

def instantiateAll (σ : Bindings) : List Ty → List Ty
  | [] => []
  | t :: ts => instantiate σ t :: instantiateAll σ ts

end

theorem mem_varsAll {n : String} {ts : List Ty} : n ∈ varsAll ts ↔ ∃ t ∈ ts, n ∈ t.vars := by
  induction ts with
  | nil => simp [varsAll]
  | cons t ts ih => simp [varsAll, ih]

theorem mem_constsAll {p : BitVec 64 × Ty} {ts : List Ty} :
    p ∈ constsAll ts ↔ ∃ t ∈ ts, p ∈ t.consts := by
  induction ts with
  | nil => simp [constsAll]
  | cons t ts ih => simp [constsAll, ih]

theorem vars_subset_all {p : BitVec 64 × Ty} {ts : List Ty}
    (h : ∀ t ∈ ts, p ∈ t.consts → p.2.vars ⊆ t.vars) (hp : p ∈ constsAll ts) :
    p.2.vars ⊆ varsAll ts := by
  obtain ⟨t, ht, hmem⟩ := mem_constsAll.mp hp
  exact fun n hn => mem_varsAll.mpr ⟨t, ht, h t ht hmem hn⟩

/-- The variables of a const value are variables of the type. -/
theorem vars_subset_of_mem_consts {t : Ty} {p : BitVec 64 × Ty} (hp : p ∈ t.consts) :
    p.2.vars ⊆ t.vars := by
  induction t with
  | pointer isConst t ih => exact ih hp
  | slice isConst t ih => exact ih hp
  | option t ih => exact ih hp
  | result t ih => exact ih hp
  | func params ret isVariadic hparams hret =>
    rcases List.mem_append.mp hp with hp | hp
    · exact List.subset_append_of_subset_left _ (vars_subset_all hparams hp)
    · exact List.subset_append_of_subset_right _ (hret hp)
  | struct name template isTuple fields typeArgs hfields hargs =>
    rcases List.mem_append.mp hp with hp | hp
    · exact List.subset_append_of_subset_left _ (vars_subset_all hfields hp)
    · exact List.subset_append_of_subset_right _ (vars_subset_all hargs hp)
  | union name template variants typeArgs hvariants hargs =>
    rcases List.mem_append.mp hp with hp | hp
    · exact List.subset_append_of_subset_left _ (vars_subset_all hvariants hp)
    · exact List.subset_append_of_subset_right _ (vars_subset_all hargs hp)
  | stub name baseName typeArgs hargs => exact vars_subset_all hargs hp
  | fixedArray elem size sizeRef helem =>
    rcases List.mem_append.mp hp with hp | hp
    · exact List.subset_append_of_subset_left _ (helem hp)
    · rw [List.mem_singleton.mp hp]
      exact List.subset_append_right _ _
  | constExpr e =>
    rw [List.mem_singleton.mp hp]
    exact List.Subset.refl _
  | _ => cases hp

theorem instantiateAll_eq_map (σ : Bindings) (ts : List Ty) :
    instantiateAll σ ts = ts.map (instantiate σ) := by
  induction ts with
  | nil => rfl
  | cons t ts ih =>
    rw [List.map_cons, ← ih]
    rfl

section Parts
variable (σ : Bindings)

@[simp] theorem instantiate_typeVar (name : String) :
    instantiate σ (.typeVar name) = (σ.lookup name).getD (.typeVar name) :=
  rfl

@[simp] theorem instantiate_constInt (v : BitVec 64) :
    instantiate σ (.constInt v) = .constInt v :=
  rfl

@[simp] theorem instantiate_constExpr (e : ConstExpr) :
    instantiate σ (.constExpr e) = instantiateConst σ e :=
  rfl

@[simp] theorem instantiate_func (params : List Ty) (ret : Ty) (isVariadic : Bool) :
    instantiate σ (.func params ret isVariadic) =
      .func (params.map (instantiate σ)) (instantiate σ ret) isVariadic := by
  rw [← instantiateAll_eq_map]
  rfl

@[simp] theorem instantiate_struct (name : String) (template : Option String) (isTuple : Bool)
    (fields typeArgs : List Ty) : instantiate σ (.struct name template isTuple fields typeArgs) =
      .struct name template isTuple (fields.map (instantiate σ))
        (typeArgs.map (instantiate σ)) := by
  rw [← instantiateAll_eq_map, ← instantiateAll_eq_map]
  rfl

@[simp] theorem instantiate_union (name : String) (template : Option String)
    (variants typeArgs : List Ty) : instantiate σ (.union name template variants typeArgs) =
      .union name template (variants.map (instantiate σ)) (typeArgs.map (instantiate σ)) := by
  rw [← instantiateAll_eq_map, ← instantiateAll_eq_map]
  rfl

@[simp] theorem instantiate_stub (name : String) (baseName : Option String)
    (typeArgs : List Ty) : instantiate σ (.stub name baseName typeArgs) =
      .stub name baseName (typeArgs.map (instantiate σ)) := by
  rw [← instantiateAll_eq_map]
  rfl

end Parts

section Spec
variable {σ : Bindings} {pending : Bool}

theorem failsIn_append {a b : List (BitVec 64 × Ty)} :
    FailsIn σ (a ++ b) ↔ FailsIn σ a ∨ FailsIn σ b := by
  simp only [FailsIn, List.mem_append, or_and_right, exists_or]

theorem failsIn_single {p : BitVec 64 × Ty} :
    FailsIn σ [p] ↔ (constTypeEval p.2 σ).isFailed = true := by
  simp only [FailsIn, List.mem_singleton, exists_eq_left]

theorem failsIn_constsAll {ts : List Ty} : FailsIn σ (constsAll ts) ↔ ∃ t ∈ ts, Fails σ t := by
  simp only [FailsIn, Fails, mem_constsAll]
  constructor
  · rintro ⟨p, ⟨t, ht, hp⟩, hf⟩
    exact ⟨t, ht, p, hp, hf⟩
  · rintro ⟨t, ht, p, hp, hf⟩
    exact ⟨p, ⟨t, ht, hp⟩, hf⟩

@[simp] theorem fails_pointer {c : Bool} {t : Ty} : Fails σ (.pointer c t) ↔ Fails σ t :=
  Iff.rfl

@[simp] theorem fails_slice {c : Bool} {t : Ty} : Fails σ (.slice c t) ↔ Fails σ t :=
  Iff.rfl

@[simp] theorem fails_option {t : Ty} : Fails σ (.option t) ↔ Fails σ t :=
  Iff.rfl

@[simp] theorem fails_result {t : Ty} : Fails σ (.result t) ↔ Fails σ t :=
  Iff.rfl

@[simp] theorem fails_func {params : List Ty} {ret : Ty} {isVariadic : Bool} :
    Fails σ (.func params ret isVariadic) ↔ (∃ t ∈ params, Fails σ t) ∨ Fails σ ret := by
  rw [← failsIn_constsAll]
  exact failsIn_append

@[simp] theorem fails_struct {name : String} {template : Option String} {isTuple : Bool}
    {fields typeArgs : List Ty} : Fails σ (.struct name template isTuple fields typeArgs) ↔
      (∃ t ∈ fields, Fails σ t) ∨ ∃ t ∈ typeArgs, Fails σ t := by
  rw [← failsIn_constsAll, ← failsIn_constsAll]
  exact failsIn_append

@[simp] theorem fails_union {name : String} {template : Option String}
    {variants typeArgs : List Ty} : Fails σ (.union name template variants typeArgs) ↔
      (∃ t ∈ variants, Fails σ t) ∨ ∃ t ∈ typeArgs, Fails σ t := by
  rw [← failsIn_constsAll, ← failsIn_constsAll]
  exact failsIn_append

@[simp] theorem fails_stub {name : String} {baseName : Option String} {typeArgs : List Ty} :
    Fails σ (.stub name baseName typeArgs) ↔ ∃ t ∈ typeArgs, Fails σ t :=
  failsIn_constsAll

@[simp] theorem fails_fixedArray {elem : Ty} {size : BitVec 64} {sizeRef : Ty} :
    Fails σ (.fixedArray elem size sizeRef) ↔
      Fails σ elem ∨ (constTypeEval sizeRef σ).isFailed = true := by
  have hsize : FailsIn σ [(size, sizeRef)] ↔ (constTypeEval sizeRef σ).isFailed = true :=
    failsIn_single
  rw [← hsize]
  exact failsIn_append

@[simp] theorem fails_constExpr {e : ConstExpr} :
    Fails σ (.constExpr e) ↔ (constTypeEval (.constExpr e) σ).isFailed = true :=
  failsIn_single

theorem not_fails_of_consts {t : Ty} (h : t.consts = []) : ¬ Fails σ t := by
  rw [Fails, h]
  rintro ⟨p, hp, _⟩
  cases hp

/-- `o` is what a part with these const values comes to: the flag says whether an error is
stashed, and without one the part is `a`. -/
structure Computes {α : Type} (o : α × Bool) (a : α) (pending : Bool) (fails : Prop) : Prop where
  stashed : o.2 = true ↔ pending = true ∨ fails
  result : ¬ fails → o.1 = a

theorem Computes.map {α β : Type} {o : α × Bool} {a : α} {fails : Prop}
    (h : Computes o a pending fails) (f : α → β) : Computes (o.map f id) (f a) pending fails where
  stashed := h.stashed
  result hf := congrArg f (h.result hf)

/-- Two parts, one after the other. -/
theorem Computes.bind {α β γ : Type} {o : α × Bool} {a : α} {b : β} {fails fails' : Prop}
    (h : Computes o a pending fails) {g : Bool → β × Bool}
    (hg : ∀ pending, Computes (g pending) b pending fails') (f : α → β → γ) :
    Computes ((g o.2).map (f o.1) id) (f a b) pending (fails ∨ fails') where
  stashed := by rw [Prod.map_snd, id, (hg o.2).stashed, h.stashed, or_assoc]
  result hf := by
    rw [not_or] at hf
    rw [Prod.map_fst, h.result hf.1, (hg o.2).result hf.2]

theorem computes_const (σ : Bindings) (e : ConstExpr) (pending : Bool) :
    Computes (substituteConst σ e pending) (instantiateConst σ e) pending
      ((constTypeEval (.constExpr e) σ).isFailed = true) := by
  rw [substituteConst, instantiateConst, constTypeEval]
  cases constExprEval σ e with
  | value v => exact ⟨by simp [ConstOutcome.isFailed], fun _ => rfl⟩
  | symbolic => exact ⟨by simp [ConstOutcome.isFailed], fun _ => rfl⟩
  | failed err =>
    refine ⟨?_, fun h => absurd rfl h⟩
    by_cases hp : pending = true <;> simp [hp, ConstOutcome.isFailed]

theorem computes_leaf {t : Ty} (h : t.consts = []) :
    Computes (substituteLeaf σ t pending) (instantiateLeaf σ t) pending (Fails σ t) := by
  have hf : ¬ Fails σ t := not_fails_of_consts h
  cases t with
  | constExpr e => cases h
  | _ => exact ⟨by simp [substituteLeaf, hf], fun _ => rfl⟩

/-- The type a symbolic size becomes, from the node that the size refers to. -/
theorem computes_sizeRef (σ : Bindings) (t : Ty) (pending : Bool) :
    Computes (substituteLeaf σ t pending) (instantiateLeaf σ t) pending
      ((constTypeEval t σ).isFailed = true ∧ ∃ e, t = .constExpr e) := by
  cases t with
  | constExpr e =>
    have h := computes_const σ e pending
    refine ⟨?_, fun hf => h.result fun hc => hf ⟨hc, e, rfl⟩⟩
    exact h.stashed.trans (or_congr_right ⟨fun hc => ⟨hc, e, rfl⟩, And.left⟩)
  | _ => exact ⟨by simp [substituteLeaf], fun _ => rfl⟩

theorem computes_size (σ : Bindings) (elem : Ty) (size : BitVec 64) (sizeRef : Ty)
    (pending : Bool) :
    Computes (substituteSize σ elem size sizeRef pending)
      (instantiateSize σ elem size sizeRef) pending
      ((constTypeEval sizeRef σ).isFailed = true) := by
  by_cases hnull : sizeRef = .null
  · subst hnull
    exact ⟨by simp [substituteSize, constTypeEval, ConstOutcome.isFailed], fun _ => rfl⟩
  have href := computes_sizeRef σ sizeRef pending
  rw [substituteSize.eq_2 _ _ _ _ _ hnull, instantiateSize.eq_2 _ _ _ _ hnull]
  generalize substituteLeaf σ sizeRef pending = o at href ⊢
  obtain ⟨ref, flag⟩ := o
  cases hc : constTypeEval sizeRef σ with
  | value v => exact ⟨by simp [ConstOutcome.isFailed], fun _ => rfl⟩
  | symbolic =>
    rw [hc] at href
    have h1 : flag = pending := by simpa [ConstOutcome.isFailed] using href.stashed
    have h2 : ref = instantiateLeaf σ sizeRef := href.result (by simp [ConstOutcome.isFailed])
    subst h1 h2
    cases instantiateLeaf σ sizeRef <;> exact ⟨by simp [ConstOutcome.isFailed], fun _ => rfl⟩
  | failed err =>
    refine ⟨?_, fun h => absurd rfl h⟩
    by_cases hp : pending = true
    · have h1 : flag = true := href.stashed.mpr (.inl hp)
      rw [if_pos hp]
      cases ref <;> simp [h1, ConstOutcome.isFailed]
    · simp [hp, ConstOutcome.isFailed]

theorem computes_all {ts : List Ty}
    (h : ∀ t ∈ ts, ∀ pending, Computes (substitute σ t pending) (instantiate σ t) pending (Fails σ t))
    (pending : Bool) : Computes (substituteAll σ ts pending) (instantiateAll σ ts) pending
      (∃ t ∈ ts, Fails σ t) := by
  induction ts generalizing pending with
  | nil => exact ⟨by simp [substituteAll], fun _ => rfl⟩
  | cons t ts ih =>
    rw [List.exists_mem_cons_iff]
    exact (h t List.mem_cons_self pending).bind
      (ih fun u hu => h u (List.mem_cons_of_mem t hu)) (· :: ·)

theorem computes (t : Ty) (pending : Bool) :
    Computes (substitute σ t pending) (instantiate σ t) pending (Fails σ t) := by
  induction t generalizing pending with
  | pointer isConst t ih => exact (ih pending).map (Ty.pointer isConst)
  | slice isConst t ih => exact (ih pending).map (Ty.slice isConst)
  | option t ih => exact (ih pending).map Ty.option
  | result t ih => exact (ih pending).map Ty.result
  | func params ret isVariadic hparams hret =>
    rw [fails_func]
    exact (computes_all hparams pending).bind hret fun ps r => Ty.func ps r isVariadic
  | struct name template isTuple fields typeArgs hfields hargs =>
    rw [fails_struct]
    exact (computes_all hfields pending).bind (computes_all hargs)
      (Ty.struct name template isTuple)
  | union name template variants typeArgs hvariants hargs =>
    rw [fails_union]
    exact (computes_all hvariants pending).bind (computes_all hargs) (Ty.union name template)
  | stub name baseName typeArgs hargs =>
    rw [fails_stub]
    exact (computes_all hargs pending).map (Ty.stub name baseName)
  | fixedArray elem size sizeRef helem =>
    rw [fails_fixedArray]
    have he := helem pending
    have hs := fun e => computes_size σ e size sizeRef (substitute σ elem pending).2
    refine ⟨?_, fun hf => ?_⟩
    · exact (hs _).stashed.trans ((or_congr_left he.stashed).trans or_assoc)
    · rw [not_or] at hf
      rw [substitute, instantiate, ← he.result hf.1]
      exact (hs _).result hf.2
  | constExpr e =>
    rw [fails_constExpr]
    exact computes_const σ e pending
  | _ => exact computes_leaf rfl

end Spec

end FcLang.Types
