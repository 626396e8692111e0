import FcLang.Types.Simultaneous

/-!
# Substitution with nothing to bind

Where no variable of a type is bound, the bindings make no difference. The type
comes back as it is, unless it holds a const expression or a symbolic size
without variables: those are folded by any substitution, also by one that binds
nothing.
-/

namespace FcLang.Types
variable {σ : Bindings} {K : Set String}

def NoneBound (σ : Bindings) (ns : List String) : Prop :=
  ∀ n ∈ ns, σ.lookup n = none

theorem NoneBound.mono {ns ns' : List String} (h : NoneBound σ ns) (hsub : ns' ⊆ ns) :
    NoneBound σ ns' :=
  fun n hn => h n (hsub hn)

theorem constExprEval_unbound {e : ConstExpr} (h : NoneBound σ e.vars) :
    constExprEval σ e = constExprEval [] e := by
  induction e with
  | intLit v => rfl
  | boolLit b => rfl
  | typeVarRef name =>
    rw [constExprEval, constParamValue, h name List.mem_cons_self]
    rfl
  | unaryPrefix op e ih => rw [constExprEval, constExprEval, ih h]
  | cast target e ih => rw [constExprEval, constExprEval, ih h]
  | binary op l r hl hr =>
    rw [constExprEval, constExprEval, hl (h.mono (List.subset_append_left _ _)),
      hr (h.mono (List.subset_append_right _ _))]

theorem constExprSubst_unbound {e : ConstExpr} (h : NoneBound σ e.vars) :
    constExprSubst σ e = e := by
  induction e with
  | intLit v => rfl
  | boolLit b => rfl
  | typeVarRef name => rw [constExprSubst, h name List.mem_cons_self]
  | unaryPrefix op e ih => rw [constExprSubst, ih h]
  | cast target e ih => rw [constExprSubst, ih h]
  | binary op l r hl hr =>
    rw [constExprSubst, hl (h.mono (List.subset_append_left _ _)),
      hr (h.mono (List.subset_append_right _ _))]

theorem noneBound_nil (ns : List String) : NoneBound [] ns :=
  fun _ _ => rfl

theorem substituteLeaf_unbound {t : Ty} {pending : Bool} (h : NoneBound σ t.vars) :
    substituteLeaf σ t pending = substituteLeaf [] t pending := by
  cases t with
  | typeVar name =>
    rw [substituteLeaf, h name List.mem_cons_self]
    rfl
  | constExpr e =>
    rw [substituteLeaf, substituteLeaf, substituteConst, substituteConst, constTypeEval,
      constTypeEval, constExprEval_unbound h, constExprSubst_unbound h,
      constExprSubst_unbound (noneBound_nil e.vars)]
  | _ => rfl

theorem constTypeEval_unbound {t : Ty} (h : NoneBound σ t.vars) :
    constTypeEval t σ = constTypeEval t [] := by
  cases t with
  | typeVar name =>
    rw [constTypeEval, constParamValue, h name List.mem_cons_self]
    rfl
  | constExpr e => exact constExprEval_unbound h
  | _ => rfl

theorem substituteSize_unbound {elem ref : Ty} {size : BitVec 64} {pending : Bool}
    (h : NoneBound σ ref.vars) :
    substituteSize σ elem size ref pending = substituteSize [] elem size ref pending := by
  by_cases hnull : ref = .null
  · subst hnull
    rfl
  · rw [substituteSize.eq_2 _ _ _ _ _ hnull, substituteSize.eq_2 _ _ _ _ _ hnull,
      constTypeEval_unbound h, substituteLeaf_unbound h]

theorem substituteAll_unbound {ts : List Ty} (h : NoneBound σ (varsAll ts))
    (ih : ∀ t ∈ ts, NoneBound σ t.vars → ∀ pending, substitute σ t pending =
      substitute [] t pending) (pending : Bool) :
    substituteAll σ ts pending = substituteAll [] ts pending := by
  induction ts generalizing pending with
  | nil => rfl
  | cons t ts ihts =>
    rw [substituteAll, substituteAll,
      ih t List.mem_cons_self (h.mono (List.subset_append_left _ _))]
    rcases substitute [] t pending with ⟨u, p⟩
    exact congrArg (Prod.map (u :: ·) id) (ihts (h.mono (List.subset_append_right _ _))
      (fun w hw => ih w (List.mem_cons_of_mem t hw)) p)

theorem substitute_unbound {t : Ty} (h : NoneBound σ t.vars) (pending : Bool) :
    substitute σ t pending = substitute [] t pending := by
  induction t generalizing pending with
  | pointer isConst t ih => exact congrArg (Prod.map (Ty.pointer isConst) id) (ih h pending)
  | slice isConst t ih => exact congrArg (Prod.map (Ty.slice isConst) id) (ih h pending)
  | option t ih => exact congrArg (Prod.map Ty.option id) (ih h pending)
  | result t ih => exact congrArg (Prod.map Ty.result id) (ih h pending)
  | func params ret isVariadic hparams hret =>
    rw [substitute, substitute,
      substituteAll_unbound (h.mono (List.subset_append_left _ _)) hparams]
    rcases substituteAll [] params pending with ⟨params, p⟩
    exact congrArg (Prod.map (Ty.func params · isVariadic) id)
      (hret (h.mono (List.subset_append_right _ _)) p)
  | struct name template isTuple fields typeArgs hfields hargs =>
    rw [substitute, substitute,
      substituteAll_unbound (h.mono (List.subset_append_left _ _)) hfields]
    rcases substituteAll [] fields pending with ⟨fields, p⟩
    exact congrArg (Prod.map (Ty.struct name template isTuple fields) id)
      (substituteAll_unbound (h.mono (List.subset_append_right _ _)) hargs p)
  | union name template variants typeArgs hvariants hargs =>
    rw [substitute, substitute,
      substituteAll_unbound (h.mono (List.subset_append_left _ _)) hvariants]
    rcases substituteAll [] variants pending with ⟨variants, p⟩
    exact congrArg (Prod.map (Ty.union name template variants) id)
      (substituteAll_unbound (h.mono (List.subset_append_right _ _)) hargs p)
  | stub name baseName typeArgs hargs =>
    rw [substitute, substitute, substituteAll_unbound h hargs]
  | fixedArray elem size sizeRef helem =>
    rw [substitute, substitute, helem (h.mono (List.subset_append_left _ _))]
    exact substituteSize_unbound (h.mono (List.subset_append_right _ _))
  | _ => exact substituteLeaf_unbound h

/-- Every const expression and every symbolic size of the type holds a variable. -/
def Ty.Open (t : Ty) : Prop :=
  ∀ p ∈ t.consts, p.2 = .null ∨ p.2.vars ≠ []

theorem vars_of_value {e : ConstExpr} {v : BitVec 64} (h : constExprEval [] e = .value v) :
    e.vars = [] := by
  induction e generalizing v with
  | intLit w => rfl
  | boolLit b => rfl
  | typeVarRef name => cases h
  | unaryPrefix op e ih =>
    obtain ⟨w, hw, -⟩ := ConstOutcome.andThen_eq_value h
    exact ih hw
  | cast target e ih =>
    obtain ⟨w, hw, -⟩ := ConstOutcome.andThen_eq_value h
    exact ih hw
  | binary op l r hl hr =>
    obtain ⟨w, hw, hrest⟩ := ConstOutcome.andThen_eq_value h
    obtain ⟨w', hw', -⟩ := ConstOutcome.andThen_eq_value hrest
    rw [ConstExpr.vars, hl hw, hr hw']
    rfl

theorem instantiateConst_open {e : ConstExpr} (h : e.vars ≠ []) :
    instantiateConst [] e = .constExpr e := by
  rw [instantiateConst, constExprSubst_unbound (noneBound_nil e.vars)]
  cases heq : constExprEval [] e with
  | value v => exact absurd (vars_of_value heq) h
  | symbolic => rfl
  | failed err => rfl

theorem instantiateSize_open {elem ref : Ty} (href : ref.IsConst K) (h : ref.vars ≠ []) :
    instantiateSize [] elem 0 ref = .fixedArray elem 0 ref := by
  cases ref with
  | typeVar name => rfl
  | constExpr e =>
    have hconst := instantiateConst_open h
    rw [instantiateSize.eq_2 _ _ _ _ Ty.noConfusion, instantiateLeaf, hconst, constTypeEval]
    cases heq : constExprEval [] e with
    | value v => exact absurd (vars_of_value heq) h
    | symbolic => rfl
    | failed err => rfl
  | constInt v => exact absurd rfl h
  | _ => exact href.elim

theorem Ty.Open.of_part {t u : Ty} (h : t.Open) (hu : u.consts ⊆ t.consts) : u.Open :=
  fun p hp => h p (hu hp)

theorem map_instantiate_open {t : Ty} {ts : List Ty}
    (ih : ∀ u ∈ ts, u.Kinded K → u.Open → instantiate [] u = u) (hk : t.Kinded K) (h : t.Open)
    (hsub : constsAll ts ⊆ t.consts) : ts.map (instantiate []) = ts := by
  have hid : ∀ u ∈ ts, instantiate [] u = id u := by
    intro u hu
    have hpart : u.consts ⊆ t.consts := fun p hp => hsub (mem_constsAll.mpr ⟨u, hu, hp⟩)
    exact ih u hu (fun p hp => hk p (hpart hp)) (h.of_part hpart)
  exact (List.map_congr_left hid).trans (List.map_id ts)

theorem instantiate_open {t : Ty} (hk : t.Kinded K) (h : t.Open) : instantiate [] t = t := by
  induction t with
  | pointer isConst t ih => exact congrArg (Ty.pointer isConst) (ih hk h)
  | slice isConst t ih => exact congrArg (Ty.slice isConst) (ih hk h)
  | option t ih => exact congrArg Ty.option (ih hk h)
  | result t ih => exact congrArg Ty.result (ih hk h)
  | func params ret isVariadic hparams hret =>
    rw [instantiate_func, map_instantiate_open hparams hk h (List.subset_append_left _ _),
      hret (fun p hp => hk p (List.mem_append_right _ hp))
        (h.of_part (List.subset_append_right _ _))]
  | struct name template isTuple fields typeArgs hfields hargs =>
    rw [instantiate_struct, map_instantiate_open hfields hk h (List.subset_append_left _ _),
      map_instantiate_open hargs hk h (List.subset_append_right _ _)]
  | union name template variants typeArgs hvariants hargs =>
    rw [instantiate_union, map_instantiate_open hvariants hk h (List.subset_append_left _ _),
      map_instantiate_open hargs hk h (List.subset_append_right _ _)]
  | stub name baseName typeArgs hargs =>
    rw [instantiate_stub, map_instantiate_open hargs hk h (List.Subset.refl _)]
  | fixedArray elem size sizeRef helem =>
    have he := helem (fun p hp => hk p (List.mem_append_left _ hp))
      (h.of_part (List.subset_append_left _ _))
    have hmem : (size, sizeRef) ∈ (Ty.fixedArray elem size sizeRef).consts :=
      List.mem_append_right _ List.mem_cons_self
    rw [instantiate, he]
    rcases hk _ hmem with hnull | ⟨hsize, href⟩
    · dsimp only at hnull
      rw [hnull]
      rfl
    · dsimp only at hsize href
      rw [hsize]
      refine instantiateSize_open href ((h _ hmem).resolve_left fun hnull => ?_)
      dsimp only at hnull
      rw [hnull] at href
      exact href
  | constExpr e =>
    exact instantiateConst_open ((h _ List.mem_cons_self).resolve_left Ty.noConfusion)
  | _ => rfl

/-- A type none of whose variables is bound: the bindings make no difference, and it comes
back as it is if its const values all hold variables. -/
def LeavesUnbound (t : Ty) : Prop :=
  ∀ σ, NoneBound σ t.vars → substitute σ t false = substitute [] t false ∧
    ((substitute σ t false).2 = false → t.Open → (substitute σ t false).1 = t)

theorem leavesUnbound {t : Ty} (hk : t.Kinded K) : LeavesUnbound t := by
  intro σ hσ
  have heq := substitute_unbound hσ false
  refine ⟨heq, fun hquiet hopen => ?_⟩
  have hcomp := @computes [] t false
  have hf : ¬ Fails [] t := fun hf => by
    rw [heq, hcomp.stashed.mpr (.inr hf)] at hquiet
    cases hquiet
  rw [heq, hcomp.result hf, instantiate_open hk hopen]

theorem substitution_composes {K K' : Set String} {s c : Bindings} {t : Ty} (ht : t.Kinded K)
    (hs : Binds K K' s t) (hc : Concrete K' c) :
    Composes s c t ∧ Simultaneous s t ∧ LeavesUnbound t :=
  ⟨composes hs ht hc, simultaneous hs ht, leavesUnbound ht⟩

/-- A field `('a[])['n * 2]`, in a context where `'a` is `'n*` and `'n` is `'k + 1`. -/
theorem substitution_composes_field :
    let t := Ty.fixedArray (.slice false (.typeVar "'a")) 0
      (.constExpr (.binary .star (.typeVarRef "'n") (.intLit 2)))
    let s : Bindings := [("'a", .pointer false (.typeVar "'n")),
      ("'n", .constExpr (.binary .plus (.typeVarRef "'k") (.intLit 1)))]
    let c : Bindings := [("'n", .prim .int32), ("'k", .constInt 3)]
    Composes s c t ∧ Simultaneous s t ∧ LeavesUnbound t := by
  intro t s c
  have hplus : Ty.IsConst {"'k"} (.constExpr (.binary .plus (.typeVarRef "'k") (.intLit 1))) :=
    fun n hn => List.mem_singleton.mp hn
  refine @substitution_composes {"'n"} {"'k"} s c t ?_ ⟨?_, ?_, ?_, ?_⟩ ?_
  · intro p hp
    obtain rfl : p = (0, .constExpr (.binary .star (.typeVarRef "'n") (.intLit 2))) :=
      List.mem_singleton.mp hp
    exact .inr ⟨rfl, fun n hn => List.mem_singleton.mp hn⟩
  · decide
  · intro n
    change n ∈ ["'a", "'n"] ↔ n ∈ ["'a", "'n"]
    rfl
  · intro n u hmem
    rcases List.mem_cons.mp hmem with heq | hmem
    · obtain ⟨rfl, rfl⟩ := Prod.mk.inj heq
      exact fun p hp => absurd hp List.not_mem_nil
    · obtain ⟨rfl, rfl⟩ := Prod.mk.inj (List.mem_singleton.mp hmem)
      exact fun p hp => .inr (List.mem_singleton.mp hp ▸ ⟨rfl, hplus⟩)
  · intro n u hmem hn
    rcases List.mem_cons.mp hmem with heq | hmem
    · obtain ⟨rfl, rfl⟩ := Prod.mk.inj heq
      exact absurd (List.mem_singleton.mpr hn : "'a" ∈ ["'n"]) (by decide)
    · obtain ⟨rfl, rfl⟩ := Prod.mk.inj (List.mem_singleton.mp hmem)
      exact hplus
  · rintro k rfl
    exact ⟨3, rfl⟩

/-- The size `4 * 2` holds no variable, and is folded by a substitution that binds nothing. -/
theorem substitute_folds_closed :
    let t := Ty.fixedArray (.prim .uint8) 0 (.constExpr (.binary .star (.intLit 4) (.intLit 2)))
    t.vars = [] ∧ substitute [] t false = (.fixedArray (.prim .uint8) 8 .null, false) ∧
      typeEq (substitute [] t false).1 t = false :=
  ⟨rfl, rfl, rfl⟩

end FcLang.Types
