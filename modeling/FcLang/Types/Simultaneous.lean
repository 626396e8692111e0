import FcLang.Types.Compose
import FcLang.Types.Equal

/-!
# Substitution is simultaneous

A type is put into a first context by bindings whose types are over a second set
of variables, and that set is then bound. `followedBy` is the one binding that
does both: each type of the first is substituted, and an error in one of them is
stashed as `substitute` stashes it. No variable that the first substitution brings
in is looked up again by it, so renaming the second set commutes with it.
-/

namespace FcLang.Types

def followedBy (c : Bindings) : Bindings → Bool → Bindings × Bool
  | [], pending => ([], pending)
  | (name, u) :: s, pending =>
    let (u, pending) := substitute c u pending
    (followedBy c s pending).map ((name, u) :: ·) id

/-- `s` binds the variables of `t`, and a const parameter to a const value over `K'`. -/
structure Binds (K K' : Set String) (s : Bindings) (t : Ty) : Prop where
  nodup : (s.map Prod.fst).Nodup
  vars : ∀ n, n ∈ t.vars ↔ n ∈ s.map Prod.fst
  kinded : ∀ n u, (n, u) ∈ s → u.Kinded K'
  const : ∀ n u, (n, u) ∈ s → n ∈ K → u.IsConst K'

section Twice
variable {K K' : Set String} {s c : Bindings} {t : Ty}

theorem computes_followedBy (c s : Bindings) (pending : Bool) :
    Computes (followedBy c s pending) (composed c s) pending (∃ b ∈ s, Fails c b.2) := by
  induction s generalizing pending with
  | nil => exact ⟨by simp [followedBy], fun _ => rfl⟩
  | cons b s ih =>
    rw [List.exists_mem_cons_iff]
    exact (computes b.2 pending).bind ih fun u s => (b.1, u) :: s

theorem lookup_of_mem (hs : (s.map Prod.fst).Nodup) {n : String} {u : Ty} (h : (n, u) ∈ s) :
    s.lookup n = some u := by
  induction s with
  | nil => cases h
  | cons b s ih =>
    rw [List.map_cons, List.nodup_cons] at hs
    rcases List.mem_cons.mp h with rfl | hmem
    · exact List.lookup_cons_self
    · have hne : n ≠ b.1 := fun heq => hs.1 (heq ▸ List.mem_map_of_mem hmem)
      rw [List.lookup_cons, beq_false_of_ne hne]
      exact ih hs.2 hmem

theorem mem_of_lookup {n : String} {u : Ty} (h : s.lookup n = some u) : (n, u) ∈ s := by
  obtain ⟨l, r, rfl, -⟩ := List.lookup_eq_some_iff.mp h
  exact List.mem_append_right _ List.mem_cons_self

theorem Binds.bound (h : Binds K K' s t) {n : String} (hn : n ∈ t.vars) :
    ∃ u, s.lookup n = some u := by
  obtain ⟨b, hb, rfl⟩ := List.mem_map.mp ((h.vars n).mp hn)
  exact ⟨b.2, lookup_of_mem h.nodup hb⟩

theorem Binds.meets (h : Binds K K' s t) (ht : t.Kinded K) :
    Meets K K' s t where
  kinded := ht
  bound _ hn := h.bound hn
  const n hn u hu := h.const n u (mem_of_lookup hu) hn

theorem Binds.spliced_iff (h : Binds K K' s t) :
    Spliced c s t.vars ↔ ∃ b ∈ s, Fails c b.2 := by
  constructor
  · rintro ⟨n, -, u, hu, hf⟩
    exact ⟨(n, u), mem_of_lookup hu, hf⟩
  · rintro ⟨b, hb, hf⟩
    exact ⟨b.1, (h.vars b.1).mpr (List.mem_map_of_mem hb), b.2, lookup_of_mem h.nodup hb, hf⟩

/-- What the first substitution cannot evaluate, the one binding of both cannot either. -/
theorem Meets.fails_composed (h : Meets K K' s t) (hf : Fails s t) : Fails (composed c s) t := by
  obtain ⟨p, hp, hfail⟩ := hf
  rcases h.kinded p hp with hnull | ⟨-, hconst⟩
  · rw [hnull] at hfail
    cases hfail
  · refine ⟨p, hp, ?_⟩
    rwa [constTypeEval_composed hconst (h.covers hconst (vars_subset_of_mem_consts hp))]
    intro hsym
    rw [hsym] at hfail
    cases hfail

/-- Substituting twice, and substituting the one binding of both. -/
def Composes (s c : Bindings) (t : Ty) : Prop :=
  let twice := substitute c (substitute s t false).1 (substitute s t false).2
  let once := substitute (followedBy c s false).1 t (followedBy c s false).2
  twice.2 = once.2 ∧ (twice.2 = false → typeEq twice.1 once.1 = true)

theorem stashed_twice (h : Binds K K' s t) (ht : t.Kinded K) (hc : Concrete K' c) :
    (substitute c (substitute s t false).1 (substitute s t false).2).2 = true ↔
      (∃ b ∈ s, Fails c b.2) ∨ Fails (composed c s) t := by
  have hm := h.meets ht
  have hfirst := @computes s t false
  rw [(computes _ _).stashed, hfirst.stashed, ← h.spliced_iff]
  by_cases hf : Fails s t
  · exact iff_of_true (.inl (.inr hf)) (.inr (hm.fails_composed hf))
  · have hboth := fails_twice hc hm hf
    rw [FailsAlike] at hboth
    rw [hfirst.result hf, hboth]
    simp [hf]

theorem composes (h : Binds K K' s t) (ht : t.Kinded K) (hc : Concrete K' c) :
    Composes s c t := by
  have hm := h.meets ht
  have htwice := stashed_twice h ht hc
  have hbind := computes_followedBy c s false
  have honce : (substitute (followedBy c s false).1 t (followedBy c s false).2).2 = true ↔
      (∃ b ∈ s, Fails c b.2) ∨ Fails (composed c s) t := by
    rw [(computes _ _).stashed, hbind.stashed]
    by_cases hf : ∃ b ∈ s, Fails c b.2
    · exact iff_of_true (.inl (.inr hf)) (.inl hf)
    · rw [hbind.result hf]
      simp [hf]
  refine ⟨Bool.eq_iff_iff.mpr (htwice.trans honce.symm), fun hquiet => ?_⟩
  have hnone := not_or.mp (mt htwice.mpr (Bool.eq_false_iff.mp hquiet))
  have hfirst := @computes s t false
  have hf : ¬ Fails s t := fun hf => hnone.2 (hm.fails_composed hf)
  have hsp : ¬ Spliced c s t.vars := mt h.spliced_iff.mp hnone.1
  have hf2 : ¬ Fails c (instantiate s t) := mt (fails_twice hc hm hf).mp (not_or.mpr ⟨hsp, hnone.2⟩)
  rw [hfirst.result hf, (computes _ _).result hf2, hbind.result hnone.1,
    (computes _ _).result hnone.2, instantiate_twice hc hm hf hsp hnone.2]
  exact typeEq_refl _

end Twice

def ConstExpr.rename (r : String → String) : ConstExpr → ConstExpr
  | .typeVarRef name => .typeVarRef (r name)
  | .unaryPrefix op e => .unaryPrefix op (e.rename r)
  | .binary op left right => .binary op (left.rename r) (right.rename r)
  | .cast target e => .cast target (e.rename r)
  | e => e

mutual

/-- Every variable of the type under another name. -/
def Ty.rename (r : String → String) : Ty → Ty
  | .pointer c t => .pointer c (t.rename r)
  | .slice c t => .slice c (t.rename r)
  | .option t => .option (t.rename r)
  | .result t => .result (t.rename r)
  | .func params ret isVariadic => .func (renameAll r params) (ret.rename r) isVariadic
  | .struct name template isTuple fields typeArgs =>
    .struct name template isTuple (renameAll r fields) (renameAll r typeArgs)
  | .union name template variants typeArgs =>
    .union name template (renameAll r variants) (renameAll r typeArgs)
  | .typeVar name => .typeVar (r name)
  | .fixedArray elem size sizeRef => .fixedArray (elem.rename r) size (sizeRef.rename r)
  | .constExpr e => .constExpr (e.rename r)
  | .stub name baseName typeArgs => .stub name baseName (renameAll r typeArgs)
  | t => t

def renameAll (r : String → String) : List Ty → List Ty
  | [] => []
  | t :: ts => t.rename r :: renameAll r ts

end

def renamed (r : String → String) (s : Bindings) : Bindings :=
  s.map fun b => (b.1, b.2.rename r)

section Rename
variable {K K' : Set String} {s : Bindings} {r : String → String}

theorem renameAll_eq_map (r : String → String) (ts : List Ty) :
    renameAll r ts = ts.map (Ty.rename r) := by
  induction ts with
  | nil => rfl
  | cons t ts ih => rw [renameAll, ih, List.map_cons]

theorem lookup_renamed (n : String) :
    (renamed r s).lookup n = (s.lookup n).map (Ty.rename r) := by
  induction s with
  | nil => rfl
  | cons b s ih =>
    rw [renamed, List.map_cons, List.lookup_cons, List.lookup_cons]
    cases n == b.1 with
    | true => rfl
    | false => exact ih

theorem constExprEval_renamed {e : ConstExpr} (he : Covers K' s e.vars) :
    constExprEval (renamed r s) e = constExprEval s e := by
  induction e with
  | intLit v => rfl
  | boolLit b => rfl
  | typeVarRef name =>
    obtain ⟨u, hu, -⟩ := he name List.mem_cons_self
    rw [constExprEval, constExprEval, constParamValue, constParamValue, lookup_renamed, hu]
    cases u <;> rfl
  | unaryPrefix op e ih => rw [constExprEval, constExprEval, ih he]
  | cast target e ih => rw [constExprEval, constExprEval, ih he]
  | binary op left right hl hr =>
    rw [constExprEval, constExprEval, hl fun n hn => he n (List.mem_append_left _ hn),
      hr fun n hn => he n (List.mem_append_right _ hn)]

theorem constExprSubst_renamed {e : ConstExpr} (he : Covers K' s e.vars) :
    constExprSubst (renamed r s) e = (constExprSubst s e).rename r := by
  induction e with
  | intLit v => rfl
  | boolLit b => rfl
  | typeVarRef name =>
    obtain ⟨u, hu, hconst⟩ := he name List.mem_cons_self
    rw [constExprSubst, constExprSubst, lookup_renamed, hu]
    cases u <;> first | rfl | exact hconst.elim
  | unaryPrefix op e ih => rw [constExprSubst, ih he]; rfl
  | cast target e ih => rw [constExprSubst, ih he]; rfl
  | binary op left right hl hr =>
    rw [constExprSubst, hl fun n hn => he n (List.mem_append_left _ hn),
      hr fun n hn => he n (List.mem_append_right _ hn)]
    rfl

theorem constTypeEval_renamed {ref : Ty} (h : ref.IsConst K) (he : Covers K' s ref.vars) :
    constTypeEval ref (renamed r s) = constTypeEval ref s := by
  rw [constTypeEval_expr h, constTypeEval_expr h]
  exact constExprEval_renamed (expr_vars h ▸ he)

theorem instantiateConst_renamed {e : ConstExpr} (he : Covers K' s e.vars) :
    instantiateConst (renamed r s) e = (instantiateConst s e).rename r := by
  rw [instantiateConst, instantiateConst, constExprEval_renamed he, constExprSubst_renamed he]
  cases constExprEval s e <;> rfl

theorem instantiateSize_renamed {elem ref : Ty} {size : BitVec 64} (h : ref.IsConst K)
    (he : Covers K' s ref.vars) :
    instantiateSize (renamed r s) (elem.rename r) size ref =
      (instantiateSize s elem size ref).rename r := by
  have hnull : ref ≠ .null := fun hnull => by subst hnull; exact h
  have hleaf : instantiateLeaf (renamed r s) ref = (instantiateLeaf s ref).rename r := by
    cases ref with
    | typeVar name =>
      obtain ⟨u, hu, -⟩ := he name List.mem_cons_self
      rw [instantiateLeaf, instantiateLeaf, lookup_renamed, hu]
      rfl
    | constExpr e => exact instantiateConst_renamed he
    | constInt v => rfl
    | _ => exact h.elim
  rw [instantiateSize.eq_2 _ _ _ _ hnull, instantiateSize.eq_2 _ _ _ _ hnull,
    constTypeEval_renamed h he, hleaf]
  cases constTypeEval ref s with
  | value v => rfl
  | symbolic => cases instantiateLeaf s ref <;> rfl
  | failed err => cases instantiateLeaf s ref <;> rfl

theorem fails_renamed {t : Ty} (h : Meets K K' s t) : Fails (renamed r s) t ↔ Fails s t := by
  refine exists_congr fun p => and_congr_right fun hp => ?_
  rcases h.kinded p hp with hnull | ⟨-, hconst⟩
  · rw [hnull]
    rfl
  · rw [constTypeEval_renamed hconst (h.covers hconst (vars_subset_of_mem_consts hp))]

theorem map_renamed {ts : List Ty}
    (h : ∀ t ∈ ts, instantiate (renamed r s) t = (instantiate s t).rename r) :
    ts.map (instantiate (renamed r s)) = renameAll r (ts.map (instantiate s)) := by
  rw [renameAll_eq_map, List.map_map]
  exact List.map_congr_left h

theorem instantiate_renamed {t : Ty} (h : Meets K K' s t) :
    instantiate (renamed r s) t = (instantiate s t).rename r := by
  induction t with
  | func params ret isVariadic hparams hret =>
    rw [instantiate_func, instantiate_func, Ty.rename,
      map_renamed fun u hu => hparams u hu (h.of_part (part_param hu)),
      hret (h.of_part part_ret)]
  | struct name template isTuple fields typeArgs hfields hargs =>
    rw [instantiate_struct, instantiate_struct, Ty.rename,
      map_renamed fun u hu => hfields u hu (h.of_part (part_field hu)),
      map_renamed fun u hu => hargs u hu (h.of_part (part_structArg hu))]
  | union name template variants typeArgs hvariants hargs =>
    rw [instantiate_union, instantiate_union, Ty.rename,
      map_renamed fun u hu => hvariants u hu (h.of_part (part_variant hu)),
      map_renamed fun u hu => hargs u hu (h.of_part (part_unionArg hu))]
  | stub name baseName typeArgs hargs =>
    rw [instantiate_stub, instantiate_stub, Ty.rename,
      map_renamed fun u hu => hargs u hu (h.of_part (part_stubArg hu))]
  | pointer isConst t ih =>
    exact congrArg (Ty.pointer isConst) (ih (h.of_part ⟨fun _ hp => hp, fun _ hn => hn⟩))
  | slice isConst t ih =>
    exact congrArg (Ty.slice isConst) (ih (h.of_part ⟨fun _ hp => hp, fun _ hn => hn⟩))
  | option t ih => exact congrArg Ty.option (ih (h.of_part ⟨fun _ hp => hp, fun _ hn => hn⟩))
  | result t ih => exact congrArg Ty.result (ih (h.of_part ⟨fun _ hp => hp, fun _ hn => hn⟩))
  | fixedArray elem size sizeRef helem =>
    have he := helem (h.of_part part_elem)
    by_cases hnull : sizeRef = .null
    · subst hnull
      exact congrArg (Ty.fixedArray · size .null) he
    · obtain ⟨href, hcov⟩ := h.size hnull
      rw [instantiate, instantiate, he, instantiateSize_renamed href hcov]
  | constExpr e => exact instantiateConst_renamed h.expr.2
  | typeVar name =>
    obtain ⟨u, hu⟩ := h.bound name List.mem_cons_self
    rw [instantiate_typeVar, instantiate_typeVar, lookup_renamed, hu]
    rfl
  | _ => rfl

/-- Renaming what `s` brings in renames the result: none of it is looked up in `s`. -/
def Simultaneous (s : Bindings) (t : Ty) : Prop :=
  ∀ r, (substitute (renamed r s) t false).2 = (substitute s t false).2 ∧
    ((substitute s t false).2 = false →
      (substitute (renamed r s) t false).1 = (substitute s t false).1.rename r)

theorem simultaneous {t : Ty} (h : Binds K K' s t) (ht : t.Kinded K) : Simultaneous s t := by
  intro r
  have hm := h.meets ht
  have hold := @computes s t false
  have hnew := @computes (renamed r s) t false
  rw [fails_renamed hm] at hnew
  refine ⟨Bool.eq_iff_iff.mpr (hnew.stashed.trans hold.stashed.symm), fun hquiet => ?_⟩
  have hf : ¬ Fails s t := fun hf => by
    rw [hold.stashed.mpr (.inr hf)] at hquiet
    cases hquiet
  rw [hnew.result hf, hold.result hf, instantiate_renamed hm]

end Rename

end FcLang.Types
