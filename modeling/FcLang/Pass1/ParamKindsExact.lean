import FcLang.Pass1.ParamChains

/-!
# Kinds are the least solution

The kind of a parameter is the kind that a chain of occurrences gives it. Inference
finds these kinds and the parameters that chains reach both ways, if every walked type
is grounded, the types referring to what they are looked up as. A type that is not
grounded is walked without end.
-/

namespace FcLang.Pass1
open Lib

namespace Tables
variable {p : Tables}

/-- A walk of a member of the declaration comes to the variable. -/
def Visited (p : Tables) (decl : ℕ) (v : String × Slot) : Prop :=
  p.isWalked decl = true ∧ ∃ t ∈ (p.decls decl).memberTypes, ∃ depth vs,
    visits p.types depth t (.fixed .type) = some vs ∧ v ∈ vs

/-- An occurrence of a parameter, the types referring to the declarations that `ref` gives. -/
def Occurs (p : Tables) (ref : ℕ → Option ℕ) (o : Occurrence (ℕ × ℕ) GenericKind) : Prop :=
  ∃ d ∈ declsOf p.symbols, ∃ v, p.Visited d v ∧ p.occurrence ref d v = some o

/-- A chain of occurrences makes the parameter `q` a `k`. -/
def Chain (p : Tables) (ref : ℕ → Option ℕ) (k : GenericKind) (q : ℕ × ℕ) : Prop :=
  Reach (p.Occurs ref) k q

def InRange (p : Tables) (q : ℕ × ℕ) : Prop :=
  p.isWalked q.1 = true ∧ q.2 < (p.decls q.1).typeParams.length

instance (p : Tables) (q : ℕ × ℕ) : Decidable (p.InRange q) :=
  inferInstanceAs (Decidable (_ ∧ _))

/-- The parameters of the declarations in the tables. -/
def IsParam (p : Tables) (q : ℕ × ℕ) : Prop :=
  q.1 ∈ declsOf p.symbols ∧ p.InRange q

/-- What collection has left: a kind that is there is that of a position the variable has. -/
def Collected (p : Tables) : Prop :=
  ∀ q, p.kinds q = .unknown ∨ ∃ k var, p.kinds q = .known k ∧ q.1 ∈ declsOf p.symbols ∧
    p.Visited q.1 (var, .fixed k) ∧ (p.decls q.1).typeParams.idxOf? var = some q.2

def AllGrounded (p : Tables) : Prop :=
  ∀ d ∈ declsOf p.symbols, p.isWalked d = true → ∀ t ∈ (p.decls d).memberTypes,
    Grounded p.types t

def Infers (p : Tables) (r : Inferred) : Prop :=
  ∃ depth rounds, p.inferParamKinds depth rounds = some r

/-- Some parameter is reached both ways. -/
def Contests (p : Tables) (ref : ℕ → Option ℕ) : Prop :=
  ∃ q, p.IsParam q ∧ p.Chain ref .type q ∧ p.Chain ref .const q

/-- The kinds are those of the chains, and conflicts are the parameters reached both ways. -/
structure Least (p : Tables) (ref : ℕ → Option ℕ) (r : Inferred) : Prop where
  const : r.conflicts = [] → ∀ q, p.IsParam q → p.Chain ref .const q → r.kinds q = .known .const
  type : r.conflicts = [] → ∀ q, p.IsParam q → ¬ p.Chain ref .const q →
    p.Chain ref .type q ∨ (p.decls q.1).kind ≠ .letDecl → r.kinds q = .known .type
  unknown : r.conflicts = [] → ∀ q, p.IsParam q → ¬ p.Chain ref .const q →
    ¬ p.Chain ref .type q → (p.decls q.1).kind = .letDecl → r.kinds q = .unknown
  conflict : r.conflicts ≠ [] ↔ p.Contests ref

section Occurrences

theorem occurrences_mono {d d' decl : ℕ} (hd : d ≤ d')
    {os : List (Occurrence (ℕ × ℕ) GenericKind)} (h : p.occurrences d decl = some os) :
    p.occurrences d' decl = some os := by
  rw [occurrences] at h ⊢
  split_ifs at h ⊢ with hwalked
  · exact h
  · obtain ⟨vs, hvs, heq⟩ := Option.map_eq_some_iff.mp h
    exact Option.map_eq_some_iff.mpr
      ⟨vs, gather_mono (fun t _ x hx => visits_mono hd hx) hvs, heq⟩

theorem mem_occurrences {depth decl : ℕ} {os : List (Occurrence (ℕ × ℕ) GenericKind)}
    (h : p.occurrences depth decl = some os) (o : Occurrence (ℕ × ℕ) GenericKind) :
    o ∈ os ↔ ∃ v, p.Visited decl v ∧ p.occurrence p.found decl v = some o := by
  rw [occurrences] at h
  split_ifs at h with hwalked
  · cases h
    refine iff_of_false List.not_mem_nil ?_
    rintro ⟨v, ⟨hw, -⟩, -⟩
    rw [hw] at hwalked
    cases hwalked
  · rw [Bool.not_eq_true, Bool.not_eq_false'] at hwalked
    obtain ⟨vs, hvs, rfl⟩ := Option.map_eq_some_iff.mp h
    rw [List.mem_filterMap]
    refine exists_congr fun v => and_congr_left fun _ => ?_
    rw [mem_gather hvs]
    constructor
    · rintro ⟨t, ht, ws, hws, hv⟩
      exact ⟨hwalked, t, ht, depth, ws, hws, hv⟩
    · rintro ⟨-, t, ht, d, ws, hws, hv⟩
      obtain ⟨xs, hxs⟩ := exists_of_gather hvs ht
      refine ⟨t, ht, xs, hxs, ?_⟩
      have heq := (visits_mono (le_max_left d depth) hws).symm.trans
        (visits_mono (le_max_right d depth) hxs)
      exact Option.some.inj heq ▸ hv

theorem occurs_iff {depth : ℕ} {os : List (Occurrence (ℕ × ℕ) GenericKind)}
    (h : p.allOccurrences depth = some os) (o : Occurrence (ℕ × ℕ) GenericKind) :
    p.Occurs p.found o ↔ o ∈ os := by
  rw [mem_gather h]
  constructor
  · rintro ⟨decl, hdecl, hv⟩
    obtain ⟨xs, hxs⟩ := exists_of_gather h hdecl
    exact ⟨decl, hdecl, xs, hxs, (mem_occurrences hxs o).mpr hv⟩
  · rintro ⟨decl, hdecl, xs, hxs, ho⟩
    exact ⟨decl, hdecl, (mem_occurrences hxs o).mp ho⟩

theorem allOccurrences_unique {d d' : ℕ} {os os' : List (Occurrence (ℕ × ℕ) GenericKind)}
    (h : p.allOccurrences d = some os) (h' : p.allOccurrences d' = some os') : os = os' :=
  Option.some.inj
    ((gather_mono (fun _ _ _ hx => occurrences_mono (le_max_left d d') hx) h).symm.trans
      (gather_mono (fun _ _ _ hx => occurrences_mono (le_max_right d d') hx) h'))

theorem allGrounded_of_occurrences {depth : ℕ} {os : List (Occurrence (ℕ × ℕ) GenericKind)}
    (h : p.allOccurrences depth = some os) : p.AllGrounded := by
  intro d hd hwalked t ht
  obtain ⟨xs, hxs⟩ := exists_of_gather h hd
  rw [occurrences, hwalked, if_neg (by decide)] at hxs
  obtain ⟨vs, hvs, -⟩ := Option.map_eq_some_iff.mp hxs
  obtain ⟨ws, hws⟩ := exists_of_gather hvs ht
  exact grounded_of_visits hws

theorem exists_allOccurrences (h : p.AllGrounded) :
    ∃ depth os, p.allOccurrences depth = some os := by
  have hmono : ∀ (decl d d' : ℕ), d ≤ d' → (∃ os, p.occurrences d decl = some os) →
      ∃ os, p.occurrences d' decl = some os :=
    fun decl d d' hd ⟨os, hos⟩ => ⟨os, occurrences_mono hd hos⟩
  have hvisits : ∀ (t : TypeRef) (d d' : ℕ), d ≤ d' →
      (∃ vs, visits p.types d t (.fixed .type) = some vs) →
      ∃ vs, visits p.types d' t (.fixed .type) = some vs :=
    fun t d d' hd ⟨vs, hvs⟩ => ⟨vs, visits_mono hd hvs⟩
  have hdecl : ∀ decl ∈ declsOf p.symbols, ∃ d os, p.occurrences d decl = some os := by
    intro decl hmem
    by_cases hwalked : p.isWalked decl = true
    · obtain ⟨d, hd⟩ := exists_depth hvisits fun t ht =>
        (exists_visits (h decl hmem hwalked t ht)).imp fun d hd => hd (.fixed .type)
      obtain ⟨vs, hvs⟩ := gather_exists hd
      exact ⟨d, vs.filterMap (p.occurrence p.found decl), by
        rw [occurrences, hwalked, if_neg (by decide), hvs]; rfl⟩
    · rw [Bool.not_eq_true] at hwalked
      exact ⟨0, [], by rw [occurrences, hwalked]; rfl⟩
  obtain ⟨d, hd⟩ := exists_depth hmono hdecl
  exact ⟨d, gather_exists hd⟩

/-- An occurrence is of a parameter of a declaration in the tables. -/
theorem isParam_of_occurs {ref : ℕ → Option ℕ} {o : Occurrence (ℕ × ℕ) GenericKind}
    (h : p.Occurs ref o) : p.IsParam o.target := by
  obtain ⟨decl, hdecl, v, hv, ho⟩ := h
  rw [occurrence] at ho
  cases hi : (p.decls decl).typeParams.idxOf? v.1 with
  | none => rw [hi] at ho; cases ho
  | some i =>
    cases hsource : p.source ref v.2 with
    | none => rw [hi, hsource] at ho; cases ho
    | some x =>
      rw [hi, hsource] at ho
      cases ho
      obtain ⟨hlt, -⟩ := List.idxOf?_eq_some_iff.mp hi
      exact ⟨hdecl, hv.1, hlt⟩

end Occurrences

section Result

theorem finalKind_idem (kind : DeclKind) (k : ParamKind) :
    finalKind kind (finalKind kind k) = finalKind kind k := by
  cases k with
  | known k => rfl
  | conflict => rfl
  | unknown =>
    rw [finalKind]
    split_ifs with h
    · rw [finalKind, if_pos h]
    · rfl

theorem finalKind_twice {a b r : Prop} [Decidable a] [Decidable b] [Decidable r] {kind : DeclKind} (k : ParamKind) :
    (if b ∧ r then finalKind kind (if a ∧ r then finalKind kind k else k)
      else if a ∧ r then finalKind kind k else k) =
    if (a ∨ b) ∧ r then finalKind kind k else k := by
  by_cases hr : r <;> by_cases ha : a <;> by_cases hb : b <;> simp [hr, ha, hb, finalKind_idem]

mutual

theorem kindFinalizeTable_apply (p : Tables) (table : List Symbol) (kinds : ℕ × ℕ → ParamKind)
    (q : ℕ × ℕ) : p.kindFinalizeTable table kinds q =
      if q.1 ∈ declsOf table ∧ p.InRange q then finalKind (p.decls q.1).kind (kinds q)
      else kinds q := by
  cases table with
  | nil => simp [kindFinalizeTable, declsOf]
  | cons sym table =>
    rw [kindFinalizeTable, kindFinalizeTable_apply p table, kindFinalizeEntry_apply p sym,
      finalKind_twice]
    simp only [declsOf, List.mem_append]

theorem kindFinalizeEntry_apply (p : Tables) (sym : Symbol) (kinds : ℕ × ℕ → ParamKind)
    (q : ℕ × ℕ) : p.kindFinalizeEntry sym kinds q =
      if q.1 ∈ declsOfEntry sym ∧ p.InRange q then finalKind (p.decls q.1).kind (kinds q)
      else kinds q := by
  cases sym with
  | mk name decl members =>
    have hentry : (if p.isWalked decl = true ∧ q.1 = decl ∧
          q.2 < (p.decls decl).typeParams.length then finalKind (p.decls decl).kind (kinds q)
        else kinds q) =
        if q.1 = decl ∧ p.InRange q then finalKind (p.decls q.1).kind (kinds q) else kinds q := by
      by_cases hq : q.1 = decl
      · subst hq
        simp [InRange]
      · simp [hq]
    rw [kindFinalizeEntry, kindFinalizeTable_apply p members, hentry, finalKind_twice]
    simp only [declsOfEntry, List.mem_cons]

end

theorem contested_iff {ref : ℕ → Option ℕ} {q : ℕ × ℕ} :
    Contested (p.Occurs ref) q ↔ p.Chain ref .type q ∧ p.Chain ref .const q := by
  constructor
  · rintro ⟨k, k', hne, hk, hk'⟩
    cases k <;> cases k'
    · exact absurd rfl hne
    · exact ⟨hk, hk'⟩
    · exact ⟨hk', hk⟩
    · exact absurd rfl hne
  · rintro ⟨htype, hconst⟩
    exact ⟨.type, .const, GenericKind.noConfusion, htype, hconst⟩

theorem isParam_of_chain {ref : ℕ → Option ℕ} {k : GenericKind} {q : ℕ × ℕ}
    (h : p.Chain ref k q) : p.IsParam q := by
  cases h with
  | fixed ho => exact isParam_of_occurs ho
  | copied ho _ => exact isParam_of_occurs ho

/-- Settled marks, finalized, are the least kinds. -/
theorem least_of_settled {ref : ℕ → Option ℕ} {s : KindInfer} (h : Settled (p.Occurs ref) s) :
    p.Least ref ⟨p.kindFinalizeTable p.symbols s.marks, s.conflicts⟩ := by
  have hfinal : ∀ q, p.IsParam q → p.kindFinalizeTable p.symbols s.marks q =
      finalKind (p.decls q.1).kind (s.marks q) := fun q hq => by
    rw [kindFinalizeTable_apply]
    exact if_pos hq
  refine ⟨fun hnone q hq hconst => ?_, fun hnone q hq hconst htype => ?_,
    fun hnone q hq hconst htype hlet => ?_, h.conflict.trans ?_⟩
  · change p.kindFinalizeTable p.symbols s.marks q = _
    rw [hfinal q hq, (h.known hnone q .const).mpr hconst]
    rfl
  · change p.kindFinalizeTable p.symbols s.marks q = _
    rw [hfinal q hq]
    cases hm : s.marks q with
    | conflict => rfl
    | known k =>
      cases k with
      | type => rfl
      | const => exact absurd ((h.known hnone q .const).mp hm) hconst
    | unknown =>
      rcases htype with hchain | hkind
      · rw [(h.known hnone q .type).mpr hchain] at hm
        cases hm
      · exact if_neg hkind
  · change p.kindFinalizeTable p.symbols s.marks q = _
    rw [hfinal q hq]
    cases hm : s.marks q with
    | conflict => exact absurd hm (h.free hnone q)
    | known k =>
      cases k with
      | type => exact absurd ((h.known hnone q .type).mp hm) htype
      | const => exact absurd ((h.known hnone q .const).mp hm) hconst
    | unknown => exact if_pos hlet
  · constructor
    · rintro ⟨q, hq⟩
      obtain ⟨htype, hconst⟩ := contested_iff.mp hq
      exact ⟨q, isParam_of_chain htype, htype, hconst⟩
    · rintro ⟨q, -, hboth⟩
      exact ⟨q, contested_iff.mpr hboth⟩

theorem infers_iff {r : Inferred} : p.Infers r ↔ ∃ depth os rounds s,
    p.allOccurrences depth = some os ∧ Marking.run os rounds ⟨p.kinds, false, []⟩ = some s ∧
      r = ⟨p.kindFinalizeTable p.symbols s.marks, s.conflicts⟩ := by
  constructor
  · rintro ⟨depth, rounds, h⟩
    obtain ⟨s, hs, rfl⟩ := Option.map_eq_some_iff.mp h
    rw [inferRounds_eq] at hs
    obtain ⟨os, hos, hrun⟩ := Option.bind_eq_some_iff.mp hs
    exact ⟨depth, os, rounds, s, hos, hrun, rfl⟩
  · rintro ⟨depth, os, rounds, s, hos, hrun, rfl⟩
    refine ⟨depth, rounds, Option.map_eq_some_iff.mpr ⟨s, ?_, rfl⟩⟩
    rw [inferRounds_eq, hos]
    exact hrun

theorem Infers.grounded {r : Inferred} (h : p.Infers r) : p.AllGrounded := by
  obtain ⟨depth, os, rounds, s, hos, -, -⟩ := infers_iff.mp h
  exact allGrounded_of_occurrences hos

theorem Infers.unique {r r' : Inferred} (h : p.Infers r) (h' : p.Infers r') : r = r' := by
  obtain ⟨depth, os, rounds, s, hos, hrun, rfl⟩ := infers_iff.mp h
  obtain ⟨depth', os', rounds', s', hos', hrun', rfl⟩ := infers_iff.mp h'
  obtain rfl := allOccurrences_unique hos hos'
  rw [run_unique hrun hrun']

theorem Collected.sound (h : p.Collected) : Sound (p.Occurs p.found) ⟨p.kinds, false, []⟩ where
  justified q := by
    change (p.kinds q).Justified (p.Occurs p.found) q
    rcases h q with hq | ⟨k, var, hq, hdecl, hv, hi⟩
    · rw [hq]
      trivial
    · rw [hq]
      exact .fixed ⟨q.1, hdecl, (var, .fixed k), hv, by rw [occurrence, hi]; rfl⟩
  reported q := by
    refine iff_of_false List.not_mem_nil fun hconf => ?_
    change p.kinds q = .conflict at hconf
    rcases h q with hq | ⟨k, var, hq, -⟩ <;> rw [hq] at hconf <;> cases hconf

theorem exists_infers (h : p.Collected) (hg : p.AllGrounded) :
    ∃ r, p.Infers r ∧ p.Least p.found r := by
  obtain ⟨depth, os, hos⟩ := exists_allOccurrences hg
  obtain ⟨rounds, s, hrun⟩ := exists_run os ⟨p.kinds, false, []⟩
  have hsound := h.sound.run (fun o ho => (occurs_iff hos o).mpr ho) hrun
  have hquiet : ∀ o, p.Occurs p.found o → s.visit o = s := fun o ho =>
    run_quiet hrun o ((occurs_iff hos o).mp ho)
  exact ⟨_, infers_iff.mpr ⟨depth, os, rounds, s, hos, hrun, rfl⟩,
    least_of_settled (hsound.settled hquiet)⟩

end Result

end Tables
end FcLang.Pass1
