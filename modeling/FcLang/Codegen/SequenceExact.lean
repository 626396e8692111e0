import FcLang.Codegen.Sequence

/-!
# The emitted order is the order of the source

Operands that are prepared as the emitter prepares them have their values from
left to right in every order that C may choose: what is left in place only reads,
or is the one operand that is still evaluated. Three forms are emitted without
such care, and a top-level variable of function type is taken for a constant; an
expression is `Settled` when no order shows in any of these.
-/

namespace FcLang.Codegen.Sequence
open Unsequenced

variable {σ V R F : Type*} {M : Meaning σ V R F} {s : σ}
  {binds : List (Temp × Text V R F)} {ts : List (Text V R F)} {t : Text V R F}
  {ev : σ → Outcome V σ} {evs : List (σ → Outcome V σ)} {x : Temp}

/-- Evaluations one after the other. -/
def inTurn : List (σ → Outcome V σ) → σ → Outcome (List V) σ
  | [], s => (some [], s)
  | ev :: evs, s =>
    (ev s).andThen fun v s => (inTurn evs s).andThen fun vs s => (some (v :: vs), s)

/-- A text that reads no temporary of others and, in every order, does what `ev` does. -/
structure Means (M : Meaning σ V R F) (t : Text V R F) (ev : σ → Outcome V σ) : Prop where
  closed : t.Closed []
  ends : ∀ s, Ends M s (some t) (ev s)

/-- Temporaries and operands that evaluate `evs` from left to right. -/
inductive Ready (M : Meaning σ V R F) :
    List (Temp × Text V R F) → List (Text V R F) → List (σ → Outcome V σ) → Prop where
  | reads {ts : List (Text V R F)} {evs : List (σ → Outcome V σ)}
      (hreads : ∀ t ∈ ts, t.Reads) (h : List.Forall₂ (Means M) ts evs) : Ready M [] ts evs
  | last {t : Text V R F} {ev : σ → Outcome V σ} (h : Means M t ev) (ws : List V) :
      Ready M [] (t :: ws.map .value) (ev :: ws.map fun w s => (some w, s))
  | atom {binds : List (Temp × Text V R F)} {ts : List (Text V R F)}
      {evs : List (σ → Outcome V σ)} (v : V) (h : Ready M binds ts evs) :
      Ready M binds (.value v :: ts) ((fun s => (some v, s)) :: evs)
  | temp {binds : List (Temp × Text V R F)} {ts : List (Text V R F)} {t : Text V R F}
      {ev : σ → Outcome V σ} {evs : List (σ → Outcome V σ)} {x : Temp} (hmeans : Means M t ev)
      (hfresh : x ∉ binds.map Prod.fst) (h : Ready M binds ts evs) :
      Ready M ((x, t) :: binds) (.temp x :: ts) (ev :: evs)
  -- read after everything behind it, which changes nothing
  | late {binds : List (Temp × Text V R F)} {ts : List (Text V R F)} {t : Text V R F}
      {ev : σ → Outcome V σ} {evs : List (σ → Outcome V σ)} (hmeans : Means M t ev)
      (hread : t.Reads) (hbinds : ∀ b ∈ binds, b.2.Reads) (hts : ∀ u ∈ ts, u.Reads)
      (h : Ready M binds ts evs) : Ready M binds (t :: ts) (ev :: evs)

theorem inTurn_values (ws : List V) (s : σ) :
    inTurn (ws.map fun w s => (some w, s)) s = (some ws, s) := by
  induction ws with
  | nil => rfl
  | cons w ws ih => simp [inTurn, ih, Outcome.andThen]

theorem inTurn_reads (h : List.Forall₂ (Means M) ts evs) (hreads : ∀ t ∈ ts, t.Reads) (s : σ) :
    inTurn evs s = (Term.denoteAll M s noTemps ts, s) := by
  induction h with
  | nil => rfl
  | cons hhead _ ih =>
    rename_i t ev ts evs _
    have hev : ev s = (t.denote M s noTemps, s) :=
      (hhead.ends s).unique (Ends.of_reads M s (hreads t List.mem_cons_self))
    have hrest := ih fun u hu => hreads u (List.mem_cons_of_mem t hu)
    rw [inTurn, hev, Term.denoteAll]
    cases t.denote M s noTemps with
    | none => rfl
    | some v =>
      simp only [Outcome.andThen, hrest, Option.bind_some]
      cases Term.denoteAll M s noTemps ts with
      | none => rfl
      | some vs => rfl

theorem closed_of_means (h : List.Forall₂ (Means M) ts evs) : ∀ t ∈ ts, t.Closed [] := by
  induction h with
  | nil => simp
  | cons hhead _ ih =>
    intro t ht
    rcases List.mem_cons.mp ht with rfl | ht
    · exact hhead.closed
    · exact ih t ht

theorem andThen_assoc {α β γ : Type*} (r : Outcome α σ) (k : α → σ → Outcome β σ)
    (l : β → σ → Outcome γ σ) :
    (r.andThen k).andThen l = r.andThen fun a s => (k a s).andThen l := by
  rcases r with ⟨_ | a, s⟩
  · rfl
  · rfl

theorem inTurn_cons_andThen (ev : σ → Outcome V σ) (evs : List (σ → Outcome V σ)) (s : σ)
    (k : List V → σ → Outcome V σ) :
    (inTurn (ev :: evs) s).andThen k =
      (ev s).andThen fun v s => (inTurn evs s).andThen fun vs => k (v :: vs) := by
  rw [inTurn, andThen_assoc]
  congr 1
  funext v s
  rw [andThen_assoc]
  rfl

theorem wrap_assign {u : Text V R F} (hbinds : ∀ b ∈ binds, b.2.Closed []) {x : Temp}
    (hx : x ∉ binds.map Prod.fst) (v : V) :
    (wrap binds u).assign x v = wrap binds (u.assign x v) := by
  induction binds with
  | nil => rfl
  | cons b binds ih =>
    obtain ⟨hne, hrest⟩ := List.ne_and_not_mem_of_not_mem_cons hx
    have htail := ih (fun c hc => hbinds c (List.mem_cons_of_mem b hc)) hrest
    have hhead : b.2.assign x v = b.2 :=
      (hbinds b List.mem_cons_self).assign_eq List.not_mem_nil v
    change Term.assign x v (.bind b.1 b.2 (wrap binds u)) = _
    rw [Term.assign, hhead, if_neg (Ne.symm hne), htail]
    rfl

theorem wrap_closed {u : Text V R F} {xs : List Temp} (hbinds : ∀ b ∈ binds, b.2.Closed [])
    (hu : u.Closed (binds.map Prod.fst ++ xs)) : (wrap binds u).Closed xs := by
  induction binds generalizing xs with
  | nil => exact hu
  | cons b binds ih =>
    refine ⟨(hbinds b List.mem_cons_self).mono (List.nil_subset xs), ?_⟩
    refine ih (fun c hc => hbinds c (List.mem_cons_of_mem b hc)) (hu.mono ?_)
    rw [List.map_cons, List.cons_append]
    exact List.perm_middle.symm.subset

theorem Ready.closed (h : Ready M binds ts evs) :
    (∀ b ∈ binds, b.2.Closed []) ∧ ∀ t ∈ ts, t.Closed (binds.map Prod.fst) := by
  induction h with
  | reads _ h => exact ⟨by simp, closed_of_means h⟩
  | last h ws =>
    refine ⟨by simp, fun t ht => ?_⟩
    rcases List.mem_cons.mp ht with rfl | ht
    · exact h.closed
    · obtain ⟨w, -, rfl⟩ := List.mem_map.mp ht
      exact trivial
  | atom v _ ih =>
    refine ⟨ih.1, fun t ht => ?_⟩
    rcases List.mem_cons.mp ht with rfl | ht
    · exact trivial
    · exact ih.2 t ht
  | temp hmeans _ _ ih =>
    refine ⟨fun b hb => ?_, fun t ht => ?_⟩
    · rcases List.mem_cons.mp hb with rfl | hb
      · exact hmeans.closed
      · exact ih.1 b hb
    · rcases List.mem_cons.mp ht with rfl | ht
      · exact List.mem_cons_self
      · exact (ih.2 t ht).mono (List.subset_cons_self _ _)
  | late hmeans _ _ _ _ ih =>
    refine ⟨ih.1, fun t ht => ?_⟩
    rcases List.mem_cons.mp ht with rfl | ht
    · exact hmeans.closed.mono (List.nil_subset _)
    · exact ih.2 t ht

theorem Means.eq_of_reads (h : Means M t ev) (ht : t.Reads) :
    ev = fun s => (t.denote M s noTemps, s) :=
  funext fun s => (h.ends s).unique (Ends.of_reads M s ht)

theorem Means.value (M : Meaning σ V R F) (v : V) : Means M (.value v) fun s => (some v, s) :=
  ⟨trivial, fun s => Ends.value s v⟩

theorem forall₂_values (M : Meaning σ V R F) (ws : List V) :
    List.Forall₂ (Means M) (ws.map .value) (ws.map fun w s => (some w, s)) := by
  induction ws with
  | nil => exact .nil
  | cons w ws ih => exact .cons (.value M w) ih

theorem map_assign_eq {xs : List Temp} (h : ∀ t ∈ ts, t.Closed xs) (hx : x ∉ xs) (v : V) :
    ts.map (Term.assign x v) = ts :=
  (List.map_congr_left fun t ht => (h t ht).assign_eq hx v).trans (List.map_id _)

/-- Operands that only read, behind others that do. -/
theorem ends_of_reads (h : List.Forall₂ (Means M) ts evs) (hts : ∀ t ∈ ts, t.Reads) (o : R ⊕ F)
    (us : List (Text V R F)) (hus : ∀ u ∈ us, u.Reads) (s : σ) :
    Ends M s (some (.apply o (us ++ ts)))
      (Outcome.andThen (Term.denoteAll M s noTemps us, s) fun vs s =>
        (inTurn evs s).andThen fun ws => M.run o (vs ++ ws)) := by
  have hends := Ends.apply_reads M s o fun t ht => (List.mem_append.mp ht).elim (hus t) (hts t)
  rw [denoteAll_append] at hends
  cases hvs : Term.denoteAll M s noTemps us with
  | none =>
    rw [hvs] at hends
    exact hends
  | some vs =>
    rw [hvs] at hends
    simp only [Outcome.andThen, inTurn_reads h hts]
    cases hws : Term.denoteAll M s noTemps ts with
    | none =>
      rw [hws] at hends
      exact hends
    | some ws =>
      rw [hws] at hends
      exact hends

theorem denoteAll_snoc_andThen {α : Type*} (us : List (Text V R F)) (t : Text V R F) (s : σ)
    (k : List V → σ → Outcome α σ) :
    Outcome.andThen (Term.denoteAll M s noTemps (us ++ [t]), s) k =
      Outcome.andThen (Term.denoteAll M s noTemps us, s) fun vs s =>
        Outcome.andThen (t.denote M s noTemps, s) fun v => k (vs ++ [v]) := by
  rw [denoteAll_append]
  cases Term.denoteAll M s noTemps us with
  | none => rfl
  | some vs =>
    simp only [Outcome.andThen, Option.bind_some, Term.denoteAll]
    cases t.denote M s noTemps with
    | none => rfl
    | some v => rfl

/-- Two evaluations that change nothing may change places. -/
theorem andThen_comm {α β γ : Type*} (a : σ → Option α) (b : σ → Option β) (s : σ)
    (k : α → β → σ → Outcome γ σ) :
    (Outcome.andThen (a s, s) fun x s => Outcome.andThen (b s, s) fun y => k x y) =
      Outcome.andThen (b s, s) fun y s => Outcome.andThen (a s, s) fun x => k x y := by
  rcases ha : a s with _ | x
  · rcases hb : b s with _ | y
    · rfl
    · simp only [Outcome.andThen, ha]
  · rcases hb : b s with _ | y
    · simp only [Outcome.andThen, hb]
    · simp only [Outcome.andThen, ha, hb]

theorem append_singleton_reads {us : List (Text V R F)} (hus : ∀ u ∈ us, u.Reads ∧ u.Closed [])
    (hread : t.Reads) (hclosed : t.Closed []) : ∀ u ∈ us ++ [t], u.Reads ∧ u.Closed [] := by
  intro u hu
  rcases List.mem_append.mp hu with hu | hu
  · exact hus u hu
  · rcases List.mem_singleton.mp hu with rfl
    exact ⟨hread, hclosed⟩

/-- Where nothing has effects, operands in front may wait until the temporaries are bound. -/
theorem Ready.ends_reads (h : Ready M binds ts evs) (hbinds : ∀ b ∈ binds, b.2.Reads)
    (hts : ∀ t ∈ ts, t.Reads) (o : R ⊕ F) (us : List (Text V R F))
    (hus : ∀ u ∈ us, u.Reads ∧ u.Closed []) (s : σ) :
    Ends M s (some (wrap binds (.apply o (us ++ ts))))
      (Outcome.andThen (Term.denoteAll M s noTemps us, s) fun vs s =>
        (inTurn evs s).andThen fun ws => M.run o (vs ++ ws)) := by
  induction h generalizing us s with
  | reads hreads h => exact ends_of_reads h hreads o us (fun u hu => (hus u hu).1) s
  | last h ws =>
    exact ends_of_reads (.cons h (forall₂_values M ws)) hts o us (fun u hu => (hus u hu).1) s
  | atom v _ ih =>
    have hends := ih hbinds (fun t ht => hts t (List.mem_cons_of_mem _ ht)) (us ++ [.value v])
      (append_singleton_reads (t := .value v) hus trivial trivial) s
    rw [denoteAll_snoc_andThen] at hends
    simp only [inTurn_cons_andThen]
    simpa only [Term.denote, List.append_assoc, List.singleton_append] using hends
  | temp hmeans hfresh hready ih =>
    rename_i binds ts t ev evs x
    have hread : t.Reads := hbinds _ List.mem_cons_self
    have hclosed := hready.closed
    rw [hmeans.eq_of_reads hread]
    simp only [inTurn_cons_andThen]
    rw [andThen_comm (fun s => Term.denoteAll M s noTemps us)]
    refine (Ends.of_reads M s hread).bind x _ fun v s' => ?_
    have hends := ih (fun b hb => hbinds b (List.mem_cons_of_mem _ hb))
      (fun u hu => hts u (List.mem_cons_of_mem _ hu)) (us ++ [.value v])
      (append_singleton_reads (t := .value v) hus trivial trivial) s'
    rw [denoteAll_snoc_andThen] at hends
    have hoperands : (us ++ Term.temp x :: ts).map (Term.assign x v) = us ++ [.value v] ++ ts := by
      rw [List.map_append, List.map_cons, map_assign_eq (fun u hu => (hus u hu).2) List.not_mem_nil,
        map_assign_eq hclosed.2 hfresh, Term.assign, if_pos rfl, List.append_assoc]
      rfl
    change Ends M s' (some ((wrap binds _).assign x v)) _
    rw [wrap_assign hclosed.1 hfresh, Term.assign, assignAll_eq_map, hoperands]
    simpa only [Term.denote, Outcome.some_andThen, List.append_assoc,
      List.singleton_append] using hends
  | late hmeans hread _ _ _ ih =>
    rename_i binds ts t ev evs _ _ _
    have hends := ih hbinds (fun u hu => hts u (List.mem_cons_of_mem t hu)) (us ++ [t])
      (append_singleton_reads hus hread hmeans.closed) s
    rw [denoteAll_snoc_andThen] at hends
    rw [hmeans.eq_of_reads hread]
    simp only [inTurn_cons_andThen]
    simpa only [List.append_assoc, List.singleton_append] using hends

theorem values_reads (vs : List V) :
    ∀ u ∈ vs.map (Term.value : V → Text V R F), u.Reads ∧ u.Closed [] := by
  intro u hu
  obtain ⟨v, -, rfl⟩ := List.mem_map.mp hu
  exact ⟨trivial, trivial⟩

/-- However the operands interleave, the operation gets the values from left to right. -/
theorem Ready.ends (h : Ready M binds ts evs) (o : R ⊕ F) (vs : List V) (s : σ) :
    Ends M s (some (wrap binds (.apply o (vs.map .value ++ ts))))
      ((inTurn evs s).andThen fun ws => M.run o (vs ++ ws)) := by
  induction h generalizing vs s with
  | reads hreads h =>
    have hends := ends_of_reads h hreads o _ (fun u hu => (values_reads vs u hu).1) s
    rw [denoteAll_value] at hends
    exact hends
  | last h ws =>
    have hends := (h.ends s).operand o vs ws
    rw [inTurn_cons_andThen]
    simp only [inTurn_values]
    exact hends
  | atom v _ ih =>
    have hends := ih (vs ++ [v]) s
    rw [inTurn_cons_andThen]
    simp only [List.map_append, List.map_cons, List.map_nil, List.append_assoc,
      List.singleton_append] at hends
    exact hends
  | temp hmeans hfresh hready ih =>
    rename_i binds ts t ev evs x
    have hclosed := hready.closed
    rw [inTurn_cons_andThen]
    refine (hmeans.ends s).bind x _ fun v s' => ?_
    have hvalues : (vs.map Term.value ++ Term.temp x :: ts).map (Term.assign x v) =
        (vs ++ [v]).map Term.value ++ ts := by
      rw [List.map_append, List.map_cons, map_assign_eq hclosed.2 hfresh, List.map_map,
        Term.assign, if_pos rfl, List.map_append, List.append_assoc]
      rfl
    have hends := ih (vs ++ [v]) s'
    change Ends M s' (some ((wrap binds _).assign x v)) _
    rw [wrap_assign hclosed.1 hfresh, Term.assign, assignAll_eq_map, hvalues]
    simpa only [List.append_assoc, List.singleton_append] using hends

  | late hmeans hread hbinds hts hready =>
    have hlate := Ready.late hmeans hread hbinds hts hready
    have hends := hlate.ends_reads hbinds (List.forall_mem_cons.mpr ⟨hread, hts⟩) o _
      (values_reads vs) s
    rw [denoteAll_value] at hends
    exact hends

/-- An operand whose text does what `ev` does, whatever the counter. -/
structure Operand.Faithful (M : Meaning σ V R F) (x : Operand V R F) (ev : σ → Outcome V σ) :
    Prop where
  means : ∀ c, Means M (x.text c).1 ev
  mono : ∀ c, c ≤ (x.text c).2
  quiet : x.isAtom = true → x.hasSideEffects = false
  reads : x.hasSideEffects = false → ∀ c, (x.text c).1.Reads

def Operand.Constant (x : Operand V R F) : Prop := ∃ v, ∀ c, (x.text c).1 = .value v

/-- An atom that is no constant has nothing with effects behind it. -/
def Steady (xs : List (Operand V R F)) : Prop :=
  xs.Pairwise fun x y => x.isAtom = true → x.Constant ∨ y.hasSideEffects = false

/-- Operands prepared for evaluation from left to right; `quiet` when they only read. -/
structure Prepared.Fits (M : Meaning σ V R F) (p : Prepared V R F)
    (evs : List (σ → Outcome V σ)) (quiet : Prop) (c : ℕ) : Prop where
  ready : Ready M p.binds p.operands evs
  mono : c ≤ p.next
  reads : quiet → (∀ b ∈ p.binds, b.2.Reads) ∧ ∀ t ∈ p.operands, t.Reads

theorem Prepared.Fits.weaken {p : Prepared V R F} {quiet : Prop} {c c' : ℕ}
    (h : p.Fits M evs quiet c') (hle : c ≤ c') : p.Fits M evs quiet c :=
  ⟨h.ready, hle.trans h.mono, h.reads⟩

/-- No operand has effects. -/
def Quiet (xs : List (Operand V R F)) : Prop := ∀ x ∈ xs, x.hasSideEffects = false

variable {xs : List (Operand V R F)} {y : Operand V R F} {p : Prepared V R F} {quiet : Prop}
  {c : ℕ}

theorem seqNeeded_eq_false : seqNeeded xs = false ↔ Quiet xs := by
  simp [seqNeeded, Quiet]

theorem Means.eq_of_value {v : V} (h : Means M (.value v) ev) : ev = fun s => (some v, s) :=
  h.eq_of_reads trivial

theorem inPlace_binds (xs : List (Operand V R F)) (c : ℕ) : (inPlace xs c).binds = [] := by
  cases xs with
  | nil => rfl
  | cons x xs => rfl

theorem inPlace_means (h : List.Forall₂ (Operand.Faithful M) xs evs) (c : ℕ) :
    List.Forall₂ (Means M) (inPlace xs c).operands evs ∧ c ≤ (inPlace xs c).next := by
  induction h generalizing c with
  | nil => exact ⟨.nil, Nat.le_refl c⟩
  | cons hhead _ ih =>
    rename_i x ev xs evs _
    obtain ⟨hmeans, hmono⟩ := ih (x.text c).2
    exact ⟨.cons (hhead.means c) hmeans, (hhead.mono c).trans hmono⟩

theorem inPlace_reads (h : List.Forall₂ (Operand.Faithful M) xs evs) (hquiet : Quiet xs) (c : ℕ) :
    ∀ t ∈ (inPlace xs c).operands, t.Reads := by
  induction h generalizing c with
  | nil =>
    intro t ht
    cases ht
  | cons hhead _ ih =>
    rename_i x ev xs evs _
    intro t ht
    rcases List.mem_cons.mp ht with rfl | ht
    · exact hhead.reads (hquiet x List.mem_cons_self) c
    · exact ih (fun y hy => hquiet y (List.mem_cons_of_mem x hy)) (x.text c).2 t ht

/-- Operands that only read may stand where they stand. -/
theorem inPlace_fits (h : List.Forall₂ (Operand.Faithful M) xs evs) (hquiet : Quiet xs) (c : ℕ) :
    (inPlace xs c).Fits M evs quiet c := by
  obtain ⟨hmeans, hmono⟩ := inPlace_means h c
  have hreads := inPlace_reads h hquiet c
  refine ⟨?_, hmono, fun _ => ⟨?_, hreads⟩⟩
  · rw [inPlace_binds]
    exact .reads hreads hmeans
  · rw [inPlace_binds]
    exact fun b hb => absurd hb List.not_mem_nil

theorem fits_nil (c : ℕ) :
    (⟨[], [], c⟩ : Prepared V R F).Fits M [] (Quiet ([] : List (Operand V R F))) c :=
  ⟨.reads (by simp) .nil, Nat.le_refl c, fun _ => ⟨by simp, by simp⟩⟩

/-- An operand in a temporary of its own, in front of operands that are prepared. -/
theorem Prepared.Fits.cons_temp (h : p.Fits M evs (Quiet xs) (y.text c).2) (hy : y.Faithful M ev)
    (hx : x ∉ p.binds.map Prod.fst) :
    (⟨(x, (y.text c).1) :: p.binds, .temp x :: p.operands, p.next⟩ : Prepared V R F).Fits M
      (ev :: evs) (Quiet (y :: xs)) c := by
  refine ⟨.temp (hy.means c) hx h.ready, (hy.mono c).trans h.mono, fun hquiet => ?_⟩
  obtain ⟨hbinds, hoperands⟩ := h.reads fun z hz => hquiet z (List.mem_cons_of_mem y hz)
  refine ⟨fun b hb => ?_, fun t ht => ?_⟩
  · rcases List.mem_cons.mp hb with rfl | hb
    · exact hy.reads (hquiet y List.mem_cons_self) c
    · exact hbinds b hb
  · rcases List.mem_cons.mp ht with rfl | ht
    · exact trivial
    · exact hoperands t ht

theorem inTemps_fits (h : List.Forall₂ (Operand.Faithful M) xs evs) (id slot c : ℕ) :
    (inTemps id slot xs c).Fits M evs (Quiet xs) c ∧
      ∀ x ∈ (inTemps id slot xs c).binds.map Prod.fst, slot ≤ x.slot := by
  induction h generalizing slot c with
  | nil => exact ⟨fits_nil c, by simp [inTemps]⟩
  | cons hhead _ ih =>
    rename_i y ev ys evs _
    obtain ⟨hfits, hslots⟩ := ih (slot + 1) (y.text c).2
    have hfresh : (⟨id, slot⟩ : Temp) ∉
        (inTemps id (slot + 1) ys (y.text c).2).binds.map Prod.fst := fun hmem =>
      absurd (hslots _ hmem) (Nat.not_succ_le_self slot)
    refine ⟨hfits.cons_temp hhead hfresh, fun z hz => ?_⟩
    rcases List.mem_cons.mp hz with rfl | hz
    · exact Nat.le_refl slot
    · exact (Nat.le_succ slot).trans (hslots z hz)

theorem inTemps_fits_succ (h : List.Forall₂ (Operand.Faithful M) xs evs) (c : ℕ) :
    (inTemps c 0 xs (c + 1)).Fits M evs (Quiet xs) c :=
  (inTemps_fits h c 0 (c + 1)).1.weaken (Nat.le_succ c)

theorem fits_last (h : y.Faithful M ev) (c : ℕ) :
    (⟨[], [(y.text c).1], (y.text c).2⟩ : Prepared V R F).Fits M [ev]
      (y.hasSideEffects = false) c := by
  refine ⟨.last (h.means c) [], h.mono c, fun hquiet => ⟨by simp, fun t ht => ?_⟩⟩
  rcases List.mem_singleton.mp ht with rfl
  exact h.reads hquiet c

/-- An atom where it stands, in front of operands that are prepared. -/
theorem Prepared.Fits.cons_atom (h : p.Fits M evs (Quiet xs) c) (hy : y.Faithful M ev)
    (hatom : y.isAtom = true) (hsteady : Steady (y :: xs)) :
    (⟨p.binds, (y.text c).1 :: p.operands, p.next⟩ : Prepared V R F).Fits M (ev :: evs)
      (Quiet (y :: xs)) c := by
  have hread : (y.text c).1.Reads := hy.reads (hy.quiet hatom) c
  refine ⟨?_, h.mono, fun hquiet => ?_⟩
  · by_cases hconst : y.Constant
    · obtain ⟨v, hv⟩ := hconst
      have hmeans := hy.means c
      rw [hv] at hmeans ⊢
      rw [hmeans.eq_of_value]
      exact .atom v h.ready
    · have hquiet : Quiet xs := fun x hx =>
        ((List.pairwise_cons.mp hsteady).1 x hx hatom).resolve_left hconst
      obtain ⟨hbinds, hoperands⟩ := h.reads hquiet
      exact .late (hy.means c) hread hbinds hoperands h.ready
  · obtain ⟨hbinds, hoperands⟩ := h.reads fun x hx => hquiet x (List.mem_cons_of_mem y hx)
    exact ⟨hbinds, List.forall_mem_cons.mpr ⟨hread, hoperands⟩⟩

theorem seqHoist_fits (h : List.Forall₂ (Operand.Faithful M) xs evs) (hsteady : Steady xs)
    (c : ℕ) : (seqHoist xs c).Fits M evs (Quiet xs) c ∧
      ∀ x ∈ (seqHoist xs c).binds.map Prod.fst, c ≤ x.id := by
  induction h generalizing c with
  | nil => exact ⟨fits_nil c, by simp [seqHoist]⟩
  | cons hhead htail ih =>
    rename_i y ev ys evs
    cases htail with
    | nil =>
      have hfits := fits_last hhead c
      exact ⟨⟨hfits.ready, hfits.mono, fun hquiet => hfits.reads (hquiet y List.mem_cons_self)⟩,
        by simp [seqHoist]⟩
    | cons _ _ =>
      rename_i y' ev' ys evs _ _
      rw [seqHoist]
      split_ifs with hatom
      · obtain ⟨hfits, hids⟩ := ih hsteady.of_cons c
        exact ⟨hfits.cons_atom hhead hatom hsteady, hids⟩
      · obtain ⟨hfits, hids⟩ := ih hsteady.of_cons (y.text (c + 1)).2
        have hlater : ∀ z ∈ (seqHoist (y' :: ys) (y.text (c + 1)).2).binds.map Prod.fst,
            c + 1 ≤ z.id := fun z hz => (hhead.mono (c + 1)).trans (hids z hz)
        have hfresh : (⟨c, 0⟩ : Temp) ∉
            (seqHoist (y' :: ys) (y.text (c + 1)).2).binds.map Prod.fst := fun hmem =>
          absurd (hlater _ hmem) (Nat.not_succ_le_self c)
        refine ⟨(hfits.cons_temp hhead hfresh).weaken (Nat.le_succ c), fun z hz => ?_⟩
        rcases List.mem_cons.mp hz with rfl | hz
        · exact Nat.le_refl c
        · exact (Nat.le_succ c).trans (hlater z hz)

theorem seqOperands_fits (h : List.Forall₂ (Operand.Faithful M) xs evs) (hsteady : Steady xs)
    (c : ℕ) : (seqOperands xs c).Fits M evs (Quiet xs) c ∧
      ∀ x ∈ (seqOperands xs c).binds.map Prod.fst, c ≤ x.id := by
  rw [seqOperands]
  split_ifs with hactive
  · exact seqHoist_fits h hsteady c
  · rcases not_and_or.mp hactive with hshort | hneeded
    · cases h with
      | nil => exact seqHoist_fits .nil hsteady c
      | cons hhead htail =>
        cases htail with
        | nil => exact seqHoist_fits (.cons hhead .nil) hsteady c
        | cons _ _ => simp at hshort
    · have hquiet := seqNeeded_eq_false.mp (Bool.eq_false_of_not_eq_true hneeded)
      refine ⟨inPlace_fits h hquiet c, ?_⟩
      rw [inPlace_binds]
      exact fun z hz => absurd hz List.not_mem_nil

/-- Two operands where they stand: one is a constant, or neither has effects. -/
theorem inPlace_pair_fits {x : Operand V R F} {ev' : σ → Outcome V σ} (hx : x.Faithful M ev)
    (hy : y.Faithful M ev')
    (h : x.Constant ∨ y.Constant ∨ x.hasSideEffects = false ∧ y.hasSideEffects = false) (c : ℕ) :
    (inPlace [x, y] c).Fits M [ev, ev'] (Quiet [x, y]) c := by
  have hboth : List.Forall₂ (Operand.Faithful M) [x, y] [ev, ev'] := .cons hx (.cons hy .nil)
  have hmono := (inPlace_means hboth c).2
  have hreads : Quiet [x, y] → (∀ b ∈ (inPlace [x, y] c).binds, b.2.Reads) ∧
      ∀ t ∈ (inPlace [x, y] c).operands, t.Reads := by
    intro hquiet
    have hfits : (inPlace [x, y] c).Fits M [ev, ev'] True c := inPlace_fits hboth hquiet c
    exact hfits.reads trivial
  have hxmeans := hx.means c
  have hymeans := hy.means (x.text c).2
  refine ⟨?_, hmono, hreads⟩
  rcases h with ⟨v, hv⟩ | ⟨w, hw⟩ | ⟨hxquiet, hyquiet⟩
  · change Ready M [] [(x.text c).1, (y.text (x.text c).2).1] [ev, ev']
    rw [hv] at hxmeans ⊢
    rw [hxmeans.eq_of_value]
    exact .atom v (.last hymeans [])
  · change Ready M [] [(x.text c).1, (y.text (x.text c).2).1] [ev, ev']
    rw [hw] at hymeans ⊢
    rw [hymeans.eq_of_value]
    exact .last hxmeans [w]
  · have hquiet : Quiet [x, y] := by
      intro z hz
      rcases List.mem_pair.mp hz with rfl | rfl
      · exact hxquiet
      · exact hyquiet
    have hfits : (inPlace [x, y] c).Fits M [ev, ev'] True c := inPlace_fits hboth hquiet c
    exact hfits.ready

theorem Prepared.Fits.means (h : p.Fits M evs quiet c) (o : R ⊕ F) :
    Means M (p.emit o).1 fun s => (inTurn evs s).andThen fun vs => M.run o vs := by
  refine ⟨?_, fun s => h.ready.ends o [] s⟩
  obtain ⟨hbinds, hoperands⟩ := h.ready.closed
  rw [← List.append_nil (p.binds.map Prod.fst)] at hoperands
  exact wrap_closed hbinds (closedAll_iff.mpr hoperands)

theorem wrap_reads {u : Text V R F} (hbinds : ∀ b ∈ binds, b.2.Reads) (hu : u.Reads) :
    (wrap binds u).Reads := by
  induction binds with
  | nil => exact hu
  | cons b binds ih =>
    exact ⟨hbinds b List.mem_cons_self, ih fun c hc => hbinds c (List.mem_cons_of_mem b hc)⟩

theorem Prepared.Fits.emit_reads (h : p.Fits M evs quiet c) (hquiet : quiet) (o : R) :
    (p.emit (.inl o)).1.Reads :=
  wrap_reads (h.reads hquiet).1 (readsAll_iff.mpr (h.reads hquiet).2)

theorem inTurn_one (ev : σ → Outcome V σ) (s : σ) (k : List V → σ → Outcome V σ) :
    (inTurn [ev] s).andThen k = (ev s).andThen fun v => k [v] := by
  rw [inTurn_cons_andThen]
  rfl

theorem inTurn_two (ev ev' : σ → Outcome V σ) (s : σ) (k : List V → σ → Outcome V σ) :
    (inTurn [ev, ev'] s).andThen k =
      (ev s).andThen fun a s => (ev' s).andThen fun b => k [a, b] := by
  rw [inTurn_cons_andThen]
  congr 1
  funext a s
  rw [inTurn_one]

theorem evalAll_eq_inTurn (M : Meaning σ V R F) (es : List (Expr V R F)) (s : σ) :
    Expr.evalAll M es s = inTurn (es.map (Expr.eval M)) s := by
  induction es generalizing s with
  | nil => rfl
  | cons e es ih =>
    rw [Expr.evalAll, List.map_cons, inTurn]
    congr 1
    funext v s
    rw [ih]

section
variable {P : Expr V R F → Prop} {Q : List (Expr V R F) → Prop}

/-- Induction on expressions and their lists of operands. -/
theorem Expr.induct (atom : ∀ v, P (.atom v))
    (ident : ∀ topLevelFunction o, P (.ident topLevelFunction o))
    (operation : ∀ o e, P e → P (.operation o e))
    (binary : ∀ o guards l r, P l → P r → P (.binary o guards l r))
    (ampamp : ∀ l r, P l → P r → P (.ampamp l r))
    (pipepipe : ∀ l r, P l → P r → P (.pipepipe l r))
    (literal : ∀ o hasFixedArray es, Q es → P (.literal o hasFixedArray es))
    (index : ∀ o l r, P l → P r → P (.index o l r))
    (pointerIndex : ∀ o l r, P l → P r → P (.pointerIndex o l r))
    (slice : ∀ o es, Q es → P (.slice o es))
    (sliceLit : ∀ o checked l r, P l → P r → P (.sliceLit o checked l r))
    (call : ∀ f es, Q es → P (.call f es))
    (callIndirect : ∀ f e es, P e → Q es → P (.callIndirect f e es))
    (effect : ∀ f e, P e → P (.effect f e))
    (atomicStore : ∀ f l r, P l → P r → P (.atomicStore f l r))
    (assign : ∀ f fixedArray l r, P l → P r → P (.assign f fixedArray l r))
    (ifThen : ∀ c a b, P c → P a → P b → P (.ifThen c a b)) (control : ∀ f, P (.control f))
    (nil : Q []) (cons : ∀ e es, P e → Q es → Q (e :: es)) (e : Expr V R F) : P e := by
  apply Expr.rec (motive_1 := P) (motive_2 := Q) <;> assumption

end

variable (selfCompare : R → Expr V R F → Expr V R F → Bool)

/-- What is to be shown of an expression. -/
def Exact (M : Meaning σ V R F) (e : Expr V R F) : Prop :=
  e.Settled → (e.operand (emitExpr M.ofBool selfCompare e)).Faithful M (e.eval M)

def ExactAll (M : Meaning σ V R F) (es : List (Expr V R F)) : Prop :=
  Expr.SettledAll es →
    List.Forall₂ (Operand.Faithful M) (operands M.ofBool selfCompare es) (es.map (Expr.eval M))

variable {selfCompare}

theorem Expr.hasSideEffects_of_isAtom (e : Expr V R F) (h : e.isAtom = true) :
    e.hasSideEffects = false := by
  cases e with
  | atom v => rfl
  | ident topLevelFunction o => rfl
  | _ => exact absurd h Bool.false_ne_true

/-- An operation on prepared operands. -/
theorem faithful_of_fits {e : Expr V R F} {o : R ⊕ F} {text : ℕ → Text V R F × ℕ}
    (hfits : ∀ c, ∃ p : Prepared V R F, text c = p.emit o ∧ p.Fits M evs quiet c)
    (heval : ∀ s, e.eval M s = (inTurn evs s).andThen fun vs => M.run o vs)
    (hreads : e.hasSideEffects = false → quiet ∧ o.isLeft = true) :
    (e.operand text).Faithful M (e.eval M) := by
  have hmeans : e.eval M = fun s => (inTurn evs s).andThen fun vs => M.run o vs := funext heval
  refine ⟨fun c => ?_, fun c => ?_, e.hasSideEffects_of_isAtom, fun h c => ?_⟩
  · obtain ⟨p, htext, hp⟩ := hfits c
    change Means M (text c).1 (e.eval M)
    rw [hmeans, htext]
    exact hp.means o
  · obtain ⟨p, htext, hp⟩ := hfits c
    change c ≤ (text c).2
    rw [htext]
    exact hp.mono
  · obtain ⟨p, htext, hp⟩ := hfits c
    obtain ⟨hquiet, hleft⟩ := hreads h
    obtain ⟨o', rfl⟩ := Sum.isLeft_iff.mp hleft
    change (text c).1.Reads
    rw [htext]
    exact hp.emit_reads hquiet o'

theorem quiet_pair {x y : Operand V R F}
    (h : (x.hasSideEffects || y.hasSideEffects) = false) : Quiet [x, y] := by
  obtain ⟨hx, hy⟩ := Bool.or_eq_false_iff.mp h
  intro z hz
  rcases List.mem_pair.mp hz with rfl | rfl
  · exact hx
  · exact hy

theorem quiet_operands {es : List (Expr V R F)} (h : Expr.anySideEffects es = false) :
    Quiet (operands M.ofBool selfCompare es) := by
  induction es with
  | nil => exact fun x hx => absurd hx List.not_mem_nil
  | cons e es ih =>
    obtain ⟨he, hes⟩ := Bool.or_eq_false_iff.mp h
    intro x hx
    rcases List.mem_cons.mp hx with rfl | hx
    · exact he
    · exact ih hes x hx

theorem Expr.operand_constant {e : Expr V R F} (h : e.isConstant = true) :
    (e.operand (emitExpr M.ofBool selfCompare e)).Constant := by
  cases e with
  | atom v => exact ⟨v, fun _ => rfl⟩
  | _ => exact absurd h Bool.false_ne_true

theorem Expr.Indifferent.operands {l r : Expr V R F} (h : l.Indifferent r) :
    (l.operand (emitExpr M.ofBool selfCompare l)).Constant ∨
      (r.operand (emitExpr M.ofBool selfCompare r)).Constant ∨
      l.hasSideEffects = false ∧ r.hasSideEffects = false :=
  h.imp operand_constant (Or.imp_left operand_constant)

theorem Expr.Undisturbed.operands {l r : Expr V R F} (h : l.Undisturbed r)
    (hatom : l.isAtom = true) : (l.operand (emitExpr M.ofBool selfCompare l)).Constant ∨
      r.hasSideEffects = false :=
  (h hatom).imp_left operand_constant

theorem operands_eq_map (ofBool : Bool → V) (es : List (Expr V R F)) :
    operands ofBool selfCompare es = es.map fun e => e.operand (emitExpr ofBool selfCompare e) := by
  induction es with
  | nil => rfl
  | cons e es ih => rw [operands, List.map_cons, ih]

theorem steady_operands {es : List (Expr V R F)} (h : es.Pairwise Expr.Undisturbed) :
    Steady (operands M.ofBool selfCompare es) := by
  rw [operands_eq_map, Steady, List.pairwise_map]
  exact h.imp fun hpair => hpair.operands

/-- A conditional over texts that mean its three parts. -/
theorem Means.ternary {t u w : Text V R F} {ev ev₁ ev₂ : σ → Outcome V σ} (ht : Means M t ev)
    (hu : Means M u ev₁) (hw : Means M w ev₂) :
    Means M (.ternary t u w) fun s =>
      (ev s).andThen fun v s => if M.truth v then ev₁ s else ev₂ s := by
  refine ⟨⟨ht.closed, hu.closed, hw.closed⟩, fun s => ?_⟩
  refine (ht.ends s).ternary u w fun v s' => ?_
  split_ifs
  · exact hu.ends s'
  · exact hw.ends s'

/-- The three ways in which the operands of a binary expression are prepared. -/
theorem emitBinary_fits {x y : Operand V R F} {ev' : σ → Outcome V σ} (hx : x.Faithful M ev)
    (hy : y.Faithful M ev') (o : R) {guards : Bool} (same : Bool)
    (h : guards = true ∨ (x.isAtom = true → x.Constant ∨ y.hasSideEffects = false)) (c : ℕ) :
    ∃ p : Prepared V R F, emitBinary o guards same x y c = p.emit (.inl o) ∧
      p.Fits M [ev, ev'] (Quiet [x, y]) c := by
  have hboth : List.Forall₂ (Operand.Faithful M) [x, y] [ev, ev'] := .cons hx (.cons hy .nil)
  rw [emitBinary]
  split_ifs with hneeds hguards
  · rw [binaryNeedsSeq, Bool.and_eq_true, Bool.not_eq_true'] at hneeds
    have hpair := h.resolve_left (Bool.eq_false_iff.mp hneeds.1)
    have hsteady : Steady [x, y] := List.pairwise_pair.mpr hpair
    exact ⟨_, rfl, (seqHoist_fits hboth hsteady c).1⟩
  · exact ⟨_, rfl, inTemps_fits_succ hboth c⟩
  · have hquiet : Quiet [x, y] := by
      rw [binaryNeedsSeq, Bool.eq_false_of_not_eq_true hguards, Bool.not_false, Bool.true_and,
        Bool.or_eq_true, not_or] at hneeds
      exact seqNeeded_eq_false.mp (Bool.eq_false_of_not_eq_true hneeds.1)
    exact ⟨_, rfl, inPlace_fits hboth hquiet c⟩

theorem emitSliceLit_fits {x y : Operand V R F} {ev' : σ → Outcome V σ} (hx : x.Faithful M ev)
    (hy : y.Faithful M ev') (o : R) {checked : Bool}
    (h : checked = true ∨ x.hasSideEffects = true ∧ y.hasSideEffects = true ∨
      x.Constant ∨ y.Constant ∨ x.hasSideEffects = false ∧ y.hasSideEffects = false)
    (c : ℕ) : ∃ p : Prepared V R F, emitSliceLit o checked x y c = p.emit (.inl o) ∧
      p.Fits M [ev, ev'] (Quiet [x, y]) c := by
  have hboth : List.Forall₂ (Operand.Faithful M) [x, y] [ev, ev'] := .cons hx (.cons hy .nil)
  rw [emitSliceLit]
  split_ifs with hseq
  · exact ⟨_, rfl, inTemps_fits_succ hboth c⟩
  · rw [Bool.or_eq_true, Bool.and_eq_true, not_or] at hseq
    have hpair := (h.resolve_left hseq.1).resolve_left hseq.2
    exact ⟨_, rfl, inPlace_pair_fits hx hy hpair c⟩

theorem emitAssign_fits {x y : Operand V R F} {ev' : σ → Outcome V σ} (hx : x.Faithful M ev)
    (hy : y.Faithful M ev') (f : F) (fixedArray : Bool) (c : ℕ) :
    ∃ p : Prepared V R F, emitAssign f fixedArray x y c = p.emit (.inr f) ∧
      p.Fits M [ev, ev'] (Quiet [x, y]) c := by
  have hboth : List.Forall₂ (Operand.Faithful M) [x, y] [ev, ev'] := .cons hx (.cons hy .nil)
  rw [emitAssign]
  split_ifs with hseq
  · exact ⟨_, rfl, inTemps_fits_succ hboth c⟩
  · rw [Bool.or_assoc, Bool.or_eq_true, not_or] at hseq
    have hquiet : Quiet [x, y] :=
      quiet_pair ((Bool.or_comm _ _).trans (Bool.eq_false_of_not_eq_true hseq.2))
    exact ⟨_, rfl, inPlace_fits hboth hquiet c⟩

theorem Exact.ampamp {l r : Expr V R F} (ihl : Exact selfCompare M l)
    (ihr : Exact selfCompare M r) : Exact selfCompare M (.ampamp l r) := by
  intro h
  have hl := ihl h.1
  have hr := ihr h.2
  refine ⟨fun c => (hl.means c).ternary (hr.means _) (.value M _),
    fun c => (hl.mono c).trans (hr.mono _), (Expr.ampamp l r).hasSideEffects_of_isAtom,
    fun h c => ?_⟩
  obtain ⟨hlquiet, hrquiet⟩ := Bool.or_eq_false_iff.mp h
  exact ⟨hl.reads hlquiet c, hr.reads hrquiet _, trivial⟩

theorem Exact.pipepipe {l r : Expr V R F} (ihl : Exact selfCompare M l)
    (ihr : Exact selfCompare M r) : Exact selfCompare M (.pipepipe l r) := by
  intro h
  have hl := ihl h.1
  have hr := ihr h.2
  refine ⟨fun c => (hl.means c).ternary (.value M _) (hr.means _),
    fun c => (hl.mono c).trans (hr.mono _), (Expr.pipepipe l r).hasSideEffects_of_isAtom,
    fun h c => ?_⟩
  obtain ⟨hlquiet, hrquiet⟩ := Bool.or_eq_false_iff.mp h
  exact ⟨hl.reads hlquiet c, trivial, hr.reads hrquiet _⟩

theorem Exact.ifThen {e a b : Expr V R F} (ihe : Exact selfCompare M e)
    (iha : Exact selfCompare M a) (ihb : Exact selfCompare M b) :
    Exact selfCompare M (.ifThen e a b) := by
  intro h
  have he := ihe h.1
  have ha := iha h.2.1
  have hb := ihb h.2.2
  exact ⟨fun n => (he.means n).ternary (ha.means _) (hb.means _),
    fun n => (he.mono n).trans ((ha.mono _).trans (hb.mono _)),
    (Expr.ifThen e a b).hasSideEffects_of_isAtom,
    fun h => absurd (show true = false from h) (by decide)⟩

theorem Exact.literal {es : List (Expr V R F)} (ih : ExactAll selfCompare M es) (o : R)
    (hasFixedArray : Bool) : Exact selfCompare M (.literal o hasFixedArray es) := by
  intro ⟨hes, hsteady⟩
  have hfits : ∀ c, ∃ p : Prepared V R F,
      emitExpr M.ofBool selfCompare (.literal o hasFixedArray es) c = p.emit (.inl o) ∧
        p.Fits M (es.map (Expr.eval M)) (Quiet (operands M.ofBool selfCompare es)) c := by
    intro c
    rw [emitExpr]
    split_ifs with harray
    · exact ⟨_, rfl, inTemps_fits_succ (ih hes) c⟩
    · exact ⟨_, rfl,
        (seqOperands_fits (ih hes) (steady_operands (hsteady.resolve_left harray)) c).1⟩
  exact faithful_of_fits hfits (fun s => by rw [Expr.eval, evalAll_eq_inTurn])
    fun h => ⟨quiet_operands h, rfl⟩

theorem Exact.callIndirect {e : Expr V R F} {es : List (Expr V R F)}
    (ihe : Exact selfCompare M e) (ih : ExactAll selfCompare M es) (f : F) :
    Exact selfCompare M (.callIndirect f e es) := by
  intro ⟨he, hes, hsteady⟩
  have hcallee := ihe he
  have hfits : ∀ c, ∃ p : Prepared V R F,
      emitExpr M.ofBool selfCompare (.callIndirect f e es) c = p.emit (.inr f) ∧
        p.Fits M (e.eval M :: es.map (Expr.eval M))
          (Quiet (e.operand (emitExpr M.ofBool selfCompare e) ::
            operands M.ofBool selfCompare es)) c := by
    intro c
    obtain ⟨hargs, hids⟩ := seqOperands_fits (ih hes) (steady_operands hsteady)
      (emitExpr M.ofBool selfCompare e (c + 1)).2
    have hfresh : (⟨c, 0⟩ : Temp) ∉ (seqOperands (operands M.ofBool selfCompare es)
        (emitExpr M.ofBool selfCompare e (c + 1)).2).binds.map Prod.fst := fun hmem =>
      absurd ((hcallee.mono (c + 1)).trans (hids _ hmem)) (Nat.not_succ_le_self c)
    exact ⟨_, rfl, (hargs.cons_temp hcallee hfresh).weaken (Nat.le_succ c)⟩
  refine faithful_of_fits hfits (fun s => ?_) fun h => absurd h (by simp [Expr.hasSideEffects])
  rw [inTurn_cons_andThen, Expr.eval]
  congr 1
  funext a s
  rw [evalAll_eq_inTurn]

theorem emitExpr_faithful (e : Expr V R F) : Exact selfCompare M e := by
  induction e using Expr.induct (Q := ExactAll selfCompare M) with
  | atom v =>
    exact fun _ => ⟨fun _ => .value M v, fun c => Nat.le_refl c, fun _ => rfl, fun _ _ => trivial⟩
  | ident topLevelFunction o =>
    intro _
    exact faithful_of_fits (fun c => ⟨⟨[], [], c⟩, rfl, fits_nil c⟩)
      (fun _ => rfl) fun _ => ⟨fun x hx => absurd hx List.not_mem_nil, rfl⟩
  | control f =>
    intro _
    exact faithful_of_fits (fun c => ⟨⟨[], [], c⟩, rfl, fits_nil c⟩)
      (fun _ => rfl) fun h => absurd h (by simp [Expr.hasSideEffects])
  | operation o e ih =>
    intro h
    exact faithful_of_fits (fun c => ⟨_, rfl, fits_last (ih h) c⟩)
      (fun s => (inTurn_one _ s _).symm) fun h => ⟨h, rfl⟩
  | effect f e ih =>
    intro h
    exact faithful_of_fits (fun c => ⟨_, rfl, fits_last (ih h) c⟩)
      (fun s => (inTurn_one _ s _).symm) fun h => absurd h (by simp [Expr.hasSideEffects])
  | binary o guards l r ihl ihr =>
    intro ⟨hl, hr, hpair⟩
    exact faithful_of_fits (fun c => emitBinary_fits (ihl hl) (ihr hr) o (selfCompare o l r)
        (hpair.imp_right fun h => h.operands) c)
      (fun s => (inTurn_two _ _ s _).symm) fun h => ⟨quiet_pair h, rfl⟩
  | ampamp l r ihl ihr => exact ihl.ampamp ihr
  | pipepipe l r ihl ihr => exact ihl.pipepipe ihr
  | literal o hasFixedArray es ih => exact Exact.literal ih o hasFixedArray
  | index o l r ihl ihr =>
    intro h
    have hboth := List.Forall₂.cons (ihl h.1) (.cons (ihr h.2) .nil)
    exact faithful_of_fits (fun c => ⟨_, rfl, inTemps_fits_succ hboth c⟩)
      (fun s => (inTurn_two _ _ s _).symm) fun h => ⟨quiet_pair h, rfl⟩
  | pointerIndex o l r ihl ihr =>
    intro ⟨hl, hr, hpair⟩
    exact faithful_of_fits
      (fun c => ⟨_, rfl, inPlace_pair_fits (ihl hl) (ihr hr) hpair.operands c⟩)
      (fun s => (inTurn_two _ _ s _).symm) fun h => ⟨quiet_pair h, rfl⟩
  | slice o es ih =>
    intro h
    exact faithful_of_fits (fun c => ⟨_, rfl, inTemps_fits_succ (ih h) c⟩)
      (fun s => by rw [Expr.eval, evalAll_eq_inTurn]) fun h => ⟨quiet_operands h, rfl⟩
  | sliceLit o checked l r ihl ihr =>
    intro ⟨hl, hr, hpair⟩
    exact faithful_of_fits (fun c => emitSliceLit_fits (ihl hl) (ihr hr) o
        (hpair.imp_right fun h => h.imp_right fun h => h.operands) c)
      (fun s => (inTurn_two _ _ s _).symm) fun h => ⟨quiet_pair h, rfl⟩
  | call f es ih =>
    intro ⟨hes, hsteady⟩
    exact faithful_of_fits
      (fun c => ⟨_, rfl, (seqOperands_fits (ih hes) (steady_operands hsteady) c).1⟩)
      (fun s => by rw [Expr.eval, evalAll_eq_inTurn])
      fun h => absurd h (by simp [Expr.hasSideEffects])
  | callIndirect f e es ihe ih => exact ihe.callIndirect ih f
  | atomicStore f l r ihl ihr =>
    intro ⟨hl, hr, hpair⟩
    exact faithful_of_fits
      (fun c => ⟨_, rfl, inPlace_pair_fits (ihl hl) (ihr hr) hpair.operands c⟩)
      (fun s => (inTurn_two _ _ s _).symm) fun h => absurd h (by simp [Expr.hasSideEffects])
  | assign f fixedArray l r ihl ihr =>
    intro h
    exact faithful_of_fits (fun c => emitAssign_fits (ihl h.1) (ihr h.2) f fixedArray c)
      (fun s => (inTurn_two _ _ s _).symm) fun h => absurd h (by simp [Expr.hasSideEffects])
  | ifThen c a b ihc iha ihb => exact ihc.ifThen iha ihb
  | nil => exact fun _ => .nil
  | cons e es ihe ihes => exact fun h => .cons (ihe h.1) (ihes h.2)

/-- A variable and a call that changes it, where they stand: when the operation
tells the old value from the new one, no outcome is certain. -/
theorem not_ends_inPlace {q : R} {f : F} {a b v : V} {s s' : σ} (ha : M.read q [] s = some a)
    (hb : M.read q [] s' = some b) (hact : M.act f [] s = (some v, s')) (o : R ⊕ F)
    (hne : M.run o [a, v] s' ≠ M.run o [b, v] s') (r : Outcome V σ) :
    ¬Ends M s (some (.apply o [.apply (.inl q) [], .apply (.inr f) []] : Text V R F)) r := by
  intro hends
  have hread : Step M s (.apply (.inl q) [] : Text V R F) s (some (.value a)) := by
    have hstep := Step.run (X := Temp) (M := M) (.inl q) [] s
    simpa only [Meaning.run, ha, List.map_nil, Option.map_some] using hstep
  have hread' : Step M s' (.apply (.inl q) [] : Text V R F) s' (some (.value b)) := by
    have hstep := Step.run (X := Temp) (M := M) (.inl q) [] s'
    simpa only [Meaning.run, hb, List.map_nil, Option.map_some] using hstep
  have hcall : Step M s (.apply (.inr f) [] : Text V R F) s' (some (.value v)) := by
    have hstep := Step.run (X := Temp) (M := M) (.inr f) [] s
    simpa only [Meaning.run, hact, List.map_nil, Option.map_some] using hstep
  have hfirst := (hends.next (.operand o [] _ hread)).next (.operand o [.value a] [] hcall)
  have hsecond := (hends.next (.operand o [.apply (.inl q) []] [] hcall)).next
    (.operand o [] [.value v] hread')
  have hrun : ∀ w : V, Ends M s' (some (.apply o [.value w, .value v] : Text V R F))
      (M.run o [w, v] s') := by
    intro w
    have hreads : ∀ t ∈ ([.value w, .value v] : List (Text V R F)), t.Reads := by simp [Term.Reads]
    exact Ends.apply_reads M s' o hreads
  exact hne (((hrun a).unique hfirst).trans ((hrun b).unique hsecond).symm)

/-- The emitted text does what the source does from left to right, in every order
that C may choose. The three forms without care do not on a variable and a call that
changes it, and no form does where the variable is a top-level one of function type. -/
theorem emitExpr_order (M : Meaning σ V R F) (selfCompare : R → Expr V R F → Expr V R F → Bool) :
    (∀ e : Expr V R F, e.Settled → ∀ c s,
      Ends M s (some (emitExpr M.ofBool selfCompare e c).1) (e.eval M s)) ∧
    ∀ (q : R) (f : F) (a b v : V) (s s' : σ), M.read q [] s = some a → M.read q [] s' = some b →
      M.act f [] s = (some v, s') → ∀ (topLevelFunction : Bool) (c : ℕ) (r : Outcome V σ),
        (∀ o : R, M.run (.inl o) [a, v] s' ≠ M.run (.inl o) [b, v] s' →
          ∀ e ∈ [Expr.pointerIndex o (.ident topLevelFunction q) (.call f []),
            .sliceLit o false (.ident topLevelFunction q) (.call f []),
            .binary o false (.ident true q) (.call f []),
            .literal o false [.ident true q, .call f []]],
            ¬Ends M s (some (emitExpr M.ofBool selfCompare e c).1) r) ∧
        ∀ g : F, M.run (.inr g) [a, v] s' ≠ M.run (.inr g) [b, v] s' →
          ∀ e ∈ [Expr.atomicStore g (.ident topLevelFunction q) (.call f []),
            .call g [.ident true q, .call f []]],
            ¬Ends M s (some (emitExpr M.ofBool selfCompare e c).1) r := by
  refine ⟨fun e h c s => ((emitExpr_faithful e h).means c).ends s, ?_⟩
  intro q f a b v s s' ha hb hact topLevelFunction c r
  refine ⟨fun o hne e he => ?_, fun g hne e he => ?_⟩
  · have hends := not_ends_inPlace ha hb hact (.inl o) hne r
    simp only [List.mem_cons, List.not_mem_nil, or_false] at he
    rcases he with rfl | rfl | rfl | rfl <;> exact hends
  · have hends := not_ends_inPlace ha hb hact (.inr g) hne r
    rcases List.mem_pair.mp he with rfl | rfl <;> exact hends

/-- A counter that is read and bumped, and a call that keeps its two arguments apart. -/
def counting : Meaning ℕ ℕ Unit Bool where
  read := fun _ _ n => some n
  act := fun f vs n => if f then (some (n + 1), n + 1) else (some (vs.foldl (10 * · + ·) 0), n)
  truth := fun v => v != 0
  ofBool := Bool.toNat

theorem emitExpr_order_bumped :
    Ends counting 0 (some (emitExpr counting.ofBool (fun _ _ _ => false)
      (.call false [.call true [], .call true [], .ident true ()]) 0).1) (some 122, 2) ∧
    ¬Ends counting 0 (some (emitExpr counting.ofBool (fun _ _ _ => false)
      (.call false [.ident true (), .call true []]) 0).1) (some 1, 1) := by
  have hsettled : (Expr.call false [.call true [], .call true [], .ident true ()] :
      Expr ℕ Unit Bool).Settled := by
    simp [Expr.Settled, Expr.SettledAll, Expr.Undisturbed, Expr.isAtom]
  have hread := (emitExpr_order counting fun _ _ _ => false).2 () true 0 1 1 0 1 rfl rfl rfl
    false 0 (some 1, 1)
  exact ⟨(emitExpr_order counting fun _ _ _ => false).1 _ hsettled 0 0,
    hread.2 false (by decide) _ (by simp)⟩

end FcLang.Codegen.Sequence
