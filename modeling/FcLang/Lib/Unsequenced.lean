import Mathlib.Data.List.Basic
import Mathlib.Tactic

/-!
# Operands in no particular order

Terms of a language that, as C, leaves the order of the operands of an operator
or a call open, down to the single steps of their evaluation. What has an order
is a statement expression, which gives a temporary its value before it goes on,
and a conditional. A term `Ends` in an outcome when every order of steps stops
there.
-/

namespace FcLang.Unsequenced

/-- A term over temporaries `X`: operators `R` read the state, calls `F` may
also change it. `bind x first rest` is `({ T x = first; rest })`. -/
inductive Term (X V R F : Type*) where
  | value (v : V)
  | temp (x : X)
  | apply (o : R ⊕ F) (operands : List (Term X V R F))
  | bind (x : X) (first rest : Term X V R F)
  | ternary (c a b : Term X V R F)

/-- A value, or `none` for an abort, and the state that is left. -/
abbrev Outcome (α σ : Type*) := Option α × σ

def Outcome.andThen {α β σ : Type*} (r : Outcome α σ) (k : α → σ → Outcome β σ) : Outcome β σ :=
  match r with
  | (none, s) => (none, s)
  | (some a, s) => k a s

@[simp] theorem Outcome.some_andThen {α β σ : Type*} (a : α) (s : σ) (k : α → σ → Outcome β σ) :
    Outcome.andThen (some a, s) k = k a s := rfl

/-- What operators and calls do. -/
structure Meaning (σ V R F : Type*) where
  read : R → List V → σ → Option V
  act : F → List V → σ → Outcome V σ
  truth : V → Bool
  ofBool : Bool → V

variable {σ X V R F : Type*}

def Meaning.run (M : Meaning σ V R F) : R ⊕ F → List V → σ → Outcome V σ
  | .inl o, vs, s => (M.read o vs s, s)
  | .inr f, vs, s => M.act f vs s

namespace Term

mutual

/-- The steps that evaluation can still take. -/
def size : Term X V R F → ℕ
  | value _ => 0
  | temp _ => 1
  | apply _ ts => 1 + sizeAll ts
  | bind _ t r => 1 + t.size + r.size
  | ternary c a b => 1 + c.size + a.size + b.size

def sizeAll : List (Term X V R F) → ℕ
  | [] => 0
  | t :: ts => t.size + sizeAll ts

end

mutual

/-- No call in it. -/
def Reads : Term X V R F → Prop
  | value _ | temp _ => True
  | apply (.inl _) ts => ReadsAll ts
  | apply (.inr _) _ => False
  | bind _ t r => t.Reads ∧ r.Reads
  | ternary c a b => c.Reads ∧ a.Reads ∧ b.Reads

def ReadsAll : List (Term X V R F) → Prop
  | [] => True
  | t :: ts => t.Reads ∧ ReadsAll ts

end

mutual

/-- A term in which every temporary that it reads is its own or in `xs`. -/
def Closed (xs : List X) : Term X V R F → Prop
  | value _ => True
  | temp x => x ∈ xs
  | apply _ ts => ClosedAll xs ts
  | bind x t r => t.Closed xs ∧ r.Closed (x :: xs)
  | ternary c a b => c.Closed xs ∧ a.Closed xs ∧ b.Closed xs

def ClosedAll (xs : List X) : List (Term X V R F) → Prop
  | [] => True
  | t :: ts => t.Closed xs ∧ ClosedAll xs ts

end

end Term

open Term

section Syntax
variable {t : Term X V R F} {ts : List (Term X V R F)} {P : Term X V R F → Prop}

/-- Induction on terms, with the hypothesis for every operand. -/
@[elab_as_elim]
theorem Term.induct (value : ∀ v, P (.value v)) (temp : ∀ x, P (.temp x))
    (apply : ∀ o ts, (∀ t ∈ ts, P t) → P (.apply o ts))
    (bind : ∀ x t r, P t → P r → P (.bind x t r))
    (ternary : ∀ c a b, P c → P a → P b → P (.ternary c a b)) (t : Term X V R F) : P t := by
  apply Term.rec (motive_1 := P) (motive_2 := fun ts => ∀ t ∈ ts, P t) <;> try assumption
  · exact fun t ht => absurd ht List.not_mem_nil
  · intro head tail hhead htail t ht
    cases ht with
    | head => exact hhead
    | tail _ hmem => exact htail t hmem

theorem sizeAll_append (ts us : List (Term X V R F)) :
    sizeAll (ts ++ us) = sizeAll ts + sizeAll us := by
  induction ts with
  | nil => simp [sizeAll]
  | cons t ts ih => simp [sizeAll, ih, Nat.add_assoc]

theorem readsAll_iff : ReadsAll ts ↔ ∀ t ∈ ts, t.Reads := by
  induction ts with
  | nil => simp [ReadsAll]
  | cons t ts ih => simp [ReadsAll, ih]

theorem eq_map_value (ts : List (Term X V R F)) (h : ∀ t ∈ ts, ∃ v, t = value v) :
    ∃ vs : List V, ts = vs.map value := by
  induction ts with
  | nil => exact ⟨[], rfl⟩
  | cons t ts ih =>
    obtain ⟨v, rfl⟩ := h t List.mem_cons_self
    obtain ⟨vs, rfl⟩ := ih fun u hu => h u (List.mem_cons_of_mem _ hu)
    exact ⟨v :: vs, rfl⟩

theorem append_cons_inj {vs ws : List V} {t u : Term X V R F} {before after : List (Term X V R F)}
    (hu : ∀ v, u ≠ value v)
    (h : vs.map value ++ t :: ws.map value = before ++ u :: after) :
    before = vs.map value ∧ u = t ∧ after = ws.map value := by
  induction vs generalizing before with
  | nil =>
    cases before with
    | nil =>
      cases h
      exact ⟨rfl, rfl, rfl⟩
    | cons b before =>
      rw [List.map_nil, List.nil_append, List.cons_append] at h
      have hmem : u ∈ ws.map value := by
        rw [(List.cons.inj h).2]
        exact List.mem_append_right _ List.mem_cons_self
      obtain ⟨v, -, rfl⟩ := List.mem_map.mp hmem
      exact absurd rfl (hu v)
  | cons v vs ih =>
    cases before with
    | nil =>
      cases h
      exact absurd rfl (hu v)
    | cons b before =>
      rw [List.map_cons, List.cons_append, List.cons_append] at h
      obtain ⟨rfl, htail⟩ := List.cons.inj h
      obtain ⟨rfl, rfl, rfl⟩ := ih htail
      exact ⟨rfl, rfl, rfl⟩

theorem closedAll_iff {xs : List X} : ClosedAll xs ts ↔ ∀ t ∈ ts, t.Closed xs := by
  induction ts with
  | nil => simp [ClosedAll]
  | cons t ts ih => simp [ClosedAll, ih]

theorem Term.Closed.mono {xs ys : List X} (h : t.Closed xs) (hsub : xs ⊆ ys) : t.Closed ys := by
  induction t using Term.induct generalizing xs ys with
  | value v => exact trivial
  | temp x => exact hsub h
  | apply o ts ih =>
    exact closedAll_iff.mpr fun t ht => ih t ht (closedAll_iff.mp h t ht) hsub
  | bind x t r iht ihr => exact ⟨iht h.1 hsub, ihr h.2 (List.cons_subset_cons x hsub)⟩
  | ternary c a b ihc iha ihb => exact ⟨ihc h.1 hsub, iha h.2.1 hsub, ihb h.2.2 hsub⟩

end Syntax

variable [DecidableEq X]

namespace Term

mutual

/-- A temporary replaced by its value, as far as its scope goes. -/
def assign (x : X) (v : V) : Term X V R F → Term X V R F
  | value w => value w
  | temp y => if y = x then value v else temp y
  | apply o ts => apply o (assignAll x v ts)
  | bind y t r => bind y (t.assign x v) (if y = x then r else r.assign x v)
  | ternary c a b => ternary (c.assign x v) (a.assign x v) (b.assign x v)

def assignAll (x : X) (v : V) : List (Term X V R F) → List (Term X V R F)
  | [] => []
  | t :: ts => t.assign x v :: assignAll x v ts

end

mutual

/-- What a term without calls is worth in a state; an unbound temporary aborts. -/
def denote (M : Meaning σ V R F) (s : σ) (env : X → Option V) : Term X V R F → Option V
  | value v => some v
  | temp x => env x
  | apply (.inl o) ts => (denoteAll M s env ts).bind fun vs => M.read o vs s
  | apply (.inr _) _ => none
  | bind x t r => (t.denote M s env).bind fun v => r.denote M s (Function.update env x (some v))
  | ternary c a b => (c.denote M s env).bind fun v =>
    if M.truth v then a.denote M s env else b.denote M s env

def denoteAll (M : Meaning σ V R F) (s : σ) (env : X → Option V) :
    List (Term X V R F) → Option (List V)
  | [] => some []
  | t :: ts => (t.denote M s env).bind fun v => (denoteAll M s env ts).map (v :: ·)

end

section
-- The equations are made here, once for all the proofs below.
attribute [local simp] size sizeAll assign assignAll denote denoteAll
end

end Term

/-- A step of an evaluation: any operand may go on. The outcome `none` is an abort. -/
inductive Step (M : Meaning σ V R F) : σ → Term X V R F → σ → Option (Term X V R F) → Prop where
  | unbound (s : σ) (x : X) : Step M s (temp x) s none
  | operand {s s' : σ} {t : Term X V R F} {t' : Option (Term X V R F)} (o : R ⊕ F)
      (before after : List (Term X V R F)) (h : Step M s t s' t') :
      Step M s (apply o (before ++ t :: after)) s' (t'.map fun t => apply o (before ++ t :: after))
  | run (o : R ⊕ F) (vs : List V) (s : σ) :
      Step M s (apply o (vs.map value)) (M.run o vs s).2 ((M.run o vs s).1.map value)
  | first {s s' : σ} {t : Term X V R F} {t' : Option (Term X V R F)} (x : X) (r : Term X V R F)
      (h : Step M s t s' t') : Step M s (bind x t r) s' (t'.map fun t => bind x t r)
  | bound (s : σ) (x : X) (v : V) (r : Term X V R F) :
      Step M s (bind x (value v) r) s (some (r.assign x v))
  | test {s s' : σ} {t : Term X V R F} {t' : Option (Term X V R F)} (a b : Term X V R F)
      (h : Step M s t s' t') : Step M s (ternary t a b) s' (t'.map fun t => ternary t a b)
  | branch (s : σ) (v : V) (a b : Term X V R F) :
      Step M s (ternary (value v) a b) s (some (if M.truth v then a else b))

/-- Whatever steps are taken, evaluation stops, with this outcome. -/
inductive Ends (M : Meaning σ V R F) : σ → Option (Term X V R F) → Outcome V σ → Prop where
  | abort (s : σ) : Ends M s none (none, s)
  | value (s : σ) (v : V) : Ends M s (some (value v)) (some v, s)
  | step {s : σ} {t : Term X V R F} {r : Outcome V σ} (hgo : ∃ s' t', Step M s t s' t')
      (hall : ∀ s' t', Step M s t s' t' → Ends M s' t' r) : Ends M s (some t) r

variable {M : Meaning σ V R F} {s s' : σ} {t : Term X V R F} {t' : Option (Term X V R F)}
  {ts : List (Term X V R F)} {vs ws : List V} {x : X} {v : V} {r : Outcome V σ}

theorem assignAll_eq_map (x : X) (v : V) (ts : List (Term X V R F)) :
    assignAll x v ts = ts.map (assign x v) := by
  induction ts with
  | nil => rfl
  | cons t ts ih => rw [assignAll, ih, List.map_cons]

theorem Term.Closed.assign_eq {xs : List X} (h : t.Closed xs) {x : X} (hx : x ∉ xs) (v : V) :
    t.assign x v = t := by
  induction t using Term.induct generalizing xs with
  | value w => rfl
  | temp y =>
    rw [assign, if_neg]
    rintro rfl
    exact hx h
  | apply o ts ih =>
    have hall : ts.map (assign x v) = ts :=
      (List.map_congr_left fun t ht => ih t ht (closedAll_iff.mp h t ht) hx).trans (List.map_id _)
    rw [assign, assignAll_eq_map, hall]
  | bind y t r iht ihr =>
    rw [assign, iht h.1 hx]
    split_ifs with hy
    · rfl
    · have hfresh : x ∉ y :: xs := List.not_mem_cons_of_ne_of_not_mem (Ne.symm hy) hx
      rw [ihr h.2 hfresh]
  | ternary c a b ihc iha ihb =>
    rw [assign, ihc h.1 hx, iha h.2.1 hx, ihb h.2.2 hx]

theorem size_assign_le (x : X) (v : V) (t : Term X V R F) : (t.assign x v).size ≤ t.size := by
  induction t using Term.induct with
  | value w => exact Nat.le_refl _
  | temp y =>
    rw [assign]
    split_ifs
    · exact Nat.zero_le _
    · exact Nat.le_refl _
  | apply o ts ih =>
    have hall : sizeAll (assignAll x v ts) ≤ sizeAll ts := by
      clear o
      induction ts with
      | nil => exact Nat.le_refl _
      | cons t ts ihs =>
        rw [assignAll, sizeAll, sizeAll]
        exact Nat.add_le_add (ih t List.mem_cons_self)
          (ihs fun u hu => ih u (List.mem_cons_of_mem t hu))
    rw [assign, size, size]
    exact Nat.add_le_add_left hall 1
  | bind y t r iht ihr =>
    rw [assign, size, size]
    refine Nat.add_le_add (Nat.add_le_add_left iht 1) ?_
    split_ifs
    · exact Nat.le_refl _
    · exact ihr
  | ternary c a b ihc iha ihb =>
    rw [assign, size, size]
    exact Nat.add_le_add (Nat.add_le_add (Nat.add_le_add_left ihc 1) iha) ihb

theorem Step.size_lt (h : Step M s t s' t') : ∀ u ∈ t', u.size < t.size := by
  induction h with
  | unbound s x => simp
  | operand o before after _ ih =>
    rename_i t₁ t₁' _
    intro u hu
    obtain ⟨w, hw, rfl⟩ := Option.map_eq_some_iff.mp hu
    have hlt := ih w hw
    simp only [size, sizeAll_append, sizeAll]
    omega
  | run o vs s =>
    intro u hu
    obtain ⟨w, -, rfl⟩ := Option.map_eq_some_iff.mp hu
    rw [size, size]
    omega
  | first x r _ ih =>
    intro u hu
    obtain ⟨w, hw, rfl⟩ := Option.map_eq_some_iff.mp hu
    have hlt := ih w hw
    simp only [size]
    omega
  | bound s x v r =>
    intro u hu
    cases hu
    have hle := size_assign_le x v r
    simp only [size]
    omega
  | test a b _ ih =>
    intro u hu
    obtain ⟨w, hw, rfl⟩ := Option.map_eq_some_iff.mp hu
    have hlt := ih w hw
    simp only [size]
    omega
  | branch s v a b =>
    intro u hu
    cases hu
    simp only [size]
    split_ifs <;> omega

/-- Only a value is at rest. -/
theorem exists_step (M : Meaning σ V R F) (s : σ) (t : Term X V R F) :
    (∃ v, t = value v) ∨ ∃ s' t', Step M s t s' t' := by
  induction t using Term.induct with
  | value v => exact .inl ⟨v, rfl⟩
  | temp x => exact .inr ⟨_, _, .unbound s x⟩
  | apply o ts ih =>
    by_cases hall : ∀ t ∈ ts, ∃ v, t = value v
    · obtain ⟨vs, rfl⟩ := eq_map_value ts hall
      exact .inr ⟨_, _, .run o vs s⟩
    · push Not at hall
      obtain ⟨t, ht, hvalue⟩ := hall
      obtain ⟨before, after, rfl⟩ := List.append_of_mem ht
      rcases ih t ht with ⟨v, rfl⟩ | ⟨s', t', hstep⟩
      · exact absurd rfl (hvalue v)
      · exact .inr ⟨_, _, .operand o before after hstep⟩
  | bind x t r iht _ =>
    rcases iht with ⟨v, rfl⟩ | ⟨s', t', hstep⟩
    · exact .inr ⟨_, _, .bound s x v r⟩
    · exact .inr ⟨_, _, .first x r hstep⟩
  | ternary c a b ihc _ _ =>
    rcases ihc with ⟨v, rfl⟩ | ⟨s', t', hstep⟩
    · exact .inr ⟨_, _, .branch s v a b⟩
    · exact .inr ⟨_, _, .test a b hstep⟩

theorem not_step_value {w : Term X V R F} (h : Step M s w s' t') (v : V) : w ≠ value v := by
  rintro rfl
  cases h

theorem apply_step {o : R ⊕ F} (h : Step M s (apply o ts) s' t') :
    (∃ before t after t₁, ts = before ++ t :: after ∧ Step M s t s' t₁ ∧
      t' = t₁.map fun t => apply o (before ++ t :: after)) ∨
    ∃ vs : List V, ts = vs.map value ∧ s' = (M.run o vs s).2 ∧ t' = (M.run o vs s).1.map value := by
  cases h with
  | operand o before after h => exact .inl ⟨before, _, after, _, rfl, h, rfl⟩
  | run o vs s => exact .inr ⟨vs, rfl, rfl, rfl⟩

/-- No temporary has a value outside its scope. -/
def noTemps : X → Option V := fun _ => none

theorem denoteAll_value (M : Meaning σ V R F) (s : σ) (env : X → Option V) (vs : List V) :
    denoteAll M s env (vs.map value) = some vs := by
  induction vs with
  | nil => rfl
  | cons v vs ih => simp [denoteAll, denote, ih]

theorem denoteAll_append (M : Meaning σ V R F) (s : σ) (env : X → Option V)
    (ts us : List (Term X V R F)) :
    denoteAll M s env (ts ++ us) =
      (denoteAll M s env ts).bind fun vs => (denoteAll M s env us).map (vs ++ ·) := by
  induction ts with
  | nil => simp [denoteAll]
  | cons t ts ih =>
    rw [List.cons_append, denoteAll, denoteAll, ih]
    cases t.denote M s env with
    | none => rfl
    | some v =>
      cases denoteAll M s env ts with
      | none => rfl
      | some vs => simp [Function.comp_def]

theorem denoteAll_congr {env : X → Option V} {before after : List (Term X V R F)}
    {u : Term X V R F} (h : t.denote M s env = u.denote M s env) :
    denoteAll M s env (before ++ t :: after) = denoteAll M s env (before ++ u :: after) := by
  induction before with
  | nil => simp [denoteAll, h]
  | cons b before ih => simp [denoteAll, ih]

theorem denoteAll_none {env : X → Option V} {before after : List (Term X V R F)}
    (h : t.denote M s env = none) : denoteAll M s env (before ++ t :: after) = none := by
  induction before with
  | nil => simp [denoteAll, h]
  | cons b before ih => simp [denoteAll, ih]

theorem Term.Reads.assign (h : t.Reads) (x : X) (v : V) : (t.assign x v).Reads := by
  induction t using Term.induct with
  | value w => exact trivial
  | temp y =>
    rw [Term.assign]
    split_ifs
    · exact trivial
    · exact trivial
  | apply o ts ih =>
    cases o with
    | inl o =>
      rw [Term.assign, assignAll_eq_map]
      refine readsAll_iff.mpr fun u hu => ?_
      obtain ⟨t, ht, rfl⟩ := List.mem_map.mp hu
      exact ih t ht (readsAll_iff.mp h t ht)
    | inr f => exact h.elim
  | bind y t r iht ihr =>
    refine ⟨iht h.1, ?_⟩
    split_ifs
    · exact h.2
    · exact ihr h.2
  | ternary c a b ihc iha ihb => exact ⟨ihc h.1, iha h.2.1, ihb h.2.2⟩

theorem denote_assign (M : Meaning σ V R F) (s : σ) (x : X) (v : V) (t : Term X V R F)
    (env : X → Option V) :
    (t.assign x v).denote M s env = t.denote M s (Function.update env x (some v)) := by
  induction t using Term.induct generalizing env with
  | value w => rfl
  | temp y =>
    rw [assign, denote, Function.update_apply]
    split_ifs
    · rfl
    · rfl
  | apply o ts ih =>
    have hall : denoteAll M s env (assignAll x v ts) =
        denoteAll M s (Function.update env x (some v)) ts := by
      clear o
      induction ts with
      | nil => rfl
      | cons t ts ihs =>
        rw [assignAll, denoteAll, denoteAll, ih t List.mem_cons_self,
          ihs fun u hu => ih u (List.mem_cons_of_mem t hu)]
    cases o with
    | inl o => rw [assign, denote, denote, hall]
    | inr f => rfl
  | bind y t r iht ihr =>
    rw [assign, denote, denote, iht]
    congr 1
    funext w
    split_ifs with hy
    · rw [hy, Function.update_idem]
    · rw [ihr, Function.update_comm hy]
  | ternary c a b ihc iha ihb => rw [assign, denote, denote, ihc, iha, ihb]

/-- What is left of a term reads as before and is worth the same. -/
def Kept (M : Meaning σ V R F) (s : σ) (t : Term X V R F) : Option (Term X V R F) → Prop
  | none => t.denote M s noTemps = none
  | some u => u.Reads ∧ u.denote M s noTemps = t.denote M s noTemps

/-- A step of a term that only reads keeps the state and what the term is worth. -/
theorem Step.reads (h : Step M s t s' t') (ht : t.Reads) : s' = s ∧ Kept M s t t' := by
  induction h with
  | unbound s x => exact ⟨rfl, rfl⟩
  | operand o before after _ ih =>
    rename_i s s' t t' _
    cases o with
    | inr f => exact ht.elim
    | inl o =>
      have hall := readsAll_iff.mp ht
      obtain ⟨hs, hstep⟩ := ih (hall t (by simp))
      refine ⟨hs, ?_⟩
      cases t' with
      | none =>
        change denote M s noTemps _ = none
        rw [denote, denoteAll_none hstep, Option.bind_none]
      | some u =>
        refine ⟨readsAll_iff.mpr fun w hw => ?_, ?_⟩
        · rcases List.mem_append.mp hw with hw | hw
          · exact hall w (List.mem_append_left _ hw)
          · rcases List.mem_cons.mp hw with rfl | hw
            · exact hstep.1
            · exact hall w (List.mem_append_right _ (List.mem_cons_of_mem t hw))
        · rw [denote, denote, denoteAll_congr hstep.2]
  | run o vs s =>
    cases o with
    | inr f => exact ht.elim
    | inl o =>
      refine ⟨rfl, ?_⟩
      have hworth : denote M s (noTemps (X := X)) (apply (.inl o) (vs.map value)) =
          M.read o vs s := by
        rw [denote, denoteAll_value, Option.bind_some]
      change Kept M s _ (Option.map value (M.read o vs s))
      cases hread : M.read o vs s with
      | none => exact hworth.trans hread
      | some v => exact ⟨trivial, (hworth.trans hread).symm⟩
  | first x r _ ih =>
    rename_i t' _
    obtain ⟨hs, hstep⟩ := ih ht.1
    refine ⟨hs, ?_⟩
    cases t' with
    | none =>
      change denote M _ noTemps _ = none
      rw [denote, hstep, Option.bind_none]
    | some u => exact ⟨⟨hstep.1, ht.2⟩, by rw [denote, denote, hstep.2]⟩
  | bound s x v r => exact ⟨rfl, ht.2.assign x v, denote_assign M s x v r noTemps⟩
  | test a b _ ih =>
    rename_i t' _
    obtain ⟨hs, hstep⟩ := ih ht.1
    refine ⟨hs, ?_⟩
    cases t' with
    | none =>
      change denote M _ noTemps _ = none
      rw [denote, hstep, Option.bind_none]
    | some u => exact ⟨⟨hstep.1, ht.2⟩, by rw [denote, denote, hstep.2]⟩
  | branch s v a b =>
    refine ⟨rfl, ?_, ?_⟩
    · split_ifs
      · exact ht.2.1
      · exact ht.2.2
    · rw [denote, denote, Option.bind_some, apply_ite (denote M s noTemps)]

theorem Ends.next (h : Ends M s (some t) r) (hstep : Step M s t s' t') : Ends M s' t' r := by
  cases h with
  | value s v => exact absurd rfl (not_step_value hstep v)
  | step _ hall => exact hall s' t' hstep

theorem Ends.unique {r' : Outcome V σ} (h : Ends M s t' r) (h' : Ends M s t' r') : r = r' := by
  induction h generalizing r' with
  | abort s =>
    cases h'
    rfl
  | value s v =>
    cases h' with
    | value => rfl
    | step hgo _ =>
      obtain ⟨_, _, hstep⟩ := hgo
      exact absurd rfl (not_step_value hstep v)
  | step hgo _ ih =>
    obtain ⟨s₁, t₁, hstep⟩ := hgo
    cases h' with
    | value s v => exact absurd rfl (not_step_value hstep v)
    | step _ hall => exact ih s₁ t₁ hstep (hall s₁ t₁ hstep)

theorem Ends.of_reads (M : Meaning σ V R F) (s : σ) (ht : t.Reads) :
    Ends M s (some t) (t.denote M s noTemps, s) := by
  induction hsize : t.size using Nat.strong_induction_on generalizing t with
  | _ n ih =>
    rcases exists_step M s t with ⟨v, rfl⟩ | hgo
    · exact .value s v
    · refine .step hgo fun s' t' hstep => ?_
      obtain ⟨rfl, hkept⟩ := hstep.reads ht
      cases t' with
      | none =>
        rw [hkept]
        exact .abort s'
      | some u =>
        rw [← hkept.2]
        exact ih u.size (hsize ▸ hstep.size_lt u rfl) hkept.1 rfl

/-- Whatever is done with operands that only read, in every order they have their values. -/
theorem Ends.apply_reads (M : Meaning σ V R F) (s : σ) (o : R ⊕ F) (ht : ∀ t ∈ ts, t.Reads) :
    Ends M s (some (apply o ts))
      (Outcome.andThen (denoteAll M s noTemps ts, s) fun vs s => M.run o vs s) := by
  induction hsize : sizeAll ts using Nat.strong_induction_on generalizing ts with
  | _ n ih =>
    rcases exists_step M s (apply o ts) with ⟨v, hv⟩ | hgo
    · cases hv
    refine .step hgo fun s' t' hstep => ?_
    rcases apply_step hstep with ⟨before, t, after, t₁, rfl, hinner, rfl⟩ | ⟨vs, rfl, rfl, rfl⟩
    · obtain ⟨rfl, hkept⟩ := hinner.reads (ht t (by simp))
      cases t₁ with
      | none =>
        rw [denoteAll_none hkept]
        exact .abort s'
      | some u =>
        rw [← denoteAll_congr hkept.2]
        refine ih _ ?_ (fun w hw => ?_) rfl
        · rw [← hsize, sizeAll_append, sizeAll_append, sizeAll, sizeAll]
          have hlt := hinner.size_lt u rfl
          omega
        · rcases List.mem_append.mp hw with hw | hw
          · exact ht w (List.mem_append_left _ hw)
          · rcases List.mem_cons.mp hw with rfl | hw
            · exact hkept.1
            · exact ht w (List.mem_append_right _ (List.mem_cons_of_mem t hw))
    · rw [denoteAll_value]
      change Ends M (M.run o vs s).2 ((M.run o vs s).1.map Term.value) (M.run o vs s)
      rcases M.run o vs s with ⟨_ | v, s'⟩
      · exact .abort s'
      · exact .value s' v

/-- One operand among values has the evaluation to itself. -/
theorem Ends.operand (h : Ends M s t' r) (o : R ⊕ F) (vs ws : List V) :
    Ends M s (t'.map fun t => apply o (vs.map Term.value ++ t :: ws.map Term.value))
      (r.andThen fun v s => M.run o (vs ++ v :: ws) s) := by
  induction h with
  | abort s => exact .abort s
  | value s v =>
    have hvalues : vs.map Term.value ++ (Term.value v : Term X V R F) :: ws.map Term.value =
        (vs ++ v :: ws).map Term.value := by simp
    have hreads : ∀ t ∈ (vs ++ v :: ws).map (Term.value : V → Term X V R F), t.Reads := by
      intro t ht
      obtain ⟨w, -, rfl⟩ := List.mem_map.mp ht
      exact trivial
    have hends := Ends.apply_reads M s o hreads
    rw [denoteAll_value] at hends
    rw [Option.map_some, hvalues]
    exact hends
  | step hgo hall ih =>
    rename_i s t r
    obtain ⟨s₁, t₁, hstep⟩ := hgo
    refine .step ⟨_, _, .operand o _ _ hstep⟩ fun s₂ t₂ hnext => ?_
    rcases apply_step hnext with ⟨before, u, after, u₁, hts, hu, rfl⟩ | ⟨us, hus, -⟩
    · obtain ⟨rfl, rfl, rfl⟩ := append_cons_inj (not_step_value hu) hts
      exact ih s₂ u₁ hu
    · have hmem : t ∈ us.map Term.value := by
        rw [← hus]
        exact List.mem_append_right _ List.mem_cons_self
      obtain ⟨v, -, rfl⟩ := List.mem_map.mp hmem
      exact absurd rfl (not_step_value hstep v)

theorem Ends.bind (h : Ends M s t' r) (x : X) (u : Term X V R F) {k : V → σ → Outcome V σ}
    (hk : ∀ v s, Ends M s (some (u.assign x v)) (k v s)) :
    Ends M s (t'.map fun t => Term.bind x t u) (r.andThen k) := by
  induction h with
  | abort s => exact .abort s
  | value s v =>
    refine .step ⟨_, _, .bound s x v u⟩ fun s₂ t₂ hnext => ?_
    cases hnext with
    | first _ _ h => exact absurd rfl (not_step_value h v)
    | bound => exact hk v s
  | step hgo hall ih =>
    obtain ⟨s₁, t₁, hstep⟩ := hgo
    refine .step ⟨_, _, .first x u hstep⟩ fun s₂ t₂ hnext => ?_
    cases hnext with
    | first _ _ h => exact ih _ _ h
    | bound => exact absurd rfl (not_step_value hstep _)

theorem Ends.ternary (h : Ends M s t' r) (a b : Term X V R F) {k : V → σ → Outcome V σ}
    (hk : ∀ v s, Ends M s (some (if M.truth v then a else b)) (k v s)) :
    Ends M s (t'.map fun t => Term.ternary t a b) (r.andThen k) := by
  induction h with
  | abort s => exact .abort s
  | value s v =>
    refine .step ⟨_, _, .branch s v a b⟩ fun s₂ t₂ hnext => ?_
    cases hnext with
    | test _ _ h => exact absurd rfl (not_step_value h v)
    | branch => exact hk v s
  | step hgo hall ih =>
    obtain ⟨s₁, t₁, hstep⟩ := hgo
    refine .step ⟨_, _, .test a b hstep⟩ fun s₂ t₂ hnext => ?_
    cases hnext with
    | test _ _ h => exact ih _ _ h
    | branch => exact absurd rfl (not_step_value hstep _)

end FcLang.Unsequenced
