import FcLang.Lib.Exec

/-!
# Runs of a component

A component answers one call after the other. A call gets a budget, and ends if
some budget suffices. What holds after every call of a run is compared with what
holds before every call, and the answers of a run with those of an abstract
machine.
-/

namespace FcLang.Runs
universe u

section Conditions
variable {δ C : Type} (step : ℕ → δ → C → Exec δ)

/-- Every call of a run is made in a state where `before` holds of it, and leaves a state with
`after` if it returns. -/
def Throughout (before : δ → C → Prop) (after : δ → Prop) : δ → List C → Prop
  | _, [] => True
  | d, c :: cs => before d c ∧
      ∀ fuel d', step fuel d c = .ret d' → after d' ∧ Throughout before after d' cs

/-- Every call of a run ends, and leaves a state with `P` if it returns. -/
def EndsWith (P : δ → Prop) : δ → List C → Prop :=
  Throughout step (fun d c => ∃ fuel, step fuel d c ≠ .timeout) P

/-- Every call of a run that returns leaves a state with `P`. -/
def Keeps (P : δ → Prop) : δ → List C → Prop := Throughout step (fun _ _ => True) P

/-- Every call of a run is made in a state where it is `safe`. -/
def MadeWhen (safe : δ → C → Prop) : δ → List C → Prop := Throughout step safe fun _ => True

variable {step}

/-- If a call made in a good state leaves a good state exactly when it was safe, the same is true
of whole runs. -/
theorem throughout_iff {I P : δ → Prop} {before safe : δ → C → Prop}
    (hbefore : ∀ d c, I d → P d → before d c)
    (hkeep : ∀ d c fuel d', I d → P d → step fuel d c = .ret d' → I d' ∧ (P d' ↔ safe d c))
    (hsafe : ∀ d c, I d → P d → ¬safe d c → ∃ fuel d', step fuel d c = .ret d') {d : δ}
    (hI : I d) (hP : P d) (cs : List C) :
    Throughout step before P d cs ↔ MadeWhen step safe d cs := by
  induction cs generalizing d with
  | nil => exact Iff.rfl
  | cons c cs ih =>
    constructor
    · rintro ⟨-, hrest⟩
      constructor
      · by_contra hunsafe
        obtain ⟨fuel, d', hret⟩ := hsafe d c hI hP hunsafe
        exact hunsafe ((hkeep d c fuel d' hI hP hret).2.mp (hrest fuel d' hret).1)
      · intro fuel d' hret
        obtain ⟨hP', hcs⟩ := hrest fuel d' hret
        exact ⟨trivial, (ih (hkeep d c fuel d' hI hP hret).1 hP').mp hcs⟩
    · rintro ⟨hc, hrest⟩
      refine ⟨hbefore d c hI hP, fun fuel d' hret => ?_⟩
      obtain ⟨hI', hP'⟩ := hkeep d c fuel d' hI hP hret
      exact ⟨hP'.mpr hc, (ih hI' (hP'.mpr hc)).mpr (hrest fuel d' hret).2⟩

end Conditions

section Simulation
variable {δ : Type} {C : Type u} {Out : C → Type} {σ : Type}

/-- A sequence of calls that all return, with what each returned. -/
inductive Calls (step : ℕ → δ → (c : C) → Exec (Out c × δ)) : δ → List (Σ c, Out c) → δ → Prop
  | nil (d : δ) : Calls step d [] d
  | cons {d d' d'' : δ} {c : C} {out : Out c} {rest : List (Σ c, Out c)} (fuel : ℕ)
      (hcall : step fuel d c = .ret (out, d')) (hrest : Calls step d' rest d'') :
      Calls step d (⟨c, out⟩ :: rest) d''

/-- A sequence of steps of an abstract machine that gives the same answers. -/
inductive Behaves (spec : σ → (c : C) → Out c → σ → Prop) : σ → List (Σ c, Out c) → σ → Prop
  | nil (m : σ) : Behaves spec m [] m
  | cons {m m' m'' : σ} {c : C} {out : Out c} {rest : List (Σ c, Out c)}
      (hstep : spec m c out m') (hrest : Behaves spec m' rest m'') :
      Behaves spec m (⟨c, out⟩ :: rest) m''

variable {step : ℕ → δ → (c : C) → Exec (Out c × δ)} {spec : σ → (c : C) → Out c → σ → Prop}

/-- A simulation of one call is one of whole runs. -/
theorem Calls.behaves {R : δ → σ → Prop}
    (hsim : ∀ {d m c fuel out d'}, R d m → step fuel d c = .ret (out, d') →
      ∃ m', spec m c out m' ∧ R d' m')
    {d d' : δ} {m : σ} {trace : List (Σ c, Out c)} (hR : R d m) (h : Calls step d trace d') :
    ∃ m', Behaves spec m trace m' ∧ R d' m' := by
  induction h generalizing m with
  | nil d => exact ⟨m, .nil m, hR⟩
  | cons fuel hcall hrest ih =>
    obtain ⟨m₁, hspec, hR₁⟩ := hsim hR hcall
    obtain ⟨m', hbehaves, hR'⟩ := ih hR₁
    exact ⟨m', .cons hspec hbehaves, hR'⟩

end Simulation
end FcLang.Runs
