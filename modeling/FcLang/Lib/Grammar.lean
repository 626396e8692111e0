import Mathlib.Data.Fintype.Defs
import Mathlib.Data.Set.Finite.Lattice
import Mathlib.Data.Set.Finite.List
import Mathlib.Order.Monotone.Basic

/-!
# Terms over finitely many constructors

A measure that every constructor increases strictly admits only finitely many
terms below a bound, and passes every bound along a chain of nested terms.
-/

namespace FcLang.Grammar
variable {α : Type*} {κ : Type*}

/-- The terms built from leaves by the constructors in a list. -/
inductive Built (leaf : α → Prop) (build : κ → List α → Option α) (cons : List κ) : α → Prop
  | leaf {a : α} (h : leaf a) : Built leaf build cons a
  | con {c : κ} {args : List α} {a : α} (hc : c ∈ cons)
      (hargs : ∀ x ∈ args, Built leaf build cons x) (h : build c args = some a) :
      Built leaf build cons a

/-- Every constructor in the list gives a term of greater measure than its components. -/
def Increases (build : κ → List α → Option α) (μ : α → ℕ) (cons : List κ) : Prop :=
  ∀ c ∈ cons, ∀ args a, build c args = some a → ∀ x ∈ args, μ x < μ a

variable {leaf : α → Prop} {build : κ → List α → Option α} {cons : List κ} {μ : α → ℕ}

theorem finite_lists {S : Set α} (hS : S.Finite) (n : ℕ) :
    {l : List α | l.length = n ∧ ∀ x ∈ l, x ∈ S}.Finite := by
  have : Finite S := hS
  apply ((List.finite_length_eq S n).image (List.map Subtype.val)).subset
  rintro l ⟨hlen, hmem⟩
  refine ⟨l.attach.map fun x => ⟨x.val, hmem x.val x.property⟩, by simpa using hlen, ?_⟩
  rw [List.map_map]
  exact List.attach_map_subtype_val l

/-- Terms of bounded measure are finitely many. -/
theorem finite_of_increases (hleaf : {a | leaf a}.Finite) {arity : κ → ℕ}
    (harity : ∀ c args a, build c args = some a → args.length = arity c)
    (hμ : Increases build μ cons) (D : ℕ) : {a | Built leaf build cons a ∧ μ a ≤ D}.Finite := by
  have hlt : ∀ n, {a | Built leaf build cons a ∧ μ a < n}.Finite := by
    intro n
    induction n with
    | zero => exact Set.finite_empty.subset fun a ha => absurd ha.2 (Nat.not_lt_zero _)
    | succ n ih =>
      have hcons : (⋃ c ∈ {c | c ∈ cons}, {a | ∃ args, (args.length = arity c ∧
          ∀ x ∈ args, x ∈ {a | Built leaf build cons a ∧ μ a < n}) ∧ build c args = some a}).Finite := by
        apply Set.Finite.biUnion cons.finite_toSet
        intro c hc
        apply ((finite_lists ih (arity c)).image (build c)).preimage
          (Option.some_injective α).injOn |>.subset
        rintro a ⟨args, hargs, hbuild⟩
        exact ⟨args, hargs, hbuild⟩
      apply (hleaf.union hcons).subset
      rintro a ⟨hbuilt, ha⟩
      cases hbuilt with
      | leaf h => exact .inl h
      | @con c args a hc hargs h =>
        right
        simp only [Set.mem_iUnion]
        refine ⟨c, hc, args, ⟨harity c args a h, fun x hx => ⟨hargs x hx, ?_⟩⟩, h⟩
        have hx := hμ c hc args a h x hx
        omega
  apply (hlt (D + 1)).subset
  exact fun a ha => ⟨ha.1, Nat.lt_succ_of_le ha.2⟩

/-- One term is a component of the other. -/
def Nests (build : κ → List α → Option α) (cons : List κ) (a b : α) : Prop :=
  ∃ c ∈ cons, ∃ args, a ∈ args ∧ build c args = some b

/-- Along a chain of nested terms the measure grows by one a step. -/
theorem le_measure_of_chain (hμ : Increases build μ cons) {t : ℕ → α}
    (ht : ∀ n, Nests build cons (t n) (t (n + 1))) (n : ℕ) : μ (t 0) + n ≤ μ (t n) := by
  induction n with
  | zero => exact le_rfl
  | succ n ih =>
    obtain ⟨c, hc, args, hmem, hbuild⟩ := ht n
    have hlt := hμ c hc args (t (n + 1)) hbuild (t n) hmem
    omega

end FcLang.Grammar
