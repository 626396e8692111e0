import Mathlib.Tactic

/-!
# Runs that return, abort or exceed their step budget

A program run ends with a value, aborts, or is cut off because its budget is
spent. A loop takes its budget as an argument; a loop that never ends is one
that is cut off at every budget. The rules below are what proofs about loops
use: monotonicity in the budget, and total correctness from an invariant and a
measure.
-/

namespace FcLang

universe u

inductive Exec (α : Type u) where
  | ret (a : α)
  | abort
  | timeout
  deriving DecidableEq, Repr

namespace Exec
variable {α β γ σ ρ : Type u}

def bind (x : Exec α) (f : α → Exec β) : Exec β :=
  match x with
  | .ret a => f a
  | .abort => .abort
  | .timeout => .timeout

instance : Monad Exec where
  pure := ret
  bind := bind

/-- A failed check stops the run. -/
def require (p : Prop) [Decidable p] : Exec Unit := if p then .ret () else .abort

@[simp] theorem pure_eq (a : α) : (pure a : Exec α) = ret a := rfl

@[simp] theorem ret_bind (a : α) (f : α → Exec β) : (ret a >>= f) = f a := rfl

@[simp] theorem abort_bind (f : α → Exec β) : (abort >>= f) = abort := rfl

@[simp] theorem timeout_bind (f : α → Exec β) : (timeout >>= f) = timeout := rfl

theorem bind_eq_ret {x : Exec α} {f : α → Exec β} {b : β} :
    (x >>= f) = ret b ↔ ∃ a, x = ret a ∧ f a = ret b := by
  cases x with
  | ret a => simp
  | abort => simp
  | timeout => simp

@[simp] theorem bind_assoc (x : Exec α) (f : α → Exec β) (g : β → Exec γ) :
    (x >>= f >>= g) = x >>= fun a => f a >>= g := by
  cases x <;> rfl

@[simp] theorem bind_ret (x : Exec α) : (x >>= ret) = x := by
  cases x <;> rfl

@[simp] theorem require_of {p : Prop} [Decidable p] (h : p) : require p = ret () := if_pos h

theorem require_eq_ret {p : Prop} [Decidable p] {u : Unit} : require p = ret u ↔ p := by
  by_cases h : p
  · simp [h]
  · simp [require, h]

/-- The value of a run together with the fact that the run returned it. -/
def attach (x : Exec α) : Exec {a : α // x = ret a} :=
  match x with
  | .ret a => .ret ⟨a, rfl⟩
  | .abort => .abort
  | .timeout => .timeout

theorem attach_of_eq {x : Exec α} {a : α} (h : x = ret a) : x.attach = ret ⟨a, h⟩ := by
  subst h
  rfl

theorem attach_abort {x : Exec α} (h : x = abort) : x.attach = abort := by
  subst h
  rfl

/-- A loop whose body goes on with a new state (left) or breaks with a value (right). -/
def loop (body : σ → Exec (σ ⊕ ρ)) : ℕ → σ → Exec ρ
  | 0, _ => .timeout
  | fuel + 1, s => body s >>= fun r => match r with
    | .inl s' => loop body fuel s'
    | .inr r => .ret r

theorem loop_succ (body : σ → Exec (σ ⊕ ρ)) (fuel : ℕ) (s : σ) :
    loop body (fuel + 1) s = body s >>= fun r => match r with
      | .inl s' => loop body fuel s'
      | .inr r => .ret r := rfl

theorem loop_next {body : σ → Exec (σ ⊕ ρ)} {s s' : σ} (h : body s = ret (.inl s')) (fuel : ℕ) :
    loop body (fuel + 1) s = loop body fuel s' := by
  simp [loop_succ, h]

theorem loop_break {body : σ → Exec (σ ⊕ ρ)} {s : σ} {r : ρ} (h : body s = ret (.inr r))
    (fuel : ℕ) : loop body (fuel + 1) s = ret r := by
  simp [loop_succ, h]

/-- Partial correctness: whatever the budget, a value that comes out satisfies the postcondition. -/
theorem loop_partial {body : σ → Exec (σ ⊕ ρ)} (I : σ → Prop) (Q : ρ → Prop)
    (hbody : ∀ s c, I s → body s = ret c → Sum.elim I Q c)
    {s : σ} (hs : I s) {fuel : ℕ} {r : ρ} (h : loop body fuel s = ret r) : Q r := by
  induction fuel generalizing s with
  | zero => cases h
  | succ fuel ih =>
    rw [loop_succ, bind_eq_ret] at h
    obtain ⟨c, hb, hc⟩ := h
    cases c with
    | inl s' => exact ih (hbody s _ hs hb) hc
    | inr r' => cases hc; exact hbody s _ hs hb

/-- The run returns a value with `Q`, unless its budget was too small. -/
def Within (enough : Prop) (Q : α → Prop) (x : Exec α) : Prop :=
  (∃ a, x = ret a ∧ Q a) ∨ ¬enough ∧ x = timeout

theorem Within.ret {p : Prop} {Q : α → Prop} {a : α} (h : Q a) : Within p Q (Exec.ret a) :=
  .inl ⟨a, rfl, h⟩

theorem Within.bind {p : Prop} {Q : α → Prop} {R : β → Prop} {x : Exec α} {f : α → Exec β}
    (hx : Within p Q x) (hf : ∀ a, Q a → Within p R (f a)) : Within p R (x >>= f) := by
  rcases hx with ⟨a, rfl, ha⟩ | ⟨hp, rfl⟩
  · exact hf a ha
  · exact .inr ⟨hp, rfl⟩

theorem Within.mono {p p' : Prop} {Q R : α → Prop} {x : Exec α} (h : Within p Q x) (hp : p' → p)
    (hQ : ∀ a, Q a → R a) : Within p' R x := by
  rcases h with ⟨a, rfl, ha⟩ | ⟨hn, rfl⟩
  · exact .ret (hQ a ha)
  · exact .inr ⟨fun h => hn (hp h), rfl⟩

theorem Within.total {p : Prop} {Q : α → Prop} {x : Exec α} (h : Within p Q x) (hp : p) :
    ∃ a, x = Exec.ret a ∧ Q a := h.resolve_right fun hn => hn.1 hp

theorem Within.post {p : Prop} {Q : α → Prop} {x : Exec α} (h : Within p Q x) {a : α}
    (hx : x = Exec.ret a) : Q a := by
  rcases h with ⟨b, hb, hQ⟩ | ⟨-, hb⟩
  · rw [hx] at hb
    cases hb
    exact hQ
  · rw [hx] at hb
    cases hb

theorem Within.ne_abort {p : Prop} {Q : α → Prop} {x : Exec α} (h : Within p Q x) : x ≠ abort := by
  rintro rfl
  rcases h with ⟨b, hb, -⟩ | ⟨-, hb⟩ <;> cases hb

/-- A loop with an invariant that bounds the number of rounds to come. -/
theorem loop_within {body : σ → Exec (σ ⊕ ρ)} (I : ℕ → σ → Prop) {Q : ρ → Prop}
    (hbody : ∀ n s, I n s → (∃ s', body s = ret (.inl s') ∧ ∃ m < n, I m s') ∨
      ∃ r, body s = ret (.inr r) ∧ Q r)
    {n : ℕ} {s : σ} (hs : I n s) (fuel : ℕ) : Within (n < fuel) Q (loop body fuel s) := by
  induction fuel generalizing n s with
  | zero => exact .inr ⟨Nat.not_lt_zero n, rfl⟩
  | succ fuel ih =>
    rcases hbody n s hs with ⟨s', hb, m, hm, hs'⟩ | ⟨r, hb, hr⟩
    · rw [loop_next hb]
      exact (ih hs').mono (fun h => by omega) fun _ hq => hq
    · rw [loop_break hb]
      exact .ret hr

/-- A loop whose states are known ahead leaves after the `n` rounds that go on. -/
theorem loop_walk {body : σ → Exec (σ ⊕ ρ)} (st : ℕ → σ) {n : ℕ} {r : ρ}
    (hnext : ∀ d < n, body (st d) = ret (.inl (st (d + 1))))
    (hbreak : body (st n) = ret (.inr r)) {Q : ρ → Prop} (hr : Q r) (fuel : ℕ) :
    Within (n < fuel) Q (loop body fuel (st 0)) := by
  apply loop_within (fun m s => ∃ d, d + m = n ∧ s = st d)
  · rintro m _ ⟨d, hd, rfl⟩
    by_cases hlt : d < n
    · exact .inl ⟨_, hnext d hlt, m - 1, by omega, d + 1, by omega, rfl⟩
    · obtain rfl : d = n := by omega
      exact .inr ⟨r, hbreak, hr⟩
  · exact ⟨0, Nat.zero_add n, rfl⟩

/-- A loop whose states are known ahead, after the rounds that go on. -/
theorem loop_steps {body : σ → Exec (σ ⊕ ρ)} (st : ℕ → σ) {n : ℕ}
    (hnext : ∀ d < n, body (st d) = ret (.inl (st (d + 1)))) (fuel : ℕ) :
    loop body (fuel + n) (st 0) = loop body fuel (st n) := by
  induction n generalizing fuel with
  | zero => rfl
  | succ n ih =>
    rw [← Nat.add_assoc, Nat.add_right_comm, ih (fun d hd => hnext d (by omega)),
      loop_next (hnext n (by omega))]

/-- A loop that never leaves an invariant in which every round goes on is cut off at every
budget. -/
theorem loop_diverges {body : σ → Exec (σ ⊕ ρ)} (I : σ → Prop)
    (hnext : ∀ s, I s → ∃ s', body s = ret (.inl s') ∧ I s') {s : σ} (hs : I s) (fuel : ℕ) :
    loop body fuel s = timeout := by
  induction fuel generalizing s with
  | zero => rfl
  | succ fuel ih =>
    obtain ⟨s', hb, hs'⟩ := hnext s hs
    rw [loop_next hb]
    exact ih hs'

/-- `count` rounds of a counting loop from index `i`. -/
def forCount (body : ℤ → σ → Exec σ) : ℕ → ℤ → σ → Exec σ
  | 0, _, s => .ret s
  | count + 1, i, s => body i s >>= forCount body count (i + 1)

/-- `for i in lo..hi`: the bounds are read once. -/
def forRange (lo hi : ℤ) (body : ℤ → σ → Exec σ) (s : σ) : Exec σ :=
  forCount body (hi - lo).toNat lo s

theorem forCount_total {body : ℤ → σ → Exec σ} (I : ℤ → σ → Prop) {lo : ℤ} {count : ℕ} {s : σ}
    (hs : I lo s)
    (hbody : ∀ i s, lo ≤ i → i < lo + count → I i s → ∃ s', body i s = ret s' ∧ I (i + 1) s') :
    ∃ s', forCount body count lo s = ret s' ∧ I (lo + count) s' := by
  induction count generalizing lo s with
  | zero => exact ⟨s, rfl, by simpa using hs⟩
  | succ count ih =>
    obtain ⟨s₁, hb, hs₁⟩ := hbody lo s le_rfl (by push_cast; omega) hs
    obtain ⟨s₂, hr, hs₂⟩ := ih hs₁ (fun i t hlo hhi => hbody i t (by omega) (by push_cast; omega))
    refine ⟨s₂, by simp only [forCount, hb, ret_bind, hr], ?_⟩
    have hidx : lo + ((count + 1 : ℕ) : ℤ) = lo + 1 + count := by push_cast; ring
    rwa [hidx]

/-- Total correctness of a counting loop from an invariant indexed by the counter. -/
theorem forRange_total {body : ℤ → σ → Exec σ} (I : ℤ → σ → Prop) {lo hi : ℤ} (hle : lo ≤ hi)
    {s : σ} (hs : I lo s)
    (hbody : ∀ i s, lo ≤ i → i < hi → I i s → ∃ s', body i s = ret s' ∧ I (i + 1) s') :
    ∃ s', forRange lo hi body s = ret s' ∧ I hi s' := by
  have hhi : lo + ((hi - lo).toNat : ℤ) = hi := by omega
  have h : ∃ s', forCount body (hi - lo).toNat lo s = ret s' ∧ I (lo + (hi - lo).toNat) s' :=
    forCount_total I hs (fun i t hlo hlt => hbody i t hlo (by omega))
  rwa [hhi] at h

theorem forCount_within {body : ℤ → σ → Exec σ} {p : Prop} (I : ℤ → σ → Prop) {lo : ℤ} {count : ℕ}
    {s : σ} (hs : I lo s)
    (hbody : ∀ i s, lo ≤ i → i < lo + count → I i s → Within p (I (i + 1)) (body i s)) :
    Within p (I (lo + count)) (forCount body count lo s) := by
  induction count generalizing lo s with
  | zero => exact .ret (by simpa using hs)
  | succ count ih =>
    refine (hbody lo s le_rfl (by push_cast; omega) hs).bind fun s₁ hs₁ => ?_
    have hidx : lo + ((count + 1 : ℕ) : ℤ) = lo + 1 + count := by push_cast; ring
    rw [hidx]
    exact ih hs₁ fun i t hlo hhi => hbody i t (by omega) (by push_cast; omega)

/-- A counting loop whose rounds may run out of budget. -/
theorem forRange_within {body : ℤ → σ → Exec σ} {p : Prop} (I : ℤ → σ → Prop) {lo hi : ℤ}
    (hle : lo ≤ hi) {s : σ} (hs : I lo s)
    (hbody : ∀ i s, lo ≤ i → i < hi → I i s → Within p (I (i + 1)) (body i s)) :
    Within p (I hi) (forRange lo hi body s) := by
  have hhi : lo + ((hi - lo).toNat : ℤ) = hi := by omega
  have h : Within p (I (lo + (hi - lo).toNat)) (forCount body (hi - lo).toNat lo s) :=
    forCount_within I hs fun i t hlo hlt => hbody i t hlo (by omega)
  rwa [hhi] at h

theorem forCount_partial {body : ℤ → σ → Exec σ} (I : σ → Prop)
    (hbody : ∀ i s s', I s → body i s = ret s' → I s') {count : ℕ} {lo : ℤ} {s s' : σ} (hs : I s)
    (h : forCount body count lo s = ret s') : I s' := by
  induction count generalizing lo s with
  | zero => cases h; exact hs
  | succ count ih =>
    obtain ⟨s₁, hb, hr⟩ := bind_eq_ret.mp h
    exact ih (hbody lo s s₁ hs hb) hr

/-- What every round keeps, a finished counting loop keeps. -/
theorem forRange_partial {body : ℤ → σ → Exec σ} (I : σ → Prop)
    (hbody : ∀ i s s', I s → body i s = ret s' → I s') {lo hi : ℤ} {s s' : σ} (hs : I s)
    (h : forRange lo hi body s = ret s') : I s' :=
  forCount_partial I hbody hs h

end Exec
end FcLang
