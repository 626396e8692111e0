import FcLang.Lib.Slice

/-!
# Permuting an interval of a slice

Sorting in place permutes the elements between two positions and leaves the
others where they are. Such steps compose, extend to larger intervals, and keep
what is true of every element of the interval. A swap is one.
-/

namespace FcLang.Slice
universe u
variable {α : Type u}

/-- `let tmp = s[i]; s[i] = s[j]; s[j] = tmp` -/
def swap (s : List α) (i j : ℤ) : Exec (List α) := do
  let tmp ← get s i
  let x ← get s j
  let s ← set s i x
  set s j tmp

/-- Every element of `s` from position `lo` to position `hi` satisfies `Q`. -/
def AllOn (Q : α → Prop) (lo hi : ℤ) (s : List α) : Prop :=
  ∀ (k : ℕ) (x : α), lo ≤ k → (k : ℤ) ≤ hi → s[k]? = some x → Q x

/-- `s'` is `s` with the elements from `lo` to `hi` permuted. -/
structure Rearranged (lo hi : ℤ) (s s' : List α) : Prop where
  perm : s'.Perm s
  frame : ∀ k : ℕ, (k : ℤ) < lo ∨ hi < k → s'[k]? = s[k]?
  keeps : ∀ Q : α → Prop, AllOn Q lo hi s → AllOn Q lo hi s'

namespace Rearranged
variable {lo hi : ℤ} {s s' s'' : List α}

theorem refl (lo hi : ℤ) (s : List α) : Rearranged lo hi s s :=
  ⟨.refl s, fun _ _ => rfl, fun _ h => h⟩

theorem trans (h : Rearranged lo hi s s') (h' : Rearranged lo hi s' s'') :
    Rearranged lo hi s s'' :=
  ⟨h'.perm.trans h.perm, fun k hk => (h'.frame k hk).trans (h.frame k hk),
    fun Q hQ => h'.keeps Q (h.keeps Q hQ)⟩

theorem length_eq (h : Rearranged lo hi s s') : s'.length = s.length := h.perm.length_eq

/-- A permutation of an interval is one of every larger interval. -/
theorem mono (h : Rearranged lo hi s s') {lo' hi' : ℤ} (hlo : lo' ≤ lo) (hhi : hi ≤ hi') :
    Rearranged lo' hi' s s' := by
  constructor
  · exact h.perm
  · intro k hk
    apply h.frame
    omega
  · intro Q hQ k x hk hk' hx
    by_cases hin : lo ≤ k ∧ (k : ℤ) ≤ hi
    · apply h.keeps Q _ k x hin.1 hin.2 hx
      exact fun k' x' h1 h2 => hQ k' x' (by omega) (by omega)
    · rw [h.frame k (by omega)] at hx
      exact hQ k x hk hk' hx

theorem allOn_outside (h : Rearranged lo hi s s') {Q : α → Prop} {lo' hi' : ℤ}
    (hout : hi' < lo ∨ hi < lo') (hQ : AllOn Q lo' hi' s) : AllOn Q lo' hi' s' := by
  intro k x hk hk' hx
  rw [h.frame k (by omega)] at hx
  exact hQ k x hk hk' hx

end Rearranged

/-- The slice after a swap of the positions `i` and `j`. -/
theorem swap_ret {s : List α} {i j : ℕ} (hi : i < s.length) (hj : j < s.length) :
    swap s i j = .ret ((s.set i s[j]).set j s[i]) := by
  rw [swap, get_natCast hi, Exec.ret_bind, get_natCast hj, Exec.ret_bind, set_natCast hi,
    Exec.ret_bind, set_natCast (by rw [List.length_set]; exact hj)]

theorem swap_getElem? {s : List α} {i j : ℕ} (hi : i < s.length) (hj : j < s.length) (k : ℕ) :
    ((s.set i s[j]).set j s[i])[k]? =
      if k = j then s[i]? else if k = i then s[j]? else s[k]? := by
  rw [getElem?_set_of_lt (by rw [List.length_set]; exact hj), getElem?_set_of_lt hi,
    List.getElem?_eq_getElem hi, List.getElem?_eq_getElem hj]
  simp only [eq_comm]

/-- A swap permutes every interval that holds both positions. -/
theorem rearranged_swap {s : List α} {i j : ℕ} (hi : i < s.length) (hj : j < s.length)
    {lo hi' : ℤ} (hilo : lo ≤ i) (hihi : (i : ℤ) ≤ hi') (hjlo : lo ≤ j) (hjhi : (j : ℤ) ≤ hi') :
    Rearranged lo hi' s ((s.set i s[j]).set j s[i]) := by
  constructor
  · exact List.set_set_perm hi hj
  · intro k hk
    rw [swap_getElem? hi hj, if_neg (by omega), if_neg (by omega)]
  · intro Q hQ k x hk hk' hx
    rw [swap_getElem? hi hj] at hx
    split_ifs at hx
    · exact hQ i x hilo hihi hx
    · exact hQ j x hjlo hjhi hx
    · exact hQ k x hk hk' hx

end FcLang.Slice
