import FcLang.Parser.Line

/-!
# A speculation ends on its line

Wherever the parser stands on a printed line, each of its functions returns,
having moved along the line and closed nothing that was opened before. So a
tentative parse can be given up without a trace, whatever it read.
-/

namespace FcLang.Parser
open Lexer (TokenKind)

/-- The parser stands before the line `w`, which `K` follows. A parked `>>` is
the current token or behind it, and no error is held outside a speculation. -/
structure At (g : List Name) (K : List Tok) (s : State) (w : List Tok) : Prop where
  rest : s.rest = w ++ K
  good : Good g w
  parked : ∀ k, s.halfGt = some k → s.rest.length ≤ k ∧ (k = s.rest.length → s.kind 0 = .gtGt)
  held : s.depth = 0 → s.held = 0

/-- From `s` to `s'`, along a part of the line that closes at most `d` parentheses more
than it opens. -/
structure Moved (g : List Name) (K : List Tok) (d : ℤ) (s : State) (w : List Tok) (s' : State)
    (w' : List Tok) : Prop where
  reached : At g K s' w'
  consumed : ∃ u, w = u ++ w' ∧ excess .lparen .rparen u ≤ d
  depth : s'.depth = s.depth
  errors : 0 < s.depth → s'.errors = s.errors

def Reaches (g : List Name) (K : List Tok) {α : Type} (x : Parse α) (s : State) (w : List Tok)
    (d : ℤ) (Q : α → Prop) : Prop :=
  ∃ a s' w', x s = some (a, s') ∧ Moved g K d s w s' w' ∧ Q a

/-- An expression that the parser cannot take for the head of a generic instantiation. -/
def Ungated (g : List Name) : Expr → Prop
  | .ident name | .field _ name _ => name ∉ g
  | _ => True

section
variable {g : List Name} {K w w' w'' : List Tok} {s s' s'' : State} {d r e : ℤ} {α β : Type}
  {Q : α → Prop} {R : β → Prop}

theorem Moved.refl (h : At g K s w) : Moved g K 0 s w s w :=
  ⟨h, ⟨[], rfl, by simp [excess]⟩, rfl, fun _ => rfl⟩

theorem Moved.trans (h : Moved g K d s w s' w') (h' : Moved g K r s' w' s'' w'') (hd : d + r ≤ e) :
    Moved g K e s w s'' w'' := by
  obtain ⟨u, rfl, hu⟩ := h.consumed
  obtain ⟨v, rfl, hv⟩ := h'.consumed
  refine ⟨h'.reached, ⟨u ++ v, by rw [List.append_assoc], ?_⟩, h'.depth.trans h.depth, ?_⟩
  · rw [excess_append]
    omega
  · intro hs
    rw [h'.errors (by rw [h.depth]; exact hs), h.errors hs]

theorem Moved.length (h : Moved g K d s w s' w') : w'.length ≤ w.length := by
  obtain ⟨u, rfl, _⟩ := h.consumed
  simp

theorem Moved.excess (h : Moved g K d s w s' w') :
    excess .lparen .rparen w ≤ d + excess .lparen .rparen w' := by
  obtain ⟨u, rfl, hu⟩ := h.consumed
  rw [excess_append]
  omega

theorem Reaches.pure {a : α} (h : At g K s w) (ha : Q a) : Reaches g K (pure a) s w 0 Q :=
  ⟨a, s, w, rfl, Moved.refl h, ha⟩

theorem Reaches.bind {x : Parse α} {f : α → Parse β} (h : Reaches g K x s w d Q)
    (hf : ∀ a s' w', Moved g K d s w s' w' → Q a → Reaches g K (f a) s' w' r R) (hd : d + r ≤ e) :
    Reaches g K (x >>= f) s w e R := by
  obtain ⟨a, s', w', hx, hm, ha⟩ := h
  obtain ⟨b, s'', w'', hy, hm', hb⟩ := hf a s' w' hm ha
  refine ⟨b, s'', w'', ?_, hm.trans hm' hd, hb⟩
  show (x s).bind (fun p => f p.1 p.2) = _
  rw [hx]
  exact hy

theorem Reaches.get {f : State → Parse β} (h : Reaches g K (f s) s w d R) :
    Reaches g K (get >>= f) s w d R := h

theorem Reaches.current {f : Tok → Parse β} (h : Reaches g K (f s.current) s w d R) :
    Reaches g K (current >>= f) s w d R := h

/-- One state update first. -/
theorem Reaches.modify {f : State → State} {y : Unit → Parse β} (hm : Moved g K d s w (f s) w')
    (h : Reaches g K (y ()) (f s) w' r R) (hd : d + r ≤ e) :
    Reaches g K (modify f >>= y) s w e R := by
  obtain ⟨b, s'', w'', hy, hm', hb⟩ := h
  exact ⟨b, s'', w'', hy, hm.trans hm' hd, hb⟩

theorem Reaches.advances {y : Tok → Parse β} {t : Tok} (hm : Moved g K d s w s.advance w')
    (ht : s.current = t) (h : Reaches g K (y t) s.advance w' r R) (hd : d + r ≤ e) :
    Reaches g K (advance >>= y) s w e R := by
  obtain ⟨b, s'', w'', hy, hm', hb⟩ := h
  exact ⟨b, s'', w'', by subst ht; exact hy, hm.trans hm' hd, hb⟩

theorem Reaches.mono {x : Parse α} {P : α → Prop} (h : Reaches g K x s w d P) (hd : d ≤ e)
    (hQ : ∀ a, P a → Q a) : Reaches g K x s w e Q := by
  obtain ⟨a, s', w', hx, hm, ha⟩ := h
  exact ⟨a, s', w', hx, hm.trans (Moved.refl hm.reached) (by omega), hQ a ha⟩

theorem At.kind_zero {t : Tok} (h : At g K s (t :: w)) : s.kind 0 = t.kind := by
  rw [State.kind, h.rest, List.cons_append, peekAt_cons_zero]

theorem At.kind_succ {t : Tok} {n : ℕ} (h : At g K s (t :: w)) :
    s.kind (n + 1) = peekAt (w ++ K) n := by
  rw [State.kind, h.rest, List.cons_append, peekAt_cons_succ]

theorem At.current {t : Tok} (h : At g K s (t :: w)) : s.current = t := by
  rw [State.current, h.rest]
  rfl

theorem At.nil_kind (h : At g K s []) : s.kind 0 = peekAt K 0 := by
  rw [State.kind, h.rest, List.nil_append]

theorem At.kind_onLine (h : At g K s w) (hK : endsLine (peekAt K 0) = true) :
    onLine (s.kind 0) = true := by
  rw [State.kind, h.rest]
  exact h.good.peek hK

theorem At.advance_eq {t : Tok} (h : At g K s (t :: w)) :
    s.advance = { s with rest := w ++ K } := by
  have hne : t.kind ≠ .eof := kind_ne h.good.1.kind rfl
  rw [State.advance, h.kind_zero, if_neg hne, h.rest]
  rfl

/-- Reading a token of the line. -/
theorem At.advance {t : Tok} (h : At g K s (t :: w)) :
    Moved g K (excess .lparen .rparen [t]) s (t :: w) s.advance w := by
  rw [h.advance_eq]
  refine ⟨⟨rfl, h.good.2, ?_, h.held⟩, ⟨[t], rfl, le_rfl⟩, rfl, fun _ => rfl⟩
  intro k hk
  have := (h.parked k hk).1
  rw [h.rest] at this
  simp only [List.cons_append, List.length_cons, List.length_append] at this ⊢
  exact ⟨by omega, fun he => by omega⟩

/-- Reading a run of the line at once. -/
theorem At.drop {u : List Tok} (h : At g K s (u ++ w)) :
    Moved g K (Parser.excess .lparen .rparen u) s (u ++ w) { s with rest := w ++ K } w := by
  refine ⟨⟨rfl, h.good.suffix (List.suffix_append u w), ?_, h.held⟩, ⟨u, rfl, le_rfl⟩, rfl,
    fun _ => rfl⟩
  intro k hk
  have hold := h.parked k hk
  cases u with
  | nil => simpa [State.kind, h.rest] using hold
  | cons t u =>
    rw [h.rest] at hold
    simp only [List.cons_append, List.length_cons, List.length_append] at hold ⊢
    exact ⟨by omega, fun he => by omega⟩

theorem At.diagError (h : At g K s w) : Moved g K 0 s w s.diagError w := by
  unfold State.diagError
  split
  · exact ⟨⟨h.rest, h.good, h.parked, by simp; omega⟩, ⟨[], rfl, by simp [excess]⟩, rfl, fun _ => rfl⟩
  · exact ⟨⟨h.rest, h.good, h.parked, h.held⟩, ⟨[], rfl, by simp [excess]⟩, rfl, by omega⟩

theorem Reaches.diagError {y : Unit → Parse β} (h : At g K s w)
    (hy : Reaches g K (y ()) s.diagError w d R) :
    Reaches g K (diagError >>= y) s w d R :=
  Reaches.modify h.diagError hy (by omega)

/-- A token that is neither parenthesis changes no depth. -/
theorem excess_singleton {t : Tok} (hl : t.kind ≠ .lparen) (hr : t.kind ≠ .rparen) :
    excess .lparen .rparen [t] = 0 := by
  simp [excess, hl, hr]

/-- A kind that cannot follow the line is on it. -/
theorem At.head (h : At g K s w) (hK : endsLine (peekAt K 0) = true)
    (hk : endsLine (s.kind 0) = false) : ∃ t w', w = t :: w' := by
  cases w with
  | nil => simp [h.nil_kind, hK] at hk
  | cons t w => exact ⟨t, w, rfl⟩

/-- `advance` over a kind that cannot follow the line. -/
theorem Reaches.step {y : Tok → Parse β} (hK : endsLine (peekAt K 0) = true) (h : At g K s w)
    (hk : endsLine (s.kind 0) = false) (hl : s.kind 0 ≠ .lparen)
    (hy : ∀ t w', w = t :: w' → t.kind = s.kind 0 → At g K s.advance w' →
      Reaches g K (y t) s.advance w' d R) : Reaches g K (advance >>= y) s w d R := by
  obtain ⟨t, w', rfl⟩ := h.head hK hk
  have hz := h.kind_zero
  refine Reaches.advances h.advance h.current (hy t w' rfl hz.symm h.advance.reached) ?_
  rw [excess_singleton (by rw [← hz]; exact hl) ?_, zero_add]
  rw [← hz]
  rintro he
  simp [he, endsLine] at hk

theorem expect_of_eq {k : TokenKind} (h : s.kind 0 = k) :
    expect k s = some (s.current, s.advance) := by
  simp only [expect, if_pos h]

theorem expect_of_ne {k : TokenKind} (h : s.kind 0 ≠ k) :
    expect k s = some (s.current, s.diagError) := by
  simp only [expect, if_neg h]

theorem Reaches.expects {k : TokenKind} {y : Tok → Parse β} (hK : endsLine (peekAt K 0) = true)
    (h : At g K s w) (hk : endsLine k = false) (hl : k ≠ .lparen)
    (hy : ∀ t s' w', Moved g K 0 s w s' w' → Reaches g K (y t) s' w' d R) :
    Reaches g K (expect k >>= y) s w d R := by
  refine Reaches.bind (d := 0) (Q := fun _ => True) ?_ (fun t s' w' hm _ => hy t s' w' hm) (by omega)
  by_cases hz : s.kind 0 = k
  · obtain ⟨t, w', rfl⟩ := h.head hK (by rw [hz]; exact hk)
    have hkind := h.kind_zero.symm.trans hz
    have hadv := h.advance
    rw [excess_singleton (by rw [hkind]; exact hl) (by rw [hkind]; rintro rfl; simp [endsLine] at hk)]
      at hadv
    exact ⟨_, _, _, expect_of_eq hz, hadv, trivial⟩
  · exact ⟨_, _, _, expect_of_ne hz, h.diagError, trivial⟩

/-- The `)` of a group that was opened on the line. -/
theorem Reaches.expects_rparen {y : Tok → Parse β} (h : At g K s w)
    (hx : 1 ≤ excess .lparen .rparen w)
    (hy : ∀ t s' w', Moved g K 1 s w s' w' → Reaches g K (y t) s' w' d R) :
    Reaches g K (expect .rparen >>= y) s w (1 + d) R := by
  refine Reaches.bind (d := 1) (Q := fun _ => True) ?_ (fun t s' w' hm _ => hy t s' w' hm) le_rfl
  cases w with
  | nil => simp [excess] at hx
  | cons t w =>
    by_cases hz : s.kind 0 = .rparen
    · have hkind := h.kind_zero.symm.trans hz
      have hadv := h.advance
      refine ⟨_, _, w, expect_of_eq hz, ?_, trivial⟩
      simpa [excess, hkind] using hadv
    · exact ⟨_, _, _, expect_of_ne hz,
        h.diagError.trans (Moved.refl h.diagError.reached) (by omega), trivial⟩

theorem At.speculateBegin (h : At g K s w) : At g K s.speculateBegin w :=
  ⟨h.rest, h.good, h.parked, by simp [State.speculateBegin]⟩

/-- The end of a speculation that began at `s`, keeping what it read. -/
theorem Moved.speculateEnd (h : Moved g K d s.speculateBegin w s' w') :
    Moved g K d s w (State.speculateEnd s.held true s') w' := by
  have hd : s'.depth = s.depth + 1 := h.depth
  have he : s'.errors = s.errors := h.errors (Nat.succ_pos _)
  have ha := h.reached
  unfold State.speculateEnd
  by_cases h1 : s'.depth = 1
  · rw [if_pos h1]
    exact ⟨⟨ha.rest, ha.good, ha.parked, fun _ => rfl⟩, h.consumed, by simp; omega, by omega⟩
  · rw [if_neg h1]
    exact ⟨⟨ha.rest, ha.good, ha.parked, by simp; omega⟩, h.consumed, by simp; omega, fun _ => he⟩

/-- Giving a speculation up restores all but a parked `>>`. -/
theorem Moved.giveUp (hs : At g K s w) (h : Moved g K d s.speculateBegin w s' w') :
    (State.speculateEnd s.held false s').restorePos s.rest = { s with halfGt := none } := by
  have hd : s'.depth = s.depth + 1 := h.depth
  have he : s'.errors = s.errors := h.errors (Nat.succ_pos _)
  unfold State.speculateEnd
  by_cases h1 : s'.depth = 1
  · have h0 : s.depth = 0 := by omega
    rw [if_pos h1]
    simp [State.restorePos, he, h0, hs.held h0]
  · rw [if_neg h1]
    simp [State.restorePos, he, hd]

/-- A closer of a type-argument list is read, or half of one is parked. -/
theorem At.consumeTypeargGt (hK : endsLine (peekAt K 0) = true) (h : At g K s w) :
    ∃ w', Moved g K 0 s w s.consumeTypeargGt w' := by
  have step : ∀ {s : State} {k : TokenKind}, At g K s w → s.kind 0 = k → endsLine k = false →
      k ≠ .lparen → ∃ w', Moved g K 0 s w s.advance w' := by
    intro s k h hz hk hl
    obtain ⟨t, w, rfl⟩ := h.head hK (by rw [hz]; exact hk)
    have hadv := h.advance
    have hkind := h.kind_zero.symm.trans hz
    rw [excess_singleton (by rw [hkind]; exact hl)
      (by rw [hkind]; rintro rfl; simp [endsLine] at hk)] at hadv
    exact ⟨w, hadv⟩
  unfold State.consumeTypeargGt
  split
  · rename_i hhalf
    have hkind := (h.parked _ hhalf).2 rfl
    obtain ⟨w', hw'⟩ := step (s := { s with halfGt := none })
      ⟨h.rest, h.good, by simp, h.held⟩ hkind rfl (by simp)
    exact ⟨w', hw'.reached, hw'.consumed, hw'.depth, hw'.errors⟩
  · split
    · rename_i hgt
      exact step h hgt rfl (by simp)
    · split
      · rename_i hgt
        refine ⟨w, ⟨h.rest, h.good, ?_, h.held⟩, ⟨[], rfl, by simp [Parser.excess]⟩, rfl, fun _ => rfl⟩
        intro k hk
        cases hk
        exact ⟨le_rfl, fun _ => hgt⟩
      · exact ⟨w, Moved.refl h⟩

theorem At.unpark (h : At g K s w) : Moved g K 0 s w { s with halfGt := none } w :=
  ⟨⟨h.rest, h.good, by simp, h.held⟩, ⟨[], rfl, by simp [excess]⟩, rfl, fun _ => rfl⟩

/-- A `(` of the line, and the group it opens. -/
theorem Reaches.opens {y : Tok → Parse β} (hK : endsLine (peekAt K 0) = true) (h : At g K s w)
    (hk : s.kind 0 = .lparen)
    (hy : ∀ t w', w = t :: w' → At g K s.advance w' → 1 ≤ Parser.excess .lparen .rparen w' →
      Reaches g K (y t) s.advance w' (1 + d) R) : Reaches g K (Parser.advance >>= y) s w d R := by
  obtain ⟨t, w', rfl⟩ := h.head hK (by rw [hk]; rfl)
  have hz := h.kind_zero.symm.trans hk
  have hx := h.good.parens
  have hone : Parser.excess .lparen .rparen [t] = -1 := by simp [Parser.excess, hz]
  rw [← List.singleton_append, excess_append, hone] at hx
  exact Reaches.advances h.advance h.current (hy t w' rfl h.advance.reached (by omega))
    (by rw [hone]; omega)

end
end FcLang.Parser
