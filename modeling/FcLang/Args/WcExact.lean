import FcLang.Args.WcMatch

/-!
# The matcher decides the language

A run of `wcMatch` stays inside both strings, ends, and answers whether the name
is in the language of the pattern. The class scanner reads one class body, and
the loop behind a run of stars tries every end of the name.
-/

namespace FcLang.Args
open Exec

section Language
variable {c : UInt8} {p s : List UInt8}

theorem matches_nil_iff : Matches [] s ↔ s = [] := by
  constructor
  · intro h
    cases h
    rfl
  · rintro rfl
    exact .nil

theorem matches_cons_iff : Matches (c :: p) s ↔
    c = star ∧ (∃ run t, s = run ++ t ∧ Matches p t) ∨
    c = question ∧ (∃ x t, s = x :: t ∧ Matches p t) ∨
    c = opening ∧ ((∃ neg items rest, CharClass p neg items rest ∧
        ∃ x t, s = x :: t ∧ ((∃ i ∈ items, i.Has x) ↔ neg = false) ∧ Matches rest t) ∨
      (∀ neg items rest, ¬CharClass p neg items rest) ∧ ∃ t, s = opening :: t ∧ Matches p t) ∨
    (c ≠ star ∧ c ≠ question ∧ c ≠ opening) ∧ ∃ t, s = c :: t ∧ Matches p t := by
  constructor
  · intro h
    cases h with
    | star run h => exact .inl ⟨rfl, run, _, rfl, h⟩
    | question x h => exact .inr (.inl ⟨rfl, x, _, rfl, h⟩)
    | charClass x hclass hx h =>
      exact .inr (.inr (.inl ⟨rfl, .inl ⟨_, _, _, hclass, x, _, rfl, hx, h⟩⟩))
    | unterminated hopen h => exact .inr (.inr (.inl ⟨rfl, .inr ⟨hopen, _, rfl, h⟩⟩))
    | literal hs hq ho h => exact .inr (.inr (.inr ⟨⟨hs, hq, ho⟩, _, rfl, h⟩))
  · rintro (⟨rfl, run, t, rfl, h⟩ | ⟨rfl, x, t, rfl, h⟩ |
      ⟨rfl, ⟨neg, items, rest, hclass, x, t, rfl, hx, h⟩ | ⟨hopen, t, rfl, h⟩⟩ |
      ⟨⟨hs, hq, ho⟩, t, rfl, h⟩)
    · exact .star run h
    · exact .question x h
    · exact .charClass x hclass hx h
    · exact .unterminated hopen h
    · exact .literal hs hq ho h

theorem star_ne_question : star ≠ question := by decide

theorem star_ne_opening : star ≠ opening := by decide

theorem question_ne_opening : question ≠ opening := by decide

theorem matches_star_iff : Matches (star :: p) s ↔ ∃ run t, s = run ++ t ∧ Matches p t := by
  simp [matches_cons_iff, star_ne_question, star_ne_opening]

theorem matches_question_iff : Matches (question :: p) s ↔ ∃ x t, s = x :: t ∧ Matches p t := by
  simp [matches_cons_iff, star_ne_question.symm, question_ne_opening]

theorem matches_opening_iff : Matches (opening :: p) s ↔
    (∃ neg items rest, CharClass p neg items rest ∧
      ∃ x t, s = x :: t ∧ ((∃ i ∈ items, i.Has x) ↔ neg = false) ∧ Matches rest t) ∨
    (∀ neg items rest, ¬CharClass p neg items rest) ∧ ∃ t, s = opening :: t ∧ Matches p t := by
  rw [matches_cons_iff]
  simp only [star_ne_opening.symm, question_ne_opening.symm, ne_eq, not_true, false_and, and_false,
    true_and, false_or, or_false]

theorem matches_literal_iff (hs : c ≠ star) (hq : c ≠ question) (ho : c ≠ opening) :
    Matches (c :: p) s ↔ ∃ t, s = c :: t ∧ Matches p t := by
  simp [matches_cons_iff, hs, hq, ho]

/-- A run of stars is one star. -/
theorem matches_star_star_iff : Matches (star :: star :: p) s ↔ Matches (star :: p) s := by
  rw [matches_star_iff, matches_star_iff]
  constructor
  · rintro ⟨run, t, rfl, h⟩
    obtain ⟨run', t', rfl, h'⟩ := matches_star_iff.mp h
    exact ⟨run ++ run', t', (List.append_assoc ..).symm, h'⟩
  · rintro ⟨run, t, rfl, h⟩
    exact ⟨run, t, rfl, matches_star_iff.mpr ⟨[], t, rfl, h⟩⟩

/-- A class body can be read in one way only. -/
theorem ClassBody.unique {first : Bool} {items items' : List ClassItem} {rest rest' : List UInt8}
    (h : ClassBody first p items rest) (h' : ClassBody first p items' rest') :
    items = items' ∧ rest = rest' := by
  induction h generalizing items' rest' with
  | close rest =>
    cases h' with
    | close => exact ⟨rfl, rfl⟩
    | range hlo _ _ => simp at hlo
    | single hc _ _ => simp at hc
  | range hlo hhi _ ih =>
    cases h' with
    | close => simp at hlo
    | range _ _ h' =>
      obtain ⟨rfl, rfl⟩ := ih h'
      exact ⟨rfl, rfl⟩
    | single _ htext _ => exact absurd ⟨_, _, rfl, hhi⟩ htext
  | single hc htext _ ih =>
    cases h' with
    | close => simp at hc
    | range _ hhi _ => exact absurd ⟨_, _, rfl, hhi⟩ htext
    | single _ _ h' =>
      obtain ⟨rfl, rfl⟩ := ih h'
      exact ⟨rfl, rfl⟩

theorem CharClass.unique {neg neg' : Bool} {items items' : List ClassItem}
    {rest rest' : List UInt8} (h : CharClass p neg items rest) (h' : CharClass p neg' items' rest') :
    neg = neg' ∧ items = items' ∧ rest = rest' := by
  cases h with
  | plain hhead h =>
    cases h' with
    | plain _ h' => exact ⟨rfl, h.unique h'⟩
    | negated hc _ => exact absurd hc (not_or.mpr (hhead _ rfl))
  | negated hc h =>
    cases h' with
    | plain hhead _ => exact absurd hc (not_or.mpr (hhead _ rfl))
    | negated _ h' => exact ⟨rfl, h.unique h'⟩

end Language

section Pointers
variable {α : Type} (a b c : α) (l : List α)

@[simp] theorem get_cons_zero : Slice.get (a :: l) 0 = .ret a := rfl

@[simp] theorem get_cons_one : Slice.get (a :: b :: l) 1 = .ret b := rfl

@[simp] theorem get_cons_two : Slice.get (a :: b :: c :: l) 2 = .ret c := rfl

end Pointers

section Scan
variable {first s text : List UInt8} {matched flag : Bool} {c lo hi : UInt8}

theorem scanClass_end (hc : c = 0 ∨ c = closing ∧ c :: text ≠ first) :
    scanClass first s (c :: text, matched) = .ret (.inr (c :: text, matched)) := by
  have hstop : ¬(c ≠ 0 ∧ (c ≠ closing ∨ c :: text = first)) := by
    rintro ⟨hne, h⟩
    obtain ⟨hclose, hfirst⟩ := hc.resolve_left hne
    exact h.elim (fun h => h hclose) hfirst
  simp only [scanClass, get_cons_zero, ret_bind, if_neg hstop, pure_eq]

theorem scanClass_range (hlo : lo ≠ 0) (hopen : lo ≠ closing ∨ lo :: dash :: hi :: text = first)
    (hhi : hi ≠ 0) (hhi' : hi ≠ closing) :
    scanClass first (c :: s) (lo :: dash :: hi :: text, matched) =
      .ret (.inl (text, if c ≠ 0 ∧ c ≥ lo ∧ c ≤ hi then true else matched)) := by
  have hgo : lo ≠ 0 ∧ (lo ≠ closing ∨ lo :: dash :: hi :: text = first) := ⟨hlo, hopen⟩
  have hrange : True ∧ hi ≠ 0 ∧ hi ≠ closing := ⟨trivial, hhi, hhi'⟩
  simp only [scanClass, get_cons_zero, get_cons_one, get_cons_two, ret_bind, if_pos hgo, if_true,
    if_pos hrange, pure_eq, List.drop_succ_cons, List.drop_zero]

theorem scanClass_single (hlo : lo ≠ 0) (hopen : lo ≠ closing ∨ lo :: (text ++ [0]) = first)
    (htext : ¬StartsRange text) :
    scanClass first (c :: s) (lo :: (text ++ [0]), matched) =
      .ret (.inl (text ++ [0], if c ≠ 0 ∧ c = lo then true else matched)) := by
  have hgo : lo ≠ 0 ∧ (lo ≠ closing ∨ lo :: (text ++ [0]) = first) := ⟨hlo, hopen⟩
  obtain ⟨q1, q2, rest, hq1, hq2, hnot⟩ : ∃ q1 q2 rest, text ++ [0] = q1 :: rest ∧
      (if q1 = dash then Slice.get (lo :: q1 :: rest) 2 else .ret 0) = .ret q2 ∧
      ¬(q1 = dash ∧ q2 ≠ 0 ∧ q2 ≠ closing) := by
    match text with
    | [] => exact ⟨0, 0, [], rfl, rfl, by decide⟩
    | [q1] => exact ⟨q1, 0, [0], rfl, by split_ifs <;> rfl, by simp⟩
    | q1 :: q2 :: text =>
      refine ⟨q1, if q1 = dash then q2 else 0, q2 :: (text ++ [0]), rfl, by split_ifs <;> rfl, ?_⟩
      rintro ⟨rfl, -, hne⟩
      rw [if_pos rfl] at hne
      exact htext ⟨q2, text, rfl, hne⟩
  rw [hq1] at hgo ⊢
  simp only [scanClass, get_cons_zero, get_cons_one, ret_bind, if_pos hgo, hq2, if_neg hnot,
    pure_eq, List.drop_succ_cons, List.drop_zero]

theorem classBody_range_iff (hopen : lo ≠ closing ∨ flag = true) (hhi : hi ≠ closing)
    (items : List ClassItem) (rest : List UInt8) :
    ClassBody flag (lo :: dash :: hi :: text) items rest ↔
      ∃ items', items = .range lo hi :: items' ∧ ClassBody false text items' rest := by
  constructor
  · intro h
    cases h with
    | close => simp at hopen
    | range _ _ h => exact ⟨_, rfl, h⟩
    | single _ htext _ => exact absurd ⟨_, _, rfl, hhi⟩ htext
  · rintro ⟨items', rfl, h⟩
    exact .range hopen hhi h

theorem classBody_single_iff (hopen : lo ≠ closing ∨ flag = true) (htext : ¬StartsRange text)
    (items : List ClassItem) (rest : List UInt8) :
    ClassBody flag (lo :: text) items rest ↔
      ∃ items', items = .single lo :: items' ∧ ClassBody false text items' rest := by
  constructor
  · intro h
    cases h with
    | close => simp at hopen
    | range _ hhi _ => exact absurd ⟨_, _, rfl, hhi⟩ htext
    | single _ _ h => exact ⟨_, rfl, h⟩
  · rintro ⟨items', rfl, h⟩
    exact .single hopen htext h

/-- The outcome of the scan of `text`: a class body, or the end of the pattern. -/
def Scanned (flag : Bool) (text : List UInt8) (c : UInt8) (matched : Bool)
    (x : Exec (List UInt8 × Bool)) : Prop :=
  (∃ items rest matched', ClassBody flag text items rest ∧
    x = .ret (closing :: (rest ++ [0]), matched') ∧
    (matched' = true ↔ matched = true ∨ c ≠ 0 ∧ ∃ i ∈ items, i.Has c)) ∨
  (∀ items rest, ¬ClassBody flag text items rest) ∧ ∃ matched', x = .ret ([0], matched')

/-- One item read, the scan of what follows it decides. -/
theorem Scanned.step {text' : List UInt8} {matched' : Bool} {x : Exec (List UInt8 × Bool)}
    (h : Scanned false text' c matched' x) {i : ClassItem}
    (hbody : ∀ items rest, ClassBody flag text items rest ↔
      ∃ items', items = i :: items' ∧ ClassBody false text' items' rest)
    (hmatched : matched' = true ↔ matched = true ∨ c ≠ 0 ∧ i.Has c) :
    Scanned flag text c matched x := by
  rcases h with ⟨items, rest, m, h, hx, hm⟩ | ⟨hnone, hx⟩
  · refine .inl ⟨i :: items, rest, m, (hbody _ _).mpr ⟨items, rfl, h⟩, hx, ?_⟩
    rw [hm, hmatched, List.exists_mem_cons_iff, and_or_left, or_assoc]
  · refine .inr ⟨fun items rest h => ?_, hx⟩
    obtain ⟨items', -, h'⟩ := (hbody _ _).mp h
    exact hnone _ _ h'

theorem scanClass_spec (h0 : 0 ∉ text) (hflag : flag = true ↔ text ++ [0] = first)
    (hshort : text.length < first.length) {fuel : ℕ} (hfuel : text.length < fuel) :
    Scanned flag text c matched
      (loop (scanClass first (c :: s)) fuel (text ++ [0], matched)) := by
  induction fuel generalizing text matched flag with
  | zero => omega
  | succ fuel ih =>
    have hlater : ∀ text' : List UInt8, text'.length < text.length →
        (false = true ↔ text' ++ [0] = first) := by
      intro text' hlt
      refine iff_of_false (by simp) ?_
      rintro rfl
      simp at hshort
      omega
    cases text with
    | nil =>
      refine .inr ⟨fun items rest h => (nomatch h), matched, loop_break ?_ fuel⟩
      exact scanClass_end (.inl rfl)
    | cons lo text =>
      simp only [List.mem_cons, not_or] at h0
      obtain ⟨hlo, h0⟩ := h0
      simp only [List.length_cons] at hlater hfuel hshort
      by_cases hopen : lo ≠ closing ∨ flag = true
      · have hopen' : lo ≠ closing ∨ lo :: (text ++ [0]) = first := hopen.imp_right hflag.mp
        by_cases htext : StartsRange text
        · obtain ⟨hi, rest, rfl, hhi⟩ := htext
          simp only [List.mem_cons, not_or] at h0
          have hrange : lo ≠ closing ∨ lo :: dash :: hi :: (rest ++ [0]) = first := hopen'
          rw [List.cons_append, List.cons_append, List.cons_append,
            loop_next (scanClass_range (Ne.symm hlo) hrange (Ne.symm h0.2.1) hhi)]
          refine (ih h0.2.2 (hlater rest (by simp; omega)) (by simp at hshort; omega)
            (by simp at hfuel; omega)).step (classBody_range_iff hopen hhi) ?_
          split_ifs with hc
          · simpa using .inr ⟨hc.1, hc.2⟩
          · simpa [ClassItem.Has] using fun h1 h2 h3 => absurd ⟨h1, h2, h3⟩ hc
        · rw [List.cons_append, loop_next (scanClass_single (Ne.symm hlo) hopen' htext)]
          refine (ih h0 (hlater text (by omega)) (by omega) (by omega)).step
            (classBody_single_iff hopen htext) ?_
          split_ifs with hc
          · simpa using .inr ⟨hc.1, hc.2⟩
          · simpa [ClassItem.Has] using fun h1 h2 => absurd ⟨h1, h2⟩ hc
      · obtain ⟨rfl, hf⟩ : lo = closing ∧ flag = false := by simpa using hopen
        subst hf
        refine .inl ⟨[], text, matched, .close text, loop_break ?_ fuel, by simp⟩
        exact scanClass_end (.inr ⟨rfl, fun h => by simpa using hflag.mpr h⟩)

end Scan

section Match
variable {p s : List UInt8}

/-- The pointer behind a run of stars. -/
theorem skipStars_spec (h0 : 0 ∉ p) {fuel : ℕ} (hfuel : p.length < fuel) :
    ∃ p', skipStars fuel (p ++ [0]) = .ret (p' ++ [0]) ∧ p'.length ≤ p.length ∧ 0 ∉ p' ∧
      ∀ s, Matches (star :: p) s ↔ Matches (star :: p') s := by
  induction fuel generalizing p with
  | zero => omega
  | succ fuel ih =>
    cases p with
    | nil => exact ⟨[], loop_break rfl fuel, le_rfl, h0, fun s => .rfl⟩
    | cons c p =>
      simp only [List.length_cons] at hfuel
      by_cases hc : c = star
      · subst hc
        obtain ⟨p', hskip, hlen, h0', hiff⟩ := ih (fun h => h0 (List.mem_cons_of_mem _ h))
          (by omega : p.length < fuel)
        refine ⟨p', ?_, by simp only [List.length_cons]; omega, h0', fun s => ?_⟩
        · exact (loop_next (by simp) fuel).trans hskip
        · rw [matches_star_star_iff, hiff]
      · exact ⟨c :: p, loop_break (by simp [hc]) fuel, le_rfl, h0, fun s => .rfl⟩

/-- The loop behind a run of stars tries every end of the name. -/
theorem starLoop_spec {fuel : ℕ} (body : List UInt8 → Exec Bool)
    (hbody : ∀ t, t <:+ s → ∃ b, body (t ++ [0]) = .ret b ∧ (b = true ↔ Matches p t))
    (h0 : 0 ∉ s) (hfuel : s.length < fuel) :
    ∃ b, loop (fun t => do
        let found ← body t
        if found then return .inr true
        let e ← Slice.get t 0
        return if e = 0 then .inr false else .inl (t.drop 1)) fuel (s ++ [0]) = .ret b ∧
      (b = true ↔ Matches (star :: p) s) := by
  induction fuel generalizing s with
  | zero => omega
  | succ fuel ih =>
    obtain ⟨b, hb, hiff⟩ := hbody s List.suffix_rfl
    cases b with
    | true =>
      refine ⟨true, loop_break (by simp [hb]) fuel, iff_of_true rfl ?_⟩
      exact matches_star_iff.mpr ⟨[], s, rfl, hiff.mp rfl⟩
    | false =>
      have hnot : ¬Matches p s := fun h => by simpa using hiff.mpr h
      cases s with
      | nil =>
        refine ⟨false, loop_break (by simp only [hb, ret_bind]; rfl) fuel, ?_⟩
        refine iff_of_false (by simp) fun h => ?_
        obtain ⟨run, t, hst, ht⟩ := matches_star_iff.mp h
        obtain ⟨-, rfl⟩ := List.append_eq_nil_iff.mp hst.symm
        exact hnot ht
      | cons c s =>
        simp only [List.mem_cons, not_or] at h0
        simp only [List.length_cons] at hfuel
        obtain ⟨b, hloop, hb'⟩ := ih (fun t ht => hbody t (ht.trans (List.suffix_cons c s))) h0.2
          (by omega)
        refine ⟨b, (loop_next ?_ fuel).trans hloop, hb'.trans ?_⟩
        · simp only [hb, ret_bind]
          simp [Ne.symm h0.1]
        · rw [matches_star_iff, matches_star_iff]
          constructor
          · rintro ⟨run, t, rfl, ht⟩
            exact ⟨c :: run, t, rfl, ht⟩
          · rintro ⟨_ | ⟨x, run⟩, t, hst, ht⟩
            · obtain rfl : c :: s = t := hst
              exact absurd ht hnot
            · obtain ⟨rfl, rfl⟩ : c = x ∧ s = run ++ t := by simpa using hst
              exact ⟨run, t, rfl, ht⟩

/-- The sign of a class, and the text its items are read from. -/
theorem charClass_head (p : List UInt8) : ∃ (q0 : UInt8) (text : List UInt8),
    Slice.get (opening :: (p ++ [0])) 1 = .ret q0 ∧
      (if q0 = bang ∨ q0 = caret then (opening :: (p ++ [0])).drop 2
        else (opening :: (p ++ [0])).drop 1) = text ++ [0] ∧ text <:+ p ∧
      ∀ neg items rest, CharClass p neg items rest ↔
        neg = decide (q0 = bang ∨ q0 = caret) ∧ ClassBody true text items rest := by
  by_cases hneg : ∃ x ∈ p.head?, x = bang ∨ x = caret
  · obtain ⟨x, hx, hx'⟩ := hneg
    obtain ⟨p, rfl⟩ : ∃ rest, p = x :: rest := List.head?_eq_some_iff.mp hx
    refine ⟨x, p, rfl, if_pos hx', List.suffix_cons x p, fun neg items rest => ?_⟩
    rw [decide_eq_true hx']
    constructor
    · intro h
      cases h with
      | plain hhead _ => exact absurd hx' (not_or.mpr (hhead x rfl))
      | negated _ h => exact ⟨rfl, h⟩
    · rintro ⟨rfl, h⟩
      exact .negated hx' h
  · have hhead : ∀ x ∈ p.head?, x ≠ bang ∧ x ≠ caret :=
      fun x hx => not_or.mp fun hx' => hneg ⟨x, hx, hx'⟩
    obtain ⟨q0, hq0, hplain⟩ : ∃ q0, Slice.get (opening :: (p ++ [0])) 1 = .ret q0 ∧
        ¬(q0 = bang ∨ q0 = caret) := by
      cases p with
      | nil => exact ⟨0, rfl, by decide⟩
      | cons x p => exact ⟨x, rfl, not_or.mpr (hhead x rfl)⟩
    refine ⟨q0, p, hq0, if_neg hplain, List.suffix_rfl, fun neg items rest => ?_⟩
    rw [decide_eq_false hplain]
    constructor
    · intro h
      cases h with
      | plain _ h => exact ⟨rfl, h⟩
      | negated hc _ => exact absurd hc (not_or.mpr (hhead _ rfl))
    · rintro ⟨rfl, h⟩
      exact .plain hhead h

theorem ClassBody.suffix {flag : Bool} {text rest : List UInt8} {items : List ClassItem}
    (h : ClassBody flag text items rest) : closing :: rest <:+ text := by
  induction h with
  | close rest => exact List.suffix_rfl
  | range _ _ _ ih => exact ih.trans ⟨[_, _, _], rfl⟩
  | single _ _ _ ih => exact ih.trans (List.suffix_cons _ _)

theorem get_name_zero (h0 : 0 ∉ s) : ∃ e, Slice.get (s ++ [0]) 0 = .ret e ∧
    (e = 0 ∧ s = [] ∨ e ≠ 0 ∧ ∃ t, s = e :: t) := by
  cases s with
  | nil => exact ⟨0, rfl, .inl ⟨rfl, rfl⟩⟩
  | cons e t => exact ⟨e, rfl, .inr ⟨fun h => h0 (h ▸ List.mem_cons_self), t, rfl⟩⟩

/-- With this budget the matcher ends inside both strings with the answer of the language. -/
def Decides (fuel : ℕ) (p s : List UInt8) : Prop :=
  ∃ b, wcMatch fuel (p ++ [0]) (s ++ [0]) = .ret b ∧ (b = true ↔ Matches p s)

section Branches
variable {fuel : ℕ} {c : UInt8}

theorem decides_nil (h0 : 0 ∉ s) : Decides (fuel + 1) [] s := by
  obtain ⟨e, he, hname⟩ := get_name_zero h0
  refine ⟨decide (e = 0), by simp [wcMatch, he], ?_⟩
  rw [matches_nil_iff, decide_eq_true_iff]
  rcases hname with ⟨h, rfl⟩ | ⟨h, t, rfl⟩
  · simp [h]
  · simp [h]

/-- A run of stars: the rest of the pattern is tried at every end of the name. -/
theorem decides_star (hp : 0 ∉ p) (hs : 0 ∉ s) (hfuel : p.length + s.length + 2 ≤ fuel)
    (hrest : ∀ p' t, 0 ∉ p' → p'.length ≤ p.length → t <:+ s → Decides fuel p' t) :
    Decides (fuel + 1) (star :: p) s := by
  obtain ⟨fuel, rfl⟩ : ∃ k, fuel = k + 1 := ⟨fuel - 1, by omega⟩
  obtain ⟨p', hskip, hlen, hp', hiff⟩ := skipStars_spec hp (by omega : p.length < fuel)
  have hskip : skipStars (fuel + 1) (star :: (p ++ [0])) = .ret (p' ++ [0]) :=
    (loop_next (by simp) fuel).trans hskip
  obtain ⟨c, hc, hpat⟩ := get_name_zero hp'
  rcases hpat with ⟨rfl, rfl⟩ | ⟨hc0, -⟩
  · refine ⟨true, ?_, iff_of_true rfl ?_⟩
    · simp [wcMatch, show star ≠ 0 by decide, hskip]
    · exact (hiff s).mpr (matches_star_iff.mpr ⟨s, [], (List.append_nil s).symm, .nil⟩)
  · obtain ⟨b, hloop, hb⟩ := starLoop_spec (p := p') (wcMatch (fuel + 1) (p' ++ [0]))
      (fun t ht => hrest p' t hp' hlen ht) hs (by omega : s.length < fuel + 1)
    refine ⟨b, ?_, hb.trans (hiff s).symm⟩
    rw [List.cons_append, wcMatch, get_cons_zero, ret_bind,
      if_neg (by decide : star ≠ 0), if_pos rfl, hskip, ret_bind, hc, ret_bind, if_neg hc0]
    exact hloop

theorem decides_question (hs : 0 ∉ s) (hrest : ∀ t, t <:+ s → Decides fuel p t) :
    Decides (fuel + 1) (question :: p) s := by
  obtain ⟨e, he, hname⟩ := get_name_zero hs
  have hstep : wcMatch (fuel + 1) (question :: p ++ [0]) (s ++ [0]) =
      if e = 0 then .ret false else wcMatch fuel (p ++ [0]) ((s ++ [0]).drop 1) := by
    rw [List.cons_append, wcMatch, get_cons_zero, ret_bind, if_neg (by decide : question ≠ 0),
      if_neg star_ne_question.symm, if_pos rfl, he]
    rfl
  rcases hname with ⟨h, rfl⟩ | ⟨h, t, rfl⟩
  · refine ⟨false, by rw [hstep, if_pos h], iff_of_false (by simp) fun hm => ?_⟩
    obtain ⟨x, t, ht, -⟩ := matches_question_iff.mp hm
    cases ht
  · obtain ⟨b, hrun, hb⟩ := hrest t (List.suffix_cons e t)
    refine ⟨b, by rw [hstep, if_neg h]; exact hrun, hb.trans ?_⟩
    rw [matches_question_iff]
    constructor
    · exact fun hm => ⟨e, t, rfl, hm⟩
    · rintro ⟨x, t', ht, hm⟩
      cases ht
      exact hm

/-- A byte of the pattern that the name must repeat. -/
theorem decides_same (c : UInt8) (hc : c ≠ 0) (hs : 0 ∉ s)
    (hstep : ∀ e, Slice.get (s ++ [0]) 0 = .ret e → wcMatch (fuel + 1) (c :: p ++ [0]) (s ++ [0]) =
      if c ≠ e then .ret false else wcMatch fuel (p ++ [0]) ((s ++ [0]).drop 1))
    (hlang : Matches (c :: p) s ↔ ∃ t, s = c :: t ∧ Matches p t)
    (hrest : ∀ t, t <:+ s → Decides fuel p t) : Decides (fuel + 1) (c :: p) s := by
  obtain ⟨e, he, hname⟩ := get_name_zero hs
  have hstep := hstep e he
  by_cases hce : c = e
  · subst hce
    obtain ⟨t, rfl⟩ := (hname.resolve_left fun h => hc h.1).2
    obtain ⟨b, hrun, hb⟩ := hrest t (List.suffix_cons c t)
    refine ⟨b, by rw [hstep, if_neg (not_not.mpr rfl)]; exact hrun, hb.trans ?_⟩
    rw [hlang]
    constructor
    · exact fun hm => ⟨t, rfl, hm⟩
    · rintro ⟨t', ht, hm⟩
      cases ht
      exact hm
  · refine ⟨false, by rw [hstep, if_pos hce], iff_of_false (by simp) fun hm => ?_⟩
    obtain ⟨t, rfl, -⟩ := hlang.mp hm
    cases he
    exact hce rfl

theorem decides_literal (hc : c ≠ 0) (hstar : c ≠ star) (hquestion : c ≠ question)
    (hopening : c ≠ opening) (hs : 0 ∉ s) (hrest : ∀ t, t <:+ s → Decides fuel p t) :
    Decides (fuel + 1) (c :: p) s := by
  refine decides_same c hc hs (fun e he => ?_) (matches_literal_iff hstar hquestion hopening) hrest
  rw [List.cons_append, wcMatch, get_cons_zero, ret_bind, if_neg hc, if_neg hstar,
    if_neg hquestion, if_neg hopening, he]
  rfl

/-- A bracket: one byte of the class, or the bracket itself where the class is not closed. -/
theorem decides_class (hp : 0 ∉ p) (hs : 0 ∉ s) (hfuel : p.length < fuel)
    (hrest : ∀ p' t, p' <:+ p → t <:+ s → Decides fuel p' t) :
    Decides (fuel + 1) (opening :: p) s := by
  obtain ⟨q0, text, hq0, hfirst, hsuffix, hclass⟩ := charClass_head p
  obtain ⟨e, he, hname⟩ := get_name_zero hs
  obtain ⟨s', hbuffer⟩ : ∃ s', s ++ [0] = e :: s' := by
    cases s with
    | nil => exact ⟨[], by rw [Slice.get_eq_ret] at he; simpa using he⟩
    | cons x s => exact ⟨s ++ [0], by rw [Slice.get_eq_ret] at he; simpa using he⟩
  have hstep : ∀ q matched q0', loop (scanClass (text ++ [0]) (e :: s')) fuel (text ++ [0], false) =
      .ret (q, matched) → Slice.get q 0 = .ret q0' →
      wcMatch (fuel + 1) (opening :: p ++ [0]) (s ++ [0]) =
        if q0' ≠ closing then
          if e ≠ opening then .ret false else wcMatch fuel (p ++ [0]) ((s ++ [0]).drop 1)
        else if (!(if q0 = bang ∨ q0 = caret then !matched else matched)) = true ∨ e = 0 then
          .ret false
        else wcMatch fuel (q.drop 1) ((s ++ [0]).drop 1) := by
    intro q matched q0' hloop hq
    rw [List.cons_append, wcMatch, get_cons_zero, ret_bind, if_neg (by decide : opening ≠ 0),
      if_neg star_ne_opening.symm, if_neg question_ne_opening.symm, if_pos rfl, hq0, ret_bind]
    simp only [hfirst, hbuffer, hloop, hq, get_cons_zero, ret_bind]
    rfl
  have hscan : Scanned true text e false
      (loop (scanClass (text ++ [0]) (e :: s')) fuel (text ++ [0], false)) :=
    scanClass_spec (fun h => hp (hsuffix.subset h)) (iff_of_true rfl rfl) (by simp)
      (hsuffix.length_le.trans_lt hfuel)
  rcases hscan with ⟨items, rest, matched, hbody, hloop, hm⟩ | ⟨hnone, matched, hloop⟩
  · have hchar := (hclass _ _ _).mpr ⟨rfl, hbody⟩
    have hlang : Matches (opening :: p) s ↔ ∃ x t, s = x :: t ∧
        ((∃ i ∈ items, i.Has x) ↔ decide (q0 = bang ∨ q0 = caret) = false) ∧ Matches rest t := by
      rw [matches_opening_iff]
      constructor
      · rintro (⟨neg, items', rest', hchar', x, t, rfl, hx, ht⟩ | ⟨hopen, -⟩)
        · obtain ⟨rfl, rfl, rfl⟩ := hchar.unique hchar'
          exact ⟨x, t, rfl, hx, ht⟩
        · exact absurd hchar (hopen _ _ _)
      · rintro ⟨x, t, rfl, hx, ht⟩
        exact .inl ⟨_, _, _, hchar, x, t, rfl, hx, ht⟩
    have hstep := hstep _ _ _ hloop rfl
    rw [if_neg (not_not.mpr rfl)] at hstep
    rcases hname with ⟨h, rfl⟩ | ⟨h, t, rfl⟩
    · refine ⟨false, by rw [hstep, if_pos (.inr h)], iff_of_false (by simp) fun hmatch => ?_⟩
      obtain ⟨x, t, ht, -⟩ := hlang.mp hmatch
      cases ht
    · have hsign : (if q0 = bang ∨ q0 = caret then !matched else matched) = true ↔
          ((∃ i ∈ items, i.Has e) ↔ decide (q0 = bang ∨ q0 = caret) = false) := by
        have hm : matched = true ↔ ∃ i ∈ items, i.Has e := by simpa [h] using hm
        rw [← hm]
        split_ifs with hneg
        · simp [hneg]
        · simp [hneg]
      by_cases hin : (if q0 = bang ∨ q0 = caret then !matched else matched) = true
      · obtain ⟨b, hrun, hb⟩ := hrest rest t
          ((List.suffix_cons _ _).trans (hbody.suffix.trans hsuffix)) (List.suffix_cons e t)
        refine ⟨b, ?_, hb.trans ?_⟩
        · rw [hstep, if_neg (by simp [hin, h])]
          exact hrun
        · rw [hlang]
          constructor
          · exact fun hmatch => ⟨e, t, rfl, hsign.mp hin, hmatch⟩
          · rintro ⟨x, t', ht, -, hmatch⟩
            cases ht
            exact hmatch
      · refine ⟨false, by rw [hstep, if_pos (.inl (by simpa using hin))], ?_⟩
        refine iff_of_false (by simp) fun hmatch => ?_
        obtain ⟨x, t', ht, hx, -⟩ := hlang.mp hmatch
        cases ht
        exact hin (hsign.mpr hx)
  · have hopen : ∀ neg items rest, ¬CharClass p neg items rest :=
      fun neg items rest h => hnone items rest ((hclass _ _ _).mp h).2
    refine decides_same opening (by decide) hs (fun e' he' => ?_) ?_
      (fun t ht => hrest p t List.suffix_rfl ht)
    · rw [he] at he'
      cases he'
      rw [hstep _ _ _ hloop rfl, if_pos (by decide)]
      simp only [ne_comm]
    · rw [matches_opening_iff]
      constructor
      · rintro (⟨neg, items, rest, h, -⟩ | ⟨-, h⟩)
        · exact absurd h (hopen _ _ _)
        · exact h
      · exact fun h => .inr ⟨hopen, h⟩

end Branches

/-- The matcher decides whether the name is in the language of the pattern. -/
theorem decides {fuel : ℕ} (hp : 0 ∉ p) (hs : 0 ∉ s) (hfuel : p.length + s.length + 2 ≤ fuel) :
    Decides fuel p s := by
  induction fuel generalizing p s with
  | zero => omega
  | succ fuel ih =>
    cases p with
    | nil => exact decides_nil hs
    | cons c p =>
      simp only [List.mem_cons, not_or] at hp
      simp only [List.length_cons] at hfuel
      have hrest : ∀ p' t, 0 ∉ p' → p'.length ≤ p.length → t <:+ s → Decides fuel p' t :=
        fun p' t hp' hlen ht => ih hp' (fun h => hs (ht.subset h))
          (by have := ht.length_le; omega)
      have hsame : ∀ p' t, p' <:+ p → t <:+ s → Decides fuel p' t :=
        fun p' t hp' ht => hrest p' t (fun h => hp.2 (hp'.subset h)) hp'.length_le ht
      by_cases hstar : c = star
      · subst hstar
        exact decides_star hp.2 hs (by omega) hrest
      · by_cases hquestion : c = question
        · subst hquestion
          exact decides_question hs (fun t ht => hsame p t List.suffix_rfl ht)
        · by_cases hopening : c = opening
          · subst hopening
            exact decides_class hp.2 hs (by omega) hsame
          · exact decides_literal (Ne.symm hp.1) hstar hquestion hopening hs
              (fun t ht => hsame p t List.suffix_rfl ht)

/-- For every pattern and every name the matcher ends, reads neither string past its terminator,
and answers `true` exactly on the names in the language of the pattern. -/
theorem wcMatch_iff_matches (p s : CString) (extra : ℕ) :
    ∃ b, wcMatch (p.bytes.length + s.bytes.length + 2 + extra) p.buffer s.buffer = .ret b ∧
      (b = true ↔ Matches p.bytes s.bytes) :=
  decides p.clean s.clean (Nat.le_add_right _ _)

/-- `[]a-]?` on `-x`, and the open class `[a` on `[a`. -/
example : wcMatch 20 [91, 93, 97, 45, 93, 63, 0] [45, 120, 0] = .ret true ∧
    wcMatch 20 [91, 97, 0] [91, 97, 0] = .ret true := by decide +kernel

end Match

end FcLang.Args
