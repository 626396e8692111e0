import Mathlib.Data.List.TakeWhile
import FcLang.Lexer.Conditional

/-!
# Conditional compilation as a selection of branches

A token stream the filter accepts is a tree: plain tokens, and conditionals
whose branches hold trees. Of a conditional one branch at most is selected, the
first in order whose guard holds, the guard of an `#else` always holding.
-/

namespace FcLang.Lexer
open TokenKind

/-- A directive with what the filter drops with it: its expression and the newline that ends its
line. -/
structure Directive where
  token : Token
  expr : List Token
  newline : Option Token
  expr_plain : ∀ t ∈ expr, t.kind ≠ .newline
  newline_kind : ∀ t ∈ newline, t.kind = .newline

def Directive.tokens (d : Directive) : List Token := d.token :: d.expr ++ d.newline.toList

mutual
inductive Source where
  | nil
  | plain (t : Token) (rest : Source)
  | conditional (first : Directive) (body : Source) (others : Branches) (last : Directive)
      (rest : Source)

inductive Branches where
  | nil
  | cons (guard : Directive) (body : Source) (others : Branches)
end

mutual
def Source.tokens : Source → List Token
  | .nil => []
  | .plain t rest => t :: rest.tokens
  | .conditional first body others last rest =>
    first.tokens ++ body.tokens ++ others.tokens ++ last.tokens ++ rest.tokens

def Branches.tokens : Branches → List Token
  | .nil => []
  | .cons guard body others => guard.tokens ++ body.tokens ++ others.tokens
end

def TokenKind.IsDirective (k : TokenKind) : Prop :=
  k = .hashIf ∨ k = .hashElseIf ∨ k = .hashElse ∨ k = .hashEnd

def StartsNewline (ts : List Token) : Prop := ∃ t ∈ ts.head?, t.kind = .newline

/-- A directive with a condition, which takes up its line. -/
def Directive.Conditional (k : TokenKind) (d : Directive) : Prop :=
  d.token.kind = k ∧ d.newline ≠ none

/-- A directive without a condition. -/
def Directive.Bare (k : TokenKind) (d : Directive) : Prop := d.token.kind = k ∧ d.expr = []

/-- A directive that drops no newline is not followed by one. -/
def Directive.EndsLine (d : Directive) (rest : List Token) : Prop :=
  d.newline = none → ¬StartsNewline rest

mutual
def Source.Ok : Source → Prop
  | .nil => True
  | .plain t rest => ¬t.kind.IsDirective ∧ rest.Ok
  | .conditional first body others last rest =>
    first.Conditional .hashIf ∧ body.Ok ∧ others.Ok ∧
      last.Bare .hashEnd ∧ last.EndsLine rest.tokens ∧ rest.Ok

def Branches.Ok : Branches → Prop
  | .nil => True
  | .cons guard body others =>
    (guard.Conditional .hashElseIf ∨ guard.Bare .hashElse ∧ guard.EndsLine body.tokens) ∧
      body.Ok ∧ others.Ok
end

/-- The condition of an `#if` or `#else if`, by the evaluator of the filter. -/
def Directive.CondTrue (flags : List Flag) (d : Directive) : Prop :=
  evalCondExpr flags d.token d.expr = .ok true

instance (flags : List Flag) (d : Directive) : Decidable (d.CondTrue flags) :=
  inferInstanceAs (Decidable (_ = _))

def Directive.Holds (flags : List Flag) (d : Directive) : Prop :=
  d.token.kind = .hashElse ∨ d.CondTrue flags

instance (flags : List Flag) (d : Directive) : Decidable (d.Holds flags) :=
  inferInstanceAs (Decidable (_ ∨ _))

mutual
/-- What is left of a source: its plain tokens, and of each conditional the selected branch. -/
def Source.select (flags : List Flag) : Source → List Token
  | .nil => []
  | .plain t rest => t :: rest.select flags
  | .conditional first body others _ rest =>
    (if first.Holds flags then body.select flags else others.select flags) ++ rest.select flags

def Branches.select (flags : List Flag) : Branches → List Token
  | .nil => []
  | .cons guard body others =>
    if guard.Holds flags then body.select flags else others.select flags
end

variable {flags : List Flag} {endLine : ℕ}

theorem StartsNewline.append {ts us : List Token} (h : StartsNewline ts) :
    StartsNewline (ts ++ us) := by
  obtain ⟨t, ht, hk⟩ := h
  refine ⟨t, ?_, hk⟩
  rw [Option.mem_def] at ht ⊢
  rw [List.head?_append, ht]
  rfl

theorem Directive.not_startsNewline {d : Directive} (h : d.token.kind ≠ .newline)
    (ts : List Token) : ¬StartsNewline (d.tokens ++ ts) := by
  rintro ⟨t, ht, hk⟩
  obtain rfl : d.token = t := by simpa [Directive.tokens] using ht
  exact h hk

/-- The end of a bare directive's line, in front of a source that may be empty. -/
theorem Directive.EndsLine.append {d : Directive} {ts us : List Token} (h : d.EndsLine ts)
    (hus : ¬StartsNewline us) : d.EndsLine (ts ++ us) := by
  intro hd hts
  cases ts with
  | nil => exact hus hts
  | cons t ts => exact h hd hts

theorem Directive.EndsLine.of_append {d : Directive} {ts us : List Token}
    (h : d.EndsLine (ts ++ us)) : d.EndsLine ts := fun hd hts => h hd hts.append

theorem Branches.not_startsNewline {bs : Branches} (h : bs.Ok) {ts : List Token}
    (hts : ¬StartsNewline ts) : ¬StartsNewline (bs.tokens ++ ts) := by
  cases bs with
  | nil => exact hts
  | cons guard body others =>
    rw [Branches.tokens, List.append_assoc, List.append_assoc]
    apply guard.not_startsNewline
    rcases h.1 with hg | hg
    · simp [hg.1]
    · simp [hg.1.1]

theorem filterLoop_skip (skipped rest : List Token) (stack : List Level) :
    filterLoop flags endLine (skipped ++ rest) skipped.length stack =
      filterLoop flags endLine rest 0 stack := by
  induction skipped with
  | nil => rfl
  | cons t skipped ih =>
    rw [List.cons_append, List.length_cons, ← ih]
    cases h : skipped.length + 1 with
    | zero => cases h
    | succ n =>
      obtain rfl : n = skipped.length := by omega
      rw [filterLoop]

section Lines
variable {d : Directive} {rest out : List Token} {stack : List Level}

/-- A directive skips what it drops. -/
theorem filterLoop_line (h : d.newline ≠ none ∨ d.EndsLine rest) :
    filterLoop flags endLine (d.expr ++ d.newline.toList ++ rest)
        (skipLine d.expr.length (d.expr ++ d.newline.toList ++ rest)) stack =
      filterLoop flags endLine rest 0 stack := by
  have hget : (d.expr ++ d.newline.toList ++ rest)[d.expr.length]? =
      (d.newline.toList ++ rest).head? := by
    rw [List.append_assoc, List.getElem?_append_right le_rfl, Nat.sub_self,
      List.head?_eq_getElem?]
  cases hnl : d.newline with
  | some nl =>
    have hkind := d.newline_kind nl (by simp [hnl])
    rw [hnl] at hget
    have hskip : skipLine d.expr.length (d.expr ++ (some nl).toList ++ rest) =
        (d.expr ++ (some nl).toList).length := by
      simp only [skipLine, hget]
      simp [hkind]
    rw [hskip]
    exact filterLoop_skip _ rest stack
  | none =>
    have hends : ¬StartsNewline rest := (h.resolve_left (by simp [hnl])) hnl
    rw [hnl] at hget
    have hskip : skipLine d.expr.length (d.expr ++ (none : Option Token).toList ++ rest) =
        (d.expr ++ (none : Option Token).toList).length := by
      unfold skipLine
      rw [hget, Option.toList_none, List.nil_append, List.append_nil]
      cases rest with
      | nil => rfl
      | cons t rest =>
        have ht : t.kind ≠ .newline := fun hk => hends ⟨t, rfl, hk⟩
        simp [ht]
    rw [hskip]
    exact filterLoop_skip _ rest stack

theorem Directive.Conditional.exprLine {k : TokenKind} (h : d.Conditional k) :
    exprLine (d.expr ++ d.newline.toList ++ rest) = d.expr := by
  obtain ⟨nl, hnl⟩ := Option.ne_none_iff_exists'.mp h.2
  have hkind := d.newline_kind nl (by simp [hnl])
  have hplain : ∀ t ∈ d.expr, decide (t.kind ≠ .newline) = true := by simpa using d.expr_plain
  rw [hnl, Lexer.exprLine, Option.toList_some, List.append_assoc,
    List.takeWhile_append_of_pos hplain]
  simp [hkind]

theorem evalCondExpr_iff {cond : Bool} (hd : d.token.kind ≠ .hashElse)
    (h : evalCondExpr flags d.token d.expr = .ok cond) : cond = decide (d.Holds flags) := by
  cases cond <;> simp [Directive.Holds, Directive.CondTrue, h, hd]

theorem filterLoop_if (hd : d.Conditional .hashIf)
    (h : filterLoop flags endLine (d.tokens ++ rest) 0 stack = .ok out) :
    filterLoop flags endLine rest 0
      (⟨isActive stack && decide (d.Holds flags), decide (d.Holds flags)⟩ :: stack) = .ok out := by
  simp only [Directive.tokens, List.cons_append] at h
  unfold filterLoop at h
  rw [if_pos hd.1] at h
  obtain ⟨-, h⟩ := Run.check_eq_ok.mp h
  obtain ⟨-, h⟩ := Run.check_eq_ok.mp h
  rw [hd.exprLine] at h
  obtain ⟨cond, hcond, h⟩ := Run.bind_eq_ok.mp h
  rw [filterLoop_line (.inl hd.2)] at h
  rwa [evalCondExpr_iff (by simp [hd.1]) hcond] at h

theorem filterLoop_branch {level : Level}
    (hd : d.Conditional .hashElseIf ∨ d.Bare .hashElse ∧ d.EndsLine rest)
    (h : filterLoop flags endLine (d.tokens ++ rest) 0 (level :: stack) = .ok out) :
    filterLoop flags endLine rest 0
      (⟨isActive stack && !level.done && decide (d.Holds flags),
        level.done || decide (d.Holds flags)⟩ :: stack) = .ok out := by
  simp only [Directive.tokens, List.cons_append] at h
  unfold filterLoop at h
  rcases hd with hd | ⟨⟨hkind, hexpr⟩, hends⟩
  · rw [if_neg (by simp [hd.1]), if_pos hd.1] at h
    obtain ⟨-, h⟩ := Run.check_eq_ok.mp h
    simp only [parentActive_cons] at h
    rw [hd.exprLine] at h
    obtain ⟨cond, hcond, h⟩ := Run.bind_eq_ok.mp h
    rw [filterLoop_line (.inl hd.2)] at h
    rwa [evalCondExpr_iff (by simp [hd.1]) hcond] at h
  · rw [if_neg (by simp [hkind]), if_neg (by simp [hkind]), if_pos hkind] at h
    obtain ⟨-, h⟩ := Run.check_eq_ok.mp h
    have hline := @filterLoop_line flags endLine d rest
      (⟨isActive stack && !level.done, true⟩ :: stack) (.inr hends)
    rw [hexpr] at h hline
    have hholds : decide (d.Holds flags) = true := by simp [Directive.Holds, hkind]
    rw [hholds, Bool.and_true, Bool.or_true, ← hline, List.length_nil]
    simpa only [parentActive_cons] using h

theorem filterLoop_end {level : Level} (hd : d.Bare .hashEnd) (hends : d.EndsLine rest)
    (h : filterLoop flags endLine (d.tokens ++ rest) 0 (level :: stack) = .ok out) :
    filterLoop flags endLine rest 0 stack = .ok out := by
  simp only [Directive.tokens, List.cons_append] at h
  unfold filterLoop at h
  rw [if_neg (by simp [hd.1]), if_neg (by simp [hd.1]), if_neg (by simp [hd.1]), if_pos hd.1] at h
  obtain ⟨-, h⟩ := Run.check_eq_ok.mp h
  have hline := @filterLoop_line flags endLine d rest stack (.inr hends)
  rw [hd.2] at h hline
  rw [← hline]
  exact h

theorem filterLoop_plain {t : Token} (ht : ¬t.kind.IsDirective)
    (h : filterLoop flags endLine (t :: rest) 0 stack = .ok out) :
    ∃ out', filterLoop flags endLine rest 0 stack = .ok out' ∧
      out = (if isActive stack then [t] else []) ++ out' := by
  simp only [TokenKind.IsDirective, not_or] at ht
  unfold filterLoop at h
  rw [if_neg ht.1, if_neg ht.2.1, if_neg ht.2.2.1, if_neg ht.2.2.2] at h
  obtain ⟨out', hrun, hout⟩ := Run.bind_eq_ok.mp h
  cases hout
  refine ⟨out', hrun, ?_⟩
  cases isActive stack <;> rfl

end Lines

mutual
theorem Source.filterLoop_eq (src : Source) (hsrc : src.Ok) {after out : List Token}
    {stack : List Level} (hafter : ¬StartsNewline after)
    (h : filterLoop flags endLine (src.tokens ++ after) 0 stack = .ok out) :
    ∃ out', filterLoop flags endLine after 0 stack = .ok out' ∧
      out = (if isActive stack then src.select flags else []) ++ out' := by
  cases src with
  | nil => exact ⟨out, h, by simp [Source.select]⟩
  | plain t rest =>
    obtain ⟨out₁, hrun, rfl⟩ := filterLoop_plain hsrc.1 h
    obtain ⟨out', hafter', rfl⟩ := rest.filterLoop_eq hsrc.2 hafter hrun
    refine ⟨out', hafter', ?_⟩
    rw [Source.select]
    cases isActive stack <;> rfl
  | conditional first body others last rest =>
    obtain ⟨hfirst, hbody, hothers, hlast, hends, hrest⟩ := hsrc
    simp only [Source.tokens, List.append_assoc] at h
    have hnext : ¬StartsNewline (others.tokens ++ (last.tokens ++ (rest.tokens ++ after))) :=
      others.not_startsNewline hothers (last.not_startsNewline (by simp [hlast.1]) _)
    obtain ⟨out₁, hrun₁, rfl⟩ := body.filterLoop_eq hbody hnext (filterLoop_if hfirst h)
    obtain ⟨out₂, hrun₂, rfl⟩ := others.filterLoop_eq hothers hlast (hends.append hafter) hrun₁
    obtain ⟨out', hafter', rfl⟩ := rest.filterLoop_eq hrest hafter hrun₂
    refine ⟨out', hafter', ?_⟩
    rw [Source.select]
    by_cases hholds : first.Holds flags <;> cases isActive stack <;> simp [hholds, isActive]

theorem Branches.filterLoop_eq (others : Branches) (hothers : others.Ok) {last : Directive}
    {after out : List Token} {level : Level} {stack : List Level} (hlast : last.Bare .hashEnd)
    (hends : last.EndsLine after)
    (h : filterLoop flags endLine (others.tokens ++ (last.tokens ++ after)) 0 (level :: stack) =
      .ok out) :
    ∃ out', filterLoop flags endLine after 0 stack = .ok out' ∧
      out = (if isActive stack && !level.done then others.select flags else []) ++ out' := by
  cases others with
  | nil => exact ⟨out, filterLoop_end hlast hends h, by simp [Branches.select]⟩
  | cons guard body others =>
    obtain ⟨hguard, hbody, hothers⟩ := hothers
    simp only [Branches.tokens, List.append_assoc] at h
    have hnext : ¬StartsNewline (others.tokens ++ (last.tokens ++ after)) :=
      others.not_startsNewline hothers (last.not_startsNewline (by simp [hlast.1]) _)
    obtain ⟨out₁, hrun₁, rfl⟩ := body.filterLoop_eq hbody hnext
      (filterLoop_branch (hguard.imp_right fun hg => ⟨hg.1, hg.2.append hnext⟩) h)
    obtain ⟨out', hafter', rfl⟩ := others.filterLoop_eq hothers hlast hends hrun₁
    refine ⟨out', hafter', ?_⟩
    rw [Branches.select]
    by_cases hholds : guard.Holds flags <;> cases isActive stack <;> cases level.done <;>
      simp [hholds, isActive]
end

section Tree
variable {t : Token} {rest out : List Token} {stack : List Level}

theorem exists_bare (t : Token) (rest : List Token) : ∃ (d : Directive) (after : List Token),
    d.token = t ∧ d.expr = [] ∧ d.EndsLine after ∧ t :: rest = d.tokens ++ after := by
  by_cases hnl : StartsNewline rest
  · obtain ⟨nl, hhead, hkind⟩ := hnl
    obtain ⟨after, rfl⟩ := List.head?_eq_some_iff.mp hhead
    exact ⟨⟨t, [], some nl, by simp, by simpa using hkind⟩, after, rfl, rfl,
      by simp [Directive.EndsLine], rfl⟩
  · exact ⟨⟨t, [], none, by simp, by simp⟩, rest, rfl, rfl, fun _ => hnl, rfl⟩

/-- A condition that ends with the input leaves its conditional unclosed. -/
theorem filterLoop_unclosed {level : Level} :
    filterLoop flags endLine rest (skipLine rest.length rest) (level :: stack) ≠ .ok out := by
  have hskip : skipLine rest.length rest = rest.length := by simp [skipLine]
  have hrun := @filterLoop_skip flags endLine rest [] (level :: stack)
  rw [List.append_nil] at hrun
  rw [hskip, hrun]
  intro h
  cases h

theorem exists_conditional (hk : t.kind = .hashIf ∨ t.kind = .hashElseIf)
    (h : filterLoop flags endLine (t :: rest) 0 stack = .ok out) :
    ∃ (d : Directive) (after : List Token), d.token = t ∧ d.newline ≠ none ∧
      t :: rest = d.tokens ++ after := by
  have hplain : ∀ t ∈ exprLine rest, t.kind ≠ .newline := fun t ht => by
    simpa using List.mem_takeWhile_imp ht
  have hsplit : rest = exprLine rest ++ rest.dropWhile fun t => t.kind ≠ .newline :=
    List.takeWhile_append_dropWhile.symm
  cases hafter : rest.dropWhile fun t => t.kind ≠ .newline with
  | nil =>
    -- the line runs to the end of the input, with the conditional still open
    rw [hafter, List.append_nil] at hsplit
    unfold filterLoop at h
    rw [← hsplit] at h
    rcases hk with hk | hk
    · rw [if_pos hk] at h
      obtain ⟨-, h⟩ := Run.check_eq_ok.mp h
      obtain ⟨-, h⟩ := Run.check_eq_ok.mp h
      obtain ⟨cond, -, h⟩ := Run.bind_eq_ok.mp h
      exact absurd h filterLoop_unclosed
    · rw [if_neg (by simp [hk]), if_pos hk] at h
      obtain ⟨-, h⟩ := Run.check_eq_ok.mp h
      cases stack with
      | nil => cases h
      | cons level below =>
        obtain ⟨cond, -, h⟩ := Run.bind_eq_ok.mp h
        exact absurd h filterLoop_unclosed
  | cons nl after =>
    have hnl : nl.kind = .newline := by
      have hhead := List.head_dropWhile_not (l := rest) (fun t : Token => decide (t.kind ≠ .newline))
        (by rw [hafter]; simp)
      simp only [hafter, List.head_cons] at hhead
      simpa using hhead
    rw [hafter] at hsplit
    refine ⟨⟨t, exprLine rest, some nl, hplain, by simpa using hnl⟩, after, rfl, by simp, ?_⟩
    simpa [Directive.tokens] using hsplit

theorem filterLoop_outside
    (hk : t.kind = .hashElseIf ∨ t.kind = .hashElse ∨ t.kind = .hashEnd) :
    filterLoop flags endLine (t :: rest) 0 [] ≠ .ok out := by
  intro h
  unfold filterLoop at h
  rcases hk with hk | hk | hk
  · rw [if_neg (by simp [hk]), if_pos hk] at h
    cases (Run.check_eq_ok.mp h).2
  · rw [if_neg (by simp [hk]), if_neg (by simp [hk]), if_pos hk] at h
    cases (Run.check_eq_ok.mp h).2
  · rw [if_neg (by simp [hk]), if_neg (by simp [hk]), if_neg (by simp [hk]), if_pos hk] at h
    cases (Run.check_eq_ok.mp h).2

/-- The tokens from a point inside as many conditionals as the stack has levels: of the innermost,
the rest of the current branch, the branches that follow and its end. -/
def Reads (flags : List Flag) (endLine : ℕ) (ts : List Token) : List Level → Prop
  | [] => ∃ src : Source, src.Ok ∧ src.tokens = ts
  | _ :: below =>
    ∃ (body : Source) (others : Branches) (last : Directive) (after out : List Token),
      body.Ok ∧ others.Ok ∧ last.Bare .hashEnd ∧ last.EndsLine after ∧
      ts = body.tokens ++ (others.tokens ++ (last.tokens ++ after)) ∧
      filterLoop flags endLine after 0 below = .ok out

theorem Reads.plain (ht : ¬t.kind.IsDirective) (h : Reads flags endLine rest stack) :
    Reads flags endLine (t :: rest) stack := by
  cases stack with
  | nil =>
    obtain ⟨src, hok, rfl⟩ := h
    exact ⟨.plain t src, ⟨ht, hok⟩, rfl⟩
  | cons level below =>
    obtain ⟨body, others, last, after, out, hbody, hothers, hlast, hends, rfl, hrun⟩ := h
    exact ⟨.plain t body, others, last, after, out, ⟨ht, hbody⟩, hothers, hlast, hends, rfl, hrun⟩

/-- A whole conditional in front. -/
theorem Reads.conditional {first last : Directive} {body : Source} {others : Branches}
    {after : List Token} (hfirst : first.Conditional .hashIf) (hbody : body.Ok)
    (hothers : others.Ok) (hlast : last.Bare .hashEnd) (hends : last.EndsLine after)
    (h : Reads flags endLine after stack) :
    Reads flags endLine
      (first.tokens ++ (body.tokens ++ (others.tokens ++ (last.tokens ++ after)))) stack := by
  cases stack with
  | nil =>
    obtain ⟨src, hok, rfl⟩ := h
    refine ⟨.conditional first body others last src, ⟨hfirst, hbody, hothers, hlast, hends, hok⟩, ?_⟩
    simp only [Source.tokens, List.append_assoc]
  | cons level below =>
    obtain ⟨body₂, others₂, last₂, after₂, out, hbody₂, hothers₂, hlast₂, hends₂, rfl, hrun⟩ := h
    refine ⟨.conditional first body others last body₂, others₂, last₂, after₂, out,
      ⟨hfirst, hbody, hothers, hlast, hends.of_append, hbody₂⟩, hothers₂, hlast₂, hends₂, ?_, hrun⟩
    simp only [Source.tokens, List.append_assoc]

theorem filterLoop_reads (n : ℕ) {ts out : List Token} {stack : List Level} (hn : ts.length ≤ n)
    (h : filterLoop flags endLine ts 0 stack = .ok out) : Reads flags endLine ts stack := by
  induction n generalizing ts stack out with
  | zero =>
    obtain rfl := List.eq_nil_of_length_eq_zero (Nat.le_zero.mp hn)
    cases stack with
    | nil => exact ⟨.nil, trivial, rfl⟩
    | cons level below => cases h
  | succ n ih =>
    cases ts with
    | nil =>
      cases stack with
      | nil => exact ⟨.nil, trivial, rfl⟩
      | cons level below => cases h
    | cons t rest =>
      have hshort : ∀ {d : Directive} {after : List Token}, t :: rest = d.tokens ++ after →
          after.length ≤ n := by
        intro d after hsplit
        have hlen := congrArg List.length hsplit
        have hpos : 0 < d.tokens.length := by simp [Directive.tokens]
        rw [List.length_append] at hlen
        omega
      by_cases hif : t.kind = .hashIf
      · obtain ⟨d, after, rfl, hnl, hsplit⟩ := exists_conditional (.inl hif) h
        have hafter := hshort hsplit
        rw [hsplit] at h
        obtain ⟨body, others, last, after₂, out₂, hbody, hothers, hlast, hends, rfl, hrun⟩ :=
          ih hafter (filterLoop_if ⟨hif, hnl⟩ h)
        have hafter₂ : after₂.length ≤ n := by
          simp only [List.length_append] at hafter
          omega
        rw [hsplit]
        exact Reads.conditional ⟨hif, hnl⟩ hbody hothers hlast hends (ih hafter₂ hrun)
      · by_cases hbranch : t.kind = .hashElseIf ∨ t.kind = .hashElse
        · cases stack with
          | nil => exact absurd h (filterLoop_outside (by tauto))
          | cons level below =>
            obtain ⟨d, after, hguard, hsplit⟩ : ∃ (d : Directive) (after : List Token),
                (d.Conditional .hashElseIf ∨ d.Bare .hashElse ∧ d.EndsLine after) ∧
                t :: rest = d.tokens ++ after := by
              rcases hbranch with hk | hk
              · obtain ⟨d, after, rfl, hnl, hsplit⟩ := exists_conditional (.inr hk) h
                exact ⟨d, after, .inl ⟨hk, hnl⟩, hsplit⟩
              · obtain ⟨d, after, rfl, hexpr, hends, hsplit⟩ := exists_bare t rest
                exact ⟨d, after, .inr ⟨⟨hk, hexpr⟩, hends⟩, hsplit⟩
            have hafter := hshort hsplit
            rw [hsplit] at h
            obtain ⟨body, others, last, after₂, out₂, hbody, hothers, hlast, hends, rfl, hrun⟩ :=
              ih hafter (filterLoop_branch hguard h)
            refine ⟨.nil, .cons d body others, last, after₂, out₂, trivial,
              ⟨hguard.imp_right fun hg => ⟨hg.1, hg.2.of_append⟩, hbody, hothers⟩, hlast, hends, ?_,
              hrun⟩
            rw [hsplit]
            simp only [Source.tokens, Branches.tokens, List.append_assoc, List.nil_append]
        · by_cases hend : t.kind = .hashEnd
          · cases stack with
            | nil => exact absurd h (filterLoop_outside (by tauto))
            | cons level below =>
              obtain ⟨d, after, rfl, hexpr, hends, hsplit⟩ := exists_bare t rest
              rw [hsplit] at h
              exact ⟨.nil, .nil, d, after, out, trivial, trivial, ⟨hend, hexpr⟩, hends, hsplit,
                filterLoop_end ⟨hend, hexpr⟩ hends h⟩
          · have hplain : ¬t.kind.IsDirective := by
              unfold TokenKind.IsDirective
              tauto
            obtain ⟨out', hrun, -⟩ := filterLoop_plain hplain h
            exact (ih (by simpa using hn) hrun).plain hplain

end Tree

mutual
/-- No branch follows an `#else`. -/
def Source.ElseLast : Source → Prop
  | .nil => True
  | .plain _ rest => rest.ElseLast
  | .conditional _ body others _ rest => body.ElseLast ∧ others.ElseLast ∧ rest.ElseLast

def Branches.ElseLast : Branches → Prop
  | .nil => True
  | .cons guard body others =>
    (guard.token.kind = .hashElse → others = .nil) ∧ body.ElseLast ∧ others.ElseLast
end

def Branches.AnyTrue (flags : List Flag) : Branches → Prop
  | .nil => False
  | .cons guard _ others =>
    guard.token.kind ≠ .hashElse ∧ guard.CondTrue flags ∨ others.AnyTrue flags

instance decidableAnyTrue (flags : List Flag) : (bs : Branches) → Decidable (bs.AnyTrue flags)
  | .nil => inferInstanceAs (Decidable False)
  | .cons guard _ others =>
    have := decidableAnyTrue flags others
    inferInstanceAs (Decidable (guard.token.kind ≠ .hashElse ∧ guard.CondTrue flags ∨ _))

mutual
/-- Selection by the conditions alone: the first branch whose condition is true, and an `#else`
only where its conditional has none. -/
def Source.selectTrue (flags : List Flag) : Source → List Token
  | .nil => []
  | .plain t rest => t :: rest.selectTrue flags
  | .conditional first body others _ rest =>
    (if first.CondTrue flags then body.selectTrue flags else others.selectTrue flags) ++
      rest.selectTrue flags

def Branches.selectTrue (flags : List Flag) : Branches → List Token
  | .nil => []
  | .cons guard body others =>
    if guard.token.kind = .hashElse ∧ ¬others.AnyTrue flags ∨
        guard.token.kind ≠ .hashElse ∧ guard.CondTrue flags then body.selectTrue flags
    else others.selectTrue flags
end

mutual
theorem Source.select_eq_selectTrue (src : Source) (hok : src.Ok) (h : src.ElseLast) :
    src.select flags = src.selectTrue flags := by
  cases src with
  | nil => rfl
  | plain t rest =>
    rw [Source.select, Source.selectTrue, rest.select_eq_selectTrue hok.2 h]
  | conditional first body others last rest =>
    obtain ⟨hfirst, hbody, hothers, -, -, hrest⟩ := hok
    have hholds : first.Holds flags ↔ first.CondTrue flags := by simp [Directive.Holds, hfirst.1]
    simp only [Source.select, Source.selectTrue, hholds, body.select_eq_selectTrue hbody h.1,
      others.select_eq_selectTrue hothers h.2.1, rest.select_eq_selectTrue hrest h.2.2]

theorem Branches.select_eq_selectTrue (bs : Branches) (hok : bs.Ok) (h : bs.ElseLast) :
    bs.select flags = bs.selectTrue flags := by
  cases bs with
  | nil => rfl
  | cons guard body others =>
    obtain ⟨hguard, hbody, hothers⟩ := hok
    rw [Branches.select, Branches.selectTrue, body.select_eq_selectTrue hbody h.2.1,
      others.select_eq_selectTrue hothers h.2.2]
    by_cases helse : guard.token.kind = .hashElse
    · rw [h.1 helse]
      simp [Directive.Holds, helse, Branches.AnyTrue]
    · simp [Directive.Holds, helse]
end

/-- An accepted stream is a tree, and what the filter keeps of it is what the tree selects: at
every level the first branch in order whose guard holds, an `#else` standing for a branch whose
condition is true; where no branch follows an `#else`, that is selection by the conditions. -/
theorem filterConditionals_selects {tokens out : List Token}
    (h : filterConditionals flags tokens = .ok out) :
    (∃ src : Source, src.Ok ∧ src.tokens = tokens) ∧
      ∀ src : Source, src.Ok → src.tokens = tokens →
        out = src.select flags ∧ (src.ElseLast → out = src.selectTrue flags) := by
  refine ⟨filterLoop_reads tokens.length le_rfl h, ?_⟩
  rintro src hok rfl
  have hrun := h
  unfold filterConditionals at hrun
  rw [← List.append_nil src.tokens] at hrun
  obtain ⟨out', hnil, rfl⟩ := src.filterLoop_eq hok (by simp [StartsNewline]) hrun
  cases hnil
  have hout : (if isActive [] then src.select flags else []) ++ [] = src.select flags := by
    simp [isActive]
  exact ⟨hout, fun hlast => hout.trans (src.select_eq_selectTrue hok hlast)⟩

section Sample

/-- A token of a sample stream, on one line. -/
def sampleToken (kind : TokenKind) (text : List UInt8) : Token := ⟨kind, text, 1, 1⟩

def sampleIf (kind : TokenKind) (flag : List UInt8) : Directive :=
  ⟨sampleToken kind [], [sampleToken .ident flag], some (sampleToken .newline []),
    by simp [sampleToken], by simp [sampleToken]⟩

def sampleBare (kind : TokenKind) : Directive :=
  ⟨sampleToken kind [], [], some (sampleToken .newline []), by simp, by simp [sampleToken]⟩

/-- Flags `a` unset and `b` set: `#if a`, `x`, `#else`, `y`, `#else if b`, `z`, `#end`. -/
def sampleElseFirst : Source :=
  .conditional (sampleIf .hashIf [97]) (.plain (sampleToken .ident [120]) .nil)
    (.cons (sampleBare .hashElse) (.plain (sampleToken .ident [121]) .nil)
      (.cons (sampleIf .hashElseIf [98]) (.plain (sampleToken .ident [122]) .nil) .nil))
    (sampleBare .hashEnd) .nil

/-- A condition that is true loses to an `#else` written before it. -/
theorem else_hides_true_condition : ¬∀ (flags : List Flag) (src : Source) (out : List Token),
    src.Ok → filterConditionals flags src.tokens = .ok out → out = src.selectTrue flags := by
  intro h
  have hok : sampleElseFirst.Ok := by
    simp [sampleElseFirst, Source.Ok, Branches.Ok, sampleIf, sampleBare, sampleToken,
      Directive.Conditional, Directive.Bare, Directive.EndsLine, TokenKind.IsDirective]
  have hrun : filterConditionals [⟨[98], none⟩] sampleElseFirst.tokens =
      .ok [sampleToken .ident [121]] := by decide +kernel
  have hselect : sampleElseFirst.selectTrue [⟨[98], none⟩] = [sampleToken .ident [122]] := by
    decide +kernel
  have hsame := h _ _ _ hok hrun
  rw [hselect] at hsame
  simp [sampleToken] at hsame

theorem filterConditionals_selects_else :
    (∃ src : Source, src.Ok ∧ src.tokens = sampleElseFirst.tokens) ∧
      ∀ src : Source, src.Ok → src.tokens = sampleElseFirst.tokens →
        [sampleToken .ident [121]] = src.select [⟨[98], none⟩] := by
  have hrun : filterConditionals [⟨[98], none⟩] sampleElseFirst.tokens =
      .ok [sampleToken .ident [121]] := by decide +kernel
  obtain ⟨hex, hall⟩ := filterConditionals_selects hrun
  exact ⟨hex, fun src hok hts => (hall src hok hts).1⟩

end Sample

end FcLang.Lexer
