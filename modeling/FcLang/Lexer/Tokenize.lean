import FcLang.Lexer.Raw
import FcLang.Lexer.Branches
import FcLang.Lexer.Layout

/-!
# The lexer

Scanner, filter and layout pass in a row. The layout pass drops no token of a
line and adds blocks that nest, none of which opens or closes inside brackets.
-/

namespace FcLang.Lexer
open TokenKind

def lexerTokenize (flags : List Flag) (source : List UInt8) : Run (List Token) := do
  let raw ← rawTokenize source
  let filtered ← filterConditionals flags raw
  layout filtered

variable {flags : List Flag}

mutual
theorem Source.select_sublist (flags : List Flag) (src : Source) : (src.select flags).Sublist src.tokens := by
  cases src with
  | nil => exact .slnil
  | plain t rest => exact (rest.select_sublist flags).cons_cons t
  | conditional first body others last rest =>
    rw [Source.select, Source.tokens]
    apply List.Sublist.append _ (rest.select_sublist flags)
    split_ifs
    · exact (((body.select_sublist flags).trans (List.sublist_append_right _ _)).trans
        (List.sublist_append_left _ _)).trans (List.sublist_append_left _ _)
    · exact ((others.select_sublist flags).trans (List.sublist_append_right _ _)).trans
        (List.sublist_append_left _ _)

theorem Branches.select_sublist (flags : List Flag) (bs : Branches) : (bs.select flags).Sublist bs.tokens := by
  cases bs with
  | nil => exact .slnil
  | cons guard body others =>
    rw [Branches.select, Branches.tokens]
    split_ifs
    · exact ((body.select_sublist flags).trans (List.sublist_append_right _ _)).trans
        (List.sublist_append_left _ _)
    · exact (others.select_sublist flags).trans (List.sublist_append_right _ _)
end

theorem Directive.getLast_ne_eof {d : Directive} (hd : d.token.kind = hashEnd) (hexpr : d.expr = [])
    {t : Token} (h : d.tokens.getLast? = some t) : t.kind ≠ eof := by
  cases hnl : d.newline with
  | none =>
    obtain rfl : d.token = t := by simpa [Directive.tokens, hexpr, hnl] using h
    simp [hd]
  | some nl =>
    obtain rfl : nl = t := by simpa [Directive.tokens, hexpr, hnl] using h
    simp [d.newline_kind nl hnl]

/-- The end of the file is outside every conditional. -/
theorem Source.select_getLast (flags : List Flag) (src : Source) (hok : src.Ok) {t : Token} (ht : t.kind = eof)
    (h : src.tokens.getLast? = some t) : (src.select flags).getLast? = some t := by
  cases src with
  | nil => exact h
  | plain u rest =>
    rw [Source.tokens, List.getLast?_cons] at h
    rw [Source.select, List.getLast?_cons]
    cases hrest : rest.tokens.getLast? with
    | none =>
      have hnil : rest.select flags = [] := by
        have hsub := rest.select_sublist flags
        rw [List.getLast?_eq_none_iff.mp hrest] at hsub
        exact List.sublist_nil.mp hsub
      rw [hrest] at h
      rw [hnil]
      exact h
    | some v =>
      rw [hrest] at h
      obtain rfl : v = t := by simpa using h
      rw [rest.select_getLast flags hok.2 ht hrest]
      rfl
  | conditional first body others last rest =>
    obtain ⟨-, -, -, hlast, -, hrest⟩ := hok
    rw [Source.tokens, List.getLast?_append] at h
    rw [Source.select, List.getLast?_append]
    cases htokens : rest.tokens.getLast? with
    | none =>
      rw [htokens, Option.none_or, List.getLast?_append] at h
      have hne : last.tokens ≠ [] := by simp [Directive.tokens]
      rw [List.getLast?_eq_some_getLast hne, Option.some_or] at h
      exact absurd ht (last.getLast_ne_eof hlast.1 hlast.2
        ((List.getLast?_eq_some_getLast hne).trans h))
    | some v =>
      rw [htokens] at h
      obtain rfl : v = t := by simpa using h
      rw [rest.select_getLast flags hrest ht htokens]
      rfl

theorem filterConditionals_isRaw {raw filtered : List Token} (hraw : IsRaw raw)
    (h : filterConditionals flags raw = .ok filtered) : IsRaw filtered := by
  obtain ⟨⟨src, hok, rfl⟩, hselect⟩ := filterConditionals_selects h
  rw [(hselect src hok rfl).1]
  obtain ⟨body, last, hsplit, hkind, htext, hbody⟩ := hraw
  have hlast := src.select_getLast flags hok hkind (by simp [hsplit])
  obtain ⟨kept, hkept⟩ := List.getLast?_eq_some_iff.mp hlast
  refine ⟨kept, last, hkept, hkind, htext, fun t ht => ?_⟩
  have hsub := src.select_sublist flags
  rw [hkept, hsplit] at hsub
  -- the file ends once, so what is kept in front of its end comes from in front of it
  have hsub' : kept.Sublist body := (List.append_sublist_append_right [last]).mp hsub
  exact hbody t (hsub'.subset ht)

/-- Every bracket is matched. -/
inductive Balanced : List Token → Prop where
  | nil : Balanced []
  | plain {ts : List Token} (t : Token) : ¬t.kind.Opens → ¬t.kind.Closes → Balanced ts →
      Balanced (t :: ts)
  | group {inner rest : List Token} (opener closer : Token) : opener.kind.Opens →
      closer.kind.Closes → Balanced inner → Balanced rest →
      Balanced (opener :: inner ++ closer :: rest)

def bracketsFrom (depth : ℕ) (ts : List Token) : ℕ :=
  ts.foldl (fun depth t => bracketStep depth t.kind) depth

theorem Balanced.bracketsFrom_eq {ts : List Token} (h : Balanced ts) (depth : ℕ) :
    bracketsFrom depth ts = depth := by
  induction h generalizing depth with
  | nil => rfl
  | plain t ho hc _ ih =>
    rw [bracketsFrom, List.foldl_cons, bracketStep_plain ho hc]
    exact ih depth
  | group opener closer ho hc _ _ ihInner ihRest =>
    have hinner := ihInner (depth + 1)
    have hrest := ihRest depth
    unfold bracketsFrom at hinner hrest ⊢
    rw [List.foldl_append, List.foldl_cons, List.foldl_cons, bracketStep_opens ho, hinner,
      bracketStep_closes hc, Nat.add_sub_cancel, hrest]

/-- Inside a balanced list the depth never falls below the one it started from. -/
theorem Balanced.le_bracketsFrom {ts : List Token} (h : Balanced ts) {us : List Token}
    (hus : us <+: ts) (depth : ℕ) : depth ≤ bracketsFrom depth us := by
  induction h generalizing us depth with
  | nil =>
    obtain rfl := List.prefix_nil.mp hus
    exact le_rfl
  | plain t ho hc _ ih =>
    cases us with
    | nil => exact le_rfl
    | cons u us =>
      obtain ⟨rfl, htail⟩ := List.cons_prefix_cons.mp hus
      rw [bracketsFrom, List.foldl_cons, bracketStep_plain ho hc]
      exact ih htail depth
  | @group inner rest opener closer ho hc hinner _ ihInner ihRest =>
    cases us with
    | nil => exact le_rfl
    | cons u us =>
      obtain ⟨rfl, ⟨back, htail⟩⟩ := List.cons_prefix_cons.mp hus
      rw [bracketsFrom, List.foldl_cons, bracketStep_opens ho]
      rcases List.append_eq_append_iff.mp htail with ⟨us', rfl, -⟩ | ⟨us', rfl, hus'⟩
      · exact (Nat.le_succ depth).trans (ihInner (List.prefix_append us us') (depth + 1))
      · have heq := hinner.bracketsFrom_eq (depth + 1)
        unfold bracketsFrom at heq
        rw [List.foldl_append, heq]
        cases us' with
        | nil => exact Nat.le_succ depth
        | cons v us' =>
          obtain ⟨rfl, hrest⟩ := List.cons_eq_cons.mp hus'
          rw [List.foldl_cons, bracketStep_closes hc, Nat.add_sub_cancel]
          exact ihRest ⟨back, hrest.symm⟩ depth

/-- Between matched brackets no block opens or closes. -/
theorem Laid.no_blocks {out tail : List Token} {depth brackets : ℕ}
    (h : Laid out depth brackets) (htail : ∀ t ∈ tail, ¬t.kind.Closes)
    {before inner after : List Token} {opener closer : Token}
    (hsplit : out ++ tail = before ++ opener :: inner ++ closer :: after)
    (hopen : opener.kind.Opens) (hclose : closer.kind.Closes) (hinner : Balanced inner) :
    ∀ t ∈ inner, t.kind ≠ .indent ∧ t.kind ≠ .dedent := by
  intro t ht
  rcases List.append_eq_append_iff.mp hsplit with ⟨us, -, hus⟩ | ⟨us, rfl, -⟩
  · exact absurd hclose (htail closer (by rw [hus]; simp))
  · obtain ⟨front, back, rfl⟩ := List.append_of_mem ht
    have hdepth : 0 < bracketsAfter (before ++ opener :: front) := by
      have hle := hinner.le_bracketsFrom (List.prefix_append front (t :: back))
        (bracketsAfter before + 1)
      unfold bracketsFrom at hle
      unfold bracketsAfter at hle ⊢
      rw [List.foldl_append, List.foldl_cons, bracketStep_opens hopen]
      omega
    by_contra hblock
    have hlayout : t.kind = .indent ∨ t.kind = .dedent := by tauto
    have hlaid : Laid (before ++ opener :: front ++ t :: (back ++ us)) depth brackets := by
      simpa using h
    have hzero := hlaid.outside hlayout
    omega

/-- The DEDENTs at the end of the file never outnumber the blocks that are open. -/
theorem Laid.dedents_le_tail {out : List Token} {depth brackets : ℕ}
    (h : Laid out depth brackets) (last : Token) {ts : List Token}
    (hts : ts <+: out ++
      (List.replicate depth (layoutToken .dedent last) ++ [layoutToken .eof last])) :
    dedents ts ≤ indents ts := by
  obtain ⟨back, hback⟩ := hts
  rcases List.append_eq_append_iff.mp hback with ⟨us, rfl, -⟩ | ⟨us, rfl, hus⟩
  · exact h.dedents_le (List.prefix_append ts us)
  · have hcount : dedents us ≤ depth := by
      have hle : dedents us ≤ dedents (us ++ back) := by simp [dedents]
      rw [← hus] at hle
      simpa [dedents, layoutToken, List.countP_replicate] using hle
    have heq := h.indents_eq
    simp only [dedents, indents, List.countP_append] at heq hcount ⊢
    omega

/-- The lexer ends its output with the file, keeps the tokens of every line in order, and opens and
closes blocks in a nested fashion, outside brackets. -/
theorem lexerTokenize_lossless {source : List UInt8} {out : List Token}
    (h : lexerTokenize flags source = .ok out) :
    ∃ raw filtered : List Token, rawTokenize source = .ok raw ∧
      filterConditionals flags raw = .ok filtered ∧
      (∃ (body : List Token) (last : Token), out = body ++ [last] ∧ last.kind = eof ∧
        ∀ t ∈ body, t.kind ≠ eof) ∧
      lineTokens out = filtered.filter (fun t => t.kind ≠ newline) ∧
      (∀ ts, ts <+: out → dedents ts ≤ indents ts) ∧ dedents out = indents out ∧
      ∀ (before inner after : List Token) (opener closer : Token),
        out = before ++ opener :: inner ++ closer :: after →
        opener.kind.Opens → closer.kind.Closes → Balanced inner →
        ∀ t ∈ inner, t.kind ≠ indent ∧ t.kind ≠ dedent := by
  obtain ⟨raw, hraw, h⟩ := Run.bind_eq_ok.mp h
  obtain ⟨filtered, hfiltered, h⟩ := Run.bind_eq_ok.mp h
  obtain ⟨s, hloop, h⟩ := Run.bind_eq_ok.mp h
  obtain ⟨body, last, rfl, hkind, htext, hbody⟩ :=
    filterConditionals_isRaw (rawTokenize_isRaw hraw) hfiltered
  have hkinds : ∀ t ∈ body ++ [last], t.kind.OfSource ∨ t.kind = eof := by
    intro t ht
    rcases List.mem_append.mp ht with ht | ht
    · exact .inl (hbody t ht)
    · obtain rfl := List.mem_singleton.mp ht
      exact .inr hkind
  obtain ⟨hlaid, hline⟩ := layoutLoop_inv (s := Layout.init) _ 0 hkinds (by simp) Laid.nil hloop
  have hout : out = s.out ++
      (List.replicate s.stack.length (layoutToken dedent last) ++ [layoutToken eof last]) := by
    cases h
    simp [emitDedents]
  have heof : layoutToken eof last = last := by rw [layoutToken, ← hkind, ← htext]
  have htail : ∀ t ∈ List.replicate s.stack.length (layoutToken dedent last) ++
      [layoutToken eof last], ¬t.kind.Closes := by
    intro t ht
    rcases List.mem_append.mp ht with ht | ht
    · rw [List.eq_of_mem_replicate ht]
      simp [layoutToken, TokenKind.Closes]
    · rw [List.mem_singleton.mp ht]
      simp [layoutToken, TokenKind.Closes]
  have hblocks := hlaid.indents_eq
  subst hout
  refine ⟨raw, _, hraw, hfiltered, ?_, ?_, fun ts hts => hlaid.dedents_le_tail last hts, ?_, ?_⟩
  · refine ⟨s.out ++ List.replicate s.stack.length (layoutToken dedent last), layoutToken eof last,
      by rw [List.append_assoc], rfl, fun t ht => ?_⟩
    rcases List.mem_append.mp ht with ht | ht
    · exact hlaid.ne_eof ht
    · rw [List.eq_of_mem_replicate ht]
      simp [layoutToken]
  · have honly : onLines body = body.filter fun t => t.kind ≠ newline := by
      apply List.filter_congr
      intro t ht
      simp [(hbody t ht).2.2]
    have hlast : onLines [last] = [] := by simp [onLines, hkind]
    have hsplit : onLines (body ++ [last]) = onLines body ++ onLines [last] := List.filter_append ..
    rw [lineTokens_append, hline, hsplit, hlast, honly, List.filter_append, heof]
    simp [lineTokens, Layout.init, layoutToken, hkind]
  · simp only [dedents, indents, List.countP_append] at hblocks ⊢
    simp only [List.countP_replicate, layoutToken, List.countP_singleton]
    simp
    omega
  · intro before inner after opener closer hsplit hopen hclose hinner
    exact hlaid.no_blocks htail hsplit hopen hclose hinner

/-- A match block at the column of its enclosing block, closed by a shorter line. -/
def sampleSource : List UInt8 := bytes "let f = (x) ->
  match x with
  | 0 -> (1 +
 2)
  | _ -> 3
g
"

theorem lexerTokenize_lossless_match :
    ∃ out, lexerTokenize [] sampleSource = .ok out ∧ dedents out = indents out := by
  have hok : (lexerTokenize [] sampleSource).toBool = true := by decide +kernel
  cases hrun : lexerTokenize [] sampleSource with
  | error e =>
    rw [hrun] at hok
    cases hok
  | ok out =>
    obtain ⟨raw, filtered, -, -, -, -, -, hblocks, -⟩ := lexerTokenize_lossless hrun
    exact ⟨out, rfl, hblocks⟩

end FcLang.Lexer
