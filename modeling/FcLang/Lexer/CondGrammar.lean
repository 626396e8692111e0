import FcLang.Lexer.Conditional

/-!
# The grammar of conditions

A derivation is a tree whose nodes carry the tokens of the condition and their
kinds. The evaluator accepts a line of tokens if it derives from the grammar,
and a line has one derivation at most.
-/

namespace FcLang.Lexer

/-- The rules of the grammar that repeat an operand between operators. -/
inductive ChainRule where
  | and | or

inductive Phrase where
  | chain (c : ChainRule)
  | unary
  | primary

namespace ChainRule

def operand : ChainRule → Phrase
  | .and => .unary
  | .or => .chain .and

def op : ChainRule → TokenKind
  | .and => .ampAmp
  | .or => .pipePipe

def combine : ChainRule → Bool → Bool → Bool
  | .and => Bool.and
  | .or => Bool.or

def connect : ChainRule → Prop → Prop → Prop
  | .and => And
  | .or => Or

theorem combine_iff (c : ChainRule) {x y : Bool} {p q : Prop} (hx : x = true ↔ p)
    (hy : y = true ↔ q) : c.combine x y = true ↔ c.connect p q := by
  cases c with
  | and => simp [combine, connect, hx, hy]
  | or => simp [combine, connect, hx, hy]

theorem combine_assoc (c : ChainRule) (x y z : Bool) :
    c.combine (c.combine x y) z = c.combine x (c.combine y z) := by
  cases c with
  | and => exact Bool.and_assoc x y z
  | or => exact Bool.or_assoc x y z

end ChainRule

/-- A derivation of a phrase. -/
inductive CondTree : Phrase → Type where
  | presence (name : Token) (hname : name.kind = .ident) : CondTree .primary
  | compare (name op str : Token) (hname : name.kind = .ident)
      (hop : op.kind = .eqEq ∨ op.kind = .bangEq) (hstr : str.kind = .stringLit) :
      CondTree .primary
  | paren (left : Token) (e : CondTree (.chain .or)) (right : Token)
      (hleft : left.kind = .lparen) (hright : right.kind = .rparen) : CondTree .primary
  | bang (t : Token) (ht : t.kind = .bang) (e : CondTree .unary) : CondTree .unary
  | plain (e : CondTree .primary) : CondTree .unary
  | last {c : ChainRule} (e : CondTree c.operand) : CondTree (.chain c)
  | more {c : ChainRule} (e : CondTree c.operand) (t : Token) (ht : t.kind = c.op)
      (rest : CondTree (.chain c)) : CondTree (.chain c)

/-- The flag is set and its value stands between the quotes of the literal. -/
def ValueIs (flags : List Flag) (name str : Token) : Prop :=
  ∃ value, (flagLookup flags name.text).bind Flag.value = some value ∧
    ∃ q q', str.text = q :: (value ++ [q'])

namespace CondTree

def tokens {p : Phrase} : CondTree p → List Token
  | .presence name _ => [name]
  | .compare name op str .. => [name, op, str]
  | .paren left e right .. => left :: (e.tokens ++ [right])
  | .bang t _ e => t :: e.tokens
  | .plain e => e.tokens
  | .last e => e.tokens
  | .more e t _ rest => e.tokens ++ t :: rest.tokens

/-- What a condition says of the flags. -/
def Holds (flags : List Flag) {p : Phrase} : CondTree p → Prop
  | .presence name _ => (flagLookup flags name.text).isSome = true
  | .compare name op str .. =>
    if op.kind = .eqEq then ValueIs flags name str else ¬ValueIs flags name str
  | .paren _ e _ .. => e.Holds flags
  | .bang _ _ e => ¬e.Holds flags
  | .plain e => e.Holds flags
  | .last e => e.Holds flags
  | .more (c := c) e _ _ rest => c.connect (e.Holds flags) (rest.Holds flags)

/-- How deep parentheses nest. -/
def depth {p : Phrase} : CondTree p → ℕ
  | .presence .. => 0
  | .compare .. => 0
  | .paren _ e .. => e.depth + 1
  | .bang _ _ e => e.depth
  | .plain e => e.depth
  | .last e => e.depth
  | .more e _ _ rest => max e.depth rest.depth

theorem tokens_ne_nil {p : Phrase} (t : CondTree p) : t.tokens ≠ [] := by
  induction t with
  | presence => simp [tokens]
  | compare => simp [tokens]
  | paren => simp [tokens]
  | bang => simp [tokens]
  | plain e ih => exact ih
  | last e ih => exact ih
  | more e t ht rest ih => simp [tokens]

theorem depth_le {p : Phrase} (t : CondTree p) : t.depth ≤ t.tokens.length := by
  induction t with
  | presence => simp [depth]
  | compare => simp [depth]
  | paren left e right hleft hright ih =>
    simp only [depth, tokens, List.length_cons, List.length_append]
    omega
  | bang t ht e ih =>
    simp only [depth, tokens, List.length_cons]
    omega
  | plain e ih => exact ih
  | last e ih => exact ih
  | more e t ht rest ih ih' =>
    simp only [depth, tokens, List.length_cons, List.length_append]
    omega

theorem primary_head (e : CondTree .primary) :
    ∃ t ts, e.tokens = t :: ts ∧ t.kind ≠ .bang := by
  cases e with
  | presence name hname => exact ⟨name, [], rfl, by simp [hname]⟩
  | compare name op str hname hop hstr => exact ⟨name, [op, str], rfl, by simp [hname]⟩
  | paren left e right hleft hright => exact ⟨left, _, rfl, by simp [hleft]⟩

end CondTree

theorem valueMatches_iff (flags : List Flag) (name str : Token) :
    valueMatches (flagLookup flags name.text) str = true ↔ ValueIs flags name str := by
  unfold valueMatches ValueIs
  cases (flagLookup flags name.text).bind Flag.value with
  | none => simp
  | some value =>
    simp only [Option.some.injEq, exists_eq_left', decide_eq_true_eq]
    constructor
    · rintro ⟨hlen, hmid⟩
      obtain ⟨q, text, htext⟩ := List.exists_cons_of_length_pos (by omega : 0 < str.text.length)
      rw [htext] at hlen hmid ⊢
      rw [List.drop_one, List.tail_cons] at hmid
      rw [List.length_cons] at hlen
      obtain ⟨q', hlast⟩ : ∃ q', text.drop value.length = [q'] :=
        List.length_eq_one_iff.mp (by rw [List.length_drop]; omega)
      exact ⟨q, q', by rw [← hmid, ← hlast, hmid, ← hmid, List.length_take,
        Nat.min_eq_left (by omega), List.take_append_drop]⟩
    · rintro ⟨q, q', htext⟩
      simp [htext]

/-- What the evaluator reads is a phrase, and the value is what the phrase says. -/
def CondEval.Sound (flags : List Flag) (p : Phrase) (f : CondEval) : Prop :=
  ∀ ts v rest, f ts = .ok (v, rest) →
    ∃ t : CondTree p, ts = t.tokens ++ rest ∧ (v = true ↔ t.Holds flags)

section Sound
variable {flags : List Flag} {directive : Token} {f : CondEval}

theorem evalPrimary_sound (hf : f.Sound flags (.chain .or)) :
    (evalPrimary flags directive f).Sound flags .primary := by
  intro ts v rest h
  cases ts with
  | nil => cases h
  | cons t ts =>
    unfold evalPrimary at h
    dsimp only at h
    by_cases hparen : t.kind = .lparen
    · rw [if_pos hparen] at h
      obtain ⟨⟨v', rest'⟩, hrun, hclosed⟩ := Run.bind_eq_ok.mp h
      obtain ⟨e, rfl, hv⟩ := hf _ _ _ hrun
      cases rest' with
      | nil => cases hclosed
      | cons close rest' =>
        dsimp only at hclosed
        by_cases hclose : close.kind = .rparen
        · rw [if_pos hclose] at hclosed
          cases hclosed
          exact ⟨.paren t e close hparen hclose, by simp [CondTree.tokens], hv⟩
        · rw [if_neg hclose] at hclosed
          cases hclosed
    · rw [if_neg hparen] at h
      by_cases hident : t.kind = .ident
      · rw [if_pos hident] at h
        cases ts with
        | nil =>
          cases h
          exact ⟨.presence t hident, rfl, Iff.rfl⟩
        | cons op operand =>
          dsimp only at h
          by_cases hop : op.kind = .eqEq ∨ op.kind = .bangEq
          · rw [if_pos hop] at h
            cases operand with
            | nil => cases h
            | cons str operand =>
              dsimp only at h
              by_cases hstr : str.kind = .stringLit
              · rw [if_pos hstr] at h
                cases h
                refine ⟨.compare t op str hident hop hstr, rfl, ?_⟩
                have hval := valueMatches_iff flags t str
                unfold CondTree.Holds
                split_ifs
                · exact hval
                · rw [← hval, Bool.not_eq_true', Bool.not_eq_true]
              · rw [if_neg hstr] at h
                cases h
          · rw [if_neg hop] at h
            cases h
            exact ⟨.presence t hident, rfl, Iff.rfl⟩
      · rw [if_neg hident] at h
        cases h

theorem evalUnary_sound (hf : f.Sound flags .primary) : (evalUnary f).Sound flags .unary := by
  intro ts
  induction ts with
  | nil =>
    intro v rest h
    obtain ⟨t, hts, hv⟩ := hf _ _ _ h
    exact ⟨.plain t, hts, hv⟩
  | cons t ts ih =>
    intro v rest h
    unfold evalUnary at h
    split_ifs at h with hbang
    · obtain ⟨⟨v', rest'⟩, hrun, h⟩ := Run.bind_eq_ok.mp h
      cases h
      obtain ⟨e, rfl, hv⟩ := ih _ _ hrun
      refine ⟨.bang t hbang e, rfl, ?_⟩
      rw [Bool.not_eq_true', Bool.eq_false_iff, Ne, hv]
      rfl
    · obtain ⟨e, hts, hv⟩ := hf _ _ _ h
      exact ⟨.plain e, hts, hv⟩

/-- The loop behind an operand `e`; `left` is what stood before it. -/
theorem evalChain_sound {c : ChainRule} (hf : f.Sound flags c.operand) {fuel : ℕ}
    (left : Option Bool) {v w : Bool} {ts rest : List Token} (e : CondTree c.operand)
    (he : w = true ↔ e.Holds flags)
    (h : evalChain c.op c.combine f fuel (left.elim w (c.combine · w)) ts = .ok (v, rest)) :
    ∃ t : CondTree (.chain c), e.tokens ++ ts = t.tokens ++ rest ∧
      ∃ u, (u = true ↔ t.Holds flags) ∧ v = left.elim u (c.combine · u) := by
  induction fuel generalizing left w ts e with
  | zero => cases h
  | succ fuel ih =>
    cases ts with
    | nil =>
      cases h
      exact ⟨.last e, rfl, w, he, rfl⟩
    | cons t ts =>
      unfold evalChain at h
      split_ifs at h with ht
      · obtain ⟨⟨right, rest'⟩, hrun, hgo⟩ := Run.bind_eq_ok.mp h
        obtain ⟨e', rfl, he'⟩ := hf _ _ _ hrun
        obtain ⟨tail, htail, u, hu, rfl⟩ :=
          ih (some (left.elim w (c.combine · w))) e' he' hgo
        refine ⟨.more e t ht tail, by simp [CondTree.tokens, htail], c.combine w u,
          c.combine_iff he hu, ?_⟩
        cases left with
        | none => rfl
        | some l => exact c.combine_assoc l w u
      · cases h
        exact ⟨.last e, rfl, w, he, rfl⟩

theorem evalChained_sound {c : ChainRule} (hf : f.Sound flags c.operand) :
    CondEval.Sound flags (.chain c) (fun ts => do
      let (left, rest) ← f ts
      evalChain c.op c.combine f (rest.length + 1) left rest) := by
  intro ts v rest h
  obtain ⟨⟨left, rest'⟩, hrun, hgo⟩ := Run.bind_eq_ok.mp h
  obtain ⟨e, rfl, he⟩ := hf _ _ _ hrun
  obtain ⟨t, ht, u, hu, rfl⟩ := evalChain_sound hf none e he hgo
  exact ⟨t, ht, hu⟩

theorem evalOr_sound (fuel : ℕ) :
    (evalOr flags directive fuel).Sound flags (.chain .or) := by
  induction fuel with
  | zero => intro ts v rest h; cases h
  | succ fuel ih =>
    exact evalChained_sound (c := .or)
      (evalChained_sound (c := .and) (evalUnary_sound (evalPrimary_sound ih)))

end Sound

/-- No token that goes on with the phrase comes next. -/
def Stops (p : Phrase) (rest : List Token) : Prop := ∀ t ∈ rest.head?,
  t.kind ≠ .eqEq ∧ t.kind ≠ .bangEq ∧
    match p with
    | .chain .or => t.kind ≠ .ampAmp ∧ t.kind ≠ .pipePipe
    | .chain .and => t.kind ≠ .ampAmp
    | _ => True

namespace Stops
variable {c : ChainRule} {t : Token} {rest : List Token}

theorem operand (h : Stops (.chain c) rest) : Stops c.operand rest := by
  intro t ht
  obtain ⟨h1, h2, h3⟩ := h t ht
  cases c with
  | and => exact ⟨h1, h2, trivial⟩
  | or => exact ⟨h1, h2, h3.1⟩

theorem of_op (ht : t.kind = c.op) : Stops c.operand (t :: rest) := by
  intro t' ht'
  cases ht'
  cases c with
  | and => simp [ht, ChainRule.op, ChainRule.operand]
  | or => simp [ht, ChainRule.op, ChainRule.operand]

theorem not_op (h : Stops (.chain c) (t :: rest)) : t.kind ≠ c.op := by
  obtain ⟨-, -, h3⟩ := h t rfl
  cases c with
  | and => exact h3
  | or => exact h3.2

theorem of_rparen (ht : t.kind = .rparen) : Stops (.chain .or) (t :: rest) := by
  intro t' ht'
  cases ht'
  simp [ht]

theorem nil (p : Phrase) : Stops p [] := fun _ h => nomatch h

end Stops

section Complete
variable {flags : List Flag} {directive : Token} {f : CondEval}

/-- The evaluator of a phrase, for parentheses that nest `fuel` deep. -/
def evalPhrase (flags : List Flag) (directive : Token) (fuel : ℕ) : Phrase → CondEval
  | .primary => evalPrimary flags directive (evalOr flags directive fuel)
  | .unary => evalUnary (evalPrimary flags directive (evalOr flags directive fuel))
  | .chain .and => evalAnd (evalUnary (evalPrimary flags directive (evalOr flags directive fuel)))
  | .chain .or => evalOr flags directive (fuel + 1)

theorem evalPhrase_chain (fuel : ℕ) (c : ChainRule) (ts : List Token) :
    evalPhrase flags directive fuel (.chain c) ts = (do
      let (left, rest) ← evalPhrase flags directive fuel c.operand ts
      evalChain c.op c.combine (evalPhrase flags directive fuel c.operand) (rest.length + 1)
        left rest) := by
  cases c <;> rfl

theorem evalPhrase_shrinks (fuel : ℕ) (p : Phrase) :
    (evalPhrase flags directive fuel p).Shrinks := by
  have hprimary : (evalPrimary flags directive (evalOr flags directive fuel)).Shrinks :=
    evalPrimary_shrinks (evalOr_shrinks fuel)
  cases p with
  | primary => exact hprimary
  | unary => exact evalUnary_shrinks hprimary
  | chain c =>
    cases c with
    | and => exact evalAnd_shrinks (evalUnary_shrinks hprimary)
    | or => exact evalOr_shrinks (fuel + 1)

/-- What stands before a chain is combined with its value; more fuel changes nothing. -/
theorem evalChain_combine {c : ChainRule} {fuel fuel' : ℕ} (hfuel : fuel ≤ fuel') {l left v : Bool}
    {ts rest : List Token} (h : evalChain c.op c.combine f fuel left ts = .ok (v, rest)) :
    evalChain c.op c.combine f fuel' (c.combine l left) ts = .ok (c.combine l v, rest) := by
  induction fuel generalizing fuel' left ts with
  | zero => cases h
  | succ fuel ih =>
    obtain ⟨fuel', rfl⟩ := Nat.exists_eq_add_of_lt hfuel
    cases ts with
    | nil =>
      cases h
      rfl
    | cons t ts =>
      unfold evalChain at h ⊢
      split_ifs at h ⊢ with ht
      · obtain ⟨⟨right, rest'⟩, hrun, hgo⟩ := Run.bind_eq_ok.mp h
        rw [hrun]
        have hassoc := ih (by omega : fuel ≤ fuel + fuel') hgo
        rw [← c.combine_assoc] at hassoc
        exact hassoc
      · cases h
        rfl

theorem evalChain_stops {c : ChainRule} {fuel : ℕ} {left : Bool} {rest : List Token}
    (h : Stops (.chain c) rest) :
    evalChain c.op c.combine f (fuel + 1) left rest = .ok (left, rest) := by
  cases rest with
  | nil => rfl
  | cons t rest =>
    unfold evalChain
    rw [if_neg h.not_op]

/-- The evaluator reads a whole phrase and leaves what does not go on with it. -/
theorem evalPhrase_tokens (flags : List Flag) (directive : Token) {p : Phrase} (t : CondTree p)
    {fuel : ℕ} (hfuel : t.depth ≤ fuel) {rest : List Token} (hrest : Stops p rest) :
    ∃ v, evalPhrase flags directive fuel p (t.tokens ++ rest) = .ok (v, rest) ∧
      (v = true ↔ t.Holds flags) := by
  induction t generalizing fuel rest with
  | presence name hname =>
    have hparen : ¬name.kind = .lparen := by simp [hname]
    refine ⟨(flagLookup flags name.text).isSome, ?_, Iff.rfl⟩
    change evalPrimary flags directive _ (name :: rest) = _
    unfold evalPrimary
    dsimp only
    rw [if_neg hparen, if_pos hname]
    cases rest with
    | nil => rfl
    | cons op rest =>
      obtain ⟨h1, h2, -⟩ := hrest op rfl
      dsimp only
      rw [if_neg (by simp [h1, h2])]
  | compare name op str hname hop hstr =>
    have hparen : ¬name.kind = .lparen := by simp [hname]
    have hval := valueMatches_iff flags name str
    refine ⟨if op.kind = .eqEq then valueMatches (flagLookup flags name.text) str
      else !valueMatches (flagLookup flags name.text) str, ?_, ?_⟩
    · change evalPrimary flags directive _ (name :: op :: str :: rest) = _
      unfold evalPrimary
      dsimp only
      rw [if_neg hparen, if_pos hname, if_pos hop, if_pos hstr]
    · unfold CondTree.Holds
      split_ifs
      · exact hval
      · rw [← hval, Bool.not_eq_true', Bool.not_eq_true]
  | paren left e right hleft hright ih =>
    obtain ⟨fuel, rfl⟩ : ∃ k, fuel = k + 1 :=
      Nat.exists_eq_succ_of_ne_zero (by simp only [CondTree.depth] at hfuel; omega)
    obtain ⟨v, hrun, hv⟩ := ih (Nat.le_of_succ_le_succ hfuel : e.depth ≤ fuel)
      (Stops.of_rparen hright : Stops _ (right :: rest))
    have hrun' : evalOr flags directive (fuel + 1) (e.tokens ++ right :: rest) =
        .ok (v, right :: rest) := hrun
    refine ⟨v, ?_, hv⟩
    change evalPrimary flags directive _ (left :: (e.tokens ++ [right] ++ rest)) = _
    rw [List.append_assoc, List.singleton_append]
    unfold evalPrimary
    dsimp only
    rw [if_pos hleft, hrun']
    exact if_pos hright
  | bang t ht e ih =>
    obtain ⟨v, hrun, hv⟩ := ih hfuel hrest
    refine ⟨!v, ?_, ?_⟩
    · change evalUnary _ (t :: (e.tokens ++ rest)) = _
      unfold evalUnary
      rw [if_pos ht]
      change evalUnary _ (e.tokens ++ rest) = _ at hrun
      rw [hrun]
      rfl
    · rw [Bool.not_eq_true', Bool.eq_false_iff, Ne, hv]
      rfl
  | plain e ih =>
    obtain ⟨v, hrun, hv⟩ := ih hfuel hrest
    refine ⟨v, ?_, hv⟩
    obtain ⟨t, ts, hts, hne⟩ := e.primary_head
    change evalUnary _ (e.tokens ++ rest) = _
    change evalPrimary flags directive _ (e.tokens ++ rest) = _ at hrun
    rw [hts] at hrun ⊢
    unfold evalUnary
    exact (if_neg hne).trans hrun
  | last e ih =>
    obtain ⟨v, hrun, hv⟩ := ih hfuel hrest.operand
    refine ⟨v, ?_, hv⟩
    change evalPhrase flags directive fuel _ (e.tokens ++ rest) = _
    rw [evalPhrase_chain, hrun]
    exact evalChain_stops hrest
  | @more c e t ht tail ih ih' =>
    obtain ⟨v, hrun, hv⟩ := ih (le_trans (le_max_left _ _) hfuel)
      (Stops.of_op ht : Stops _ (t :: (tail.tokens ++ rest)))
    obtain ⟨w, hrun', hw⟩ := ih' (le_trans (le_max_right _ _) hfuel) hrest
    rw [evalPhrase_chain] at hrun'
    obtain ⟨⟨left, rest'⟩, hleft, hgo⟩ := Run.bind_eq_ok.mp hrun'
    refine ⟨c.combine v w, ?_, c.combine_iff hv hw⟩
    change evalPhrase flags directive fuel _ (e.tokens ++ t :: tail.tokens ++ rest) = _
    rw [List.append_assoc, List.cons_append, evalPhrase_chain, hrun]
    have hlt := evalPhrase_shrinks fuel c.operand _ _ _ hleft
    change evalChain c.op c.combine _ (_ + 1) v (t :: (tail.tokens ++ rest)) = _
    unfold evalChain
    rw [if_pos ht, hleft]
    exact evalChain_combine (by rw [List.length_cons]; omega) hgo

end Complete

/-- Derivations of one line, each with a rest that does not go on with it, are the same. -/
theorem CondTree.unique {p : Phrase} (t : CondTree p) {t' : CondTree p} {rest rest' : List Token}
    (h : t.tokens ++ rest = t'.tokens ++ rest') (hrest : Stops p rest) (hrest' : Stops p rest') :
    t = t' ∧ rest = rest' := by
  induction t generalizing rest rest' with
  | presence name hname =>
    cases t' with
    | presence name' _ =>
      cases h
      exact ⟨rfl, rfl⟩
    | compare name' op _ _ hop _ =>
      cases h
      obtain ⟨h1, h2, -⟩ := hrest op rfl
      exact absurd hop (by simp [h1, h2])
    | paren left _ _ hleft _ =>
      obtain rfl : _ = left := (List.cons.inj h).1
      cases hname.symm.trans hleft
  | compare name op str hname hop hstr =>
    cases t' with
    | presence name' _ =>
      cases h
      obtain ⟨h1, h2, -⟩ := hrest' op rfl
      exact absurd hop (by simp [h1, h2])
    | compare =>
      cases h
      exact ⟨rfl, rfl⟩
    | paren left _ _ hleft _ =>
      obtain rfl : _ = left := (List.cons.inj h).1
      cases hname.symm.trans hleft
  | paren left e right hleft hright ih =>
    cases t' with
    | presence _ hname =>
      obtain rfl := (List.cons.inj h).1
      cases hname.symm.trans hleft
    | compare _ _ _ hname _ _ =>
      obtain rfl := (List.cons.inj h).1
      cases hname.symm.trans hleft
    | paren left' e' right' _ hright' =>
      simp only [tokens, List.cons_append, List.append_assoc, List.nil_append,
        List.cons.injEq] at h
      obtain ⟨rfl, htail⟩ := ih h.2 (.of_rparen hright) (.of_rparen hright')
      cases h.1
      cases htail
      exact ⟨rfl, rfl⟩
  | bang t ht e ih =>
    cases t' with
    | bang t' _ e' =>
      simp only [tokens, List.cons_append, List.cons.injEq] at h
      obtain ⟨rfl, rfl⟩ := ih h.2 hrest hrest'
      cases h.1
      exact ⟨rfl, rfl⟩
    | plain e' =>
      obtain ⟨t', ts, hts, hne⟩ := e'.primary_head
      simp only [tokens, hts, List.cons_append, List.cons.injEq] at h
      exact absurd (h.1 ▸ ht) hne
  | plain e ih =>
    cases t' with
    | bang t' ht e' =>
      obtain ⟨t, ts, hts, hne⟩ := e.primary_head
      simp only [tokens, hts, List.cons_append, List.cons.injEq] at h
      exact absurd (h.1 ▸ ht) hne
    | plain e' =>
      obtain ⟨rfl, rfl⟩ := ih h hrest hrest'
      exact ⟨rfl, rfl⟩
  | @last c e ih =>
    cases t' with
    | last e' =>
      obtain ⟨rfl, rfl⟩ := ih h hrest.operand hrest'.operand
      exact ⟨rfl, rfl⟩
    | more e' t' ht' tail' =>
      simp only [tokens, List.append_assoc, List.cons_append] at h
      obtain ⟨-, rfl⟩ := ih h hrest.operand (.of_op ht')
      exact absurd ht' hrest.not_op
  | @more c e t ht tail ih ih' =>
    cases t' with
    | last e' =>
      simp only [tokens, List.append_assoc, List.cons_append] at h
      obtain ⟨-, rfl⟩ := ih h (.of_op ht) hrest'.operand
      exact absurd ht hrest'.not_op
    | more e' t' ht' tail' =>
      simp only [tokens, List.append_assoc, List.cons_append] at h
      obtain ⟨rfl, hmore⟩ := ih h (.of_op ht) (.of_op ht')
      obtain ⟨rfl, hrests⟩ := List.cons.inj hmore
      obtain ⟨rfl, rfl⟩ := ih' hrests hrest hrest'
      exact ⟨rfl, rfl⟩

/-- A line is accepted if it derives, and its value is what its derivation says. -/
theorem evalOr_line_iff {flags : List Flag} {directive : Token} {line : List Token} {v : Bool} :
    evalOr flags directive (line.length + 1) line = .ok (v, []) ↔
      ∃ t : CondTree (.chain .or), t.tokens = line ∧ (v = true ↔ t.Holds flags) := by
  constructor
  · intro h
    obtain ⟨t, ht, hv⟩ := evalOr_sound _ _ _ _ h
    exact ⟨t, by simpa using ht.symm, hv⟩
  · rintro ⟨t, rfl, hv⟩
    obtain ⟨w, hrun, hw⟩ := evalPhrase_tokens flags directive t t.depth_le
      (Stops.nil _)
    rw [List.append_nil] at hrun
    have hvw : v = w := Bool.eq_iff_iff.mpr (hv.trans hw.symm)
    rw [hvw]
    exact hrun

end FcLang.Lexer
