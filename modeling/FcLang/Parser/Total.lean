import FcLang.Parser.Safe

/-!
# Every parser function returns on a printed line

One lemma for each function, by induction on how much of the line is left: at a
given length each function may use those below that length, and those proved
before it at the same length.
-/

namespace FcLang.Parser
open Ctx
open Lexer (TokenKind)

/-- The computation returns wherever `n` tokens of a line are left. -/
def SafeAt (g : List Name) (K : List Tok) {α : Type} (x : Parse α) (n : ℕ) (Q : α → Prop) : Prop :=
  ∀ {s w}, At g K s w → w.length = n → Reaches g K x s w 0 Q

/-- The functions that the others call on what is left of the line. -/
structure Safe (g : List Name) (K : List Tok) (c : Ctx) (n : ℕ) : Prop where
  typeSuffix : ∀ base, SafeAt g K (parseTypeSuffix c base) n fun t => base.StubLed → t.StubLed
  type : SafeAt g K (parseType c) n fun _ => True
  typeArgList : SafeAt g K (parseTypeArgList c) n fun _ => True
  paramTypes : SafeAt g K (parseParamTypes c) n fun _ => True
  constAtom : SafeAt g K (parseConstAtom c) n fun _ => True
  constMembers : ∀ e, SafeAt g K (parseConstMembers c e) n fun _ => True
  constInner : ∀ m, SafeAt g K (parseConstArithInner c m) n fun _ => True
  constLoop : ∀ m left, SafeAt g K (constArithLoop c m left) n fun _ => True
  expr : ∀ m, SafeAt g K (parseExpr c m) n (Ungated g)
  exprLoop : ∀ m start left, Ungated g left → SafeAt g K (exprLoop c m start left) n (Ungated g)
  args : SafeAt g K (parseArgs c) n fun _ => True

section
variable {g : List Name} {K : List Tok} {n : ℕ} {c : Ctx} {base : TypeTree}

theorem onLine_absurd {k k' : TokenKind} {P : Prop} (h : onLine k = true) (he : k = k')
    (h' : onLine k' = false) : P :=
  absurd he (kind_ne h h')

/-- The kind after a bracket is the line's. -/
theorem At.second {s : State} {w : List Tok} (h : At g K s w)
    (hK : endsLine (peekAt K 0) = true) (hb : s.kind 0 = .lbracket) :
    ∃ t u w', w = t :: u :: w' ∧ u.kind = s.kind 1 ∧ u.kind ≠ .rbracket ∧
      onLine u.kind = true := by
  obtain ⟨t, w, rfl⟩ := h.head hK (by rw [hb]; rfl)
  have hsound := h.good.1.bracket (h.kind_zero.symm.trans hb)
  cases w with
  | nil => exact absurd rfl hsound.1
  | cons u w =>
    refine ⟨t, u, w, rfl, ?_, hsound.2, ?_⟩
    · rw [h.kind_succ, List.cons_append, peekAt_cons_zero]
    · rw [onLine, h.good.2.1.kind, Bool.true_or]

theorem reaches_sizeLiteral {α : Type} {t : Tok} {y : ℕ → Parse α} {s : State} {w : List Tok} {d : ℤ}
    {R : α → Prop} (h : At g K s w)
    (hy : ∀ m s', Moved g K 0 s w s' w → Reaches g K (y m) s' w d R) :
    Reaches g K (parseSizeLiteral t >>= y) s w d R := by
  have hsize : ∃ m s', parseSizeLiteral t s = some (m, s') ∧ Moved g K 0 s w s' w := by
    unfold parseSizeLiteral
    simp only
    split
    · exact ⟨1, s.diagError, rfl, h.diagError⟩
    · exact ⟨_, s, rfl, Moved.refl h⟩
  obtain ⟨m, s', hms, hm⟩ := hsize
  obtain ⟨b, s'', w', hb, hm', hR⟩ := hy m s' hm
  refine ⟨b, s'', w', ?_, hm.trans hm' (zero_add d).le, hR⟩
  show (parseSizeLiteral t s).bind _ = _
  rw [hms]
  exact hb

section
variable (hK : endsLine (peekAt K 0) = true)
  (H : ∀ c, c.genericNames = g → ∀ m < n, Safe g K c m) (hc : c.genericNames = g)
include hK H hc

theorem safe_typeSuffix : SafeAt g K (parseTypeSuffix c base) n fun t => base.StubLed → t.StubLed := by
  intro s w h hn
  rw [parseTypeSuffix]
  apply Reaches.get
  split
  · exact Reaches.diagError h (Reaches.pure h.diagError.reached id)
  split
  · rename_i hk
    refine Reaches.step hK h (by rw [hk]; rfl) (by simp [hk]) fun t w' hw _ ha => ?_
    exact (H c hc w'.length (by rw [← hn, hw]; simp)).typeSuffix _ ha rfl
  split
  · rename_i hk
    obtain ⟨t, u, w', rfl, hu, hne, _⟩ := h.second hK hk.1
    exact absurd (hu.trans hk.2.1) hne
  split
  · rename_i hk
    refine Reaches.step hK h (by rw [hk.2.1]; rfl) (by simp [hk.2.1]) fun t w' hw _ ha => ?_
    obtain ⟨t', u, w'', hw', hu, _, _⟩ := h.second hK hk.2.1
    obtain ⟨rfl, rfl⟩ := List.cons.inj (hw.symm.trans hw')
    have hkind : s.advance.kind 0 = .intLit := by rw [ha.kind_zero, hu, hk.2.2.1]
    refine Reaches.step hK ha (by rw [hkind]; rfl) (by simp [hkind]) fun u' v hv _ ha' => ?_
    obtain ⟨rfl, rfl⟩ := List.cons.inj hv
    refine reaches_sizeLiteral ha' fun m s' hm => ?_
    refine Reaches.expects hK hm.reached rfl (by simp) fun _ s'' v' hm' => ?_
    have hlen : v'.length < n := by
      have := hm'.length
      rw [← hn, hw, List.length_cons, List.length_cons]
      omega
    exact (H c hc _ hlen).typeSuffix _ hm'.reached rfl
  split
  · rename_i hk
    obtain ⟨t, u, w', rfl, hu, _, hon⟩ := h.second hK hk.2.1
    exact onLine_absurd hon (hu.trans hk.2.2.1) rfl
  split
  · rename_i hk
    refine Reaches.step hK h (by rw [hk.2.1]; rfl) (by simp [hk.2.1]) fun t w' hw _ ha => ?_
    have hlen : w'.length < n := by rw [← hn, hw]; simp
    rw [parseConstArith]
    refine Reaches.bind ((H { c with inConstExpr := true } hc _ hlen).constInner 1 ha rfl)
      (fun size s' v hm _ => ?_) (zero_add 0).le
    refine Reaches.expects hK hm.reached rfl (by simp) fun _ s'' v' hm' => ?_
    exact (H c hc _ ((hm'.length.trans hm.length).trans_lt hlen)).typeSuffix _ hm'.reached rfl
  split
  · rename_i hk
    refine Reaches.step hK h (by rw [hk]; rfl) (by simp [hk]) fun t w' hw _ ha => ?_
    exact (H c hc w'.length (by rw [← hn, hw]; simp)).typeSuffix _ ha rfl
  split
  · rename_i hk
    refine Reaches.step hK h (by rw [hk]; rfl) (by simp [hk]) fun t w' hw _ ha => ?_
    exact (H c hc w'.length (by rw [← hn, hw]; simp)).typeSuffix _ ha rfl
  · exact Reaches.pure h id

variable (base) in
theorem safe_atMost {m : ℕ} (hm : m ≤ n) : SafeAt g K (parseTypeSuffix c base) m fun t => base.StubLed → t.StubLed :=
  safe_typeSuffix hK (fun c hc k hk => H c hc k (hk.trans_le hm)) hc

theorem safe_stubArgs {name : Name} {s : State} {w : List Tok} (h : At g K s w) (hn : w.length ≤ n)
    (hlt : s.kind 0 = .lt) : Reaches g K (parseStubArgs c name) s w 0 TypeTree.StubLed := by
  obtain ⟨t, w, rfl⟩ := h.head hK (by rw [hlt]; rfl)
  have hw : w.length < n := by simpa using hn
  have hkind := h.kind_zero.symm.trans hlt
  have hbegin := h.speculateBegin
  have hopen := hbegin.advance
  rw [excess_singleton (by simp [hkind]) (by simp [hkind])] at hopen
  obtain ⟨args, s', w', hargs, hm, -⟩ := (H c hc _ hw).typeArgList hopen.reached rfl
  have hspec := hopen.trans hm (zero_add 0).le
  by_cases hgt : s'.atTypeargGt = true
  · have hkept := hspec.speculateEnd
    obtain ⟨w'', hclose⟩ := hkept.reached.consumeTypeargGt hK
    have hlen := hclose.length.trans (hm.length.trans hw.le)
    obtain ⟨a, s'', v, ha, hm', hled⟩ :=
      safe_atMost (.stub name args) hK H hc hlen hclose.reached rfl
    refine ⟨a, s'', v, ?_, (hkept.trans hclose (zero_add 0).le).trans hm' (zero_add 0).le, hled trivial⟩
    simpa only [parseStubArgs, bind_run, get_run, set_run, advance, hargs, modify_run, ite_run, hgt,
      Option.bind_some, if_true] using ha
  · have hback := hspec.giveUp h
    obtain ⟨a, s'', v, ha, hm', hled⟩ :=
      safe_atMost (.stub name []) hK H hc hn h.unpark.reached rfl
    refine ⟨a, s'', v, ?_, h.unpark.trans hm' (zero_add 0).le, hled trivial⟩
    simpa only [parseStubArgs, bind_run, get_run, set_run, advance, hargs, modify_run, ite_run, hgt,
      Option.bind_some, Bool.false_eq_true, if_false, hback] using ha

omit H hc in
theorem safe_dottedName {name : Name} {s : State} {w : List Tok} (h : At g K s w) :
    Reaches g K (parseDottedName name) s w 0 fun _ => True := by
  obtain ⟨u, w', rfl, hskip, hu⟩ := skipMembers_consumes h.good hK
  have hdrop := h.drop
  rw [hu] at hdrop
  refine ⟨dottedName name s.rest, { s with rest := w' ++ K }, w', ?_, hdrop, trivial⟩
  rw [parseDottedName, h.rest, hskip]

theorem safe_params {m : ℕ} (hm : m < n) : SafeAt g K (parseParams c) m fun _ => True := by
  intro s w h hn
  rw [parseParams]
  apply Reaches.get
  split
  · exact Reaches.pure h trivial
  split
  · rename_i hk
    exact onLine_absurd (h.kind_onLine hK) hk rfl
  · exact (H c hc m hm).paramTypes h hn

theorem safe_type : SafeAt g K (parseType c) n fun _ => True := by
  intro s w h hn
  have hon := h.kind_onLine hK
  rw [parseType]
  apply Reaches.current
  split
  case h_1 hk => exact onLine_absurd hon hk rfl
  case h_2 hk => exact onLine_absurd hon hk rfl
  case h_3 hk => exact onLine_absurd hon hk rfl
  case h_4 hk => exact onLine_absurd hon hk rfl
  case h_5 hk =>
    have hk : s.kind 0 = .ident := hk
    refine Reaches.step hK h (by rw [hk]; rfl) (by simp [hk]) fun t w' hw ht ha => ?_
    subst hw
    have hname : typeFromName s.current.text = none := by
      rw [h.current]
      exact (h.good.1.name (ht.trans hk)).2
    rw [hname]
    refine Reaches.bind (safe_dottedName hK ha) (fun name s' v hm _ => ?_) (zero_add 0).le
    have hlen : v.length < n := by
      have := hm.length
      rw [← hn, List.length_cons]
      omega
    apply Reaches.get
    split
    · rename_i hlt
      exact (safe_stubArgs hK H hc hm.reached hlen.le hlt).mono le_rfl fun _ _ => trivial
    · exact (safe_atMost _ hK H hc hlen.le hm.reached rfl).mono le_rfl fun _ _ => trivial
  case h_6 hk => exact onLine_absurd hon hk rfl
  case h_7 hk =>
    refine Reaches.opens hK h hk fun t w' hw ha hx => ?_
    have hlen : w'.length < n := by rw [← hn, hw]; simp
    refine Reaches.bind (r := 1 + 0) (safe_params hK H hc hlen ha rfl) ?_ (by omega)
    rintro ⟨params, isVariadic⟩ s' v hm -
    refine Reaches.expects_rparen hm.reached (by have := hm.excess; omega) fun _ s'' v' hm' => ?_
    have hle : v'.length ≤ n := (hm'.length.trans hm.length).trans hlen.le
    apply Reaches.get
    split
    · rename_i hk'
      exact onLine_absurd (hm'.reached.kind_onLine hK) hk' rfl
    · split
      · exact (safe_atMost _ hK H hc hle hm'.reached rfl).mono le_rfl fun _ _ => trivial
      · exact Reaches.diagError hm'.reached (Reaches.pure hm'.reached.diagError.reached trivial)
  case h_8 => exact Reaches.diagError h (Reaches.pure h.diagError.reached trivial)

omit H hc in
theorem safe_unexpected {k : TokenKind} {s : State} {w : List Tok} (h : At g K s w)
    (hk : s.kind 0 = k) (hl : k ≠ .lparen) : Reaches g K (unexpected k) s w 0 (Ungated g) := by
  unfold unexpected
  refine Reaches.diagError h ?_
  have ha := h.diagError.reached
  have hk' : s.diagError.kind 0 = k := by rw [State.kind, ha.rest, ← h.rest]; exact hk
  split
  · exact Reaches.pure ha trivial
  · rename_i hstop
    have hend : endsLine k = false := by
      cases hk : k <;> simp [hk, endsLine] at hstop ⊢
    refine Reaches.step hK ha (by rw [hk']; exact hend) (by rw [hk']; exact hl) fun _ _ _ _ ha' => ?_
    exact Reaches.pure ha' trivial

theorem safe_constMembers {e : Expr} : SafeAt g K (parseConstMembers c e) n fun _ => True := by
  intro s w h hn
  rw [parseConstMembers]
  apply Reaches.get
  split
  · rename_i hk
    refine Reaches.step hK h (by rw [hk]; rfl) (by simp [hk]) fun t w' hw _ ha => ?_
    refine Reaches.expects hK ha rfl (by simp) fun m s' v hm => ?_
    have hlen : v.length < n := by
      have := hm.length
      rw [← hn, hw, List.length_cons]
      omega
    exact (H c hc _ hlen).constMembers _ hm.reached rfl
  · exact Reaches.pure h trivial

theorem safe_constAtom : SafeAt g K (parseConstAtom c) n fun _ => True := by
  intro s w h hn
  have hon := h.kind_onLine hK
  rw [parseConstAtom]
  apply Reaches.current
  split
  case h_1 hk =>
    have hk : s.kind 0 = .intLit := hk
    refine Reaches.step hK h (by rw [hk]; rfl) (by simp [hk]) fun _ _ _ _ ha => ?_
    exact Reaches.pure ha trivial
  case h_2 hk => exact onLine_absurd hon hk rfl
  case h_3 hk =>
    have hk : s.kind 0 = .ident := hk
    refine Reaches.step hK h (by rw [hk]; rfl) (by simp [hk]) fun t w' hw _ ha => ?_
    exact (H c hc w'.length (by rw [← hn, hw]; simp)).constMembers _ ha rfl
  case h_4 hk =>
    have hk : s.kind 0 = .minus := hk
    refine Reaches.step hK h (by rw [hk]; rfl) (by simp [hk]) fun t w' hw _ ha => ?_
    have hlen : w'.length < n := by rw [← hn, hw]; simp
    refine Reaches.bind ((H c hc _ hlen).constAtom ha rfl) (fun _ _ _ hm _ => ?_) (zero_add 0).le
    exact Reaches.pure hm.reached trivial
  case h_5 hk =>
    refine Reaches.opens hK h hk fun t w' hw ha hx => ?_
    have hlen : w'.length < n := by rw [← hn, hw]; simp
    rw [parseBracketedExpr]
    refine Reaches.bind (r := 1 + 0) ((H { c with blockArmArrow := false } hc _ hlen).expr 1 ha rfl)
      (fun _ _ _ hm _ => ?_) (by omega)
    refine Reaches.expects_rparen hm.reached (by have := hm.excess; omega) fun _ _ _ hm' => ?_
    exact Reaches.pure hm'.reached trivial
  case h_6 hk => exact onLine_absurd hon hk rfl
  case h_7 hk => exact onLine_absurd hon hk rfl
  case h_8 _ _ _ _ hl _ _ =>
    exact (safe_unexpected hK h rfl hl).mono le_rfl fun _ _ => trivial

theorem safe_constLoop {m : ℕ} {left : Expr} {k : ℕ} (hk : k ≤ n) :
    SafeAt g K (constArithLoop c m left) k fun _ => True := by
  intro s w h hn
  rw [constArithLoop]
  apply Reaches.current
  split
  · exact Reaches.pure h trivial
  · rename_i hop
    have hends : endsLine (s.kind 0) = false ∧ s.kind 0 ≠ .lparen := by
      change ¬(constPrec (s.kind 0) = 0 ∨ _) at hop
      refine ⟨?_, ?_⟩
      · cases hz : s.kind 0 <;> simp [hz, endsLine, constPrec] at hop ⊢
      · rintro hz
        simp [hz, constPrec] at hop
    refine Reaches.step hK h hends.1 hends.2 fun t w' hw _ ha => ?_
    have hlen : w'.length < n := by rw [hw, List.length_cons] at hn; omega
    refine Reaches.bind ((H c hc _ hlen).constInner _ ha rfl) (fun _ _ v hm _ => ?_) (zero_add 0).le
    exact (H c hc _ (hm.length.trans_lt hlen)).constLoop _ _ hm.reached rfl

theorem safe_constInner {m : ℕ} : SafeAt g K (parseConstArithInner c m) n fun _ => True := by
  intro s w h hn
  rw [parseConstArithInner]
  refine Reaches.bind (safe_constAtom hK H hc h hn) (fun left _ _ hm _ => ?_) (zero_add 0).le
  exact safe_constLoop hK H hc (hm.length.trans_eq hn) hm.reached rfl

theorem safe_constArith : SafeAt g K (parseConstArith c 1) n fun _ => True := by
  intro s w h hn
  rw [parseConstArith]
  exact safe_constInner (c := { c with inConstExpr := true }) hK H hc h hn

theorem safe_typeArg : SafeAt g K (parseTypeArg c) n fun _ => True := by
  intro s w h hn
  rw [parseTypeArg]
  apply Reaches.get
  split
  · refine Reaches.bind (safe_constArith hK H hc h hn) (fun expr s' w' hm _ => ?_) (zero_add 0).le
    split
    · split
      · exact Reaches.diagError hm.reached (Reaches.pure hm.reached.diagError.reached trivial)
      · exact Reaches.pure hm.reached trivial
    · exact Reaches.pure hm.reached trivial
  · exact safe_type hK H hc h hn

theorem safe_typeArgList : SafeAt g K (parseTypeArgList c) n fun _ => True := by
  intro s w h hn
  rw [parseTypeArgList]
  refine Reaches.bind (safe_typeArg hK H hc h hn) (fun t s' w' hm _ => ?_) (zero_add 0).le
  apply Reaches.get
  split
  · rename_i hk
    refine Reaches.step hK hm.reached (by rw [hk]; rfl) (by simp [hk]) fun _ v hv _ ha => ?_
    have hlen : v.length < n := by
      have := hm.length
      rw [hv, List.length_cons] at this
      omega
    refine Reaches.bind ((H c hc _ hlen).typeArgList ha rfl) (fun _ _ _ hm' _ => ?_) (zero_add 0).le
    exact Reaches.pure hm'.reached trivial
  · exact Reaches.pure hm.reached trivial

theorem safe_paramTypes : SafeAt g K (parseParamTypes c) n fun _ => True := by
  intro s w h hn
  rw [parseParamTypes]
  refine Reaches.bind (safe_type hK H hc h hn) (fun t s' w' hm _ => ?_) (zero_add 0).le
  apply Reaches.get
  split
  · rename_i hk
    refine Reaches.step hK hm.reached (by rw [hk]; rfl) (by simp [hk]) fun _ v hv _ ha => ?_
    have hlen : v.length < n := by
      have := hm.length
      rw [hv, List.length_cons] at this
      omega
    apply Reaches.get
    split
    · rename_i hk'
      exact onLine_absurd (ha.kind_onLine hK) hk' rfl
    · refine Reaches.bind ((H c hc _ hlen).paramTypes ha rfl) ?_ (zero_add 0).le
      rintro ⟨ts, isVariadic⟩ _ _ hm' -
      exact Reaches.pure hm'.reached trivial
  · exact Reaches.pure hm.reached trivial

end

section
variable {k : ℕ} (hK : endsLine (peekAt K 0) = true)
  (S : ∀ c, c.genericNames = g → ∀ m ≤ k, Safe g K c m) (hc : c.genericNames = g)
  {s : State} {w : List Tok} (h : At g K s w) (hk : w.length ≤ k)
include S hc h hk

theorem safe_bracketed {m : ℕ} : Reaches g K (parseBracketedExpr c m) s w 0 (Ungated g) := by
  rw [parseBracketedExpr]
  exact (S { c with blockArmArrow := false } hc _ hk).expr m h rfl

theorem safe_binaryRhs {left : Expr} {op : TokenKind} :
    Reaches g K (parseBinaryRhs c left op) s w 0 (Ungated g) := by
  rw [parseBinaryRhs]
  refine Reaches.bind ((S c hc _ hk).expr _ h rfl) (fun _ _ _ hm _ => ?_) (zero_add 0).le
  exact Reaches.pure hm.reached trivial

theorem safe_callArgs : Reaches g K (parseCallArgs c) s w 0 fun _ => True := by
  rw [parseCallArgs]
  apply Reaches.get
  split
  · exact Reaches.pure h trivial
  · exact (S c hc _ hk).args h rfl

theorem safe_hi : Reaches g K (parseHi c) s w 0 fun _ => True := by
  rw [parseHi]
  apply Reaches.get
  split
  · exact Reaches.pure h trivial
  · refine Reaches.bind (safe_bracketed S hc h hk) (fun _ _ _ hm _ => ?_) (zero_add 0).le
    exact Reaches.pure hm.reached trivial

include hK

omit S hc hk in
/-- A `<` behind an expression that names nothing generic is a comparison. -/
theorem genericSuffix_none {left : Expr} (hleft : gateGenericName c left = false) :
    parseGenericSuffix c left s = some (none, s) := by
  rw [parseGenericSuffix, bind_run, get_run, Option.bind_some, h.rest,
    structLitTypeargScan_line h.good hK, hleft]
  rfl

omit S hc hk in
theorem safe_genericSuffix {left : Expr} (hleft : gateGenericName c left = false) :
    Reaches g K (parseGenericSuffix c left) s w 0 (· = none) :=
  ⟨none, s, w, genericSuffix_none hK h hleft, Moved.refl h, rfl⟩

omit hK hk S h in
theorem gate_of_ungated {left : Expr} (hleft : Ungated g left) : gateGenericName c left = false := by
  subst hc
  cases left <;> simp_all [gateGenericName, Ungated]

/-- What stands after a consumed infix operator; a call may close its own parenthesis. -/
theorem infix_safe (start : Start) {left : Expr} {t : Tok} (hleft : Ungated g left)
    (ht : Sound g t w) {d : ℤ} (hd : d = if t.kind = .lparen then 1 else 0)
    (hx : t.kind = .lparen → 1 ≤ excess .lparen .rparen w) :
    Reaches g K (parseInfix c start left t.kind) s w d (Ungated g) := by
  have hon : onLine t.kind = true := by rw [onLine, ht.kind, Bool.true_or]
  rw [parseInfix.eq_def]
  split
  case h_1 hop =>
    rw [hop, if_neg (by simp)] at hd
    exact hd ▸ Reaches.get (Reaches.pure h trivial)
  case h_2 hop =>
    rw [hop, if_neg (by simp)] at hd
    exact hd ▸ Reaches.pure h trivial
  case h_3 hop =>
    rw [hop, if_neg (by simp)] at hd
    subst hd
    have hident : s.kind 0 = .ident := by
      have hm := ht.member hop
      cases w with
      | nil => simp [peekAt, eofTok] at hm
      | cons u v => exact h.kind_zero.trans hm
    obtain ⟨u, v, rfl⟩ := h.head hK (by rw [hident]; rfl)
    have hu := h.kind_zero.symm.trans hident
    have hadv := h.advance
    rw [excess_singleton (by simp [hu]) (by simp [hu])] at hadv
    refine ⟨.field left u.text [], s.advance, v, ?_, hadv, (h.good.1.name hu).1⟩
    rw [bind_run, expect_of_eq hident, h.current]
    rfl
  case h_4 hop => exact onLine_absurd hon hop rfl
  case h_5 hop =>
    rw [hop, if_neg (by simp)] at hd
    subst hd
    apply Reaches.get
    split
    · rename_i hdots
      refine Reaches.step hK h (by rw [hdots]; rfl) (by simp [hdots]) fun _ v hv _ ha => ?_
      have hlen : v.length ≤ k := by rw [hv, List.length_cons] at hk; omega
      refine Reaches.bind (safe_hi S hc ha hlen) (fun _ _ _ hm _ => ?_) (zero_add 0).le
      exact Reaches.expects hK hm.reached rfl (by simp) fun _ _ _ hm' => Reaches.pure hm'.reached trivial
    · refine Reaches.bind (safe_bracketed S hc h hk) (fun _ s' v hm _ => ?_) (zero_add 0).le
      apply Reaches.get
      split
      · rename_i hdots
        refine Reaches.step hK hm.reached (by rw [hdots]; rfl) (by simp [hdots]) fun _ v' hv _ ha => ?_
        have hlen : v'.length ≤ k := by
          have := hm.length
          rw [hv, List.length_cons] at this
          omega
        refine Reaches.bind (safe_hi S hc ha hlen) (fun _ _ _ hm' _ => ?_) (zero_add 0).le
        exact Reaches.expects hK hm'.reached rfl (by simp)
          fun _ _ _ hm'' => Reaches.pure hm''.reached trivial
      · exact Reaches.expects hK hm.reached rfl (by simp)
          fun _ _ _ hm' => Reaches.pure hm'.reached trivial
  case h_6 hop =>
    rw [if_pos hop] at hd
    subst hd
    refine Reaches.bind (r := 1 + 0) (safe_callArgs S hc h hk) (fun _ _ _ hm _ => ?_) (by omega)
    refine Reaches.expects_rparen hm.reached (by have := hm.excess; have := hx hop; omega)
      fun _ _ _ hm' => ?_
    exact Reaches.pure hm'.reached trivial
  case h_7 hop =>
    rw [hop, if_neg (by simp)] at hd
    subst hd
    refine Reaches.bind ((S c hc _ hk).expr _ h rfl) (fun _ _ _ hm _ => ?_) (zero_add 0).le
    exact Reaches.pure hm.reached trivial
  case h_8 hop =>
    rw [hop, if_neg (by simp)] at hd
    subst hd
    refine Reaches.bind (safe_genericSuffix hK h (gate_of_ungated hc hleft)) ?_ (zero_add 0).le
    rintro r s' w' hm rfl
    exact safe_binaryRhs S hc hm.reached (hm.length.trans hk)
  case h_9 _ _ _ _ _ hl _ _ =>
    rw [if_neg hl] at hd
    subst hd
    exact safe_binaryRhs S hc h hk

theorem safe_blockItem : Reaches g K (parseBlockItem c) s w 0 (Ungated g) := by
  have hon := h.kind_onLine hK
  rw [parseBlockItem]
  apply Reaches.get
  split
  case h_7 => exact (S c hc _ hk).expr _ h rfl
  all_goals
    rename_i hk'
    exact onLine_absurd hon hk' rfl

/-- Inside a group, the sequence is one expression. -/
theorem safe_inlineSeq (hx : 1 ≤ excess .lparen .rparen w) :
    Reaches g K (parseInlineSeq c) s w 0 fun es => ∃ e, es = [e] ∧ Ungated g e := by
  rw [parseInlineSeq]
  refine Reaches.bind (safe_blockItem hK S hc h hk) (fun e s' w' hm he => ?_) (zero_add 0).le
  apply Reaches.get
  have hx' : 1 ≤ excess .lparen .rparen w' := by have := hm.excess; omega
  obtain ⟨t, v, rfl⟩ : ∃ t v, w' = t :: v := by
    cases w' with
    | nil => simp [excess] at hx'
    | cons t v => exact ⟨t, v, rfl⟩
  split
  · rename_i hsemi
    have := hm.reached.good.1.kind
    rw [← hm.reached.kind_zero, hsemi] at this
    simp [inLine] at this
  · exact Reaches.pure hm.reached ⟨e, rfl, he⟩

end

section
variable (hK : endsLine (peekAt K 0) = true)
  (H : ∀ c, c.genericNames = g → ∀ m < n, Safe g K c m) (hc : c.genericNames = g)
include hK H hc

theorem safe_exprLoop {m : ℕ} {start : Start} {left : Expr} {k : ℕ} (hk : k ≤ n)
    (hleft : Ungated g left) : SafeAt g K (exprLoop c m start left) k (Ungated g) := by
  intro s w h hn
  rw [exprLoop]
  apply Reaches.get
  split
  · exact Reaches.pure h hleft
  simp only [gate_of_ungated hc hleft, Bool.false_eq_true, false_and, and_false, if_false]
  split
  · exact Reaches.pure h hleft
  · rename_i hprec
    have hend : endsLine (s.kind 0) = false := by
      cases hz : s.kind 0 <;> simp [hz, endsLine, infixPrec] at hprec ⊢
    obtain ⟨t, w, rfl⟩ := h.head hK hend
    have hadv := h.advance
    have hlen : w.length ≤ n - 1 := by rw [List.length_cons] at hn; omega
    have hpos : n - 1 < n := by rw [List.length_cons] at hn; omega
    have hrparen : t.kind ≠ .rparen := by
      rintro hr
      rw [h.kind_zero, hr] at hend
      simp [endsLine] at hend
    have hclose : t.kind = .lparen → 1 ≤ excess .lparen .rparen w := by
      intro hl
      have hp := h.good.parens
      simp only [excess, hl, if_true] at hp
      omega
    refine Reaches.advances (r := if t.kind = .lparen then 1 else 0) hadv h.current ?_ ?_
    · refine Reaches.bind (r := 0) (infix_safe hK (fun c hc m hm => H c hc m (by omega)) hc hadv.reached
        hlen _ hleft h.good.1 rfl hclose) (fun e s' v hm he => ?_) (by omega)
      exact (H c hc _ (by have := hm.length; omega)).exprLoop _ _ _ he hm.reached rfl
    · by_cases hl : t.kind = .lparen
      · simp [excess, hl]
      · simp [excess, hl, hrparen]

omit H hc in
/-- On a printed line no braced literal follows a name. -/
theorem identPrefix_run {s : State} {w : List Tok} {name : Name} {t : Tok}
    (h : At g K s (t :: w)) (ht : t.kind = .ident) :
    parseIdentPrefix name s = some (.ident name, s.advance) := by
  have hlit := atSliceLiteral_line (K := K) ht h.good hK
  have hbrace := (Within.refl (w := w) (K := K)).not_structLit h.good.2 hK
  have hmembers := (skipMembers_within (K := K) h.good.2 hK).not_structLit h.good.2 hK
  have htail : s.rest.tail = w ++ K := by rw [h.rest]; rfl
  rw [parseIdentPrefix, bind_run, get_run, Option.bind_some, htail, h.rest, hlit, hbrace, hmembers]
  rfl

omit H hc in
theorem safe_identPrefix {s : State} {w : List Tok} {name : Name} (h : At g K s w)
    (hk : s.kind 0 = .ident) (hname : name ∉ g) :
    Reaches g K (parseIdentPrefix name) s w 0 (Ungated g) := by
  obtain ⟨t, w, rfl⟩ := h.head hK (by rw [hk]; rfl)
  have ht := h.kind_zero.symm.trans hk
  have hadv := h.advance
  rw [excess_singleton (by simp [ht]) (by simp [ht])] at hadv
  exact ⟨_, _, w, identPrefix_run hK h ht, hadv, hname⟩

theorem safe_unary {s : State} {w : List Tok} {op : TokenKind} (h : At g K s w) (hn : w.length = n)
    (hk : endsLine (s.kind 0) = false) (hl : s.kind 0 ≠ .lparen) :
    Reaches g K (parseUnary c op) s w 0 (Ungated g) := by
  rw [parseUnary]
  refine Reaches.step hK h hk hl fun _ v hv _ ha => ?_
  refine Reaches.bind ((H c hc v.length (by rw [← hn, hv]; simp)).expr _ ha rfl)
    (fun _ _ _ hm _ => ?_) (zero_add 0).le
  exact Reaches.pure hm.reached trivial

theorem safe_grouped {s : State} {w : List Tok} (h : At g K s w) (hn : w.length = n)
    (hk : s.kind 0 = .lparen) : Reaches g K (parseGrouped c) s w 0 (Ungated g) := by
  rw [parseGrouped]
  refine Reaches.opens hK h hk fun t v hv ha hx => ?_
  have hlen : v.length < n := by rw [← hn, hv]; simp
  refine Reaches.bind (r := 1 + 0) (safe_inlineSeq (c := { c with blockArmArrow := false }) hK
    (fun c hc m hm => H c hc m (hm.trans_lt hlen)) hc ha le_rfl hx) ?_ (by omega)
  rintro es s' v' hm ⟨e, rfl, he⟩
  refine Reaches.expects_rparen hm.reached (by have := hm.excess; omega) fun _ _ _ hm' => ?_
  exact Reaches.pure hm'.reached he

omit H hc in
theorem safe_bufferSize {s : State} {w : List Tok} (target : TypeTree) (h : At g K s w) :
    Reaches g K (parseBufferSize target) s w 0 fun _ => True := by
  rw [parseBufferSize]
  apply Reaches.get
  split
  · rename_i hk
    refine Reaches.step hK h (by rw [hk.2.1]; rfl) (by simp [hk.2.1]) fun t w' hw _ ha => ?_
    obtain ⟨t', u, w'', hw', hu, _, _⟩ := h.second hK hk.2.1
    obtain ⟨rfl, rfl⟩ := List.cons.inj (hw.symm.trans hw')
    have hkind : s.advance.kind 0 = .intLit := by rw [ha.kind_zero, hu, hk.2.2.1]
    refine Reaches.step hK ha (by rw [hkind]; rfl) (by simp [hkind]) fun u' v hv _ ha' => ?_
    obtain ⟨rfl, rfl⟩ := List.cons.inj hv
    refine reaches_sizeLiteral ha' fun m s' hm => ?_
    have hclose : s'.kind 0 = .rbracket := by
      subst hw
      have h2 := hk.2.2.2
      rw [h.kind_succ] at h2
      rw [State.kind, hm.reached.rest]
      exact h2
    refine Reaches.step hK hm.reached (by rw [hclose]; rfl) (by simp [hclose]) fun _ _ _ _ hb => ?_
    exact Reaches.pure hb trivial
  · exact Reaches.pure h trivial

/-- The type of a tentative cast, read from behind its `(`. -/
theorem cast_target {s : State} {w : List Tok} (h : At g K s w) (hn : w.length = n)
    (hk : s.kind 0 = .lparen) : ∃ target bufferSize s₁ s₂ w₂,
      parseType c s.speculateBegin.advance = some (target, s₁) ∧
      parseBufferSize target s₁ = some (bufferSize, s₂) ∧ Moved g K (-1) s.speculateBegin w s₂ w₂ := by
  obtain ⟨t, w, rfl⟩ := h.head hK (by rw [hk]; rfl)
  have hz := h.kind_zero.symm.trans hk
  have hopen := h.speculateBegin.advance
  rw [show excess .lparen .rparen [t] = -1 by simp [excess, hz]] at hopen
  obtain ⟨target, s₁, w₁, htarget, hm, -⟩ :=
    (H c hc w.length (by rw [← hn]; simp)).type hopen.reached rfl
  obtain ⟨bufferSize, s₂, w₂, hsize, hm', -⟩ := safe_bufferSize hK target hm.reached
  exact ⟨target, bufferSize, s₁, s₂, w₂, htarget, hsize,
    (hopen.trans hm le_rfl).trans hm' (by omega)⟩

theorem safe_cast {s : State} {w : List Tok} (h : At g K s w) (hn : w.length = n)
    (hk : s.kind 0 = .lparen) : Reaches g K (parseCast c) s w 0 (Ungated g) := by
  obtain ⟨target, bufferSize, s₁, s₂, w₂, htarget, hsize, hm⟩ := cast_target hK H hc h hn hk
  have hx := hm.excess
  have hp := h.good.parens
  obtain ⟨t, v, rfl⟩ : ∃ t v, w₂ = t :: v := by
    cases w₂ with
    | nil => simp only [excess] at hx; omega
    | cons t v => exact ⟨t, v, rfl⟩
  by_cases hcast : s₂.kind 0 = .rparen ∧ nameSuffixOnly target
      (s.kind 1 = .ident ∧ (typeFromName (s.rest.getD 1 eofTok).text).isNone) = false
  · have hkept := hm.speculateEnd
    have hclose := hkept.reached.advance
    have htk := hm.reached.kind_zero.symm.trans hcast.1
    rw [show excess .lparen .rparen [t] = 1 by simp [excess, htk]] at hclose
    have hlen : v.length < n := by
      have := hm.length
      rw [List.length_cons] at this
      omega
    obtain ⟨operand, s₃, w₃, hoperand, hm', -⟩ := (H c hc _ hlen).expr precPrefix hclose.reached rfl
    refine ⟨.cast target operand bufferSize, s₃, w₃, ?_,
      (hkept.trans hclose (by omega)).trans hm' (zero_add 0).le, trivial⟩
    simp only [parseCast, bind_run, get_run, set_run, advance, htarget, hsize, modify_run, ite_run,
      Option.bind_some, if_pos hcast, hoperand, pure_run]
  · have hback := hm.giveUp h
    obtain ⟨e, s₃, w₃, he, hm', hu⟩ := safe_grouped hK H hc h.unpark.reached hn hk
    refine ⟨e, s₃, w₃, ?_, h.unpark.trans hm' (zero_add 0).le, hu⟩
    simp only [parseCast, bind_run, get_run, set_run, advance, htarget, hsize, modify_run, ite_run,
      Option.bind_some, if_neg hcast, hback]
    exact he

omit H hc in
/-- On a printed line a `(` begins no lambda and no slice literal. -/
theorem parenPrefix_run {s : State} {w : List Tok} (h : At g K s w) (hk : s.kind 0 = .lparen) :
    parseParenPrefix c s = if tryCast s.rest.tail then parseCast c s else parseGrouped c s := by
  have hplain : atSliceLitBrackets (skipGroup .lparen .rparen 0 s.rest) = false ∧
      ¬(s.kind 1 = .rparen ∧ s.kind 2 = .arrow) ∧
      ¬((s.kind 1 = .ident ∨ (s.rest.getD 1 eofTok).isKeyword) ∧ s.kind 2 = .colon) := by
    obtain ⟨t, w, rfl⟩ := h.head hK (by rw [hk]; rfl)
    have hz := h.kind_zero.symm.trans hk
    have hx := h.good.parens
    obtain ⟨u, v, rfl⟩ : ∃ u v, w = u :: v := by
      cases w with
      | nil => simp [excess, hz] at hx
      | cons u v => exact ⟨u, v, rfl⟩
    have hthird : onLine (s.kind 2) = true := by
      rw [h.kind_succ, List.cons_append, peekAt_cons_succ]
      exact h.good.2.2.peek hK
    refine ⟨?_, fun hc => onLine_absurd hthird hc.2 rfl, fun hc => onLine_absurd hthird hc.2 rfl⟩
    rw [h.rest]
    exact (skipGroup_opened hz h.good h.good.1.parens).not_brackets h.good.2 hK
  rw [parseParenPrefix, bind_run, get_run, Option.bind_some, hplain.1]
  simp only [Bool.false_eq_true, if_false, if_neg hplain.2.1, if_neg hplain.2.2, ite_run]

theorem safe_parenPrefix {s : State} {w : List Tok} (h : At g K s w) (hn : w.length = n)
    (hk : s.kind 0 = .lparen) : Reaches g K (parseParenPrefix c) s w 0 (Ungated g) := by
  rw [Reaches, parenPrefix_run hK h hk]
  split
  · exact safe_cast hK H hc h hn hk
  · exact safe_grouped hK H hc h hn hk

theorem prefix_safe : SafeAt g K (parsePrefix c) n (Ungated g) := by
  intro s w h hn
  have hon := h.kind_onLine hK
  have literal : ∀ {k : TokenKind} {e : Expr}, s.current.kind = k → endsLine k = false → k ≠ .lparen →
      Ungated g e → Reaches g K (advance >>= fun _ => pure e) s w 0 (Ungated g) := by
    rintro k e rfl hend hl he
    exact Reaches.step hK h hend hl fun _ _ _ _ ha => Reaches.pure ha he
  have unary : ∀ {k op : TokenKind}, s.current.kind = k → endsLine k = false → k ≠ .lparen →
      Reaches g K (parseUnary c op) s w 0 (Ungated g) := by
    rintro k op rfl hend hl
    exact safe_unary hK H hc h hn hend hl
  rw [parsePrefix]
  apply Reaches.current
  split
  case h_1 hk => exact literal hk rfl (by simp) trivial
  case h_2 hk => exact literal hk rfl (by simp) trivial
  case h_3 hk => exact literal hk rfl (by simp) trivial
  case h_4 hk => exact literal hk rfl (by simp) trivial
  case h_5 hk => exact literal hk rfl (by simp) trivial
  case h_6 hk => exact literal hk rfl (by simp) trivial
  case h_7 hk => exact literal hk rfl (by simp) trivial
  case h_8 hk =>
    have hk : s.kind 0 = .ident := hk
    refine safe_identPrefix hK h hk ?_
    obtain ⟨t, w, rfl⟩ := h.head hK (by rw [hk]; rfl)
    rw [h.current]
    exact (h.good.1.name (h.kind_zero.symm.trans hk)).1
  case h_9 hk => exact safe_parenPrefix hK H hc h hn hk
  case h_10 hk => exact unary hk rfl (by simp)
  case h_11 hk => exact unary hk rfl (by simp)
  case h_12 hk => exact unary hk rfl (by simp)
  case h_13 hk => exact unary hk rfl (by simp)
  case h_14 hk => exact unary hk rfl (by simp)
  case h_15 hk =>
    have hk : s.kind 0 = .lt := hk
    apply Reaches.get
    split
    · rename_i hvar
      obtain ⟨t, w, rfl⟩ := h.head hK (by rw [hk]; rfl)
      rw [h.kind_succ] at hvar
      exact onLine_absurd (h.good.2.peek hK) hvar rfl
    · refine Reaches.diagError h ?_
      have hk' : s.diagError.kind 0 = .lt := by rw [State.kind, h.diagError.reached.rest, ← h.rest]; exact hk
      exact Reaches.step hK h.diagError.reached (by rw [hk']; rfl) (by simp [hk'])
        fun _ _ _ _ ha => Reaches.pure ha trivial
  case h_49 =>
    have hl : s.current.kind ≠ .lparen := by assumption
    exact safe_unexpected hK h rfl hl
  all_goals
    rename_i hk
    exact onLine_absurd hon hk rfl

theorem safe_expr {m : ℕ} : SafeAt g K (parseExpr c m) n (Ungated g) := by
  intro s w h hn
  rw [parseExpr]
  apply Reaches.get
  refine Reaches.bind (prefix_safe hK H hc h hn) (fun left _ _ hm hleft => ?_) (zero_add 0).le
  exact safe_exprLoop hK H hc (hm.length.trans_eq hn) hleft hm.reached rfl

theorem safe_args : SafeAt g K (parseArgs c) n fun _ => True := by
  intro s w h hn
  rw [parseArgs]
  have harg : Reaches g K (parseBracketedExpr c 1) s w 0 (Ungated g) := by
    rw [parseBracketedExpr]
    exact safe_expr (c := { c with blockArmArrow := false }) hK H hc h hn
  refine Reaches.bind harg (fun arg s' w' hm _ => ?_) (zero_add 0).le
  apply Reaches.get
  split
  · rename_i hk
    refine Reaches.step hK hm.reached (by rw [hk]; rfl) (by simp [hk]) fun _ v hv _ ha => ?_
    have hlen : v.length < n := by
      have := hm.length
      rw [hv, List.length_cons] at this
      omega
    refine Reaches.bind ((H c hc _ hlen).args ha rfl) (fun _ _ _ hm' _ => ?_) (zero_add 0).le
    exact Reaches.pure hm'.reached trivial
  · exact Reaches.pure hm.reached trivial

end

/-- Wherever it stands on a printed line, the parser returns. -/
theorem safe (hK : endsLine (peekAt K 0) = true) (hc : c.genericNames = g) : Safe g K c n := by
  induction n using Nat.strong_induction_on generalizing c with
  | _ n ih =>
    have H : ∀ c, c.genericNames = g → ∀ m < n, Safe g K c m := fun c hc m hm => ih m hm hc
    exact {
      typeSuffix := fun base => safe_typeSuffix hK H hc
      type := safe_type hK H hc
      typeArgList := safe_typeArgList hK H hc
      paramTypes := safe_paramTypes hK H hc
      constAtom := safe_constAtom hK H hc
      constMembers := fun e => safe_constMembers hK H hc
      constInner := fun m => safe_constInner hK H hc
      constLoop := fun m left => safe_constLoop hK H hc le_rfl
      expr := fun m => safe_expr hK H hc
      exprLoop := fun m start left hleft => safe_exprLoop hK H hc le_rfl hleft
      args := safe_args hK H hc }

end
end FcLang.Parser
