import FcLang.Parser.Loop

/-!
# Bare const arithmetic over a written expression

A size slot reads its tokens as atoms between `+ - * / %`. It reads some
written expressions whole; in any other it stops before a token that closes
nothing, so the bracket that should follow is missed.
-/

namespace FcLang.Parser
open Ctx
open Lexer (TokenKind)

namespace Written

/-- A dotted name. -/
def isPath : Written → Bool
  | .ident _ => true
  | .field e _ => e.isPath
  | _ => false

/-- Whether const arithmetic reads all of it. Behind a prefix operator other
than `-`, which is an error as an atom, a `-` or `*` is read as a binary one. -/
def bareConst : Written → Bool
  | .ident _ | .lit _ | .paren _ => true
  | .field e _ => e.isPath
  | .unary .minus e => e.bareConst
  | .unary _ (.unary .minus e) => e.bareConst
  | .unary _ (.unary .star e) => e.bareConst
  | .binary op l r => constPrec op.kind != 0 && l.bareConst && r.bareConst
  | _ => false

/-- An index that a fixed array's size slot reads whole. -/
def readsAsSize (i : Written) : Bool := startsConstAtom (peekAt i.toks 0) && i.bareConst

/-- A dotted name under `!` and `?` suffixes, at least one. -/
def isMarkedPath : Written → Bool
  | .suffixed _ e => e.isPath || e.isMarkedPath
  | _ => false

/-- An indexing that reads as a fixed array of a named type. -/
def isArrayType : Written → Bool
  | .index e i => (e.isPath || e.isMarkedPath) && i.readsAsSize
  | _ => false

/-- Whether, in parentheses, it is taken for a cast's target where one may be a
fixed array: a name is tried as a type when `.` or `!` comes right after it. -/
def castLike (e : Written) : Bool :=
  e.isArrayType && (peekAt e.toks 1 == .bang || peekAt e.toks 1 == .dot)

mutual

/-- No parenthesis of `e` is taken for a cast where a type may be a fixed array. -/
def castFree : Written → Prop
  | .ident _ | .lit _ => True
  | .paren e => e.castLike = false ∧ e.castFree
  | .unary _ e | .suffixed _ e | .field e _ => e.castFree
  | .index e i => e.castFree ∧ i.castFree
  | .slice e lo hi => e.castFree ∧ boundCastFree lo ∧ boundCastFree hi
  | .call e args => e.castFree ∧ argsCastFree args
  | .binary _ l r | .assign l r => l.castFree ∧ r.castFree

def boundCastFree : Option Written → Prop
  | none => True
  | some e => e.castFree

def argsCastFree : List Written → Prop
  | [] => True
  | e :: es => e.castFree ∧ argsCastFree es

end

end Written

section
variable {g : List Name} {K : List Tok} {c : Ctx}

/-- The run `a`, in front of `w`, is read as one const atom. -/
def Atom (g : List Name) (K : List Tok) (c : Ctx) (a w : List Tok) : Prop :=
  ∀ {s}, At g K s (a ++ w) → ∃ e s', parseConstAtom c s = some (e, s') ∧ At g K s' w

/-- Operators and atoms, up to a token that is no operator. -/
inductive Ops (g : List Name) (K : List Tok) (c : Ctx) : List Tok → List Tok → Prop where
  | stop {w : List Tok} (h : constPrec (peekAt (w ++ K) 0) = 0) : Ops g K c w w
  | step {t : Tok} {a w stop : List Tok} (ht : constPrec t.kind ≠ 0) (ha : Atom g K c a w)
      (h : Ops g K c w stop) : Ops g K c (t :: (a ++ w)) stop

/-- An atom, and the operators and atoms after it. -/
def Chain (g : List Name) (K : List Tok) (c : Ctx) (w stop : List Tok) : Prop :=
  ∃ a w', w = a ++ w' ∧ Atom g K c a w' ∧ Ops g K c w' stop

theorem Atom.minus {a w : List Tok} (h : Atom g K c a w) : Atom g K c (mark .minus :: a) w := by
  intro s hs
  obtain ⟨e, s', hrun, hs'⟩ := h hs.advance.reached
  refine ⟨.unaryPrefix .minus e, s', ?_, hs'⟩
  have hk : s.current.kind = .minus := by rw [hs.current]; rfl
  rw [parseConstAtom]
  simp only [bind_run, current, Option.bind_some, hk, advance_run hs, hrun, pure_run]

/-- A token that begins no const atom is an error, and is read. -/
theorem Atom.junk {t : Tok} {w : List Tok}
    (ht : t.kind ∉ [TokenKind.intLit, .ident, .minus, .lparen, .rparen, .rbracket]) :
    Atom g K c [t] w := by
  intro s hs
  have hin := hs.good.1.kind
  have herr := hs.diagError.reached
  have hstop : [TokenKind.newline, .indent, .dedent, .eof, .rparen, .rbrace, .rbracket,
      .semicolon].contains t.kind = false := by
    cases hk : t.kind <;> simp [hk, inLine] at hin ht ⊢
  refine ⟨.error, s.diagError.advance, ?_, herr.advance.reached⟩
  rw [parseConstAtom]
  simp only [bind_run, current, Option.bind_some, hs.current]
  simp only [List.mem_cons, List.not_mem_nil, or_false, not_or] at ht
  refine Eq.trans (congrFun (?_ : _ = unexpected t.kind) s) ?_
  · split
    case h_1 hk => exact absurd hk ht.1
    case h_2 hk => simp [hk, inLine] at hin
    case h_3 hk => exact absurd hk ht.2.1
    case h_4 hk => exact absurd hk ht.2.2.1
    case h_5 hk => exact absurd hk ht.2.2.2.1
    case h_6 hk => simp [hk, inLine] at hin
    case h_7 hk => simp [hk, inLine] at hin
    case h_8 => rfl
  · simp only [unexpected, diagError, bind_run, modify_run, Option.bind_some, hstop,
      Bool.false_eq_true, if_false, advance_run herr, pure_run]

theorem Atom.int {text : Name} {w : List Tok} : Atom g K c [⟨.intLit, text⟩] w := by
  intro s hs
  refine ⟨.intLit (readInt c.inConstExpr text), s.advance, ?_, hs.advance.reached⟩
  have hk : s.current = ⟨.intLit, text⟩ := hs.current
  rw [parseConstAtom]
  simp only [bind_run, current, Option.bind_some, hk, advance_run hs, pure_run]

theorem parseConstMembers_stop {e : Expr} {w : List Tok} {s : State} (hs : At g K s w)
    (h : peekAt (w ++ K) 0 ≠ .dot) : parseConstMembers c e s = some (e, s) := by
  have hk : s.kind 0 ≠ .dot := by rw [State.kind, hs.rest]; exact h
  rw [parseConstMembers]
  simp only [bind_run, get_run, Option.bind_some, hk, if_false, pure_run]

/-- The members of a dotted name. -/
def memberToks : List Name → List Tok
  | [] => []
  | name :: names => mark .dot :: ⟨.ident, name⟩ :: memberToks names

theorem memberToks_append (names : List Name) (name : Name) :
    memberToks (names ++ [name]) = memberToks names ++ [mark .dot, ⟨.ident, name⟩] := by
  induction names with
  | nil => rfl
  | cons n names ih => simp only [List.cons_append, memberToks, ih]

theorem Written.toks_of_isPath {e : Written} (h : e.isPath = true) :
    ∃ name names, e.toks = ⟨.ident, name⟩ :: memberToks names := by
  induction e with
  | ident name => exact ⟨name, [], rfl⟩
  | field e name ih =>
    obtain ⟨head, names, he⟩ := ih h
    exact ⟨head, names ++ [name], by rw [memberToks_append, toks, he, List.cons_append]⟩
  | _ => simp [isPath] at h

theorem parseConstMembers_names {e : Expr} {names : List Name} {w : List Tok} {s : State}
    (hs : At g K s (memberToks names ++ w)) (h : peekAt (w ++ K) 0 ≠ .dot) :
    ∃ e' s', parseConstMembers c e s = some (e', s') ∧ At g K s' w := by
  induction names generalizing e s with
  | nil => exact ⟨e, s, parseConstMembers_stop hs h, hs⟩
  | cons name names ih =>
    have hdot := hs.advance.reached
    obtain ⟨e', s', hrun, hs'⟩ := ih (e := .field e name []) hdot.advance.reached
    refine ⟨e', s', ?_, hs'⟩
    have hk : s.kind 0 = .dot := hs.kind_zero
    rw [parseConstMembers]
    simp only [bind_run, get_run, Option.bind_some, hk, if_true, advance_run hs,
      expect_run hdot rfl, hrun]

theorem Atom.path {e : Written} {w : List Tok} (hp : e.isPath = true)
    (h : peekAt (w ++ K) 0 ≠ .dot) : Atom g K c e.toks w := by
  obtain ⟨name, names, he⟩ := Written.toks_of_isPath hp
  rw [he]
  intro s hs
  obtain ⟨e', s', hrun, hs'⟩ := parseConstMembers_names (c := c) (e := .ident name)
    hs.advance.reached h
  refine ⟨e', s', ?_, hs'⟩
  have hk : s.current = ⟨.ident, name⟩ := hs.current
  rw [parseConstAtom]
  simp only [bind_run, current, Option.bind_some, hk, advance_run hs, hrun]

theorem Atom.lit {l : Literal} {w : List Tok} : Atom g K c [l.tok] w := by
  cases l with
  | int text => exact Atom.int
  | bool value => cases value <;> exact Atom.junk (by simp [Literal.tok])
  | _ => exact Atom.junk (by simp [Literal.tok])

/-- A group is an atom when what it holds is read exactly. -/
theorem Atom.paren {e : Written} {w : List Tok} (hK : endsLine (peekAt K 0) = true)
    (he : Exact g K Written.castFree e) (hc : c.genericNames = g)
    (hfree : c.allowFixedArray = true → e.castFree)
    (hf : e.Fits) (hn : e.Names (PlainName g)) : Atom g K c (Written.paren e).toks w := by
  intro s hs
  have htoks : (Written.paren e).toks ++ w = mark .lparen :: (e.toks ++ mark .rparen :: w) := by
    simp [Written.toks]
  rw [htoks] at hs
  obtain ⟨s', hpast, hrun⟩ := he.delimited (c := { c with blockArmArrow := false }) (m := 1) hK hc
    hfree hf hn le_rfl hs.advance.reached rfl
  refine ⟨e.tree c.inConstExpr, s'.advance, ?_, hpast.2.advance.reached⟩
  have hk : s.current.kind = .lparen := by rw [hs.current]; rfl
  rw [parseConstAtom]
  simp only [bind_run, current, Option.bind_some, hk, advance_run hs, parseBracketedExpr, hrun]
  rw [expect_run (k := .rparen) hpast.2 rfl]
  rfl

theorem Chain.atom {a w stop : List Tok} (ha : Atom g K c a w) (h : Ops g K c w stop) :
    Chain g K c (a ++ w) stop := ⟨a, w, rfl, ha, h⟩

theorem Chain.operator {t : Tok} {w stop : List Tok} (h : Chain g K c w stop)
    (ht : constPrec t.kind ≠ 0) : Ops g K c (t :: w) stop := by
  obtain ⟨a, w', rfl, ha, hops⟩ := h
  exact .step ht ha hops

theorem Chain.minus {w stop : List Tok} (h : Chain g K c w stop) :
    Chain g K c (mark .minus :: w) stop := by
  obtain ⟨a, w', rfl, ha, hops⟩ := h
  exact ⟨mark .minus :: a, w', rfl, ha.minus, hops⟩

/-- A token that begins no const atom, and the operators and atoms after it. -/
theorem Chain.junk {t : Tok} {w stop : List Tok}
    (ht : t.kind ∉ [TokenKind.intLit, .ident, .minus, .lparen, .rparen, .rbracket])
    (h : Ops g K c w stop) : Chain g K c (t :: w) stop := ⟨[t], w, rfl, Atom.junk ht, h⟩

namespace Written

section
variable (hK : endsLine (peekAt K 0) = true) (hc : c.genericNames = g)
  {n : ℕ} (hex : ∀ x : Written, x.toks.length < n → Exact g K castFree x)
include hK hc hex

end
end Written
end
end FcLang.Parser
