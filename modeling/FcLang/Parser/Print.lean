import FcLang.Parser.Parse

/-!
# Written expressions

An expression as it is written: names and literals under prefix, postfix and
binary operators, with the parentheses that the writer put. `toks` prints it on
one line, `tree` forgets the parentheses, and `Fits` asks that each operand
binds at least as tightly as its place requires. `fewest` keeps no parenthesis
that `Fits` does not need.
-/

namespace FcLang.Parser
open Lexer (TokenKind bytes)

inductive Literal where
  | int (text : Name)
  | float (text : Name)
  | string (text : Name)
  | cstring (text : Name)
  | char (text : Name)
  | bool (value : Bool)

def Literal.tok : Literal → Tok
  | .int text => ⟨.intLit, text⟩
  | .float text => ⟨.floatLit, text⟩
  | .string text => ⟨.stringLit, text⟩
  | .cstring text => ⟨.cstringLit, text⟩
  | .char text => ⟨.charLit, text⟩
  | .bool true => ⟨.kwTrue, bytes "true"⟩
  | .bool false => ⟨.kwFalse, bytes "false"⟩

/-- The literal's node; an unsuffixed integer is an `i64` in a const expression. -/
def Literal.tree (inConstExpr : Bool) : Literal → Expr
  | .int text => .intLit (readInt inConstExpr text)
  | .float text => .floatLit text
  | .string text => .stringLit (text.drop 1).dropLast
  | .cstring text => .cstringLit (text.drop 2).dropLast
  | .char text => .charLit text
  | .bool value => .boolLit value

inductive PrefixOp where
  | minus | bang | tilde | amp | star

def PrefixOp.kind : PrefixOp → TokenKind
  | .minus => .minus
  | .bang => .bang
  | .tilde => .tilde
  | .amp => .amp
  | .star => .star

/-- Postfix unwrap and propagate. -/
inductive PostfixOp where
  | bang | question

def PostfixOp.kind : PostfixOp → TokenKind
  | .bang => .bang
  | .question => .question

inductive BinaryOp where
  | pipePipe | ampAmp | eqEq | bangEq | lt | gt | ltEq | gtEq | pipe | caret | amp | ltLt | gtGt
  | plus | minus | star | slash | percent

def BinaryOp.kind : BinaryOp → TokenKind
  | .pipePipe => .pipePipe
  | .ampAmp => .ampAmp
  | .eqEq => .eqEq
  | .bangEq => .bangEq
  | .lt => .lt
  | .gt => .gt
  | .ltEq => .ltEq
  | .gtEq => .gtEq
  | .pipe => .pipe
  | .caret => .caret
  | .amp => .amp
  | .ltLt => .ltLt
  | .gtGt => .gtGt
  | .plus => .plus
  | .minus => .minus
  | .star => .star
  | .slash => .slash
  | .percent => .percent

def BinaryOp.prec (op : BinaryOp) : ℕ := infixPrec op.kind

inductive Written where
  | ident (name : Name)
  | lit (l : Literal)
  | paren (e : Written)
  | unary (op : PrefixOp) (e : Written)
  | suffixed (op : PostfixOp) (e : Written)
  | field (e : Written) (name : Name)
  | index (e i : Written)
  | slice (e : Written) (lo hi : Option Written)
  | call (e : Written) (args : List Written)
  | binary (op : BinaryOp) (l r : Written)
  | assign (l r : Written)

/-- How the lexer's operators and delimiters are spelled. -/
def spelling : TokenKind → String
  | .plus => "+" | .minus => "-" | .star => "*" | .slash => "/" | .percent => "%"
  | .amp => "&" | .pipe => "|" | .caret => "^" | .tilde => "~" | .bang => "!"
  | .eq => "=" | .eqEq => "==" | .bangEq => "!=" | .lt => "<" | .gt => ">"
  | .ltEq => "<=" | .gtEq => ">=" | .ltLt => "<<" | .gtGt => ">>"
  | .ampAmp => "&&" | .pipePipe => "||" | .question => "?" | .dot => "." | .dotDot => ".."
  | .comma => "," | .lparen => "(" | .rparen => ")" | .lbracket => "[" | .rbracket => "]"
  | _ => ""

def mark (k : TokenKind) : Tok := ⟨k, bytes (spelling k)⟩

@[simp] theorem mark_kind (k : TokenKind) : (mark k).kind = k := rfl

namespace Written

mutual

def toks : Written → List Tok
  | .ident name => [⟨.ident, name⟩]
  | .lit l => [l.tok]
  | .paren e => mark .lparen :: (e.toks ++ [mark .rparen])
  | .unary op e => mark op.kind :: e.toks
  | .suffixed op e => e.toks ++ [mark op.kind]
  | .field e name => e.toks ++ [mark .dot, ⟨.ident, name⟩]
  | .index e i => e.toks ++ mark .lbracket :: (i.toks ++ [mark .rbracket])
  | .slice e lo hi =>
    e.toks ++ mark .lbracket :: (boundToks lo ++ mark .dotDot :: (boundToks hi ++ [mark .rbracket]))
  | .call e args => e.toks ++ mark .lparen :: (argToks args ++ [mark .rparen])
  | .binary op l r => l.toks ++ mark op.kind :: r.toks
  | .assign l r => l.toks ++ mark .eq :: r.toks

def boundToks : Option Written → List Tok
  | none => []
  | some e => e.toks

/-- The arguments, with a comma between two of them. -/
def argToks : List Written → List Tok
  | [] => []
  | [e] => e.toks
  | e :: es => e.toks ++ mark .comma :: argToks es

end

mutual

/-- The tree that was written. An unwrap holds its operand's text. -/
def tree (inConstExpr : Bool) : Written → Expr
  | .ident name => .ident name
  | .lit l => l.tree inConstExpr
  | .paren e => e.tree inConstExpr
  | .unary op e => .unaryPrefix op.kind (e.tree inConstExpr)
  | .suffixed .bang e => .unaryPostfix .bang (e.tree inConstExpr) e.toks
  | .suffixed .question e => .unaryPostfix .question (e.tree inConstExpr) []
  | .field e name => .field (e.tree inConstExpr) name []
  | .index e i => .index (e.tree inConstExpr) (i.tree inConstExpr)
  | .slice e lo hi => .slice (e.tree inConstExpr) (boundTree inConstExpr lo) (boundTree inConstExpr hi)
  | .call e args => .call (e.tree inConstExpr) (argTrees inConstExpr args) [] false
  | .binary op l r => .binary op.kind (l.tree inConstExpr) (r.tree inConstExpr)
  | .assign l r => .assign (l.tree inConstExpr) (r.tree inConstExpr)

def boundTree (inConstExpr : Bool) : Option Written → Option Expr
  | none => none
  | some e => some (e.tree inConstExpr)

def argTrees (inConstExpr : Bool) : List Written → List Expr
  | [] => []
  | e :: es => e.tree inConstExpr :: argTrees inConstExpr es

end

/-- How tightly the outermost operator binds. -/
def level : Written → ℕ
  | .unary _ _ => precPrefix
  | .binary op _ _ => op.prec
  | .assign _ _ => precAssign
  | _ => precPostfix

mutual

/-- Every operand binds tightly enough for its place. -/
def Fits : Written → Prop
  | .ident _ | .lit _ => True
  | .paren e => e.Fits
  | .unary _ e => precPrefix ≤ e.level ∧ e.Fits
  | .suffixed _ e | .field e _ => precPostfix ≤ e.level ∧ e.Fits
  | .index e i => precPostfix ≤ e.level ∧ e.Fits ∧ i.Fits
  | .slice e lo hi => precPostfix ≤ e.level ∧ e.Fits ∧ BoundFits lo ∧ BoundFits hi
  | .call e args => precPostfix ≤ e.level ∧ e.Fits ∧ ArgsFit args
  | .binary op l r => op.prec ≤ l.level ∧ op.prec + 1 ≤ r.level ∧ l.Fits ∧ r.Fits
  | .assign l r => precAssign + 1 ≤ l.level ∧ l.Fits ∧ r.Fits

def BoundFits : Option Written → Prop
  | none => True
  | some e => e.Fits

def ArgsFit : List Written → Prop
  | [] => True
  | e :: es => e.Fits ∧ ArgsFit es

end

mutual

/-- Every identifier satisfies `P`. -/
def Names (P : Name → Prop) : Written → Prop
  | .ident name => P name
  | .lit _ => True
  | .paren e | .unary _ e | .suffixed _ e => e.Names P
  | .field e name => e.Names P ∧ P name
  | .index e i => e.Names P ∧ i.Names P
  | .slice e lo hi => e.Names P ∧ BoundNames P lo ∧ BoundNames P hi
  | .call e args => e.Names P ∧ ArgNames P args
  | .binary _ l r | .assign l r => l.Names P ∧ r.Names P

def BoundNames (P : Name → Prop) : Option Written → Prop
  | none => True
  | some e => e.Names P

def ArgNames (P : Name → Prop) : List Written → Prop
  | [] => True
  | e :: es => e.Names P ∧ ArgNames P es

end

section Induction
variable {P : Written → Prop}

/-- Induction on written expressions, with the hypothesis for bounds and arguments. -/
@[elab_as_elim, induction_eliminator]
theorem induct (ident : ∀ name, P (.ident name)) (lit : ∀ l, P (.lit l))
    (paren : ∀ e, P e → P (.paren e)) (unary : ∀ op e, P e → P (.unary op e))
    (suffixed : ∀ op e, P e → P (.suffixed op e)) (field : ∀ e name, P e → P (.field e name))
    (index : ∀ e i, P e → P i → P (.index e i))
    (slice : ∀ e lo hi, P e → (∀ x ∈ lo, P x) → (∀ x ∈ hi, P x) → P (.slice e lo hi))
    (call : ∀ e args, P e → (∀ x ∈ args, P x) → P (.call e args))
    (binary : ∀ op l r, P l → P r → P (.binary op l r))
    (assign : ∀ l r, P l → P r → P (.assign l r)) (e : Written) : P e := by
  apply Written.rec (motive_1 := P) (motive_2 := fun o => ∀ x ∈ o, P x)
    (motive_3 := fun es => ∀ x ∈ es, P x) <;> try assumption
  · intro x hx
    simp at hx
  · intro val hval x hx
    cases hx
    exact hval
  · intro x hx
    simp at hx
  · intro head tail hhead htail x hx
    rcases List.mem_cons.mp hx with rfl | hx
    · exact hhead
    · exact htail x hx

end Induction

/-- `e` at a place that requires level `p`. -/
def enclose (p : ℕ) (e : Written) : Written := if p ≤ e.level then e else .paren e

mutual

/-- The same expression with no parenthesis that its places do not require. -/
def fewest : Written → Written
  | .ident name => .ident name
  | .lit l => .lit l
  | .paren e => e.fewest
  | .unary op e => .unary op (enclose precPrefix e.fewest)
  | .suffixed op e => .suffixed op (enclose precPostfix e.fewest)
  | .field e name => .field (enclose precPostfix e.fewest) name
  | .index e i => .index (enclose precPostfix e.fewest) i.fewest
  | .slice e lo hi => .slice (enclose precPostfix e.fewest) (boundFewest lo) (boundFewest hi)
  | .call e args => .call (enclose precPostfix e.fewest) (argsFewest args)
  | .binary op l r => .binary op (enclose op.prec l.fewest) (enclose (op.prec + 1) r.fewest)
  | .assign l r => .assign (enclose (precAssign + 1) l.fewest) r.fewest

def boundFewest : Option Written → Option Written
  | none => none
  | some e => some e.fewest

def argsFewest : List Written → List Written
  | [] => []
  | e :: es => e.fewest :: argsFewest es

end

mutual

/-- How many parentheses were written. -/
def parens : Written → ℕ
  | .ident _ | .lit _ => 0
  | .paren e => e.parens + 1
  | .unary _ e | .suffixed _ e | .field e _ => e.parens
  | .index e i => e.parens + i.parens
  | .slice e lo hi => e.parens + boundParens lo + boundParens hi
  | .call e args => e.parens + argParens args
  | .binary _ l r | .assign l r => l.parens + r.parens

def boundParens : Option Written → ℕ
  | none => 0
  | some e => e.parens

def argParens : List Written → ℕ
  | [] => 0
  | e :: es => e.parens + argParens es

end

mutual

/-- The expression without its parentheses. -/
def bare : Written → Written
  | .ident name => .ident name
  | .lit l => .lit l
  | .paren e => e.bare
  | .unary op e => .unary op e.bare
  | .suffixed op e => .suffixed op e.bare
  | .field e name => .field e.bare name
  | .index e i => .index e.bare i.bare
  | .slice e lo hi => .slice e.bare (boundBare lo) (boundBare hi)
  | .call e args => .call e.bare (argsBare args)
  | .binary op l r => .binary op l.bare r.bare
  | .assign l r => .assign l.bare r.bare

def boundBare : Option Written → Option Written
  | none => none
  | some e => some e.bare

def argsBare : List Written → List Written
  | [] => []
  | e :: es => e.bare :: argsBare es

end

section Fewest
variable {e : Written} {p : ℕ}

theorem enclose_fits (h : e.Fits) (hp : p ≤ precPostfix) :
    p ≤ (enclose p e).level ∧ (enclose p e).Fits := by
  unfold enclose
  split
  · exact ⟨‹_›, h⟩
  · exact ⟨hp, h⟩

@[simp] theorem bare_enclose : (enclose p e).bare = e.bare := by
  unfold enclose
  split <;> rfl

theorem parens_enclose : (enclose p e).parens ≤ e.parens + 1 := by
  unfold enclose
  split
  · exact Nat.le_succ _
  · exact le_rfl

end Fewest

theorem fewest_fits (e : Written) : e.fewest.Fits := by
  induction e with
  | ident name => trivial
  | lit l => trivial
  | paren e ih => exact ih
  | unary op e ih => exact enclose_fits ih (by simp)
  | suffixed op e ih => exact enclose_fits ih le_rfl
  | field e name ih => exact enclose_fits ih le_rfl
  | index e i ihe ihi => exact ⟨(enclose_fits ihe le_rfl).1, (enclose_fits ihe le_rfl).2, ihi⟩
  | slice e lo hi ihe ihlo ihhi =>
    refine ⟨(enclose_fits ihe le_rfl).1, (enclose_fits ihe le_rfl).2, ?_, ?_⟩
    · cases lo with
      | none => trivial
      | some x => exact ihlo x rfl
    · cases hi with
      | none => trivial
      | some x => exact ihhi x rfl
  | call e args ihe ihargs =>
    refine ⟨(enclose_fits ihe le_rfl).1, (enclose_fits ihe le_rfl).2, ?_⟩
    induction args with
    | nil => trivial
    | cons x xs ih =>
      exact ⟨ihargs x List.mem_cons_self, ih fun y hy => ihargs y (List.mem_cons_of_mem x hy)⟩
  | binary op l r ihl ihr =>
    have hop : op.prec + 1 ≤ precPostfix := by cases op <;> decide
    exact ⟨(enclose_fits ihl (Nat.le_of_succ_le hop)).1, (enclose_fits ihr hop).1,
      (enclose_fits ihl (Nat.le_of_succ_le hop)).2, (enclose_fits ihr hop).2⟩
  | assign l r ihl ihr =>
    exact ⟨(enclose_fits ihl (by simp)).1, (enclose_fits ihl (by simp)).2, ihr⟩

/-- Only parentheses differ. -/
theorem bare_fewest (e : Written) : e.fewest.bare = e.bare := by
  induction e with
  | slice e lo hi ihe ihlo ihhi =>
    have bound : ∀ o : Option Written, (∀ x ∈ o, x.fewest.bare = x.bare) →
        boundBare (boundFewest o) = boundBare o := by
      rintro (_ | x) hx
      · rfl
      · exact congrArg some (hx x rfl)
    simp [fewest, bare, ihe, bound lo ihlo, bound hi ihhi]
  | call e args ihe ihargs =>
    have hargs : argsBare (argsFewest args) = argsBare args := by
      induction args with
      | nil => rfl
      | cons x xs ih =>
        rw [argsFewest, argsBare, argsBare, ihargs x List.mem_cons_self,
          ih fun y hy => ihargs y (List.mem_cons_of_mem x hy)]
    simp [fewest, bare, ihe, hargs]
  | _ => simp_all [fewest, bare]

/-- No other way to write the expression has fewer parentheses. -/
theorem parens_fewest {e : Written} (hf : e.Fits) : e.fewest.parens ≤ e.parens ∧
    ∀ p ≤ e.level, (enclose p e.fewest).parens ≤ e.parens := by
  have place : ∀ {e : Written}, e.fewest.level = e.level → e.fewest.parens ≤ e.parens →
      e.fewest.parens ≤ e.parens ∧ ∀ p ≤ e.level, (enclose p e.fewest).parens ≤ e.parens := by
    intro e hl he
    refine ⟨he, fun p hp => ?_⟩
    rw [enclose, if_pos (hl ▸ hp)]
    exact he
  induction e with
  | ident name => exact place rfl le_rfl
  | lit l => exact place rfl le_rfl
  | paren e ih =>
    have he := (ih hf).1
    exact ⟨he.trans (Nat.le_succ _), fun p _ => parens_enclose.trans (Nat.succ_le_succ he)⟩
  | unary op e ih => exact place rfl ((ih hf.2).2 _ hf.1)
  | suffixed op e ih => exact place rfl ((ih hf.2).2 _ hf.1)
  | field e name ih => exact place rfl ((ih hf.2).2 _ hf.1)
  | index e i ihe ihi => exact place rfl (Nat.add_le_add ((ihe hf.2.1).2 _ hf.1) (ihi hf.2.2).1)
  | slice e lo hi ihe ihlo ihhi =>
    have bound : ∀ o : Option Written, (∀ x ∈ o, x.Fits → x.fewest.parens ≤ x.parens) →
        BoundFits o → boundParens (boundFewest o) ≤ boundParens o := by
      rintro (_ | x) hx hfx
      · exact le_rfl
      · exact hx x rfl hfx
    exact place rfl (Nat.add_le_add (Nat.add_le_add ((ihe hf.2.1).2 _ hf.1)
      (bound lo (fun x hx hfx => (ihlo x hx hfx).1) hf.2.2.1))
      (bound hi (fun x hx hfx => (ihhi x hx hfx).1) hf.2.2.2))
  | call e args ihe ihargs =>
    have hargs : argParens (argsFewest args) ≤ argParens args := by
      have hfit := hf.2.2
      clear hf
      induction args with
      | nil => exact le_rfl
      | cons x xs ih =>
        exact Nat.add_le_add (ihargs x List.mem_cons_self hfit.1).1
          (ih (fun y hy => ihargs y (List.mem_cons_of_mem x hy)) hfit.2)
    exact place rfl (Nat.add_le_add ((ihe hf.2.1).2 _ hf.1) hargs)
  | binary op l r ihl ihr =>
    exact place rfl (Nat.add_le_add ((ihl hf.2.2.1).2 _ hf.1) ((ihr hf.2.2.2).2 _ hf.2.1))
  | assign l r ihl ihr =>
    exact place rfl (Nat.add_le_add ((ihl hf.2.1).2 _ hf.1) (ihr hf.2.2).1)

end Written
end FcLang.Parser
