import FcLang.Parser.Syntax

/-!
# Lookahead

The parser's position is the list of tokens from the current one on. A scan
that looks past the current token takes such a list and returns the list that
remains where it stops.
-/

namespace FcLang.Parser
open Lexer (TokenKind)

/-- `peek_at`: past the end, the file's last token, which is EOF. -/
def peekAt (ts : List Tok) (off : ℕ) : TokenKind := (ts.getD off eofTok).kind

def atStructLitBrace (ts : List Tok) : Bool :=
  peekAt ts 0 == .lbrace &&
    (peekAt ts 1 == .rbrace || (peekAt ts 1 == .ident && peekAt ts 2 == .eq))

/-- `skip_group`, with the depth before the head. -/
def skipGroup (opening closing : TokenKind) : ℤ → List Tok → List Tok
  | _, [] => []
  | depth, t :: ts =>
    if t.kind = opening then
      if 0 < depth + 1 then skipGroup opening closing (depth + 1) ts else ts
    else if t.kind = closing then
      if 0 < depth - 1 then skipGroup opening closing (depth - 1) ts else ts
    else if t.kind = .eof then t :: ts
    else if 0 < depth then skipGroup opening closing depth ts else ts

def atSliceLitBrackets (ts : List Tok) : Bool :=
  peekAt ts 0 == .lbracket && peekAt (skipGroup .lbracket .rbracket 0 ts) 0 == .lbrace

def startsConstAtom : TokenKind → Bool
  | .intLit | .typeVar | .ident | .minus | .lparen | .kwSizeof | .kwAlignof => true
  | _ => false

def isTypeArgToken : TokenKind → Bool
  | .ident | .typeVar | .kwVoid | .kwError | .lt | .gt | .comma | .dot | .question | .star
  | .bang | .lbracket | .rbracket | .lparen | .rparen | .lbrace | .rbrace | .arrow | .kwConst
  | .intLit | .minus | .kwSizeof | .kwAlignof | .plus | .slash | .percent => true
  | _ => false

/-- `typearg_scan`: what follows the `>` that closes the list, if one does. -/
def typeargScan : (depth paren : ℕ) → List Tok → Option (List Tok)
  | 0, paren, ts => if paren = 0 ∧ ts ≠ [] then some ts else none
  | _ + 1, _, [] => none
  | depth + 1, paren, t :: ts =>
    if t.kind = .lparen then typeargScan (depth + 1) (paren + 1) ts
    else if t.kind = .rparen then
      if paren = 0 then none else typeargScan (depth + 1) (paren - 1) ts
    else if 0 < paren then
      if t.kind = .newline ∨ t.kind = .eof then none else typeargScan (depth + 1) paren ts
    else if t.kind = .lt then typeargScan (depth + 2) paren ts
    else if t.kind = .gt then typeargScan depth paren ts
    else if t.kind = .gtGt then if depth = 0 then none else typeargScan (depth - 1) paren ts
    else if isTypeArgToken t.kind then typeargScan (depth + 1) paren ts
    else none

def genericCallScan (ts : List Tok) : Bool :=
  match typeargScan 1 0 ts with
  | some after => peekAt after 0 == .lparen || peekAt after 0 == .dot
  | none => false

def bareInstScan (ts : List Tok) : Bool :=
  match typeargScan 1 0 ts with
  | some after => [TokenKind.newline, .dedent, .eof, .rparen, .rbracket, .rbrace, .comma].contains
      (peekAt after 0)
  | none => false

def structLitTypeargScan (ts : List Tok) : Bool :=
  match typeargScan 1 0 ts with
  | some after => atStructLitBrace after
  | none => false

/-- What follows a run of `. IDENT`. -/
def skipMembers : List Tok → List Tok
  | t :: u :: ts =>
    if t.kind = .dot ∧ u.kind = .ident then skipMembers ts else t :: u :: ts
  | ts => ts

def Tok.isTypeMark (t : Tok) : Bool := t.kind == .question || t.kind == .star || t.kind == .bang

def skipMarks (ts : List Tok) : List Tok := ts.dropWhile Tok.isTypeMark

def scanTypeHead (ts : List Tok) : Option (List Tok) :=
  match ts.dropWhile (·.kind == .kwConst) with
  | t :: rest =>
    if t.kind = .typeVar then some (skipMarks rest)
    else if t.kind = .ident then
      match skipMembers rest with
      | u :: args =>
        if u.kind = .lt then some (skipMarks ((typeargScan 1 0 args).getD (u :: args)))
        else some (skipMarks (u :: args))
      | [] => some []
    else none
  | [] => none

def atSliceLiteral (ts : List Tok) : Bool :=
  match scanTypeHead ts with
  | some after => atSliceLitBrackets after
  | none => false

/-- `scan_dotted_ident`, from the identifier on. -/
def scanDottedIdent (ts : List Tok) : List Tok := skipMembers ts.tail

def identArgIsConstExpr (ts : List Tok) : Bool :=
  let head := ts.getD 0 eofTok
  if head.kind = .ident ∧ (typeFromName head.text).isSome ∧ peekAt ts 1 = .dot ∧
      peekAt ts 2 = .ident then true
  else
    let after := if head.kind = .typeVar then ts.drop 1 else scanDottedIdent ts
    match peekAt after 0 with
    | .plus | .slash | .percent | .minus => true
    | .star => startsConstAtom (peekAt after 1)
    | _ => false

/-- From an opening parenthesis, the list from the one that closes it, or from EOF. -/
def matchParen : ℤ → List Tok → List Tok
  | _, [] => []
  | depth, t :: ts =>
    if t.kind = .eof then t :: ts
    else if t.kind = .lparen then matchParen (depth + 1) ts
    else if t.kind = .rparen then
      if depth - 1 = 0 then t :: ts else matchParen (depth - 1) ts
    else matchParen depth ts

def parenArgIsConstExpr (ts : List Tok) : Bool := peekAt (matchParen 0 ts) 1 != .arrow

/-- Whether `parse_type_arg` reads a const expression. -/
def argIsConstExpr (ts : List Tok) : Bool :=
  match peekAt ts 0 with
  | .intLit | .minus | .kwSizeof | .kwAlignof => true
  | .typeVar | .ident => identArgIsConstExpr ts
  | .lparen => parenArgIsConstExpr ts
  | _ => false

/-- The operators of bare const arithmetic: the additive level is 1. -/
def constPrec : TokenKind → ℕ
  | .star | .slash | .percent => 2
  | .plus | .minus => 1
  | _ => 0

/-- `is_keyword_token`. -/
def Tok.isKeyword (t : Tok) : Bool :=
  let letter := fun c : UInt8 => (97 ≤ c && c ≤ 122) || (65 ≤ c && c ≤ 90) || c == 95
  t.kind != .ident && (t.text.head?.any letter) &&
    t.text.tail.all fun c => letter c || (48 ≤ c && c ≤ 57)

/-- Past `( IDENT (. IDENT)*`, whether a suffix that a type could have follows. -/
def dottedCastSuffix (ts : List Tok) : Bool :=
  match skipMembers ts with
  | t :: _ => [TokenKind.star, .question, .lbracket, .bang].contains t.kind
  | [] => false

/-- Whether the tokens after a `(` are tried as a cast's target. -/
def tryCast (ts : List Tok) : Bool :=
  (if peekAt ts 0 = .ident ∧ ((typeFromName (ts.getD 0 eofTok).text).isSome ∨
      peekAt ts 1 = .star ∨ peekAt ts 1 = .lt) then true
    else if peekAt ts 0 = .ident ∧ peekAt ts 1 = .bang then true
    else if peekAt ts 0 = .ident ∧ peekAt ts 1 = .dot then dottedCastSuffix ts.tail
    else false) ||
  peekAt ts 0 == .typeVar || peekAt ts 0 == .kwError || peekAt ts 0 == .kwConst ||
  (peekAt ts 0 == .lparen && peekAt ts 1 == .kwConst)

end FcLang.Parser
