import FcLang.Parser.Scan

/-!
# The expression parser

`parse_expr` with the prefix and infix forms that names, literals and operators
build, and the parsers it calls on the way: types, type arguments and const
arithmetic, which a parenthesis or a `<` may try and give up. A form outside
these (a lambda, a braced literal, a keyword's expression) is a `failure` of the
computation, and so is a run that does not end.
-/

namespace FcLang.Parser
open Lexer (TokenKind)

/-- The parser and its diagnostics. `halfGt` tells how many tokens were left at
the `>>` whose first half has closed a type-argument list. Errors reported
inside a speculation are held until it ends. -/
structure State where
  rest : List Tok
  halfGt : Option ℕ
  errors : ℕ
  held : ℕ
  depth : ℕ
  deriving DecidableEq

/-- The flags that a caller sets and restores. -/
structure Ctx where
  allowFixedArray : Bool
  inConstExpr : Bool
  blockArmArrow : Bool
  genericNames : List Name

/-- Where the current `parse_expr` began, for the text of an unwrap's operand. -/
structure Start where
  rest : List Tok
  errors : ℕ

abbrev Parse := StateT State Option

section Running
variable {α β : Type}

theorem bind_run (x : Parse α) (f : α → Parse β) (s : State) :
    (x >>= f) s = (x s).bind fun p => f p.1 p.2 := rfl

theorem pure_run (a : α) (s : State) : (pure a : Parse α) s = some (a, s) := rfl

theorem get_run (s : State) : (get : Parse State) s = some (s, s) := rfl

theorem set_run (s s' : State) : (set s' : Parse PUnit) s = some ((), s') := rfl

theorem modify_run (f : State → State) (s : State) : (modify f : Parse PUnit) s = some ((), f s) := rfl

theorem ite_run (p : Prop) [Decidable p] (x y : Parse α) (s : State) :
    (if p then x else y) s = if p then x s else y s := by
  split <;> rfl

end Running

def State.kind (s : State) (off : ℕ) : TokenKind := peekAt s.rest off

def State.current (s : State) : Tok := s.rest.getD 0 eofTok

/-- `advance_p`. -/
def State.advance (s : State) : State :=
  if s.kind 0 = .eof then s else { s with rest := s.rest.tail }

def State.diagError (s : State) : State :=
  if 0 < s.depth then { s with held := s.held + 1 } else { s with errors := s.errors + 1 }

/-- `diag_speculate_begin`, which also returns the mark. -/
def State.speculateBegin (s : State) : State := { s with depth := s.depth + 1 }

/-- `diag_speculate_end`. -/
def State.speculateEnd (mark : ℕ) (keep : Bool) (s : State) : State :=
  let held := if keep then s.held else mark
  if s.depth = 1 then { s with errors := s.errors + held, held := 0, depth := 0 }
  else { s with held := held, depth := s.depth - 1 }

def State.restorePos (save : List Tok) (s : State) : State :=
  { s with rest := save, halfGt := none }

def State.atTypeargGt (s : State) : Bool :=
  s.halfGt == some s.rest.length || s.kind 0 == .gt || s.kind 0 == .gtGt

def State.consumeTypeargGt (s : State) : State :=
  if s.halfGt = some s.rest.length then { s with halfGt := none }.advance
  else if s.kind 0 = .gt then s.advance
  else if s.kind 0 = .gtGt then { s with halfGt := some s.rest.length }
  else s

/-- `expect`, whose result is the current token either way. -/
def expect (k : TokenKind) : Parse Tok := fun s =>
  some (s.current, if s.kind 0 = k then s.advance else s.diagError)

def expectTypeargGt : Parse Unit := modify fun s =>
  if s.atTypeargGt then s.consumeTypeargGt else s.diagError

def current : Parse Tok := fun s => some (s.current, s)

def advance : Parse Tok := fun s => some (s.current, s.advance)

def diagError : Parse Unit := modify State.diagError

/-- `source_text` of what was read since `start`, up to the operator just consumed. -/
def sourceText (start : Start) (s : State) : List Tok :=
  if s.errors = start.errors then start.rest.take (start.rest.length - (s.rest.length + 1)) else []

def gateGenericName (c : Ctx) : Expr → Bool
  | .ident name | .field _ name _ => c.genericNames.contains name
  | _ => false

/-- Whether `dotted_name_of` finds a name. -/
def isDottedName : Expr → Bool
  | .ident _ => true
  | .field object _ _ => isDottedName object
  | _ => false

def applyConst : TypeTree → Parse TypeTree
  | .pointer _ t => return .pointer true t
  | .slice _ t => return .slice true t
  | .anyPtr _ => return .anyPtr true
  | .option (.pointer _ t) => return .option (.pointer true t)
  | .option (.slice _ t) => return .option (.slice true t)
  | .option (.anyPtr _) => return .option (.anyPtr true)
  | .result (.pointer _ t) => return .result (.pointer true t)
  | .result (.slice _ t) => return .result (.slice true t)
  | .result (.anyPtr _) => return .result (.anyPtr true)
  | _ => do diagError; return .error

def parseSizeLiteral (t : Tok) : Parse ℕ :=
  let (n, outOfRange) := parseIntValue t.text
  if outOfRange || 2 ^ 63 ≤ n then do diagError; return 1 else return n

/-- The `[N]` of a bounded cast to `cstr`. -/
def parseBufferSize (target : TypeTree) : Parse (Option ℕ) := do
  let s ← get
  if target.isCstr ∧ s.kind 0 = .lbracket ∧ s.kind 1 = .intLit ∧ s.kind 2 = .rbracket then do
    let _ ← advance
    let t ← advance
    let size ← parseSizeLiteral t
    let _ ← advance
    return some size
  else return none

/-- The members of a dotted type name, after its first component. -/
def dottedName : Name → List Tok → Name
  | name, t :: u :: ts =>
    if t.kind = .dot ∧ u.kind = .ident then dottedName (name ++ 46 :: u.text) ts else name
  | name, _ => name

def parseDottedName (name : Name) : Parse Name := fun s =>
  some (dottedName name s.rest, { s with rest := skipMembers s.rest })

/-- The error of `parse_prefix` on a token that begins no expression. -/
def unexpected (k : TokenKind) : Parse Expr := do
  diagError
  if [TokenKind.newline, .indent, .dedent, .eof, .rparen, .rbrace, .rbracket, .semicolon].contains k
  then return .error
  else do let _ ← advance; return .error

def State.atStmtTerminator (s : State) : Bool :=
  [TokenKind.newline, .dedent, .semicolon, .rparen, .kwElse, .eof].contains (s.kind 0)

def blockOrSingle : List Expr → Expr
  | [e] => e
  | stmts => .block stmts

def skipSemicolons (s : State) : State :=
  { s with rest := s.rest.dropWhile (·.kind == .semicolon) }

/-- `parse_ident_prefix` on a plain name; a braced literal is outside. -/
def parseIdentPrefix (name : Name) : Parse Expr := do
  let s ← get
  if atSliceLiteral s.rest ∨ atStructLitBrace s.rest.tail ∨
      atStructLitBrace (skipMembers s.rest.tail) then failure
  else do
    let _ ← advance
    return .ident name

mutual

def Ctx.parseTypeSuffix (c : Ctx) (base : TypeTree) : Parse TypeTree := do
  let s ← get
  if base.isFixedArray && (s.kind 0 == .star || s.kind 0 == .lbracket || s.kind 0 == .question ||
      s.kind 0 == .bang) then do
    diagError
    return base
  else if s.kind 0 = .star then do
    let _ ← advance
    c |>.parseTypeSuffix (.pointer false base)
  else if s.kind 0 = .lbracket ∧ s.kind 1 = .rbracket ∧ s.kind 2 ≠ .lbrace then do
    let _ ← advance
    let _ ← advance
    c |>.parseTypeSuffix (.slice false base)
  else if c.allowFixedArray ∧ s.kind 0 = .lbracket ∧ s.kind 1 = .intLit ∧ s.kind 2 = .rbracket then do
    let _ ← advance
    let t ← advance
    let size ← parseSizeLiteral t
    let _ ← expect .rbracket
    c |>.parseTypeSuffix (.fixedArray base size)
  else if c.allowFixedArray ∧ s.kind 0 = .lbracket ∧ s.kind 1 = .typeVar ∧ s.kind 2 = .rbracket then do
    let _ ← advance
    let t ← advance
    let _ ← expect .rbracket
    c |>.parseTypeSuffix (.fixedArraySym base (.typeVar t.text))
  else if c.allowFixedArray ∧ s.kind 0 = .lbracket ∧ startsConstAtom (s.kind 1) then do
    let _ ← advance
    let size ← c |>.parseConstArith 1
    let _ ← expect .rbracket
    c |>.parseTypeSuffix (.fixedArraySym base (.constExpr size))
  else if s.kind 0 = .question then do
    let _ ← advance
    c |>.parseTypeSuffix (.option base)
  else if s.kind 0 = .bang then do
    let _ ← advance
    c |>.parseTypeSuffix (.result base)
  else return base
partial_fixpoint

def Ctx.parseType (c : Ctx) : Parse TypeTree := do
  let t ← current
  match t.kind with
  | .kwConst => do
    let _ ← advance
    let inner ← c |>.parseType
    applyConst inner
  | .kwVoid => do
    let _ ← advance
    if (← get).kind 0 = .bang then do
      let _ ← advance
      c |>.parseTypeSuffix (.result (.prim .void))
    else return .prim .void
  | .kwError => do
    let _ ← advance
    c |>.parseTypeSuffix .errorCode
  | .typeVar => do
    let _ ← advance
    c |>.parseTypeSuffix (.typeVar t.text)
  | .ident => do
    let _ ← advance
    match typeFromName t.text with
    | some (.anyPtr isConst) => do
      if (← get).kind 0 = .star then do
        let _ ← advance
        c |>.parseTypeSuffix (.anyPtr isConst)
      else do
        diagError
        return .error
    | some base => c |>.parseTypeSuffix base
    | none => do
      let name ← parseDottedName t.text
      if (← get).kind 0 = .lt then c |>.parseStubArgs name else c |>.parseTypeSuffix (.stub name [])
  | .lbrace => do
    let _ ← advance
    let elems ← c |>.parseTupleElems
    let _ ← expect .rbrace
    if elems.length < 2 then do
      diagError
      return .error
    else c |>.parseTypeSuffix (.tuple elems)
  | .lparen => do
    let _ ← advance
    let (params, isVariadic) ← c |>.parseParams
    let _ ← expect .rparen
    if (← get).kind 0 = .arrow then do
      let _ ← advance
      let ret ← c |>.parseType
      c |>.parseTypeSuffix (.func params ret isVariadic)
    else match params, isVariadic with
      | [grouped], false => c |>.parseTypeSuffix grouped
      | _, _ => do
        diagError
        return .error
  | _ => do
    diagError
    return .error
partial_fixpoint

/-- The type arguments after a user type's name, or none of them when the `<` does not close. -/
def Ctx.parseStubArgs (c : Ctx) (name : Name) : Parse TypeTree := do
  let s ← get
  set s.speculateBegin
  let _ ← advance
  let args ← c |>.parseTypeArgList
  if (← get).atTypeargGt then do
    modify (State.speculateEnd s.held true)
    modify State.consumeTypeargGt
    c |>.parseTypeSuffix (.stub name args)
  else do
    modify (State.speculateEnd s.held false)
    modify (State.restorePos s.rest)
    c |>.parseTypeSuffix (.stub name [])
partial_fixpoint

def Ctx.parseTupleElems (c : Ctx) : Parse (List TypeTree) := do
  if (← get).kind 0 = .rbrace then return [] else c |>.parseTypeElems
partial_fixpoint

/-- The elements of a tuple type, up to its `}`. -/
def Ctx.parseTypeElems (c : Ctx) : Parse (List TypeTree) := do
  let t ← c |>.parseType
  if (← get).kind 0 = .comma then do
    let _ ← advance
    if (← get).kind 0 = .rbrace then return [t]
    else do
      let ts ← c |>.parseTypeElems
      return t :: ts
  else return [t]
partial_fixpoint

def Ctx.parseParams (c : Ctx) : Parse (List TypeTree × Bool) := do
  let s ← get
  if s.kind 0 = .rparen then return ([], false)
  else if s.kind 0 = .ellipsis then do
    let _ ← advance
    return ([], true)
  else c |>.parseParamTypes
partial_fixpoint

/-- The parameter types of a function type, and whether `...` ends them. -/
def Ctx.parseParamTypes (c : Ctx) : Parse (List TypeTree × Bool) := do
  let t ← c |>.parseType
  if (← get).kind 0 = .comma then do
    let _ ← advance
    if (← get).kind 0 = .ellipsis then do
      let _ ← advance
      return ([t], true)
    else do
      let (ts, isVariadic) ← c |>.parseParamTypes
      return (t :: ts, isVariadic)
  else return ([t], false)
partial_fixpoint

def Ctx.parseTypeArgList (c : Ctx) : Parse (List TypeTree) := do
  let t ← c |>.parseTypeArg
  if (← get).kind 0 = .comma then do
    let _ ← advance
    let ts ← c |>.parseTypeArgList
    return t :: ts
  else return [t]
partial_fixpoint

def Ctx.parseTypeArg (c : Ctx) : Parse TypeTree := do
  let s ← get
  if argIsConstExpr s.rest then do
    let expr ← c |>.parseConstArith 1
    match expr with
    | .intLit lit =>
      if lit.outOfRange then do
        diagError
        return .error
      else return .constInt (BitVec.ofNat 64 lit.value).toInt
    | expr => return .constExpr expr
  else c |>.parseType
partial_fixpoint

def Ctx.parseConstAtom (c : Ctx) : Parse Expr := do
  let t ← current
  match t.kind with
  | .intLit => do
    let _ ← advance
    return .intLit (readInt c.inConstExpr t.text)
  | .typeVar => do
    let _ ← advance
    return .typeVarRef t.text
  | .ident => do
    let _ ← advance
    c |>.parseConstMembers (.ident t.text)
  | .minus => do
    let _ ← advance
    let operand ← c |>.parseConstAtom
    return .unaryPrefix .minus operand
  | .lparen => do
    let _ ← advance
    let e ← c |>.parseBracketedExpr 1
    let _ ← expect .rparen
    return e
  | .kwSizeof => c |>.parsePrefix
  | .kwAlignof => c |>.parsePrefix
  | k => unexpected k
partial_fixpoint

/-- The members of a named constant. -/
def Ctx.parseConstMembers (c : Ctx) (e : Expr) : Parse Expr := do
  if (← get).kind 0 = .dot then do
    let _ ← advance
    let m ← expect .ident
    c |>.parseConstMembers (.field e m.text [])
  else return e
partial_fixpoint

def Ctx.parseConstArith (c : Ctx) (minPrec : ℕ) : Parse Expr :=
  { c with inConstExpr := true } |>.parseConstArithInner minPrec
partial_fixpoint

def Ctx.parseConstArithInner (c : Ctx) (minPrec : ℕ) : Parse Expr := do
  let left ← c |>.parseConstAtom
  c |>.constArithLoop minPrec left
partial_fixpoint

def Ctx.constArithLoop (c : Ctx) (minPrec : ℕ) (left : Expr) : Parse Expr := do
  let op ← current
  if constPrec op.kind = 0 ∨ constPrec op.kind < minPrec then return left
  else do
    let _ ← advance
    let right ← c |>.parseConstArithInner (constPrec op.kind + 1)
    c |>.constArithLoop minPrec (.binary op.kind left right)
partial_fixpoint

def Ctx.parseBracketedExpr (c : Ctx) (minPrec : ℕ) : Parse Expr :=
  { c with blockArmArrow := false } |>.parseExpr minPrec
partial_fixpoint

def Ctx.parseExpr (c : Ctx) (minPrec : ℕ) : Parse Expr := do
  let s ← get
  let left ← c |>.parsePrefix
  c |>.exprLoop minPrec ⟨s.rest, s.errors⟩ left
partial_fixpoint

def Ctx.exprLoop (c : Ctx) (minPrec : ℕ) (start : Start) (left : Expr) : Parse Expr := do
  let s ← get
  if c.blockArmArrow ∧ s.kind 0 = .arrow then return left
  else do
    let prec :=
      if s.kind 0 = .lt ∧ gateGenericName c left ∧ genericCallScan s.rest.tail then precPostfix
      else infixPrec (s.kind 0)
    if prec = precNone ∨ prec < minPrec then return left
    else do
      let op ← advance
      let e ← c |>.parseInfix start left op.kind
      c |>.exprLoop minPrec start e
partial_fixpoint

def Ctx.parsePrefix (c : Ctx) : Parse Expr := do
  let t ← current
  match t.kind with
  | .intLit => do
    let _ ← advance
    return .intLit (readInt c.inConstExpr t.text)
  | .floatLit => do
    let _ ← advance
    return .floatLit t.text
  | .stringLit => do
    let _ ← advance
    return .stringLit (t.text.drop 1).dropLast
  | .cstringLit => do
    let _ ← advance
    return .cstringLit (t.text.drop 2).dropLast
  | .charLit => do
    let _ ← advance
    return .charLit t.text
  | .kwTrue => do
    let _ ← advance
    return .boolLit true
  | .kwFalse => do
    let _ ← advance
    return .boolLit false
  | .ident => parseIdentPrefix t.text
  | .lparen => c |>.parseParenPrefix
  | .minus => c |>.parseUnary .minus
  | .bang => c |>.parseUnary .bang
  | .tilde => c |>.parseUnary .tilde
  | .amp => c |>.parseUnary .amp
  | .star => c |>.parseUnary .star
  | .lt => do
    if (← get).kind 1 = .typeVar then failure
    else do
      diagError
      let _ ← advance
      return .error
  | .typeVar => do
    if atSliceLiteral (← get).rest then failure
    else do
      let _ ← advance
      return .typeVarRef t.text
  | .interpStart | .cinterpStart | .lbrace | .kwIf | .kwMatch | .kwSome | .kwNone | .kwOk | .kwErr
  | .kwLet | .kwLoop | .kwGuarded | .kwUnguarded | .kwChecked | .kwUnchecked | .kwFor | .kwVoid
  | .kwSizeof | .kwErrorName | .kwError | .kwAlignof | .kwBitcast | .kwEnumOf | .kwDefault | .kwFree
  | .kwAtomicLoad | .kwAtomicStore | .kwStaticAssert | .kwAssert | .kwAlloc | .kwAlloca
  | .kwConst => failure
  | k => unexpected k
partial_fixpoint

def Ctx.parseUnary (c : Ctx) (op : TokenKind) : Parse Expr := do
  let _ ← advance
  let operand ← c |>.parseExpr precPrefix
  return .unaryPrefix op operand
partial_fixpoint

def Ctx.parseParenPrefix (c : Ctx) : Parse Expr := do
  let s ← get
  if atSliceLitBrackets (skipGroup .lparen .rparen 0 s.rest) then failure
  else if s.kind 1 = .rparen ∧ s.kind 2 = .arrow then failure
  else if (s.kind 1 = .ident ∨ (s.rest.getD 1 eofTok).isKeyword) ∧ s.kind 2 = .colon then failure
  else if tryCast s.rest.tail then c |>.parseCast else c |>.parseGrouped
partial_fixpoint

/-- A parenthesis tried as a cast, and as a grouping when it is none. -/
def Ctx.parseCast (c : Ctx) : Parse Expr := do
  let s ← get
  let nameLed := s.kind 1 = .ident ∧ (typeFromName (s.rest.getD 1 eofTok).text).isNone
  set s.speculateBegin
  let _ ← advance
  let target ← c |>.parseType
  let bufferSize ← parseBufferSize target
  if (← get).kind 0 = .rparen ∧ nameSuffixOnly target nameLed = false then do
    modify (State.speculateEnd s.held true)
    let _ ← advance
    let operand ← c |>.parseExpr precPrefix
    return .cast target operand bufferSize
  else do
    modify (State.speculateEnd s.held false)
    modify (State.restorePos s.rest)
    c |>.parseGrouped
partial_fixpoint

/-- A parenthesized expression or `;`-sequence. -/
def Ctx.parseGrouped (c : Ctx) : Parse Expr := do
  let _ ← advance
  let stmts ← { c with blockArmArrow := false } |>.parseInlineSeq
  let _ ← expect .rparen
  return blockOrSingle stmts
partial_fixpoint

def Ctx.parseInlineSeq (c : Ctx) : Parse (List Expr) := do
  let e ← c |>.parseBlockItem
  if (← get).kind 0 = .semicolon then do
    modify skipSemicolons
    if (← get).atStmtTerminator then return [e]
    else do
      let es ← c |>.parseInlineSeq
      return e :: es
  else return [e]
partial_fixpoint

def Ctx.parseBlockItem (c : Ctx) : Parse Expr := do
  match (← get).kind 0 with
  | .kwLet | .kwReturn | .kwBreak | .kwContinue | .kwDefer | .kwIgnore => failure
  | _ => c |>.parseExpr 1
partial_fixpoint

def Ctx.parseBinaryRhs (c : Ctx) (left : Expr) (op : TokenKind) : Parse Expr := do
  let right ← c |>.parseExpr (infixPrec op + 1)
  return .binary op left right
partial_fixpoint

/-- A `<` read as type arguments, or `none` when it is a comparison. -/
def Ctx.parseGenericSuffix (c : Ctx) (left : Expr) : Parse (Option Expr) := do
  let s ← get
  if structLitTypeargScan s.rest ∧ isDottedName left then failure
  else if gateGenericName c left then do
    if genericCallScan s.rest then do
      let typeArgs ← c |>.parseTypeArgList
      expectTypeargGt
      if (← get).kind 0 = .dot then do
        let _ ← advance
        let field ← expect .ident
        if (← get).kind 0 = .lparen then do
          let _ ← advance
          let args ← c |>.parseCallArgs
          let _ ← expect .rparen
          return some (.call (.field left field.text typeArgs) args typeArgs false)
        else return some (.field left field.text typeArgs)
      else do
        let _ ← expect .lparen
        let args ← c |>.parseCallArgs
        let _ ← expect .rparen
        return some (.call left args typeArgs false)
    else if bareInstScan s.rest then do
      let typeArgs ← c |>.parseTypeArgList
      expectTypeargGt
      return some (.call left [] typeArgs true)
    else return none
  else return none
partial_fixpoint

def Ctx.parseCallArgs (c : Ctx) : Parse (List Expr) := do
  if (← get).kind 0 = .rparen then return [] else c |>.parseArgs
partial_fixpoint

/-- The arguments that commas separate. -/
def Ctx.parseArgs (c : Ctx) : Parse (List Expr) := do
  let arg ← c |>.parseBracketedExpr 1
  if (← get).kind 0 = .comma then do
    let _ ← advance
    let args ← c |>.parseArgs
    return arg :: args
  else return [arg]
partial_fixpoint

/-- The upper bound of a slice, absent before its `]`. -/
def Ctx.parseHi (c : Ctx) : Parse (Option Expr) := do
  if (← get).kind 0 = .rbracket then return none
  else do
    let hi ← c |>.parseBracketedExpr 1
    return some hi
partial_fixpoint

def Ctx.parseInfix (c : Ctx) (start : Start) (left : Expr) (op : TokenKind) : Parse Expr := do
  match op with
  | .bang => return .unaryPostfix .bang left (sourceText start (← get))
  | .question => return .unaryPostfix .question left []
  | .dot => do
    let field ← expect .ident
    return .field left field.text []
  | .arrow => do
    diagError
    if (← get).kind 0 = .ident then do
      let _ ← advance
      return .error
    else return .error
  | .lbracket => do
    if (← get).kind 0 = .dotDot then do
      let _ ← advance
      let hi ← c |>.parseHi
      let _ ← expect .rbracket
      return .slice left none hi
    else do
      let index ← c |>.parseBracketedExpr 1
      if (← get).kind 0 = .dotDot then do
        let _ ← advance
        let hi ← c |>.parseHi
        let _ ← expect .rbracket
        return .slice left (some index) hi
      else do
        let _ ← expect .rbracket
        return .index left index
  | .lparen => do
    let args ← c |>.parseCallArgs
    let _ ← expect .rparen
    return .call left args [] false
  | .eq => do
    let value ← c |>.parseExpr precAssign
    return .assign left value
  | .lt => do
    match ← c |>.parseGenericSuffix left with
    | some e => return e
    | none => c |>.parseBinaryRhs left .lt
  | op => c |>.parseBinaryRhs left op
partial_fixpoint

end

end FcLang.Parser
