import FcLang.Lexer.Token

/-!
# The scanner

The first phase of the lexer: bytes to raw tokens. A loop over characters is
described by how many of them it consumes; the scanner then advances over that
many. A scanner advances over its source only, so a token that is scanned takes
up a character, and the loop over tokens ends.
-/

namespace FcLang.Lexer

def isDigit (c : UInt8) : Bool := '0'.toUInt8 ≤ c ∧ c ≤ '9'.toUInt8

def isAlpha (c : UInt8) : Bool :=
  'a'.toUInt8 ≤ c ∧ c ≤ 'z'.toUInt8 ∨ 'A'.toUInt8 ≤ c ∧ c ≤ 'Z'.toUInt8

def isAlnum (c : UInt8) : Bool := isAlpha c || isDigit c

def isXDigit (c : UInt8) : Bool :=
  isDigit c || ('a'.toUInt8 ≤ c ∧ c ≤ 'f'.toUInt8 ∨ 'A'.toUInt8 ≤ c ∧ c ≤ 'F'.toUInt8)

def toLower (c : UInt8) : UInt8 := if 'A'.toUInt8 ≤ c ∧ c ≤ 'Z'.toUInt8 then c + 32 else c

def isBinDigit (c : UInt8) : Bool := c = '0'.toUInt8 ∨ c = '1'.toUInt8

def isOctDigit (c : UInt8) : Bool := '0'.toUInt8 ≤ c ∧ c ≤ '7'.toUInt8

/-- What a name goes on with. -/
def isNameChar (c : UInt8) : Bool := isAlnum c || c = '_'.toUInt8

def maxInterpDepth : ℕ := 8

/-- `interp` holds the brace depth of each interpolation the scanner is in, the innermost first;
`fmtSpec` is the format specifier that comes next. The text ends where `rest` does. -/
structure Scanner where
  prev : UInt8
  rest : List UInt8
  line : ℕ
  col : ℕ
  interp : List ℕ
  fmtSpec : Option Token
  prevKind : TokenKind
  prevPrevKind : TokenKind

namespace Scanner

/-- A text ends at its first NUL. -/
def init (source : List UInt8) : Scanner where
  prev := 0
  rest := source.takeWhile fun c => c ≠ 0
  line := 1
  col := 1
  interp := []
  fmtSpec := none
  prevKind := .eof
  prevPrevKind := .eof

/-- The character `n` places ahead, or NUL past the end. -/
def peekAt (s : Scanner) (n : ℕ) : UInt8 := (s.rest[n]?).getD 0

def peek (s : Scanner) : UInt8 := s.peekAt 0

def peekNext (s : Scanner) : UInt8 := s.peekAt 1

def advance (s : Scanner) : Scanner :=
  match s.rest with
  | [] => s
  | c :: rest =>
    if c = '\n'.toUInt8 then { s with prev := c, rest := rest, line := s.line + 1, col := 1 }
    else { s with prev := c, rest := rest, col := s.col + 1 }

def advanceBy (s : Scanner) : ℕ → Scanner
  | 0 => s
  | n + 1 => s.advance.advanceBy n

/-- The characters from here to a later state. -/
def textTo (start s : Scanner) : List UInt8 :=
  start.rest.take (start.rest.length - s.rest.length)

def makeToken (start s : Scanner) (kind : TokenKind) : Token :=
  ⟨kind, start.textTo s, start.line, start.col⟩

/-- An error token is fatal as soon as it is scanned. -/
def errorToken {α : Type} (start : Scanner) (message : String) : Run α :=
  diagFatal start.line start.col message

/-- `while (p(peek)) advance` -/
def skipWhile (s : Scanner) (p : UInt8 → Bool) : Scanner :=
  s.advanceBy (s.rest.takeWhile p).length

end Scanner

open Scanner

/-- In code, in a line comment, or inside as many block comments more than one. -/
inductive Trivia where
  | code
  | line
  | block (outer : ℕ)

inductive TriviaEnd where
  | token
  | tab
  | unterminated
  deriving DecidableEq

/-- How many characters the spaces and comments in front of a token take up, and what ends them. -/
def triviaRun : Trivia → List UInt8 → ℕ × TriviaEnd
  | .code, [] => (0, .token)
  | .code, [c] =>
    if c = ' '.toUInt8 ∨ c = '\r'.toUInt8 then (1, .token)
    else if c = '\t'.toUInt8 then (0, .tab)
    else (0, .token)
  | .code, c :: d :: rest =>
    if c = ' '.toUInt8 ∨ c = '\r'.toUInt8 then
      let r := triviaRun .code (d :: rest)
      (r.1 + 1, r.2)
    else if c = '\t'.toUInt8 then (0, .tab)
    else if c = '/'.toUInt8 ∧ d = '/'.toUInt8 then
      let r := triviaRun .line rest
      (r.1 + 2, r.2)
    else if c = '/'.toUInt8 ∧ d = '*'.toUInt8 then
      let r := triviaRun (.block 0) rest
      (r.1 + 2, r.2)
    else (0, .token)
  | .line, [] => (0, .token)
  | .line, c :: rest =>
    if c = '\n'.toUInt8 then (0, .token)
    else
      let r := triviaRun .line rest
      (r.1 + 1, r.2)
  | .block _, [] => (0, .unterminated)
  | .block _, [_] => (1, .unterminated)
  | .block outer, c :: d :: rest =>
    if c = '/'.toUInt8 ∧ d = '*'.toUInt8 then
      let r := triviaRun (.block (outer + 1)) rest
      (r.1 + 2, r.2)
    else if c = '*'.toUInt8 ∧ d = '/'.toUInt8 then
      let r := triviaRun (match outer with | 0 => .code | outer + 1 => .block outer) rest
      (r.1 + 2, r.2)
    else
      let r := triviaRun (.block outer) (d :: rest)
      (r.1 + 1, r.2)

/-- Past the spaces and comments in front of a token. -/
def skipTrivia (s : Scanner) : Run Scanner :=
  let r := triviaRun .code s.rest
  let s := s.advanceBy r.1
  match r.2 with
  | .token => .ok s
  | .tab => diagFatal s.line s.col "tabs are not allowed; use spaces for indentation"
  | .unterminated => diagFatal s.line s.col "unterminated block comment"

def keywords : List (String × TokenKind) :=
  [("let", .kwLet), ("mut", .kwMut), ("struct", .kwStruct), ("union", .kwUnion),
    ("enum", .kwEnum), ("module", .kwModule), ("namespace", .kwNamespace),
    ("import", .kwImport), ("from", .kwFrom), ("as", .kwAs), ("extern", .kwExtern),
    ("private", .kwPrivate), ("match", .kwMatch), ("with", .kwWith), ("when", .kwWhen),
    ("if", .kwIf), ("then", .kwThen), ("else", .kwElse), ("for", .kwFor), ("in", .kwIn),
    ("loop", .kwLoop), ("do", .kwDo), ("break", .kwBreak), ("continue", .kwContinue),
    ("return", .kwReturn), ("defer", .kwDefer), ("ignore", .kwIgnore), ("some", .kwSome),
    ("true", .kwTrue), ("false", .kwFalse), ("none", .kwNone), ("ok", .kwOk), ("err", .kwErr),
    ("error", .kwError), ("void", .kwVoid), ("guarded", .kwGuarded),
    ("unguarded", .kwUnguarded), ("checked", .kwChecked), ("unchecked", .kwUnchecked),
    ("alloc", .kwAlloc), ("alloca", .kwAlloca), ("free", .kwFree), ("sizeof", .kwSizeof),
    ("alignof", .kwAlignof), ("bitcast", .kwBitcast), ("enum_of", .kwEnumOf),
    ("default", .kwDefault), ("const", .kwConst), ("assert", .kwAssert),
    ("static_assert", .kwStaticAssert), ("error_name", .kwErrorName),
    ("atomic_load_acquire", .kwAtomicLoad), ("atomic_store_release", .kwAtomicStore)]

def checkKeyword (text : List UInt8) : TokenKind :=
  match keywords.find? fun kw => bytes kw.1 = text with
  | some kw => kw.2
  | none => .ident

/-- `__` somewhere in a name. -/
def hasDunder : List UInt8 → Bool
  | c :: d :: rest => c = '_'.toUInt8 ∧ d = '_'.toUInt8 ∨ hasDunder (d :: rest)
  | _ => false

/-- The position of a C name, where `__` is allowed. -/
def externCNamePos (s : Scanner) : Bool :=
  s.prevKind = .kwExtern ∨
    (s.prevKind = .kwStruct ∨ s.prevKind = .kwUnion) ∧ s.prevPrevKind = .kwExtern

/-- The scanner stands behind the first character of the name. -/
def scanIdentifier (start s : Scanner) : Run (Token × Scanner) :=
  let s := s.skipWhile isNameChar
  let text := start.textTo s
  let kw := checkKeyword text
  if kw = .ident ∧ ¬externCNamePos s ∧ hasDunder text then
    diagFatal s.line start.col
      ("identifier '" ++ spell text ++ "' contains '__' (double underscore), which is reserved")
  else .ok (start.makeToken s kw, s)

/-- A run of digits in which `_` may separate two digits. -/
def digitsRun (isDigit : UInt8 → Bool) : UInt8 → List UInt8 → ℕ
  | _, [] => 0
  | prev, c :: rest =>
    if isDigit c ∨ c = '_'.toUInt8 ∧ isDigit prev ∧ isDigit (rest.headD 0) then
      digitsRun isDigit c rest + 1
    else 0

/-- Whether any digit was consumed, and the state behind the run. -/
def scanDigits (s : Scanner) (isDigit : UInt8 → Bool) : Bool × Scanner :=
  let n := digitsRun isDigit s.prev s.rest
  ((s.rest.take n).any fun c => c ≠ '_'.toUInt8, s.advanceBy n)

/-- Whether an exponent was consumed, and the state behind it. -/
def scanExponent (s : Scanner) (marker : UInt8) : Bool × Scanner :=
  let c1 := s.peekNext
  if toLower s.peek ≠ marker then (false, s)
  else if !isDigit c1 && !((c1 = '+'.toUInt8 || c1 = '-'.toUInt8) && isDigit (s.peekAt 2)) then
    (false, s)
  else
    let s := s.advance
    let s := if s.peek = '+'.toUInt8 ∨ s.peek = '-'.toUInt8 then s.advance else s
    (true, (scanDigits s isDigit).2)

def intSuffixes : List String :=
  ["i8", "i16", "i32", "i64", "u8", "u16", "u32", "u64", "isize", "usize"]

def floatSuffixes : List String := ["f32", "f64"]

/-- The type suffix of a literal, if any, and the token of the literal. -/
def finishSuffixed (start s : Scanner) (lead : List UInt8) (kind : TokenKind)
    (suffixes : List String) : Run (Token × Scanner) :=
  if s.peek ∈ lead ∧ isAlnum s.peekNext then
    let s' := s.skipWhile isAlnum
    if suffixes.any fun suffix => bytes suffix = s.textTo s' then
      .ok (start.makeToken s' kind, s')
    else start.errorToken "invalid suffix on numeric literal"
  else .ok (start.makeToken s kind, s)

def finishInt (start s : Scanner) : Run (Token × Scanner) :=
  finishSuffixed start s ['i'.toUInt8, 'u'.toUInt8] .intLit intSuffixes

def finishFloat (start s : Scanner) : Run (Token × Scanner) :=
  finishSuffixed start s ['f'.toUInt8] .floatLit floatSuffixes

def scanHex (start s : Scanner) : Run (Token × Scanner) :=
  let (hasDigit, s) := scanDigits s isXDigit
  let hasDot := s.peek = '.'.toUInt8 && isXDigit s.peekNext
  let (frac, s) := if hasDot then scanDigits s.advance isXDigit else (false, s)
  let hasDigit := hasDigit || frac
  let (hasExp, s) := scanExponent s 'p'.toUInt8
  if hasDot ∧ ¬hasExp then
    diagFatal s.line start.col ("hex float literal requires a binary exponent " ++
      "('p' or 'P' followed by decimal digits)")
  else if hasDot ∨ hasExp then
    if ¬hasDigit then
      diagFatal s.line start.col "hex float literal requires at least one mantissa digit"
    else finishFloat start s
  else if ¬hasDigit then start.errorToken "a '0x' prefix must be followed by a hex digit"
  else finishInt start s

/-- The scanner stands behind the first digit. -/
def scanNumberBody (start s : Scanner) : Run (Token × Scanner) :=
  let base := toLower s.peek
  if s.prev = '0'.toUInt8 ∧ base = 'x'.toUInt8 then scanHex start s.advance
  else if s.prev = '0'.toUInt8 ∧ base = 'b'.toUInt8 then
    let (any, s) := scanDigits s.advance isBinDigit
    if any then finishInt start s
    else start.errorToken "a '0b' prefix must be followed by a binary digit"
  else if s.prev = '0'.toUInt8 ∧ base = 'o'.toUInt8 then
    let (any, s) := scanDigits s.advance isOctDigit
    if any then finishInt start s
    else start.errorToken "a '0o' prefix must be followed by an octal digit"
  else
    let s := (scanDigits s isDigit).2
    let hasDot := s.peek = '.'.toUInt8 && isDigit s.peekNext
    let s := if hasDot then (scanDigits s.advance isDigit).2 else s
    if s.peek = 'e'.toUInt8 ∨ s.peek = 'E'.toUInt8 then
      let (hasExp, s) := scanExponent s 'e'.toUInt8
      if hasExp then finishFloat start s
      else start.errorToken "float exponent requires at least one digit"
    else if hasDot then finishFloat start s
    else finishInt start s

def scanNumber (start s : Scanner) : Run (Token × Scanner) := do
  let (t, s) ← scanNumberBody start s
  if isNameChar s.peek then start.errorToken "invalid suffix on numeric literal" else .ok (t, s)

def simpleEscapes : List UInt8 :=
  ['n'.toUInt8, 't'.toUInt8, 'r'.toUInt8, '0'.toUInt8, '\\'.toUInt8, '"'.toUInt8, '\''.toUInt8]

/-- How many characters an escape takes up behind its backslash, or what is wrong with it. -/
def scanEscape (rest : List UInt8) : Except String ℕ :=
  match rest with
  | [] => .error "unrecognized escape sequence"
  | esc :: rest =>
    if esc ∈ simpleEscapes then .ok 1
    else if esc = 'x'.toUInt8 then
      if isXDigit ((rest[0]?).getD 0) && isXDigit ((rest[1]?).getD 0) then .ok 3
      else .error "\\x escape requires exactly two hex digits"
    else .error "unrecognized escape sequence"

def isConversion (c : UInt8) : Bool := c ∈ bytes "diuxXofeEgGscpT"

def isSpecFlag (c : UInt8) : Bool := c ∈ bytes "-+ #0"

/-- The length of a format specifier, zero if there is none. -/
def interpSpecScan (text : List UInt8) : ℕ :=
  let afterFlags := text.dropWhile isSpecFlag
  let afterWidth := afterFlags.dropWhile isDigit
  let afterPrecision := match afterWidth with
    | [] => []
    | c :: rest => if c = '.'.toUInt8 then rest.dropWhile isDigit else c :: rest
  match afterPrecision with
  | [] => 0
  | c :: _ => if isConversion c then text.length - afterPrecision.length + 1 else 0

/-- The length of a specifier that opens an interpolation, zero if there is none. -/
def checkInterpSpec (text : List UInt8) : ℕ :=
  let n := interpSpecScan text
  if n > 0 ∧ (text[n]?).getD 0 = '{'.toUInt8 then n else 0

inductive TextEnd where
  | quote
  | interpolation (specLen : ℕ)
  | unterminated
  | badEscape (message : String)

/-- The literal text of a string segment: how many characters, and what ends it. `skip` characters
of an escape or of `%%` are still to be passed over. -/
def textRun : ℕ → List UInt8 → ℕ × TextEnd
  | _, [] => (0, .unterminated)
  | skip + 1, _ :: rest =>
    let r := textRun skip rest
    (r.1 + 1, r.2)
  | 0, c :: rest =>
    if c = '"'.toUInt8 then (0, .quote)
    else if c = '\n'.toUInt8 then (0, .unterminated)
    else if c = '\\'.toUInt8 then
      if rest = [] then (1, .unterminated)
      else match scanEscape rest with
        | .error message => (1, .badEscape message)
        | .ok n =>
          let r := textRun n rest
          (r.1 + 1, r.2)
    else if c = '%'.toUInt8 ∧ rest.head? = some '%'.toUInt8 then
      let r := textRun 1 rest
      (r.1 + 1, r.2)
    else if c = '%'.toUInt8 ∧ checkInterpSpec rest > 0 then
      (0, .interpolation (checkInterpSpec rest))
    else
      let r := textRun 0 rest
      (r.1 + 1, r.2)

/-- `start` is where the token begins, `s` where its literal text does. -/
def scanStringBody (start s : Scanner) (kind : TokenKind) : Run (Token × Scanner) :=
  let r := textRun 0 s.rest
  let s' := s.advanceBy r.1
  let segment := fun kind => (⟨kind, s.textTo s', s'.line, start.col⟩ : Token)
  match r.2 with
  | .badEscape message => start.errorToken message
  | .unterminated => start.errorToken "unterminated string"
  | .interpolation specLen =>
    let spec := s'.advance
    let fmtSpec : Token := ⟨.fmtSpec, spec.rest.take specLen, spec.line, spec.col⟩
    let s'' := spec.advanceBy (specLen + 1)
    if s''.interp.length ≥ maxInterpDepth then
      start.errorToken "string interpolation nested too deeply"
    else .ok (segment kind, { s'' with interp := 1 :: s''.interp, fmtSpec := some fmtSpec })
  | .quote =>
    let s'' := s'.advance
    if kind = .interpMid then .ok (segment .interpEnd, s'')
    else .ok (start.makeToken s'' (if kind = .cinterpStart then .cstringLit else .stringLit), s'')

/-- The scanner stands at the opening quote. -/
def scanString (start s : Scanner) : Run (Token × Scanner) :=
  scanStringBody start s.advance .interpStart

def scanCstring (start s : Scanner) : Run (Token × Scanner) :=
  scanStringBody start s.advance .cinterpStart

def finishChar (start s : Scanner) : Run (Token × Scanner) :=
  if s.peek ≠ '\''.toUInt8 then start.errorToken "unterminated char literal"
  else .ok (start.makeToken s.advance .charLit, s.advance)

def scanCharLit (start : Scanner) : Run (Token × Scanner) :=
  let s := start.advance
  if s.peek = '\\'.toUInt8 then
    match scanEscape s.advance.rest with
    | .error message => start.errorToken message
    | .ok n => finishChar start (s.advance.advanceBy n)
  else if s.rest = [] ∨ s.peek = '\n'.toUInt8 then start.errorToken "unterminated char literal"
  else finishChar start s.advance

/-- The scanner stands behind an apostrophe. -/
def scanApostrophe (start s : Scanner) : Run (Token × Scanner) :=
  if s.peek = '\\'.toUInt8 then scanCharLit start
  else if isAlpha s.peek then
    if s.advance.peek = '\''.toUInt8 then scanCharLit start
    else
      let s := s.skipWhile isNameChar
      let text := start.textTo s
      if hasDunder text then
        diagFatal s.line start.col ("type variable '" ++ spell text ++
          "' contains '__' (double underscore), which is reserved")
      else .ok (start.makeToken s .typeVar, s)
  else scanCharLit start

/-- An operator from its first two or three characters, with how many of them follow the first. -/
def operator (c next third : UInt8) : Option (TokenKind × ℕ) :=
  let either (second : UInt8) (long short : TokenKind) : Option (TokenKind × ℕ) :=
    if next = second then some (long, 1) else some (short, 0)
  if c = '+'.toUInt8 then some (.plus, 0)
  else if c = '*'.toUInt8 then some (.star, 0)
  else if c = '/'.toUInt8 then some (.slash, 0)
  else if c = '%'.toUInt8 then some (.percent, 0)
  else if c = '^'.toUInt8 then some (.caret, 0)
  else if c = '~'.toUInt8 then some (.tilde, 0)
  else if c = '?'.toUInt8 then some (.question, 0)
  else if c = ';'.toUInt8 then some (.semicolon, 0)
  else if c = '('.toUInt8 then some (.lparen, 0)
  else if c = ')'.toUInt8 then some (.rparen, 0)
  else if c = '['.toUInt8 then some (.lbracket, 0)
  else if c = ']'.toUInt8 then some (.rbracket, 0)
  else if c = '{'.toUInt8 then some (.lbrace, 0)
  else if c = '}'.toUInt8 then some (.rbrace, 0)
  else if c = ','.toUInt8 then some (.comma, 0)
  else if c = '-'.toUInt8 then either '>'.toUInt8 .arrow .minus
  else if c = '='.toUInt8 then either '='.toUInt8 .eqEq .eq
  else if c = '!'.toUInt8 then either '='.toUInt8 .bangEq .bang
  else if c = '<'.toUInt8 then
    if next = '='.toUInt8 then some (.ltEq, 1) else either '<'.toUInt8 .ltLt .lt
  else if c = '>'.toUInt8 then
    if next = '='.toUInt8 then some (.gtEq, 1) else either '>'.toUInt8 .gtGt .gt
  else if c = '&'.toUInt8 then either '&'.toUInt8 .ampAmp .amp
  else if c = '|'.toUInt8 then either '|'.toUInt8 .pipePipe .pipe
  else if c = '.'.toUInt8 then
    if next = '.'.toUInt8 then
      if third = '.'.toUInt8 then some (.ellipsis, 2) else some (.dotDot, 1)
    else some (.dot, 0)
  else if c = ':'.toUInt8 then either ':'.toUInt8 .colonColon .colon
  else none

/-- The scanner stands behind `#`. -/
def scanDirective (start s : Scanner) : Run (Token × Scanner) :=
  let dir := s.skipWhile fun c => c = ' '.toUInt8
  let s := dir.skipWhile isAlpha
  let name := dir.textTo s
  if name = bytes "end" then .ok (start.makeToken s .hashEnd, s)
  else if name = bytes "else" then
    let ahead := s.skipWhile fun c => c = ' '.toUInt8
    let after := ahead.peekAt 2
    if ahead.peek = 'i'.toUInt8 ∧ ahead.peekNext = 'f'.toUInt8 ∧ ¬isAlpha after ∧
        after ≠ '_'.toUInt8 then
      .ok (start.makeToken (ahead.advanceBy 2) .hashElseIf, ahead.advanceBy 2)
    else .ok (start.makeToken s .hashElse, s)
  else if name = bytes "if" then .ok (start.makeToken s .hashIf, s)
  else start.errorToken "unknown preprocessor directive"

/-- Braces inside an interpolated expression; the one that closes it resumes the string. -/
def trackBrace (s : Scanner) : Option Scanner :=
  match s.interp with
  | [] => some s
  | depth :: outer =>
    if s.peek = '{'.toUInt8 then some { s with interp := (depth + 1) :: outer }
    else if s.peek = '}'.toUInt8 then
      if depth - 1 = 0 then none else some { s with interp := (depth - 1) :: outer }
    else some s

def scanToken (start : Scanner) : Run (Token × Scanner) :=
  match start.fmtSpec with
  | some t => .ok (t, { start with fmtSpec := none })
  | none =>
    if start.rest = [] then .ok (start.makeToken start .eof, start)
    else match trackBrace start with
      | none =>
        scanStringBody start { start.advance with interp := start.interp.tail } .interpMid
      | some s₀ =>
        let c := s₀.peek
        let s := s₀.advance
        if isAlpha c || c = '_'.toUInt8 then
          if c = 'c'.toUInt8 ∧ s.peek = '"'.toUInt8 then scanCstring s₀ s
          else scanIdentifier s₀ s
        else if isDigit c then scanNumber s₀ s
        else if c = '\''.toUInt8 then scanApostrophe s₀ s
        else if c = '"'.toUInt8 then scanString s₀ s₀
        else if c = '\n'.toUInt8 then .ok (s₀.makeToken s .newline, s)
        else match operator c s.peek s.peekNext with
          | some (kind, n) => .ok (s₀.makeToken (s.advanceBy n) kind, s.advanceBy n)
          | none =>
            if c = '#'.toUInt8 then scanDirective s₀ s
            else start.errorToken "unexpected character"

/-- Raw tokens up to the end of the text, with a budget on their number. -/
def rawLoop : ℕ → Scanner → Run (List Token)
  | 0, _ => .error .budget
  | fuel + 1, s => do
    let s ← skipTrivia s
    let (t, s) ← scanToken s
    if t.kind = .eof then .ok [t]
    else do
      let ts ← rawLoop fuel { s with prevPrevKind := s.prevKind, prevKind := t.kind }
      .ok (t :: ts)

/-- Every token but a format specifier takes up a character. -/
def rawTokenize (source : List UInt8) : Run (List Token) :=
  rawLoop (2 * source.length + 1) (Scanner.init source)

end FcLang.Lexer
