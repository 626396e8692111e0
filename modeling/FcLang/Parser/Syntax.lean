import FcLang.Lexer.Token
import FcLang.Types.Type

/-!
# Tokens and trees of the expression parser

A token keeps its kind and its bytes; its line and column only place
diagnostics. Type trees and expression trees are those the parser builds for
the expression forms it reads by precedence, with the type forms a cast, a
type argument or a size may hold.
-/

namespace FcLang.Parser
open Lexer (TokenKind bytes)
open Types (Prim)

abbrev Name := List UInt8

structure Tok where
  kind : TokenKind
  text : Name
  deriving DecidableEq

def eofTok : Tok := ⟨.eof, []⟩

/-- What `parse_int_value` and `int_lit_type` read from an integer literal. -/
structure IntLit where
  value : ℕ
  litType : Option Prim
  outOfRange : Bool
  deriving DecidableEq

mutual

inductive TypeTree where
  | prim (kind : Prim)
  | errorCode
  | pointer (isConst : Bool) (pointee : TypeTree)
  | slice (isConst : Bool) (elem : TypeTree)
  | option (inner : TypeTree)
  | result (inner : TypeTree)
  | anyPtr (isConst : Bool)
  | typeVar (name : Name)
  | stub (name : Name) (typeArgs : List TypeTree)
  | tuple (elems : List TypeTree)
  | func (params : List TypeTree) (ret : TypeTree) (isVariadic : Bool)
  | fixedArray (elem : TypeTree) (size : ℕ)
  | fixedArraySym (elem sizeRef : TypeTree)
  | constInt (value : ℤ)
  | constExpr (expr : Expr)
  | error

/-- Expression trees. An unwrap keeps its operand's source text, here as tokens. -/
inductive Expr where
  | intLit (lit : IntLit)
  | floatLit (text : Name)
  | stringLit (value : Name)
  | cstringLit (value : Name)
  | charLit (text : Name)
  | boolLit (value : Bool)
  | ident (name : Name)
  | typeVarRef (name : Name)
  | unaryPrefix (op : TokenKind) (operand : Expr)
  | unaryPostfix (op : TokenKind) (operand : Expr) (exprText : List Tok)
  | field (object : Expr) (name : Name) (typeArgs : List TypeTree)
  | index (object index : Expr)
  | slice (object : Expr) (lo hi : Option Expr)
  | call (func : Expr) (args : List Expr) (typeArgs : List TypeTree) (bareInst : Bool)
  | binary (op : TokenKind) (left right : Expr)
  | assign (target value : Expr)
  | cast (target : TypeTree) (operand : Expr) (bufferSize : Option ℕ)
  | block (stmts : List Expr)
  | error

end

/-- The types that `type_from_name` names. -/
def typeFromName (name : Name) : Option TypeTree :=
  [(bytes "i8", .prim .int8), (bytes "i16", .prim .int16), (bytes "i32", .prim .int32),
    (bytes "i64", .prim .int64), (bytes "u8", .prim .uint8), (bytes "u16", .prim .uint16),
    (bytes "u32", .prim .uint32), (bytes "u64", .prim .uint64), (bytes "f32", .prim .float32),
    (bytes "f64", .prim .float64), (bytes "bool", .prim .bool), (bytes "char", .prim .uint8),
    (bytes "str", .slice false (.prim .uint8)), (bytes "cstr", .pointer false (.prim .uint8)),
    (bytes "any", .anyPtr false), (bytes "isize", .prim .isize),
    (bytes "usize", .prim .usize)].lookup name

def typeFromIntSuffix (suffix : Name) : Option Prim :=
  if suffix = [] then some .int32
  else [(bytes "i8", .int8), (bytes "i16", .int16), (bytes "i32", .int32), (bytes "i64", .int64),
    (bytes "u8", .uint8), (bytes "u16", .uint16), (bytes "u32", .uint32), (bytes "u64", .uint64),
    (bytes "isize", Prim.isize), (bytes "usize", .usize)].lookup suffix

def TypeTree.isFixedArray : TypeTree → Bool
  | .fixedArray _ _ | .fixedArraySym _ _ => true
  | _ => false

/-- `is_cstr_type`. -/
def TypeTree.isCstr : TypeTree → Bool
  | .pointer _ (.prim .uint8) => true
  | _ => false

/-- The type under its `!` and `?` suffixes. -/
def TypeTree.underMarks : TypeTree → TypeTree
  | .result inner | .option inner => inner.underMarks
  | t => t

def TypeTree.isMarked : TypeTree → Bool
  | .result _ | .option _ => true
  | _ => false

/-- Whether a user type's name stands under all of a type's suffixes. -/
def TypeTree.StubLed : TypeTree → Prop
  | .pointer _ t | .slice _ t | .option t | .result t | .fixedArray t _ | .fixedArraySym t _ =>
    t.StubLed
  | .stub _ _ => True
  | _ => False

/-- `name_suffix_only`: a name or dotted path under `!` and `?` suffixes, and nothing else. -/
def nameSuffixOnly (target : TypeTree) (nameLed : Bool) : Bool :=
  nameLed && target.isMarked && match target.underMarks with
    | .stub _ [] => true
    | _ => false

/-- The radix of an integer literal, from its prefix. -/
def intBase : Name → ℕ
  | 48 :: c :: _ =>
    if c = 120 ∨ c = 88 then 16 else if c = 98 ∨ c = 66 then 2
    else if c = 111 ∨ c = 79 then 8 else 10
  | _ => 10

def isBaseDigit (base : ℕ) (c : UInt8) : Bool :=
  if base = 16 then (48 ≤ c && c ≤ 57) || (97 ≤ c && c ≤ 102) || (65 ≤ c && c ≤ 70)
  else 48 ≤ c && c.toNat < 48 + base

def digitValue (c : UInt8) : ℕ :=
  if c ≤ 57 then c.toNat - 48 else if 97 ≤ c then c.toNat - 87 else c.toNat - 55

/-- The characters after the radix prefix. -/
def intBody (text : Name) : Name := if intBase text = 10 then text else text.drop 2

/-- `parse_int_value`: underscores are skipped, and what is no digit ends the number. -/
def parseIntValue (text : Name) : ℕ × Bool :=
  let base := intBase text
  let digits := ((intBody text).takeWhile fun c => isBaseDigit base c || c == 95).filter (· ≠ 95)
  let n := digits.foldl (fun acc c => acc * base + digitValue c) 0
  if n < 2 ^ 64 then (n, false) else (2 ^ 64 - 1, true)

/-- The suffix of an integer literal: what follows its `int_num_end`. -/
def intSuffix (text : Name) : Name :=
  (intBody text).dropWhile fun c => isBaseDigit (intBase text) c || c == 95

def intLitType (inConstExpr : Bool) (text : Name) : Option Prim :=
  if intSuffix text = [] then some (if inConstExpr then .int64 else .int32)
  else typeFromIntSuffix (intSuffix text)

def readInt (inConstExpr : Bool) (text : Name) : IntLit :=
  ⟨(parseIntValue text).1, intLitType inConstExpr text, (parseIntValue text).2⟩

@[simp] abbrev precNone : ℕ := 0
@[simp] abbrev precAssign : ℕ := 1
@[simp] abbrev precLor : ℕ := 2
@[simp] abbrev precLand : ℕ := 3
@[simp] abbrev precCmp : ℕ := 4
@[simp] abbrev precBor : ℕ := 5
@[simp] abbrev precBxor : ℕ := 6
@[simp] abbrev precBand : ℕ := 7
@[simp] abbrev precShift : ℕ := 8
@[simp] abbrev precAdd : ℕ := 9
@[simp] abbrev precMul : ℕ := 10
@[simp] abbrev precPrefix : ℕ := 11
@[simp] abbrev precPostfix : ℕ := 12

def infixPrec : TokenKind → ℕ
  | .eq => precAssign
  | .pipePipe => precLor
  | .ampAmp => precLand
  | .eqEq | .bangEq | .lt | .gt | .ltEq | .gtEq => precCmp
  | .pipe => precBor
  | .caret => precBxor
  | .amp => precBand
  | .ltLt | .gtGt => precShift
  | .plus | .minus => precAdd
  | .star | .slash | .percent => precMul
  | .bang | .question | .lbracket | .dot | .arrow | .lparen => precPostfix
  | _ => precNone

end FcLang.Parser
