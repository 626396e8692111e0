import FcLang.Lib.PrintfLength
import FcLang.Text.Encode
import FcLang.Text.InterpSpec

/-!
# Interpolated strings

How an interpolated string is written as a call of the formatter, and how large
a buffer the call is given: each segment's share of the format, of the arguments
and of the buffer.
-/

namespace FcLang.Text
open CText (question newline quote)
open Facts (Target IntTy FloatTy)
open Printf (Arg Directive Magnitude Pointers ascii)

/-- The name of a type, as `type_name` spells it. -/
structure TypeName where
  bytes : List UInt8
  plain : ∀ c ∈ bytes, c ≠ 0 ∧ c ≠ newline ∧ c ≠ quote ∧ c ≠ backslash
  head_ne : bytes.head? ≠ some question

structure FloatVal (t : FloatTy) where
  negative : Bool
  magnitude : Magnitude
  inRange : ∀ q, magnitude = .finite q →
    q = 0 ∨ (2 : ℚ) ^ t.format.minExp ≤ q ∧ q < 2 ^ t.format.maxExp

/-- A `cstr` and the text behind it, up to its NUL. -/
structure CStr (T : Target) where
  address : T.Address
  bytes : List UInt8

def OperandTy.Value (T : Target) : OperandTy → Type
  | .int t => T.IntVal t
  | .float t => FloatVal t
  | .str => List UInt8
  | .cstr => CStr T
  | .pointer => T.Address
  | .other => Unit

/-- An operand, with the name of its type in the instance that is emitted. What is
emitted does not depend on the value, which is the one the operand has in a run. -/
structure Operand (T : Target) where
  ty : OperandTy
  name : TypeName
  value : ty.Value T

inductive Segment (T : Target) where
  | literal (text : List UInt8)
  | format (text : List UInt8) (operand : Operand T)

variable {T : Target}

/-- The parser takes the last character of a specifier for its conversion. -/
def segConversion (text : List UInt8) : UInt8 := text.getLastD 0

def interpConvIsUnsigned (conv : UInt8) (ty : OperandTy) : Bool :=
  if conv ∈ Lexer.bytes "uxXo" then true
  else if conv = 'd'.toUInt8 ∨ conv = 'i'.toUInt8 then ty.isUnsigned
  else false

def OperandTy.isInteger : OperandTy → Bool
  | .int _ => true
  | _ => false

/-- The directive of an operand. -/
def emitSpec (text : List UInt8) (ty : OperandTy) : List UInt8 :=
  let conv := segConversion text
  if conv = 's'.toUInt8 ∧ ty = .str then
    percent :: (text.take (interpSpecScan text).2.precAt ++ ascii ".*s")
  else if ty.isInteger ∧ isIntConv conv then
    let cc := if (conv = 'd'.toUInt8 ∨ conv = 'i'.toUInt8) ∧ interpConvIsUnsigned conv ty then
      'u'.toUInt8 else conv
    percent :: (text.dropLast ++ (ascii "ll" ++ [cc]))
  else percent :: text

namespace Segment

/-- What a segment adds to the text of the format literal. -/
def emitFormat : Segment T → List UInt8
  | .literal text => emitFormatText text
  | .format text o =>
    if segConversion text = 'T'.toUInt8 then o.name.bytes else emitSpec text o.ty

end Segment

/-- The number for a C `int`, or an abort. -/
def fcToInt (intMax n : ℕ) : Option ℤ := if n ≤ intMax then some n else none

/-- The length and the pointer of a `str`. -/
def strArgs (intMax : ℕ) (precision : Option ℕ) (bytes : List UInt8) : Option (List Arg) :=
  match precision with
  | some p =>
    if bytes.length < p then (fcToInt intMax bytes.length).map fun n => [.int n, .text bytes]
    else some [.int p, .text bytes]
  | none => (fcToInt intMax bytes.length).map fun n => [.int n, .text bytes]

/-- A bounded string that overflow checking keeps from being cut. -/
def truncAborts (checked : Bool) (precision : Option ℕ) (bytes : List UInt8) : Bool :=
  checked && precision.any fun p => p < bytes.length

/-- The arguments of an operand, none where the emitted code aborts. -/
def Operand.args (intMax : ℕ) (checked : Bool) (text : List UInt8) (o : Operand T) :
    Option (List Arg) :=
  let conv := segConversion text
  let precision := (interpSpecScan text).2.precision
  match o with
  | ⟨.str, _, (bytes : List UInt8)⟩ =>
    if conv = 's'.toUInt8 ∧ truncAborts checked precision bytes then none
    else strArgs intMax precision bytes
  | ⟨.int t, _, (z : T.IntVal t)⟩ =>
    if interpConvIsUnsigned conv (.int t) then some [.long (z.1 % 2 ^ (t.format T).bits)]
    else if conv = 'c'.toUInt8 then some [.int z.1]
    else some [.long z.1]
  | ⟨.float t, _, (v : FloatVal t)⟩ => some [.float v.negative v.magnitude]
  | ⟨.cstr, _, (c : CStr T)⟩ =>
    if conv = 'p'.toUInt8 then some [.pointer c.address.toNat]
    else if conv = 's'.toUInt8 ∧ truncAborts checked precision c.bytes then none
    else some [.text c.bytes]
  | ⟨.pointer, _, (a : T.Address)⟩ => some [.pointer a.toNat]
  | ⟨.other, _, _⟩ => none

def Segment.args (intMax : ℕ) (checked : Bool) : Segment T → Option (List Arg)
  | .literal text => some (nulArgs text)
  | .format text o =>
    if segConversion text = 'T'.toUInt8 then some [] else o.args intMax checked text

def decimalBound : OperandTy → ℕ
  | .int (.fixed .int8) => 4
  | .int (.fixed .uint8) => 3
  | .int (.fixed .int16) => 6
  | .int (.fixed .uint16) => 5
  | .int (.fixed .int32) => 11
  | .int (.fixed .uint32) => 10
  | .int (.fixed .int64) => 20
  | .int (.fixed .uint64) => 20
  | _ => 20

def hexBound : OperandTy → ℕ
  | .int (.fixed .int8) | .int (.fixed .uint8) => 2
  | .int (.fixed .int16) | .int (.fixed .uint16) => 4
  | .int (.fixed .int32) | .int (.fixed .uint32) => 8
  | .int (.fixed .int64) | .int (.fixed .uint64) => 16
  | _ => 16

def octalBound : OperandTy → ℕ
  | .int (.fixed .int8) | .int (.fixed .uint8) => 3
  | .int (.fixed .int16) | .int (.fixed .uint16) => 6
  | .int (.fixed .int32) | .int (.fixed .uint32) => 11
  | .int (.fixed .int64) | .int (.fixed .uint64) => 22
  | _ => 22

/-- The bound of a conversion without its flags and its width. -/
def conversionBound (ty : OperandTy) (sp : InterpSpec) : ℕ :=
  let conv := sp.conversion
  if conv ∈ Lexer.bytes "diu" then decimalBound ty
  else if conv ∈ Lexer.bytes "xX" then hexBound ty
  else if conv = 'o'.toUInt8 then octalBound ty
  else if conv = 'f'.toUInt8 then
    1 + (if ty = .float .float32 then 39 else 309) + 1 + sp.precision.getD 6
  else if conv ∈ Lexer.bytes "eEgG" then 9 + sp.precision.getD 6
  else if conv = 'c'.toUInt8 then 1
  else if conv = 'p'.toUInt8 then 18
  else 24

def interpNumericBound (ty : OperandTy) (sp : InterpSpec) : ℕ :=
  let bound := conversionBound ty sp
  let need := sp.precision.getD 0 + if interpConvIsUnsigned sp.conversion ty then 0 else 1
  let bound := if isIntConv sp.conversion ∧ 0 < sp.precision.getD 0 ∧ bound < need then need
    else bound
  let bound := if sp.plus then bound + 1 else bound
  let bound := if sp.space then bound + 1 else bound
  let bound := if sp.hash then bound + 2 else bound
  if bound < sp.width then sp.width else bound

/-- A share of the buffer. A `runtime` share is the length of the string, and at least `bytes`. -/
structure InterpSegBudget where
  runtime : Bool
  bytes : ℕ

def interpSegBudget : Segment T → InterpSegBudget
  | .literal text => ⟨false, (decodeStrLit text).1⟩
  | .format text o =>
    if segConversion text = 'T'.toUInt8 then ⟨false, o.name.bytes.length⟩
    else
      let sp := (interpSpecScan text).2
      if segConversion text = 's'.toUInt8 ∧ (o.ty = .str ∨ o.ty = .cstr) then
        match sp.precision with
        | some p => ⟨false, if sp.width < p then p else sp.width⟩
        | none => ⟨true, sp.width⟩
      else ⟨false, interpNumericBound o.ty sp⟩

/-- The length of a string operand. -/
def Operand.len (o : Operand T) : ℕ :=
  match o with
  | ⟨.str, _, (bytes : List UInt8)⟩ => bytes.length
  | ⟨.cstr, _, (c : CStr T)⟩ => c.bytes.length
  | _ => 0

def Segment.share (s : Segment T) : ℕ :=
  match s with
  | .literal _ => (interpSegBudget s).bytes
  | .format _ o =>
    let b := interpSegBudget s
    if b.runtime then if o.len < b.bytes then b.bytes else o.len else b.bytes

/-- The characters of the format literal. -/
def formatText (segs : List (Segment T)) : List UInt8 := segs.flatMap Segment.emitFormat

/-- The arguments of the segments, none where an operand aborts. -/
def segmentArgs (intMax : ℕ) (checked : Bool) : List (Segment T) → Option (List Arg)
  | [] => some []
  | s :: segs => (s.args intMax checked).bind fun as =>
    (segmentArgs intMax checked segs).map (as ++ ·)

/-- `_flen`: one less than the size of the buffer. -/
def flen (segs : List (Segment T)) : ℕ := (segs.map Segment.share).sum

/-- The arguments of the call, none where the emitted code aborts before it. Where lengths
have fewer than 64 bits, `fc_len_cap` keeps the buffer within the greatest. -/
def formatArgs (intMax : ℕ) (lenMax : Option ℕ) (checked : Bool) (segs : List (Segment T)) :
    Option (List Arg) :=
  if lenMax.any fun most => most < flen segs then none else segmentArgs intMax checked segs

/-- `emit_interp_string`: what the call of `snprintf` leaves in the buffer, as far as it holds
it. A text that is longer than an `int` can count leaves nothing that is defined. -/
def emitInterpString (pointers : Pointers) (intMax : ℕ) (lenMax : Option ℕ) (checked : Bool)
    (segs : List (Segment T)) : Option (List UInt8) :=
  (CText.compileLiteral (formatText segs ++ [quote])).bind fun literal =>
    (formatArgs intMax lenMax checked segs).bind fun args =>
      (Printf.printf pointers literal.1 args).bind fun out =>
        if out.length ≤ intMax then some (out.take (flen segs)) else none

def InterpSpec.directive (s : InterpSpec) : Directive where
  minus := s.minus
  plus := s.plus
  space := s.space
  hash := s.hash
  zero := s.zero
  width := s.width
  precision := s.precision
  long := false
  conversion := s.conversion

/-- What an operand shows: an integer its value or the pattern of its bits, a string its text. -/
def Operand.shown (pointers : Pointers) (sp : InterpSpec) (o : Operand T) : List UInt8 :=
  let d := sp.directive
  match o with
  | ⟨.int t, _, (z : T.IntVal t)⟩ =>
    if d.conversion = 'd'.toUInt8 ∨ d.conversion = 'i'.toUInt8 then Printf.signed d z.1
    else if d.conversion = 'c'.toUInt8 then d.field false [] [UInt8.ofInt z.1]
    else Printf.patternText d (z.1 % 2 ^ (t.format T).bits).toNat
  | ⟨.float t, _, (v : FloatVal t)⟩ => Printf.floatText d v.negative v.magnitude
  | ⟨.str, _, (bytes : List UInt8)⟩ => Printf.stringText d bytes
  | ⟨.cstr, _, (c : CStr T)⟩ =>
    if d.conversion = 'p'.toUInt8 then d.field false [] (pointers c.address.toNat)
    else Printf.stringText d c.bytes
  | ⟨.pointer, _, (a : T.Address)⟩ => d.field false [] (pointers a.toNat)
  | ⟨.other, _, _⟩ => []

def Segment.shown (pointers : Pointers) : Segment T → List UInt8
  | .literal text => (decodeStrLit text).2
  | .format text o =>
    if segConversion text = 'T'.toUInt8 then o.name.bytes
    else o.shown pointers (interpSpecScan text).2

/-- What the checker accepts of a segment, its operand's name apart. -/
def Segment.Accepted : Segment T → Prop
  | .literal text => Text.Accepted text
  | .format text o => IsSpec text ∧ checkInterpSegment (interpSpecScan text).2 o.ty = []

end FcLang.Text
