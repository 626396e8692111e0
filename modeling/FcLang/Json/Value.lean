import FcLang.Json.Strings
import FcLang.Lib.Printf

/-!
# JSON values

Values, the parser and the serializer. A number is a double; what a number's text
stands for is the C library's to say. Keys are C strings, which end at a NUL.
-/

namespace FcLang.Json
open Printf (ascii isDigit number)

inductive JsonValue where
  | null
  | bool (b : Bool)
  | number (d : Flt)
  | string (s : List UInt8)
  | array (items : List JsonValue)
  | object (members : List (List UInt8 × JsonValue))

def isSpace (c : UInt8) : Bool := c ∈ ascii " \t\n\r"

def skipWs (text : List UInt8) : List UInt8 := text.dropWhile isSpace

/-- The exponent behind the digits of a number, 0 where none is written in full. -/
def strtodExponent (text : List UInt8) : ℤ :=
  match text with
  | [] => 0
  | c :: rest =>
    if c = 'e'.toUInt8 ∨ c = 'E'.toUInt8 then
      match rest with
      | [] => 0
      | s :: digits =>
        if s = '-'.toUInt8 then -(number (digits.takeWhile isDigit) : ℤ)
        else if s = '+'.toUInt8 then number (digits.takeWhile isDigit)
        else number ((s :: digits).takeWhile isDigit)
    else 0

/-- `strtod` on a decimal number: its longest start that is one, to the nearest double. -/
def strtod (text : List UInt8) : Flt :=
  let negative := text.head? = some '-'.toUInt8
  let text := if negative ∨ text.head? = some '+'.toUInt8 then text.tail else text
  let whole := text.takeWhile isDigit
  let text := text.dropWhile isDigit
  let fraction := if text.head? = some '.'.toUInt8 then text.tail.takeWhile isDigit else []
  let text := if text.head? = some '.'.toUInt8 then text.tail.dropWhile isDigit else text
  if whole ++ fraction = [] then .finite 0
  else
    let q : ℚ := number (whole ++ fraction) * 10 ^ (strtodExponent text - fraction.length)
    FloatFormat.binary64.round (if negative then -q else q)

def isNumberChar (c : UInt8) : Bool := isDigit c || c ∈ ascii ".eE+-"

def parseNumber (text : List UInt8) : Option (JsonValue × List UInt8) :=
  let signed := text.head? = some '-'.toUInt8 ∨ text.head? = some '+'.toUInt8
  let body := if signed then text.tail else text
  let rest := body.dropWhile isNumberChar
  let len := text.length - rest.length
  if len = 0 ∨ 64 ≤ len then none else some (.number (strtod (text.take len)), rest)

def lit (word : String) (text : List UInt8) : Option (List UInt8) :=
  if text.take (ascii word).length = ascii word then some (text.drop (ascii word).length) else none

/-- The bytes of a C string: up to its NUL. -/
def cString (bytes : List UInt8) : List UInt8 := bytes.takeWhile fun b => b ≠ 0

/-- The text that is left. -/
structure Parse where
  text : List UInt8

mutual

def Parse.parseValue (ps : Parse) : Option (JsonValue × List UInt8) := do
  match skipWs ps.text with
  | [] => none
  | c :: rest =>
    if c = '\x7b'.toUInt8 then
      match skipWs rest with
      | [] => none
      | d :: rest' =>
        if d = '\x7d'.toUInt8 then some (.object [], rest')
        else
          let (members, rest) ← Parse.mk (d :: rest') |>.parseMembers
          some (.object members, rest)
    else if c = '['.toUInt8 then
      match skipWs rest with
      | [] => none
      | d :: rest' =>
        if d = ']'.toUInt8 then some (.array [], rest')
        else
          let (items, rest) ← Parse.mk (d :: rest') |>.parseItems
          some (.array items, rest)
    else if c = quote then (parseString rest).map fun r => (.string r.1, r.2)
    else if c = 't'.toUInt8 then (lit "true" (c :: rest)).map fun rest => (.bool true, rest)
    else if c = 'f'.toUInt8 then (lit "false" (c :: rest)).map fun rest => (.bool false, rest)
    else if c = 'n'.toUInt8 then (lit "null" (c :: rest)).map fun rest => (.null, rest)
    else if c = '-'.toUInt8 ∨ c = '+'.toUInt8 ∨ isDigit c then parseNumber (c :: rest)
    else none
partial_fixpoint

/-- The loop of `parse_array`. -/
def Parse.parseItems (ps : Parse) : Option (List JsonValue × List UInt8) := do
  let (v, rest) ← ps |>.parseValue
  match skipWs rest with
  | [] => none
  | c :: rest =>
    if c = ']'.toUInt8 then some ([v], rest)
    else if c = ','.toUInt8 then
      let (items, rest) ← Parse.mk (skipWs rest) |>.parseItems
      some (v :: items, rest)
    else none
partial_fixpoint

/-- The loop of `parse_object`. -/
def Parse.parseMembers (ps : Parse) : Option (List (List UInt8 × JsonValue) × List UInt8) := do
  match skipWs ps.text with
  | [] => none
  | c :: rest =>
    if c ≠ quote then none
    else
      let (key, rest) ← parseString rest
      match skipWs rest with
      | [] => none
      | c :: rest =>
        if c ≠ ':'.toUInt8 then none
        else
          let (v, rest) ← Parse.mk rest |>.parseValue
          match skipWs rest with
          | [] => none
          | c :: rest =>
            if c = '\x7d'.toUInt8 then some ([(cString key, v)], rest)
            else if c = ','.toUInt8 then
              let (members, rest) ← Parse.mk rest |>.parseMembers
              some ((cString key, v) :: members, rest)
            else none
partial_fixpoint

end

/-- Anything behind the value is ignored. -/
def jsonParse (text : List UInt8) : Option JsonValue := (Parse.mk text).parseValue.map Prod.fst

end FcLang.Json
