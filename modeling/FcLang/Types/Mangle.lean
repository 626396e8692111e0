import FcLang.Types.Type

/-!
# C names of types and instances

A join of names is made of pieces, each after its decimal length; names are
ASCII, so the length counts characters.
-/

namespace FcLang.Types

/-- `mangle_append_piece`. -/
def manglePiece (piece : String) : String := toString piece.length ++ "_" ++ piece

def manglePieces : List String → String
  | [] => ""
  | piece :: pieces => manglePiece piece ++ manglePieces pieces

/-- A base name and the manglings of the arguments. -/
def mangleWithArgs (base : String) (args : List String) : String :=
  if args.isEmpty then base else base ++ "__" ++ manglePieces args

def mangleTuple (fields : List String) : String :=
  "fc_tuple" ++ toString fields.length ++
    if fields.isEmpty then "" else "__" ++ manglePieces fields

/-- A 64-bit value as `%lld` prints it. -/
def showInt64 (v : BitVec 64) : String :=
  if v.toInt < 0 then "-" ++ toString v.toInt.natAbs else toString v.toInt.natAbs

def mangleConstInt (v : BitVec 64) : String :=
  if v.toInt < 0 then "__kn" ++ toString v.toInt.natAbs else "__k" ++ showInt64 v

def Prim.mangle : Prim → String
  | .int8 => "i8"
  | .int16 => "i16"
  | .int32 => "i32"
  | .int64 => "i64"
  | .uint8 => "u8"
  | .uint16 => "u16"
  | .uint32 => "u32"
  | .uint64 => "u64"
  | .isize => "isize"
  | .usize => "usize"
  | .float32 => "f32"
  | .float64 => "f64"
  | .bool => "bool"
  | .void => "void"

def Ty.isUint8 : Ty → Bool
  | .prim .uint8 => true
  | _ => false

mutual

/-- The name a type has inside other names. The display of a symbolic array
size is left out: such a size only occurs in templates, which are not emitted. -/
def mangleTypeName : Ty → String
  | .null => "void"
  | .prim kind => kind.mangle
  | .pointer c t =>
    (if c then "__c" else "") ++ if t.isUint8 then "cstr" else "__p" ++ mangleTypeName t
  | .slice c t =>
    (if c then "__c" else "") ++ if t.isUint8 then "str" else "__l" ++ mangleTypeName t
  | .option t => "__o" ++ mangleTypeName t
  | .result t => "__r" ++ mangleTypeName t
  | .func params ret isVariadic =>
    "__f" ++ toString params.length ++ "_" ++ manglePieces (mangleAll params) ++
      manglePiece (mangleTypeName ret) ++ if isVariadic then "_v" else ""
  | .struct name template isTuple fields typeArgs =>
    if isTuple then mangleTuple (mangleAll fields)
    else if typeArgs.isEmpty then name
    else mangleWithArgs (template.getD name) (mangleAll typeArgs)
  | .union name template _ typeArgs =>
    if typeArgs.isEmpty then name
    else mangleWithArgs (template.getD name) (mangleAll typeArgs)
  | .enum name => name
  | .anyPtr c => (if c then "__c" else "") ++ "__y"
  | .typeVar name => name
  | .fixedArray elem size sizeRef =>
    match sizeRef with
    | .null => "__a" ++ showInt64 size ++ "_" ++ mangleTypeName elem
    | _ => "__as" ++ "_" ++ mangleTypeName elem
  | .constInt v => mangleConstInt v
  | .constExpr _ => "__unk"
  | .stub name baseName typeArgs => mangleWithArgs (baseName.getD name) (mangleAll typeArgs)
  | .error => "__err"
  | .never => "never"
  | .unresolved => "__unk"

def mangleAll : List Ty → List String
  | [] => []
  | t :: ts => mangleTypeName t :: mangleAll ts

end

def mangleGenericName (base : String) (typeArgs : List Ty) : String :=
  mangleWithArgs base (mangleAll typeArgs)

def tupleCanonicalName (fields : List Ty) : String := mangleTuple (mangleAll fields)

end FcLang.Types
