import Mathlib.Data.List.Basic

/-!
# Texts made of length-prefixed pieces

A piece is written after its decimal length and a separator, so a sequence of
pieces is read back in one way whatever characters the pieces hold.
-/

namespace FcLang.Pieces

def encode (piece : List Char) : List Char := Nat.toDigits 10 piece.length ++ '_' :: piece

def encodeAll : List (List Char) → List Char
  | [] => []
  | piece :: pieces => encode piece ++ encodeAll pieces

end FcLang.Pieces
