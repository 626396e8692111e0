import FcLang.Lib.Slice

/-!
# Splitting and joining strings

`split` and `join` of the `text` module. A string is the list of its bytes. A
fresh buffer holds no element until one is written, so a slot that is left out
shows in the result.
-/

namespace FcLang.Strings
open Exec

/-- One round of the counting pass. -/
def countBody (s delim : List UInt8) (st : ℤ × ℤ) : Exec (ℤ × ℤ ⊕ ℤ) := do
  let (i, count) := st
  if i > (s.length : ℤ) - delim.length then return .inr count
  let sub ← Slice.range s i (i + delim.length)
  if sub = delim then return .inl (i + delim.length, count + 1)
  return .inl (i + 1, count)

def countPieces (fuel : ℕ) (s delim : List UInt8) : Exec ℤ :=
  if (delim.length : ℤ) > 0 then loop (countBody s delim) fuel (0, 1) else .ret 1

structure Filling where
  parts : List (Option (List UInt8))
  idx : ℤ := 0
  start : ℤ := 0
  i : ℤ := 0

/-- One round of the filling pass. -/
def fillBody (s delim : List UInt8) (st : Filling) : Exec (Filling ⊕ Filling) := do
  if st.i > (s.length : ℤ) - delim.length then return .inr st
  let sub ← Slice.range s st.i (st.i + delim.length)
  if sub = delim then
    let piece ← Slice.range s st.start st.i
    let parts ← Slice.set st.parts st.idx (some piece)
    let start := st.i + delim.length
    return .inl { parts, idx := st.idx + 1, start, i := start }
  return .inl { st with i := st.i + 1 }

/-- `parts[idx] = s[start..s.len]` -/
def fillLast (s : List UInt8) (st : Filling) : Exec (List (Option (List UInt8))) := do
  let piece ← Slice.range s st.start s.length
  Slice.set st.parts st.idx (some piece)

def split (fuel : ℕ) (s delim : List UInt8) : Exec (List (Option (List UInt8))) := do
  let count ← countPieces fuel s delim
  let parts := List.replicate count.toNat none
  if (delim.length : ℤ) = 0 then Slice.set parts 0 (some s)
  else
    let st ← loop (fillBody s delim) fuel { parts }
    fillLast s st

/-- One round of the size pass. -/
def sizeBody (parts : List (List UInt8)) (delim : List UInt8) (st : ℤ × ℤ) :
    Exec (ℤ × ℤ ⊕ ℤ) := do
  let (pi, total) := st
  if pi ≥ parts.length then return .inr total
  let total := if pi > 0 then total + delim.length else total
  let part ← Slice.get parts pi
  return .inl (pi + 1, total + part.length)

def joinSize (fuel : ℕ) (parts : List (List UInt8)) (delim : List UInt8) : Exec ℤ :=
  loop (sizeBody parts delim) fuel (0, 0)

/-- A buffer and the position of the next write. -/
structure Writing where
  result : List (Option UInt8)
  pos : ℤ := 0

def copyBody (src : List UInt8) (st : Writing × ℤ) : Exec (Writing × ℤ ⊕ Writing) := do
  let (w, j) := st
  if j ≥ src.length then return .inr w
  let b ← Slice.get src j
  let result ← Slice.set w.result w.pos (some b)
  return .inl ({ result, pos := w.pos + 1 }, j + 1)

def copyBytes (fuel : ℕ) (src : List UInt8) (w : Writing) : Exec Writing :=
  loop (copyBody src) fuel (w, 0)

/-- One round of the copy pass. -/
def joinBody (fuel : ℕ) (parts : List (List UInt8)) (delim : List UInt8) (st : Writing × ℤ) :
    Exec (Writing × ℤ ⊕ Writing) := do
  let (w, pi) := st
  if pi ≥ parts.length then return .inr w
  let w ← (if pi > 0 then copyBytes fuel delim w else .ret w)
  let part ← Slice.get parts pi
  let w ← copyBytes fuel part w
  return .inl (w, pi + 1)

def joinCopy (fuel : ℕ) (parts : List (List UInt8)) (delim : List UInt8)
    (result : List (Option UInt8)) : Exec Writing :=
  loop (joinBody fuel parts delim) fuel ({ result }, 0)

def join (fuel : ℕ) (parts : List (List UInt8)) (delim : List UInt8) :
    Exec (List (Option UInt8)) := do
  let total ← joinSize fuel parts delim
  let w ← joinCopy fuel parts delim (List.replicate total.toNat none)
  return w.result

/-- The pieces of a string: each ends at the leftmost occurrence of the delimiter, and the next
begins after it. -/
inductive Pieces (delim : List UInt8) : List UInt8 → List (List UInt8) → Prop
  | last {s} (h : ¬delim <:+: s) : Pieces delim s [s]
  | next {piece rest ps} (leftmost : ∀ k < piece.length, ¬delim <+: (piece ++ (delim ++ rest)).drop k)
    (h : Pieces delim rest ps) : Pieces delim (piece ++ (delim ++ rest)) (piece :: ps)

end FcLang.Strings
