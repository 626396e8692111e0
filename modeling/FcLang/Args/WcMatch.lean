import FcLang.Lib.Slice

/-!
# Wildcards in file arguments

`wc_match` of `args.c` and the language of a pattern. A pointer into a string is
what is left of its buffer from there on, the terminator included; a read past
the terminator aborts.
-/

namespace FcLang.Args
open Exec

/-- The bytes of a C string before its terminator. -/
structure CString where
  bytes : List UInt8
  clean : 0 ∉ bytes

def CString.buffer (s : CString) : List UInt8 := s.bytes ++ [0]

def star : UInt8 := '*'.toUInt8

def question : UInt8 := '?'.toUInt8

def opening : UInt8 := '['.toUInt8

def closing : UInt8 := ']'.toUInt8

def dash : UInt8 := '-'.toUInt8

def bang : UInt8 := '!'.toUInt8

def caret : UInt8 := '^'.toUInt8

/-- `while (*p == '*') p++;` -/
def skipStars (fuel : ℕ) (p : List UInt8) : Exec (List UInt8) :=
  loop (fun p => do
    let c ← Slice.get p 0
    return if c = star then .inl (p.drop 1) else .inr p) fuel p

/-- One round of the class scanner. Two pointers into one string are equal exactly where the rest
of the string is. -/
def scanClass (first s : List UInt8) (st : List UInt8 × Bool) :
    Exec (List UInt8 × Bool ⊕ List UInt8 × Bool) := do
  let (q, matched) := st
  let q0 ← Slice.get q 0
  if q0 ≠ 0 ∧ (q0 ≠ closing ∨ q = first) then
    let q1 ← Slice.get q 1
    let q2 ← (if q1 = dash then Slice.get q 2 else .ret 0)
    let c ← Slice.get s 0
    if q1 = dash ∧ q2 ≠ 0 ∧ q2 ≠ closing then
      return .inl (q.drop 3, if c ≠ 0 ∧ c ≥ q0 ∧ c ≤ q2 then true else matched)
    else
      return .inl (q.drop 1, if c ≠ 0 ∧ c = q0 then true else matched)
  else return .inr (q, matched)

/-- The rounds of the outer loop are the calls in tail position. -/
def wcMatch : ℕ → List UInt8 → List UInt8 → Exec Bool
  | 0, _, _ => .timeout
  | fuel + 1, p, s => do
    let c ← Slice.get p 0
    if c = 0 then
      let e ← Slice.get s 0
      return e = 0
    else if c = star then
      let p ← skipStars fuel p
      let c ← Slice.get p 0
      if c = 0 then return true
      loop (fun t => do
        let found ← wcMatch fuel p t
        if found then return .inr true
        let e ← Slice.get t 0
        return if e = 0 then .inr false else .inl (t.drop 1)) fuel s
    else if c = question then
      let e ← Slice.get s 0
      if e = 0 then return false
      wcMatch fuel (p.drop 1) (s.drop 1)
    else if c = opening then
      let q0 ← Slice.get p 1
      let neg := q0 = bang ∨ q0 = caret
      let first := if neg then p.drop 2 else p.drop 1
      let (q, matched) ← loop (scanClass first s) fuel (first, false)
      let q0 ← Slice.get q 0
      let e ← Slice.get s 0
      if q0 ≠ closing then
        if e ≠ opening then return false
        wcMatch fuel (p.drop 1) (s.drop 1)
      else
        let matched := if neg then !matched else matched
        if !matched ∨ e = 0 then return false
        wcMatch fuel (q.drop 1) (s.drop 1)
    else
      let e ← Slice.get s 0
      if c ≠ e then return false
      wcMatch fuel (p.drop 1) (s.drop 1)

inductive ClassItem where
  | single (c : UInt8)
  | range (lo hi : UInt8)

def ClassItem.Has (x : UInt8) : ClassItem → Prop
  | .single c => x = c
  | .range lo hi => lo ≤ x ∧ x ≤ hi

/-- A byte followed by this text is the low end of a range. -/
def StartsRange (text : List UInt8) : Prop := ∃ hi rest, text = dash :: hi :: rest ∧ hi ≠ closing

/-- The items of a class and the pattern after its closing bracket. Only as the first item is the
bracket literal. -/
inductive ClassBody : (first : Bool) → List UInt8 → List ClassItem → List UInt8 → Prop
  | close (rest) : ClassBody false (closing :: rest) [] rest
  | range {first lo hi text items rest} (hlo : lo ≠ closing ∨ first = true) (hhi : hi ≠ closing)
      (h : ClassBody false text items rest) :
      ClassBody first (lo :: dash :: hi :: text) (.range lo hi :: items) rest
  | single {first c text items rest} (hc : c ≠ closing ∨ first = true) (htext : ¬StartsRange text)
      (h : ClassBody false text items rest) :
      ClassBody first (c :: text) (.single c :: items) rest

/-- The class that the text after `[` opens, if it is closed. -/
inductive CharClass : List UInt8 → (neg : Bool) → List ClassItem → List UInt8 → Prop
  | plain {text items rest} (hhead : ∀ c ∈ text.head?, c ≠ bang ∧ c ≠ caret)
      (h : ClassBody true text items rest) : CharClass text false items rest
  | negated {c text items rest} (hc : c = bang ∨ c = caret)
      (h : ClassBody true text items rest) : CharClass (c :: text) true items rest

inductive Matches : List UInt8 → List UInt8 → Prop
  | nil : Matches [] []
  | star (run : List UInt8) {p s} (h : Matches p s) : Matches (star :: p) (run ++ s)
  | question (c : UInt8) {p s} (h : Matches p s) : Matches (question :: p) (c :: s)
  | charClass (c : UInt8) {text neg items rest s} (hclass : CharClass text neg items rest)
      (hc : (∃ i ∈ items, i.Has c) ↔ neg = false) (h : Matches rest s) :
      Matches (opening :: text) (c :: s)
  | unterminated {p s} (hopen : ∀ neg items rest, ¬CharClass p neg items rest) (h : Matches p s) :
      Matches (opening :: p) (opening :: s)
  | literal {c : UInt8} {p s} (hstar : c ≠ star) (hquestion : c ≠ question)
      (hopening : c ≠ opening) (h : Matches p s) : Matches (c :: p) (c :: s)

end FcLang.Args
