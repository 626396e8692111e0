import FcLang.Lib.Slice

/-!
# The intern table

`intern` of `common.c` looks a byte string up by linear probing over a power of
two of entries and copies it into the arena where it is new. A pointer is the
number of its allocation, so that two allocations never share one.
-/

namespace FcLang.Intern
open Exec

abbrev Ptr := ℕ

/-- The allocations of an arena, in order. Nothing is given back before the arena ends. -/
structure Arena where
  blocks : List (List UInt8)

/-- Which of the two requests a call may make the system grants. -/
structure Memory where
  table : Bool
  copy : Bool

structure InternEntry where
  str : Option Ptr := none
  length : ℕ := 0
  hash : UInt32 := 0

structure InternTable where
  entries : List InternEntry
  count : ℕ
  capacity : ℕ
  arena : Arena

def fnv1a (s : List UInt8) : UInt32 :=
  s.foldl (fun h c => (h ^^^ c.toUInt32) * 16777619) 2166136261

/-- `calloc(n, sizeof(InternEntry))` for an `int` that a doubling may take out of range. -/
def calloc (m : Memory) (n : ℕ) : Exec (List InternEntry) :=
  if n ≤ 2147483647 ∧ m.table = true then .ret (List.replicate n {}) else .abort

def arenaStrdup (m : Memory) (a : Arena) (s : List UInt8) : Exec (Arena × Ptr) :=
  if m.copy then .ret (⟨a.blocks ++ [s ++ [0]]⟩, a.blocks.length) else .abort

/-- `memcmp(str, s, len) == 0` -/
def sameBytes (a : Arena) (str : Ptr) (s : List UInt8) : Bool :=
  match a.blocks[str]? with
  | some block => block.take s.length = s
  | none => false

def internInit (m : Memory) (a : Arena) : Exec InternTable := do
  let entries ← calloc m 256
  return { entries, count := 0, capacity := 256, arena := a }

/-- `(uint32_t)(capacity - 1)` -/
def mask (capacity : ℕ) : UInt32 := UInt32.ofNat (capacity - 1)

/-- One round of `while (new_entries[idx].str)`. -/
def placeBody (newCap : ℕ) (newEntries : List InternEntry) (idx : UInt32) :
    Exec (UInt32 ⊕ UInt32) := do
  let e ← Slice.get newEntries idx.toNat
  match e.str with
  | some _ => return .inl ((idx + 1) &&& mask newCap)
  | none => return .inr idx

/-- The body of the copying loop, for one old entry. -/
def moveEntry (newCap fuel : ℕ) (e : InternEntry) (newEntries : List InternEntry) :
    Exec (List InternEntry) :=
  match e.str with
  | some _ => do
    let idx ← loop (placeBody newCap newEntries) fuel (e.hash &&& mask newCap)
    Slice.set newEntries idx.toNat e
  | none => .ret newEntries

def internGrow (m : Memory) (fuel : ℕ) (t : InternTable) : Exec InternTable := do
  let newCap := t.capacity * 2
  let newEntries ← calloc m newCap
  let newEntries ← forRange 0 t.capacity (fun i newEntries => do
    let e ← Slice.get t.entries i
    moveEntry newCap fuel e newEntries) newEntries
  return { t with entries := newEntries, capacity := newCap }

/-- One round of the probing `for (;;)`. -/
def internBody (m : Memory) (t : InternTable) (s : List UInt8) (h idx : UInt32) :
    Exec (UInt32 ⊕ (InternTable × Ptr)) := do
  let e ← Slice.get t.entries idx.toNat
  match e.str with
  | none =>
    let (arena, interned) ← arenaStrdup m t.arena s
    let entries ← Slice.set t.entries idx.toNat
      { str := some interned, length := s.length, hash := h }
    return .inr ({ t with entries, count := t.count + 1, arena }, interned)
  | some str =>
    if e.hash = h ∧ e.length = s.length ∧ sameBytes t.arena str s = true then
      return .inr (t, str)
    else return .inl ((idx + 1) &&& mask t.capacity)

def intern (m : Memory) (fuel : ℕ) (t : InternTable) (s : List UInt8) :
    Exec (InternTable × Ptr) := do
  let t ← if t.count * 2 ≥ t.capacity then internGrow m fuel t else .ret t
  let h := fnv1a s
  loop (internBody m t s h) fuel (h &&& mask t.capacity)

example : fnv1a [102, 99] = 0x6622ee8e := by decide +kernel

end FcLang.Intern
