import FcLang.Lib.Heap
import FcLang.Data.Slices

/-!
# linked_list

A doubly linked list of separately allocated nodes. The header is passed along
with the heap that holds the nodes.
-/

namespace FcLang.Data
open Exec

structure DlNode (α : Type) where
  value : α
  prev : Option ℕ
  next : Option ℕ
  deriving DecidableEq, Repr

structure LinkedList where
  head : Option ℕ
  tail : Option ℕ
  len : ℤ
  deriving DecidableEq, Repr

namespace LinkedList
variable {α : Type}

def withHead (l : LinkedList) (p : Option ℕ) : LinkedList := { l with head := p }

def withTail (l : LinkedList) (p : Option ℕ) : LinkedList := { l with tail := p }

def withLen (l : LinkedList) (n : ℤ) : LinkedList := { l with len := n }

@[simp] theorem withHead_head (l : LinkedList) (p : Option ℕ) : (l.withHead p).head = p := rfl

@[simp] theorem withHead_tail (l : LinkedList) (p : Option ℕ) : (l.withHead p).tail = l.tail := rfl

@[simp] theorem withHead_len (l : LinkedList) (p : Option ℕ) : (l.withHead p).len = l.len := rfl

@[simp] theorem withTail_head (l : LinkedList) (p : Option ℕ) : (l.withTail p).head = l.head := rfl

@[simp] theorem withTail_tail (l : LinkedList) (p : Option ℕ) : (l.withTail p).tail = p := rfl

@[simp] theorem withTail_len (l : LinkedList) (p : Option ℕ) : (l.withTail p).len = l.len := rfl

@[simp] theorem withLen_head (l : LinkedList) (n : ℤ) : (l.withLen n).head = l.head := rfl

@[simp] theorem withLen_tail (l : LinkedList) (n : ℤ) : (l.withLen n).tail = l.tail := rfl

@[simp] theorem withLen_len (l : LinkedList) (n : ℤ) : (l.withLen n).len = n := rfl

/-- The heap of nodes and the header of the list. -/
abbrev State (α : Type) := Heap (DlNode α) × LinkedList

def make (h : Heap (DlNode α)) : State α := (h, { head := none, tail := none, len := 0 })

/-- `match p with | none -> l.head = q | some(n) -> n.next = q` -/
def setNextOf (s : State α) (p q : Option ℕ) : Exec (State α) :=
  match p with
  | none => .ret (s.1, s.2.withHead q)
  | some n => do
    let h ← s.1.modify n fun x => { x with next := q }
    .ret (h, s.2)

/-- `match q with | none -> l.tail = p | some(n) -> n.prev = p` -/
def setPrevOf (s : State α) (q p : Option ℕ) : Exec (State α) :=
  match q with
  | none => .ret (s.1, s.2.withTail p)
  | some n => do
    let h ← s.1.modify n fun x => { x with prev := p }
    .ret (h, s.2)

/-- `alloc(dl_node { value = value })`, then both links of the new node. -/
def allocNode (s : State α) (value : α) (prev next : Option ℕ) : Exec (ℕ × State α) := do
  let (n, h) := s.1.alloc { value := value, prev := none, next := none }
  let h ← h.modify n fun x => { x with prev := prev }
  let h ← h.modify n fun x => { x with next := next }
  .ret (n, (h, s.2))

def prepend (s : State α) (value : α) : Exec (State α) := do
  let (n, s) ← allocNode s value none s.2.head
  let (h, l) ← setPrevOf s s.2.head (some n)
  .ret (h, (l.withHead (some n)).withLen (l.len + 1))

def append (s : State α) (value : α) : Exec (State α) := do
  let (n, s) ← allocNode s value s.2.tail none
  let (h, l) ← setNextOf s s.2.tail (some n)
  .ret (h, (l.withTail (some n)).withLen (l.len + 1))

/-- The splice of `insert` before the node at `pos`. -/
def insertBefore (s : State α) (pos : ℕ) (value : α) : Exec (State α) := do
  let node ← s.1.read pos
  let (n, s) ← allocNode s value node.prev (some pos)
  let (h, l) ← setNextOf s node.prev (some n)
  let h ← h.modify pos fun x => { x with prev := some n }
  .ret (h, l.withLen (l.len + 1))

def insertBody (s : State α) (index : ℤ) (value : α) :
    Option ℕ × ℤ → Exec ((Option ℕ × ℤ) ⊕ State α)
  | (none, _) => .ret (.inr s)
  | (some pos, i) =>
    if i = index then do
      let s ← insertBefore s pos value
      .ret (.inr s)
    else do
      let node ← s.1.read pos
      .ret (.inl (node.next, i + 1))

def insert (fuel : ℕ) (s : State α) (index : ℤ) (value : α) : Exec (State α) :=
  if index ≤ 0 then prepend s value
  else if index ≥ s.2.len then append s value
  else loop (insertBody s index value) fuel (s.2.head, 0)

/-- `some(val)`. The option of a pointer is the bare pointer, and a null `val` aborts; `isNull` is
false everywhere for the other element types. -/
def someOf (isNull : α → Bool) (val : α) : Exec (Option α) :=
  if isNull val then .abort else .ret (some val)

def popFirst (isNull : α → Bool) (s : State α) : Exec (Option α × State α) :=
  match s.2.head with
  | none => .ret (none, s)
  | some ptr => do
    let node ← s.1.read ptr
    let (h, l) ← setPrevOf (s.1, s.2.withHead node.next) node.next none
    let h ← h.free ptr
    let val ← someOf isNull node.value
    .ret (val, (h, l.withLen (l.len - 1)))

def popLast (isNull : α → Bool) (s : State α) : Exec (Option α × State α) :=
  match s.2.tail with
  | none => .ret (none, s)
  | some ptr => do
    let node ← s.1.read ptr
    let (h, l) ← setNextOf (s.1, s.2.withTail node.prev) node.prev none
    let h ← h.free ptr
    let val ← someOf isNull node.value
    .ret (val, (h, l.withLen (l.len - 1)))

def clearBody : Option ℕ × Heap (DlNode α) → Exec ((Option ℕ × Heap (DlNode α)) ⊕ Heap (DlNode α))
  | (none, h) => .ret (.inr h)
  | (some ptr, h) => do
    let node ← h.read ptr
    let h ← h.free ptr
    .ret (.inl (node.next, h))

def clear (fuel : ℕ) (s : State α) : Exec (State α) := do
  let h ← loop clearBody fuel (s.2.head, s.1)
  .ret (h, { head := none, tail := none, len := 0 })

def toSliceBody (h : Heap (DlNode α)) :
    Option ℕ × List α × ℤ → Exec ((Option ℕ × List α × ℤ) ⊕ List α)
  | (none, result, _) => .ret (.inr result)
  | (some ptr, result, j) => do
    let node ← h.read ptr
    let result ← Slice.set result j node.value
    .ret (.inl (node.next, result, j + 1))

def toSlice [Inhabited α] (fuel : ℕ) (s : State α) : Exec (List α) :=
  loop (toSliceBody s.1) fuel (s.2.head, List.replicate s.2.len.toNat default, 0)

def writeBody (values : List α) :
    Option ℕ × ℤ × Heap (DlNode α) → Exec ((Option ℕ × ℤ × Heap (DlNode α)) ⊕ Heap (DlNode α))
  | (none, _, h) => .ret (.inr h)
  | (some ptr, j, h) => do
    let v ← Slice.get values j
    let h ← h.modify ptr fun x => { x with value := v }
    let node ← h.read ptr
    .ret (.inl (node.next, j + 1, h))

def sort [Inhabited α] (fuel : ℕ) (s : State α) (cmp : α → α → ℤ) : Exec (State α) :=
  if s.2.len ≤ 1 then .ret s
  else do
    let values ← toSlice fuel s
    let values ← Slices.sort fuel values cmp
    let h ← loop (writeBody values) fuel (s.2.head, 0, s.1)
    .ret (h, s.2)

def reverseBody :
    Option ℕ × Heap (DlNode α) → Exec ((Option ℕ × Heap (DlNode α)) ⊕ Heap (DlNode α))
  | (none, h) => .ret (.inr h)
  | (some ptr, h) => do
    let node ← h.read ptr
    let h ← h.modify ptr fun x => { x with next := node.prev }
    let h ← h.modify ptr fun x => { x with prev := node.next }
    .ret (.inl (node.next, h))

def reverse (fuel : ℕ) (s : State α) : Exec (State α) := do
  let h ← loop reverseBody fuel (s.2.head, s.1)
  .ret (h, (s.2.withHead s.2.tail).withTail s.2.head)

/-- The two link updates of `retain`. -/
def unlink (s : State α) (ptr : ℕ) : Exec (State α) := do
  let node ← s.1.read ptr
  let s ← setNextOf s node.prev node.next
  let node ← s.1.read ptr
  setPrevOf s node.next node.prev

def retainBody (pred : α → Bool) :
    Option ℕ × State α → Exec ((Option ℕ × State α) ⊕ State α)
  | (none, s) => .ret (.inr s)
  | (some ptr, s) => do
    let node ← s.1.read ptr
    if pred node.value then .ret (.inl (node.next, s))
    else do
      let s ← unlink s ptr
      let h ← s.1.free ptr
      .ret (.inl (node.next, (h, s.2.withLen (s.2.len - 1))))

def retain (fuel : ℕ) (s : State α) (pred : α → Bool) : Exec (State α) :=
  loop (retainBody pred) fuel (s.2.head, s)

def applyBody (f : α → α) :
    Option ℕ × Heap (DlNode α) → Exec ((Option ℕ × Heap (DlNode α)) ⊕ Heap (DlNode α))
  | (none, h) => .ret (.inr h)
  | (some ptr, h) => do
    let h ← h.modify ptr fun x => { x with value := f x.value }
    let node ← h.read ptr
    .ret (.inl (node.next, h))

def apply (fuel : ℕ) (s : State α) (f : α → α) : Exec (State α) := do
  let h ← loop (applyBody f) fuel (s.2.head, s.1)
  .ret (h, s.2)

end LinkedList
end FcLang.Data
