import FcLang.Data.Slices

/-!
# array_list

A dynamic array: a capacity buffer and the length of its active prefix. Indices
are checked against the buffer only.
-/

namespace FcLang.Data
open Exec

structure ArrayList (α : Type) where
  data : List α
  len : ℤ
  deriving DecidableEq, Repr

namespace ArrayList
variable {α : Type}

section Alloc
variable [Inhabited α]

/-- A zero-initialised buffer. -/
def allocData (n : ℤ) : List α := List.replicate n.toNat default

def make : ArrayList α := { data := allocData 8, len := 0 }

def makeWithCapacity (cap : ℤ) : ArrayList α :=
  let actual := if cap < 1 then 1 else cap
  { data := allocData actual, len := 0 }

def grow (l : ArrayList α) : Exec (ArrayList α) := do
  let newCap := (l.data.length : ℤ) * 2
  let active ← Slice.range l.data 0 l.len
  let newData ← forRange 0 active.length (fun i newData => do
    let e ← Slice.get active i
    Slice.set newData i e) (allocData newCap)
  .ret { l with data := newData }

/-- `if l.len == l.data.len then grow(l)` -/
def growIfFull (l : ArrayList α) : Exec (ArrayList α) :=
  if l.len = l.data.length then grow l else .ret l

def add (l : ArrayList α) (value : α) : Exec (ArrayList α) := do
  let l ← growIfFull l
  let data ← Slice.set l.data l.len value
  .ret { data := data, len := l.len + 1 }

end Alloc

def update (l : ArrayList α) (index : ℤ) (value : α) : Exec (ArrayList α) := do
  let data ← Slice.set l.data index value
  .ret { l with data := data }

def insertBody (index : ℤ) : List α × ℤ → Exec ((List α × ℤ) ⊕ List α)
  | (data, i) =>
    if i ≤ index then .ret (.inr data)
    else do
      let x ← Slice.get data (i - 1)
      let data ← Slice.set data i x
      .ret (.inl (data, i - 1))

def insert [Inhabited α] (fuel : ℕ) (l : ArrayList α) (index : ℤ) (value : α) :
    Exec (ArrayList α) := do
  let l ← growIfFull l
  let data ← loop (insertBody index) fuel (l.data, l.len)
  let data ← Slice.set data index value
  .ret { data := data, len := l.len + 1 }

def removeAtBody (len : ℤ) : List α × ℤ → Exec ((List α × ℤ) ⊕ List α)
  | (data, i) =>
    if i ≥ len - 1 then .ret (.inr data)
    else do
      let x ← Slice.get data (i + 1)
      let data ← Slice.set data i x
      .ret (.inl (data, i + 1))

def removeAt (fuel : ℕ) (l : ArrayList α) (index : ℤ) : Exec (α × ArrayList α) := do
  let value ← Slice.get l.data index
  let data ← loop (removeAtBody l.len) fuel (l.data, index)
  .ret (value, { data := data, len := l.len - 1 })

def pop (l : ArrayList α) : Exec (α × ArrayList α) := do
  require (l.len > 0)
  let len := l.len - 1
  let value ← Slice.get l.data len
  .ret (value, { l with len := len })

def clear (l : ArrayList α) : ArrayList α := { l with len := 0 }

/-- `if j != i then data[j] = data[i]` -/
def moveDown (data : List α) (i j : ℤ) : Exec (List α) :=
  if j ≠ i then do
    let x ← Slice.get data i
    Slice.set data j x
  else .ret data

def retainBody (pred : α → Bool) (i : ℤ) : List α × ℤ → Exec (List α × ℤ)
  | (data, j) => do
    let x ← Slice.get data i
    if pred x then do
      let data ← moveDown data i j
      .ret (data, j + 1)
    else .ret (data, j)

def retain (l : ArrayList α) (pred : α → Bool) : Exec (ArrayList α) := do
  let (data, j) ← forRange 0 l.len (retainBody pred) (l.data, 0)
  .ret { data := data, len := j }

def apply (l : ArrayList α) (f : α → α) : Exec (ArrayList α) := do
  let data ← forRange 0 l.len (fun i data => do
    let x ← Slice.get data i
    Slice.set data i (f x)) l.data
  .ret { l with data := data }

/-- A function that works in place on the subslice of the active elements. -/
def onActive (l : ArrayList α) (f : List α → Exec (List α)) : Exec (ArrayList α) := do
  let active ← Slice.range l.data 0 l.len
  let active ← f active
  .ret { l with data := active ++ l.data.drop active.length }

def sort (fuel : ℕ) (l : ArrayList α) (cmp : α → α → ℤ) : Exec (ArrayList α) :=
  l.onActive fun s => Slices.sort fuel s cmp

def reverse (fuel : ℕ) (l : ArrayList α) : Exec (ArrayList α) :=
  l.onActive fun s => Slices.reverse fuel s

/-- `for i, e in l.data[0..l.len]` -/
def forActive {σ : Type} (l : ArrayList α) (body : ℤ → α → σ → Exec σ) (init : σ) : Exec σ := do
  let active ← Slice.range l.data 0 l.len
  forRange 0 active.length (fun i acc => Slice.get active i >>= fun e => body i e acc) init

def copy [Inhabited α] (l : ArrayList α) : Exec (ArrayList α) := do
  let newData ← l.forActive (fun i e newData => Slice.set newData i e) (allocData l.data.length)
  .ret { data := newData, len := l.len }

def foldLeft {β : Type} (l : ArrayList α) (init : β) (f : β → α → β) : Exec β :=
  l.forActive (fun _ e acc => .ret (f acc e)) init

def foldRightBody {β : Type} (data : List α) (f : β → α → β) : β × ℤ → Exec ((β × ℤ) ⊕ β)
  | (acc, i) =>
    if i < 0 then .ret (.inr acc)
    else do
      let e ← Slice.get data i
      .ret (.inl (f acc e, i - 1))

def foldRight {β : Type} (fuel : ℕ) (l : ArrayList α) (init : β) (f : β → α → β) : Exec β :=
  loop (foldRightBody l.data f) fuel (init, l.len - 1)

section Results
variable {β : Type} [Inhabited β]

def scan (l : ArrayList α) (init : β) (f : β → α → β) : Exec (ArrayList β) := do
  let result ← add (makeWithCapacity (l.len + 1)) init
  let r ← l.forActive (fun _ e r => do
    let acc := f r.2 e
    let result ← add r.1 acc
    .ret (result, acc)) (result, init)
  .ret r.1

def map (l : ArrayList α) (f : α → β) : Exec (ArrayList β) :=
  l.forActive (fun _ e result => add result (f e)) (makeWithCapacity l.len)

def mapi (l : ArrayList α) (f : ℤ → α → β) : Exec (ArrayList β) :=
  l.forActive (fun i e result => add result (f i e)) (makeWithCapacity l.len)

end Results

def filter [Inhabited α] (l : ArrayList α) (pred : α → Bool) : Exec (ArrayList α) :=
  l.forActive (fun _ e result => if pred e then add result e else .ret result) make

/-- The documented representation invariant. -/
def Valid (l : ArrayList α) : Prop := 0 ≤ l.len ∧ l.len ≤ l.data.length

end ArrayList
end FcLang.Data
