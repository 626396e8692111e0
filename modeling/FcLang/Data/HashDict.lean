import FcLang.Lib.Probe
import FcLang.Lib.Slice

/-!
# hash_dict

The hash map of the standard library: open addressing, linear probing, a
tombstone for each deletion, and a rehash into twice the capacity at 70% load.
The header is passed as a state; a loop takes its budget as an argument.
-/

namespace FcLang.Data
open Probe

inductive EntryState where
  | empty
  | occupied
  | deleted
  deriving DecidableEq, Repr

structure HdEntry (κ β : Type) where
  key : κ
  value : β
  state : EntryState
  deriving DecidableEq, Repr

structure HashDict (κ β : Type) where
  buckets : List (HdEntry κ β)
  len : ℤ
  hash : κ → ℤ
  eq : κ → κ → Bool

namespace HashDict
section Operations
variable {κ β : Type} [Inhabited κ] [Inhabited β]

/-- A zero-initialised bucket array. -/
def allocBuckets (n : ℤ) : List (HdEntry κ β) :=
  List.replicate n.toNat ⟨default, default, .empty⟩

def make (hash : κ → ℤ) (eq : κ → κ → Bool) : HashDict κ β :=
  { buckets := allocBuckets 16, len := 0, hash := hash, eq := eq }

def makeWithCapacity (cap : ℤ) (hash : κ → ℤ) (eq : κ → κ → Bool) : HashDict κ β :=
  let actual := if cap < 4 then 4 else cap
  { buckets := allocBuckets actual, len := 0, hash := hash, eq := eq }

/-- `h % cap`, brought into range when the remainder is negative. -/
def homeIdx (h cap : ℤ) : ℤ :=
  let idx := h.tmod cap
  if idx < 0 then idx + cap else idx

def rehashBody (entry : HdEntry κ β) (newCap : ℤ) (d : HashDict κ β) (idx : ℤ) :
    Exec (ℤ ⊕ HashDict κ β) := do
  let b ← Slice.get d.buckets idx
  if b.state = .empty then do
    let buckets ← Slice.set d.buckets idx ⟨entry.key, entry.value, .occupied⟩
    .ret (.inr { d with buckets := buckets, len := d.len + 1 })
  else .ret (.inl ((idx + 1).tmod newCap))

def rehash (fuel : ℕ) (d : HashDict κ β) : Exec (HashDict κ β) :=
  let old := d.buckets
  let oldCap : ℤ := old.length
  let newCap := oldCap * 2
  Exec.forRange 0 oldCap (fun i d => do
      let entry ← Slice.get old i
      if entry.state = .occupied then
        Exec.loop (rehashBody entry newCap d) fuel (homeIdx (d.hash entry.key) newCap)
      else .ret d)
    { d with buckets := allocBuckets newCap, len := 0 }

def putBody (d : HashDict κ β) (key : κ) (value : β) (cap : ℤ) :
    ℤ × ℤ → Exec ((ℤ × ℤ) ⊕ HashDict κ β)
  | (idx, firstDel) => do
    let entry ← Slice.get d.buckets idx
    if entry.state = .empty then do
      let ins := if 0 ≤ firstDel then firstDel else idx
      let buckets ← Slice.set d.buckets ins ⟨key, value, .occupied⟩
      .ret (.inr { d with buckets := buckets, len := d.len + 1 })
    else
      let firstDel := if entry.state = .deleted ∧ firstDel < 0 then idx else firstDel
      if entry.state = .occupied ∧ d.eq entry.key key then do
        let buckets ← Slice.set d.buckets idx { entry with value := value }
        .ret (.inr { d with buckets := buckets })
      else .ret (.inl ((idx + 1).tmod cap, firstDel))

def overloaded (d : HashDict κ β) : Prop := d.len * 10 ≥ d.buckets.length * 7

instance (d : HashDict κ β) : Decidable d.overloaded := inferInstanceAs (Decidable (_ ≥ _))

/-- The probe loop of `put`, after its load check. -/
def putProbe (fuel : ℕ) (d : HashDict κ β) (key : κ) (value : β) : Exec (HashDict κ β) :=
  let cap : ℤ := d.buckets.length
  Exec.loop (putBody d key value cap) fuel (homeIdx (d.hash key) cap, -1)

def put (fuel : ℕ) (d : HashDict κ β) (key : κ) (value : β) : Exec (HashDict κ β) := do
  let d ← if d.overloaded then rehash fuel d else .ret d
  putProbe fuel d key value

def tryGetBody (d : HashDict κ β) (key : κ) (cap : ℤ) (idx : ℤ) : Exec (ℤ ⊕ Option β) := do
  let entry ← Slice.get d.buckets idx
  if entry.state = .empty then .ret (.inr none)
  else if entry.state = .occupied ∧ d.eq entry.key key then .ret (.inr (some entry.value))
  else .ret (.inl ((idx + 1).tmod cap))

def tryGet (fuel : ℕ) (d : HashDict κ β) (key : κ) : Exec (Option β) :=
  let cap : ℤ := d.buckets.length
  Exec.loop (tryGetBody d key cap) fuel (homeIdx (d.hash key) cap)

/-- `x!` -/
def unwrap {α : Type} : Option α → Exec α
  | some a => .ret a
  | none => .abort

def get (fuel : ℕ) (d : HashDict κ β) (key : κ) : Exec β := tryGet fuel d key >>= unwrap

def has (fuel : ℕ) (d : HashDict κ β) (key : κ) : Exec Bool := do
  let v ← tryGet fuel d key
  .ret v.isSome

def tryRemoveBody (d : HashDict κ β) (key : κ) (cap : ℤ) (idx : ℤ) :
    Exec (ℤ ⊕ Option β × HashDict κ β) := do
  let entry ← Slice.get d.buckets idx
  if entry.state = .empty then .ret (.inr (none, d))
  else if entry.state = .occupied ∧ d.eq entry.key key then do
    let val := entry.value
    let buckets ← Slice.set d.buckets idx { entry with state := .deleted }
    .ret (.inr (some val, { d with buckets := buckets, len := d.len - 1 }))
  else .ret (.inl ((idx + 1).tmod cap))

def tryRemove (fuel : ℕ) (d : HashDict κ β) (key : κ) : Exec (Option β × HashDict κ β) :=
  let cap : ℤ := d.buckets.length
  Exec.loop (tryRemoveBody d key cap) fuel (homeIdx (d.hash key) cap)

def remove (fuel : ℕ) (d : HashDict κ β) (key : κ) : Exec (β × HashDict κ β) := do
  let (val, d) ← tryRemove fuel d key
  let v ← unwrap val
  .ret (v, d)

def fold {γ : Type} (d : HashDict κ β) (init : γ) (f : γ → κ → β → γ) : Exec γ :=
  Exec.forRange 0 d.buckets.length (fun i acc => do
      let entry ← Slice.get d.buckets i
      if entry.state = .occupied then .ret (f acc entry.key entry.value) else .ret acc)
    init

def collectBody {γ : Type} (f : HdEntry κ β → γ) (entry : HdEntry κ β) :
    List γ × ℤ → Exec (List γ × ℤ)
  | (result, j) =>
    if entry.state = .occupied then do
      let result ← Slice.set result j (f entry)
      .ret (result, j + 1)
    else .ret (result, j)

/-- The loop of `keys` and of `values`: one result element for each occupied bucket. -/
def collect {γ : Type} [Inhabited γ] (d : HashDict κ β) (f : HdEntry κ β → γ) :
    Exec (List γ) := do
  let r ← Exec.forRange 0 d.buckets.length (fun i r => do
      let entry ← Slice.get d.buckets i
      collectBody f entry r)
    (List.replicate d.len.toNat default, 0)
  .ret r.1

def keys (d : HashDict κ β) : Exec (List κ) := collect d HdEntry.key

def values (d : HashDict κ β) : Exec (List β) := collect d HdEntry.value

end Operations
end HashDict
end FcLang.Data
