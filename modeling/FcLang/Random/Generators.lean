import FcLang.Lib.Exec

/-!
# The pseudo-random generators

A linear congruential generator and the permuted one, with their states passed
along, and the rejection sampling that both build on their 32-bit draws.
-/

namespace FcLang.Random
open Exec

@[ext] structure LcgRandom where
  state : UInt64
  deriving DecidableEq

namespace LcgRandom

def multiplier : UInt64 := 6364136223846793005

def increment : UInt64 := 1442695040888963407

def step (r : LcgRandom) : LcgRandom := { state := r.state * multiplier + increment }

def make (seed : UInt64) : LcgRandom := { state := seed }

def nextU32 (r : LcgRandom) : UInt32 × LcgRandom :=
  let r := step r
  ((r.state >>> 32).toUInt32, r)

end LcgRandom

@[ext] structure PcgRandom where
  state : UInt64
  inc : UInt64
  deriving DecidableEq

namespace PcgRandom

def multiplier : UInt64 := 6364136223846793005

def step (r : PcgRandom) : PcgRandom := { r with state := r.state * multiplier + r.inc }

def makeWithChannel (seed channel : UInt64) : PcgRandom :=
  let r : PcgRandom := { state := 0, inc := (channel <<< 1) ||| 1 }
  let r := step r
  let r := { r with state := r.state + seed }
  step r

def make (seed : UInt64) : PcgRandom := makeWithChannel seed 1

def output (oldState : UInt64) : UInt32 :=
  let xorshifted := (((oldState >>> 18) ^^^ oldState) >>> 27).toUInt32
  let rot := (oldState >>> 59).toUInt32
  (xorshifted >>> rot) ||| (xorshifted <<< ((32 - rot) &&& 31))

def nextU32 (r : PcgRandom) : UInt32 × PcgRandom := (output r.state, step r)

end PcgRandom

/-- The draws below it are rejected. -/
def threshold (bound : UInt32) : UInt32 := (0 - bound) % bound

def boundedBody {γ : Type} (next : γ → UInt32 × γ) (bound threshold : UInt32) (r : γ) :
    Exec (γ ⊕ (UInt32 × γ)) :=
  let (x, r) := next r
  if x ≥ threshold then .ret (.inr (x % bound, r)) else .ret (.inl r)

/-- `next_bounded_u32`, for a generator's `next_u32`. -/
def nextBoundedU32 {γ : Type} (next : γ → UInt32 × γ) (fuel : ℕ) (r : γ) (bound : UInt32) :
    Exec (UInt32 × γ) := do
  require (bound ≠ 0)
  loop (boundedBody next bound (threshold bound)) fuel r

def LcgRandom.nextBoundedU32 : ℕ → LcgRandom → UInt32 → Exec (UInt32 × LcgRandom) :=
  Random.nextBoundedU32 LcgRandom.nextU32

def PcgRandom.nextBoundedU32 : ℕ → PcgRandom → UInt32 → Exec (UInt32 × PcgRandom) :=
  Random.nextBoundedU32 PcgRandom.nextU32

end FcLang.Random
