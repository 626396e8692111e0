import FcLang.Data.HashDict

/-!
# hash_set

The same table without stored values: each operation is that of a dictionary
whose values carry nothing.
-/

namespace FcLang.Data

abbrev HashSet (κ : Type) := HashDict κ Unit

namespace HashSet
variable {κ : Type} [Inhabited κ]

def make (hash : κ → ℤ) (eq : κ → κ → Bool) : HashSet κ := HashDict.make hash eq

def makeWithCapacity (cap : ℤ) (hash : κ → ℤ) (eq : κ → κ → Bool) : HashSet κ :=
  HashDict.makeWithCapacity cap hash eq

def add (fuel : ℕ) (s : HashSet κ) (key : κ) : Exec (HashSet κ) := HashDict.put fuel s key ()

def has (fuel : ℕ) (s : HashSet κ) (key : κ) : Exec Bool := HashDict.has fuel s key

def remove (fuel : ℕ) (s : HashSet κ) (key : κ) : Exec (Bool × HashSet κ) := do
  let (val, s) ← HashDict.tryRemove fuel s key
  .ret (val.isSome, s)

end HashSet
end FcLang.Data
