import FcLang.Types.Spelling
import Mathlib.Data.List.Induction

/-!
# C names of declaration paths

A declaration is named by the components of its path, each after `__`. No
component holds `__`, but one may start or end with an underscore.
-/

namespace FcLang.Pass1
open Types Pieces

def makeMangled (pre name : String) : String := pre ++ "__" ++ name

/-- The C name of the declaration with this path. -/
def pathName (path : List String) : String := path.foldl makeMangled "fc"

def NoDouble (s : List Char) : Prop := ¬['_', '_'] <:+: s

instance (s : List Char) : Decidable (NoDouble s) := inferInstanceAs (Decidable (¬_))

/-- What the lexer reads as an identifier. -/
structure Identifier (name : String) : Prop where
  start : ∃ c ∈ name.toList.head?, c.isAlpha ∨ c = '_'
  chars : ∀ c ∈ name.toList, c.isAlphanum ∨ c = '_'
  noDouble : NoDouble name.toList

-- Only the characters of the name are tested, not every character.
instance (name : String) : Decidable (Identifier name) :=
  haveI : Decidable (∃ c ∈ name.toList.head?, c.isAlpha ∨ c = '_') :=
    Option.decidableExistsMem _
  haveI : Decidable (∀ c ∈ name.toList, c.isAlphanum ∨ c = '_') := List.decidableBAll _ _
  decidable_of_iff ((∃ c ∈ name.toList.head?, c.isAlpha ∨ c = '_') ∧
    (∀ c ∈ name.toList, c.isAlphanum ∨ c = '_') ∧ NoDouble name.toList)
    ⟨fun h => ⟨h.1, h.2.1, h.2.2⟩, fun h => ⟨h.start, h.chars, h.noDouble⟩⟩

theorem NoDouble.ne {w : List Char} (hw : NoDouble w) (a b : List Char) :
    w ≠ a ++ '_' :: '_' :: b := by
  rintro rfl
  exact hw ⟨a, b, by simp⟩

end FcLang.Pass1
