import FcLang.Types.Substitute

/-!
# How deep a type nests

`type_arg_depth` counts the constructors around the deepest component that is
written as a type argument; the fields of a struct are not looked at.
-/

namespace FcLang.Types

mutual

def typeArgDepth : Ty → ℕ
  | .null => 0
  | .pointer _ t => 1 + typeArgDepth t
  | .slice _ t => 1 + typeArgDepth t
  | .option t => 1 + typeArgDepth t
  | .result t => 1 + typeArgDepth t
  | .fixedArray elem _ _ => 1 + typeArgDepth elem
  | .func params ret _ => 1 + maxArgDepth params (typeArgDepth ret)
  | .struct _ _ _ _ typeArgs => 1 + maxArgDepth typeArgs 0
  | .union _ _ _ typeArgs => 1 + maxArgDepth typeArgs 0
  | .stub _ _ typeArgs => 1 + maxArgDepth typeArgs 0
  | _ => 1

/-- The greatest depth in the list, or `m` if that is greater. -/
def maxArgDepth : List Ty → ℕ → ℕ
  | [], m => m
  | t :: ts, m => maxArgDepth ts (if typeArgDepth t > m then typeArgDepth t else m)

end

theorem le_maxArgDepth (ts : List Ty) (m : ℕ) : m ≤ maxArgDepth ts m := by
  induction ts generalizing m with
  | nil => exact Nat.le_refl m
  | cons t ts ih =>
    rw [maxArgDepth]
    apply Nat.le_trans _ (ih _)
    split <;> omega

theorem typeArgDepth_le_max {t : Ty} {ts : List Ty} (ht : t ∈ ts) (m : ℕ) :
    typeArgDepth t ≤ maxArgDepth ts m := by
  induction ts generalizing m with
  | nil => cases ht
  | cons s ts ih =>
    rw [maxArgDepth]
    rcases List.mem_cons.mp ht with rfl | hmem
    · apply Nat.le_trans _ (le_maxArgDepth ts _)
      split <;> omega
    · exact ih hmem _

end FcLang.Types
