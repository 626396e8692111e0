import FcLang.Lib.Exec

/-!
# A heap of cells

Cells are allocated at addresses never used before. Reading, writing and freeing
a cell that is not live aborts the run.
-/

namespace FcLang

structure Heap (ν : Type) where
  cells : ℕ → Option ν
  bound : ℕ
  fresh : ∀ a, bound ≤ a → cells a = none

namespace Heap
variable {ν : Type}

def empty : Heap ν := { cells := fun _ => none, bound := 0, fresh := fun _ _ => rfl }

def alloc (h : Heap ν) (v : ν) : ℕ × Heap ν :=
  (h.bound, {
    cells := Function.update h.cells h.bound (some v)
    bound := h.bound + 1
    fresh := fun a ha => by
      rw [Function.update_of_ne (by omega)]
      exact h.fresh a (by omega) })

/-- The heap with the content of an allocated address replaced. -/
def put (h : Heap ν) (a : ℕ) (c : Option ν) : Heap ν where
  cells b := if b = a ∧ a < h.bound then c else h.cells b
  bound := h.bound
  fresh b hb := by
    rw [if_neg (by omega)]
    exact h.fresh b hb

def read (h : Heap ν) (a : ℕ) : Exec ν :=
  match h.cells a with
  | some v => .ret v
  | none => .abort

def write (h : Heap ν) (a : ℕ) (v : ν) : Exec (Heap ν) :=
  match h.cells a with
  | some _ => .ret (h.put a (some v))
  | none => .abort

def free (h : Heap ν) (a : ℕ) : Exec (Heap ν) :=
  match h.cells a with
  | some _ => .ret (h.put a none)
  | none => .abort

def modify (h : Heap ν) (a : ℕ) (f : ν → ν) : Exec (Heap ν) := do
  let v ← h.read a
  h.write a (f v)

theorem put_cells {h : Heap ν} {a : ℕ} {v : ν} (ha : h.cells a = some v) (c : Option ν) :
    (h.put a c).cells = Function.update h.cells a c := by
  have hlt : a < h.bound := by
    by_contra hle
    rw [h.fresh a (by omega)] at ha
    cases ha
  funext b
  rw [put, Function.update_apply]
  simp only [hlt, and_true]

theorem read_ret {h : Heap ν} {a : ℕ} {v : ν} (ha : h.cells a = some v) : h.read a = .ret v := by
  rw [read, ha]

theorem modify_ret {h : Heap ν} {a : ℕ} {v : ν} (ha : h.cells a = some v) (f : ν → ν) :
    ∃ h', h.modify a f = .ret h' ∧ h'.cells = Function.update h.cells a (some (f v)) := by
  refine ⟨h.put a (some (f v)), ?_, put_cells ha _⟩
  rw [modify, read_ret ha, Exec.ret_bind, write, ha]

theorem free_ret {h : Heap ν} {a : ℕ} {v : ν} (ha : h.cells a = some v) :
    ∃ h', h.free a = .ret h' ∧ h'.cells = Function.update h.cells a none := by
  refine ⟨h.put a none, ?_, put_cells ha _⟩
  rw [free, ha]

end Heap
end FcLang
