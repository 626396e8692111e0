import FcLang.Wideint.LimbArray

/-!
# Unsigned wide integers

A `Uwide n` is its `n / 32` limbs. The width assertion of the source is a field,
so no value of a rejected width exists.
-/

namespace FcLang.Wideint

structure Uwide (n : ℕ) where
  limbs : LimbArray n
  width : WidthOk n

namespace Uwide
variable {n : ℕ}

theorem limbs_inj {a b : Uwide n} : a.limbs = b.limbs ↔ a = b := by
  cases a
  cases b
  simp

instance : DecidableEq (Uwide n) := fun _ _ => decidable_of_iff _ limbs_inj

def toNat (a : Uwide n) : ℕ := a.limbs.val

theorem toNat_lt (a : Uwide n) : a.toNat < 2 ^ n := a.limbs.val_lt a.width

def div (a b : Uwide n) : Exec (Uwide n) := do
  let qr ← LimbArray.divmod a.limbs b.limbs
  return ⟨qr.1, a.width⟩

def rem (a b : Uwide n) : Exec (Uwide n) := do
  let qr ← LimbArray.divmod a.limbs b.limbs
  return ⟨qr.2, a.width⟩

def divmod (a b : Uwide n) : Exec (Uwide n × Uwide n) := do
  let qr ← LimbArray.divmod a.limbs b.limbs
  return (⟨qr.1, a.width⟩, ⟨qr.2, a.width⟩)

/-- Division of unsigned wide integers is Euclidean division of what they denote. -/
theorem divmod_euclidean (a b : Uwide n) (hb : b.toNat ≠ 0) :
    ∃ q r, divmod a b = .ret (q, r) ∧ q.toNat * b.toNat + r.toNat = a.toNat ∧
      r.toNat < b.toNat ∧ div a b = .ret q ∧ rem a b = .ret r := by
  obtain ⟨q, r, hrun, hq, hr⟩ := LimbArray.divmod_spec a.limbs b.limbs hb
  refine ⟨⟨q, a.width⟩, ⟨r, a.width⟩, ?_, ?_, ?_, ?_, ?_⟩
  · simp only [divmod, hrun, Exec.ret_bind, Exec.pure_eq]
  · change q.val * b.limbs.val + r.val = a.limbs.val
    rw [hq, hr, Nat.div_add_mod']
  · change r.val < b.limbs.val
    rw [hr]
    exact Nat.mod_lt _ (Nat.pos_of_ne_zero hb)
  · simp only [div, hrun, Exec.ret_bind, Exec.pure_eq]
  · simp only [rem, hrun, Exec.ret_bind, Exec.pure_eq]

/-- A divisor with its top bit set, so that partial remainders overflow the limbs when shifted. -/
theorem divmod_euclidean_top_bit :
    ∃ q r, divmod (n := 64) ⟨⟨[5, 0xFFFFFFFF], rfl⟩, by decide⟩ ⟨⟨[7, 0x80000001], rfl⟩, by decide⟩ =
        .ret (q, r) ∧
      q.toNat * 0x8000000100000007 + r.toNat = 0xFFFFFFFF00000005 ∧ r.toNat < 0x8000000100000007 ∧
      div (n := 64) ⟨⟨[5, 0xFFFFFFFF], rfl⟩, by decide⟩ ⟨⟨[7, 0x80000001], rfl⟩, by decide⟩ = .ret q ∧
      rem (n := 64) ⟨⟨[5, 0xFFFFFFFF], rfl⟩, by decide⟩ ⟨⟨[7, 0x80000001], rfl⟩, by decide⟩ =
        .ret r :=
  divmod_euclidean ⟨⟨[5, 0xFFFFFFFF], rfl⟩, by decide⟩ ⟨⟨[7, 0x80000001], rfl⟩, by decide⟩ (by decide)

end Uwide
end FcLang.Wideint
