import Mathlib.Data.UInt
import Mathlib.Tactic

/-!
# UTF-8

A code point as one to four bytes. The first byte says how many bytes there are.
A surrogate is written like any other code point.
-/

namespace FcLang.Utf8

def trail (x : ℕ) : UInt8 := UInt8.ofNat (x % 0x40 + 0x80)

def encode (cp : ℕ) : List UInt8 :=
  if cp < 0x80 then [UInt8.ofNat cp]
  else if cp < 0x800 then [UInt8.ofNat (cp / 0x40 + 0xC0), trail cp]
  else if cp < 0x10000 then [UInt8.ofNat (cp / 0x1000 + 0xE0), trail (cp / 0x40), trail cp]
  else [UInt8.ofNat (cp / 0x40000 + 0xF0), trail (cp / 0x1000), trail (cp / 0x40), trail cp]

def size (cp : ℕ) : ℕ :=
  if cp < 0x80 then 1 else if cp < 0x800 then 2 else if cp < 0x10000 then 3 else 4

theorem length_encode (cp : ℕ) : (encode cp).length = size cp := by
  unfold encode size
  split_ifs <;> rfl

theorem size_pos (cp : ℕ) : 0 < size cp := by
  unfold size
  split_ifs <;> decide

theorem size_le (cp : ℕ) : size cp ≤ 4 := by
  unfold size
  split_ifs <;> decide

theorem char_lt (c : Char) : c.toNat < 0x110000 := by
  have h : c.toNat < 0xD800 ∨ 0xDFFF < c.toNat ∧ c.toNat < 0x110000 := c.valid
  omega

/-- The encoding of a character is that of the standard library's strings. -/
theorem encode_char (c : Char) : encode c.toNat = String.utf8EncodeChar c := by
  have hlt := char_lt c
  unfold encode trail String.utf8EncodeChar
  change (if c.toNat < 0x80 then _ else _) =
    ite (c.toNat ≤ 0x7f) [UInt8.ofNat c.toNat]
      (ite (c.toNat ≤ 0x7ff) [UInt8.ofNat (c.toNat / 64 % 0x20 + 0xc0),
          UInt8.ofNat (c.toNat % 0x40 + 0x80)]
        (ite (c.toNat ≤ 0xffff) [UInt8.ofNat (c.toNat / 4096 % 0x10 + 0xe0),
            UInt8.ofNat (c.toNat / 64 % 0x40 + 0x80), UInt8.ofNat (c.toNat % 0x40 + 0x80)]
          [UInt8.ofNat (c.toNat / 262144 % 0x08 + 0xf0), UInt8.ofNat (c.toNat / 4096 % 0x40 + 0x80),
            UInt8.ofNat (c.toNat / 64 % 0x40 + 0x80), UInt8.ofNat (c.toNat % 0x40 + 0x80)]))
  generalize c.toNat = v at hlt
  split_ifs <;> first
    | omega
    | rfl
    | (congr 3
       omega)

/-- How many bytes the first byte of an encoding announces. -/
def seqLen (c : UInt8) : ℕ :=
  if c < 0x80 then 1 else if c >>> 5 = 0x6 then 2 else if c >>> 4 = 0xE then 3
  else if c >>> 3 = 0x1E then 4 else 1

theorem seqLen_ofNat : ∀ n < 256, seqLen (UInt8.ofNat n) =
    if n < 0x80 then 1 else if n < 0xC0 then 1 else if n < 0xE0 then 2 else if n < 0xF0 then 3
    else if n < 0xF8 then 4 else 1 := by decide +kernel

theorem seqLen_encode {cp : ℕ} (h : cp < 0x110000) :
    ∀ c ∈ (encode cp).head?, seqLen c = size cp := by
  unfold encode size
  split_ifs with h1 h2 h3 <;> rintro c ⟨⟩ <;> rw [seqLen_ofNat _ (by omega)] <;> split_ifs <;>
    first | rfl | omega

end FcLang.Utf8
