import FcLang.Args.WcMatch
import FcLang.Text.Encode
import Mathlib.Data.List.TakeWhile

/-!
# File URIs

The server names a file by a path and the editor names it by a `file://` URI.
The URI that the server writes for an absolute path denotes that path.
-/

namespace FcLang.Lsp
open Args (CString)
open Printf (ascii)
open Text (hexByte hexByte_eq hexDigitVal percent)

def slash : UInt8 := '/'.toUInt8

/-- `file://` -/
def scheme : List UInt8 := ascii "file://"

/-- The characters that `path_to_uri` writes as they are. -/
def safe (c : UInt8) : Bool :=
  ('A'.toUInt8 ≤ c ∧ c ≤ 'Z'.toUInt8) ∨ ('a'.toUInt8 ≤ c ∧ c ≤ 'z'.toUInt8) ∨
    ('0'.toUInt8 ≤ c ∧ c ≤ '9'.toUInt8) ∨ c ∈ ascii "-._~/"

def hexDigits : List UInt8 := ascii "0123456789ABCDEF"

/-- What `path_to_uri` writes for a byte. -/
def encodeByte (c : UInt8) : List UInt8 :=
  if safe c then [c]
  else [percent, hexDigits.getD (c >>> 4).toNat 0, hexDigits.getD (c &&& 0xF).toNat 0]

/-- The loop of `uri_to_path`. -/
def percentDecode : List UInt8 → List UInt8
  | c :: a :: b :: rest =>
    if c = percent ∧ (hexDigitVal a).isSome ∧ (hexDigitVal b).isSome then
      hexByte a b :: percentDecode rest
    else c :: percentDecode (a :: b :: rest)
  | text => text

/-- The part of a URI that `uri_to_path` decodes, behind the scheme and an authority. -/
def pathPart (uri : List UInt8) : List UInt8 :=
  if scheme <+: uri then (uri.drop scheme.length).dropWhile (· ≠ slash) else uri

/-- A NUL among the decoded bytes ends the path. -/
def uriToPath (uri : CString) : CString where
  bytes := (percentDecode (pathPart uri.bytes)).takeWhile (· ≠ 0)
  clean h := by simpa using List.mem_takeWhile_imp h

theorem hexDigitVal_hexDigits {n : ℕ} (hn : n < 16) :
    hexDigitVal (hexDigits.getD n 0) = some (UInt8.ofNat n) := by
  have hall : ∀ n < 16, hexDigitVal (hexDigits.getD n 0) = some (UInt8.ofNat n) := by
    decide +kernel
  exact hall n hn

/-- A hexadecimal digit needs no escape. -/
theorem safe_hexDigits {n : ℕ} (hn : n < 16) : safe (hexDigits.getD n 0) = true := by
  have hall : ∀ n < 16, safe (hexDigits.getD n 0) = true := by decide +kernel
  exact hall n hn

theorem high_lt (c : UInt8) : (c >>> 4).toNat < 16 := by
  have := c.toNat_lt
  rw [UInt8.toNat_shiftRight]
  simp [Nat.shiftRight_eq_div_pow]
  omega

theorem low_lt (c : UInt8) : (c &&& 0xF).toNat < 16 := by
  rw [UInt8.toNat_and]
  exact Nat.lt_of_le_of_lt Nat.and_le_right (by decide)

theorem hexByte_hexDigits (c : UInt8) :
    hexByte (hexDigits.getD (c >>> 4).toNat 0) (hexDigits.getD (c &&& 0xF).toNat 0) = c := by
  rw [hexByte_eq (hexDigitVal_hexDigits (high_lt c)) (hexDigitVal_hexDigits (low_lt c))]
  have hc := c.toNat_lt
  have hlow : c.toNat &&& 15 = c.toNat % 16 := Nat.and_two_pow_sub_one_eq_mod c.toNat 4
  apply UInt8.toNat_inj.mp
  simp [hlow, Nat.shiftRight_eq_div_pow]
  omega

theorem ne_percent_of_safe {c : UInt8} (h : safe c = true) : c ≠ percent := by
  rintro rfl
  exact absurd h (by decide)

theorem safe_slash : safe slash = true := by decide

theorem mem_encodeByte {b c : UInt8} (h : b ∈ encodeByte c) : b = percent ∨ safe b = true := by
  unfold encodeByte at h
  split_ifs at h with hsafe
  · rw [List.mem_singleton.mp h]
    exact .inr hsafe
  · simp only [List.mem_cons, List.not_mem_nil, or_false] at h
    rcases h with rfl | rfl | rfl
    · exact .inl rfl
    · exact .inr (safe_hexDigits (high_lt c))
    · exact .inr (safe_hexDigits (low_lt c))

theorem length_encodeByte_le (c : UInt8) : (encodeByte c).length ≤ 3 := by
  unfold encodeByte
  split_ifs <;> simp

/-- A slash is written as itself, and for a slash only. -/
theorem slash_mem_encodeByte {c : UInt8} (h : slash ∈ encodeByte c) : c = slash := by
  unfold encodeByte at h
  split_ifs at h with hsafe
  · exact (List.mem_singleton.mp h).symm
  · have hdigit : ∀ n < 16, slash ≠ hexDigits.getD n 0 := by decide +kernel
    simp only [List.mem_cons, List.not_mem_nil, or_false] at h
    rcases h with h | h | h
    · exact absurd h (by decide)
    · exact absurd h (hdigit _ (high_lt c))
    · exact absurd h (hdigit _ (low_lt c))

theorem encodeByte_slash : encodeByte slash = [slash] := by
  rw [encodeByte, if_pos safe_slash]

theorem percentDecode_cons {c : UInt8} (hc : c ≠ percent) (rest : List UInt8) :
    percentDecode (c :: rest) = c :: percentDecode rest := by
  rcases rest with _ | ⟨a, _ | ⟨b, rest⟩⟩
  · rfl
  · rfl
  · rw [percentDecode, if_neg (by simp [hc])]

theorem percentDecode_encodeByte (c : UInt8) (rest : List UInt8) :
    percentDecode (encodeByte c ++ rest) = c :: percentDecode rest := by
  unfold encodeByte
  split_ifs with hsafe
  · exact percentDecode_cons (ne_percent_of_safe hsafe) rest
  · have hhigh := hexDigitVal_hexDigits (high_lt c)
    have hlow := hexDigitVal_hexDigits (low_lt c)
    simp only [List.cons_append, List.nil_append]
    rw [percentDecode, if_pos ⟨rfl, by rw [hhigh]; rfl, by rw [hlow]; rfl⟩, hexByte_hexDigits]

theorem percentDecode_encode (path : List UInt8) :
    percentDecode (path.flatMap encodeByte) = path := by
  induction path with
  | nil => rfl
  | cons c path ih => rw [List.flatMap_cons, percentDecode_encodeByte, ih]

/-- An authority is skipped in the path as it would be in its URI. -/
theorem dropWhile_encode (path : List UInt8) :
    (path.flatMap encodeByte).dropWhile (· ≠ slash) =
      (path.dropWhile (· ≠ slash)).flatMap encodeByte := by
  induction path with
  | nil => rfl
  | cons c path ih =>
    rw [List.flatMap_cons]
    by_cases hc : c = slash
    · subst hc
      simp [encodeByte_slash]
    · rw [List.dropWhile_append_of_pos, ih, List.dropWhile_cons_of_pos (by simpa using hc)]
      intro b hb
      simp only [ne_eq, decide_eq_true_eq]
      rintro rfl
      exact hc (slash_mem_encodeByte hb)

def pathToUri (path : CString) : CString where
  bytes := scheme ++ path.bytes.flatMap encodeByte
  clean h := by
    rcases List.mem_append.mp h with h | h
    · exact absurd h (by decide)
    · obtain ⟨c, -, hc⟩ := List.mem_flatMap.mp h
      rcases mem_encodeByte hc with h | h <;> exact absurd h (by decide)

theorem pathPart_pathToUri (path : CString) :
    pathPart (pathToUri path).bytes = (path.bytes.dropWhile (· ≠ slash)).flatMap encodeByte := by
  have hscheme : scheme <+: (pathToUri path).bytes := List.prefix_append scheme _
  rw [pathPart, if_pos hscheme, pathToUri, List.drop_left, dropWhile_encode]

/-- The URI of a path denotes what the path is from its first slash on. -/
theorem uriToPath_pathToUri (path : CString) :
    (uriToPath (pathToUri path)).bytes = path.bytes.dropWhile (· ≠ slash) := by
  change (percentDecode (pathPart (pathToUri path).bytes)).takeWhile (· ≠ 0) = _
  rw [pathPart_pathToUri, percentDecode_encode, List.takeWhile_eq_self_iff]
  intro b hb
  have hmem : b ∈ path.bytes := (List.dropWhile_suffix _).subset hb
  simp only [ne_eq, decide_eq_true_eq]
  rintro rfl
  exact path.clean hmem

theorem pathToUri_injective {path other : CString}
    (h : (pathToUri path).bytes = (pathToUri other).bytes) : path.bytes = other.bytes := by
  have henc := List.append_cancel_left h
  rw [← percentDecode_encode path.bytes, henc, percentDecode_encode]

theorem length_encode_le (path : List UInt8) :
    (path.flatMap encodeByte).length ≤ 3 * path.length := by
  induction path with
  | nil => simp
  | cons c path ih =>
    have := length_encodeByte_le c
    simp only [List.flatMap_cons, List.length_append, List.length_cons]
    omega

/-- Reading the URI of a path gives that path back if and only if it is empty or absolute; two
paths have two URIs; a URI fits into the allocated buffer and has no byte that needs an escape. -/
theorem fileUris_exact (path : CString) :
    ((uriToPath (pathToUri path)).bytes = path.bytes ↔
      ∀ c ∈ path.bytes.head?, c = slash) ∧
    (∀ other : CString, (pathToUri path).bytes = (pathToUri other).bytes →
      path.bytes = other.bytes) ∧
    (pathToUri path).bytes.length + 1 ≤ 7 + 3 * path.bytes.length + 1 ∧
    ∀ b ∈ (pathToUri path).bytes.drop 7, b = percent ∨ safe b = true := by
  refine ⟨?_, fun other => pathToUri_injective, ?_, ?_⟩
  · rw [uriToPath_pathToUri]
    cases hpath : path.bytes with
    | nil => simp
    | cons c rest =>
      simp only [List.head?_cons, Option.mem_some, forall_eq']
      by_cases hc : c = slash
      · simp [hc]
      · rw [List.dropWhile_cons_of_pos (by simpa using hc)]
        refine iff_of_false (fun h => ?_) hc
        have hlength : (rest.dropWhile (· ≠ slash)).length ≤ rest.length :=
          (List.dropWhile_suffix _).length_le
        rw [h, List.length_cons] at hlength
        omega
  · have := length_encode_le path.bytes
    have hscheme : scheme.length = 7 := by decide
    simp only [pathToUri, List.length_append]
    omega
  · intro b hb
    have hscheme : scheme.length = 7 := by decide
    rw [pathToUri, ← hscheme, List.drop_left] at hb
    obtain ⟨c, -, hc⟩ := List.mem_flatMap.mp hb
    exact mem_encodeByte hc

end FcLang.Lsp
