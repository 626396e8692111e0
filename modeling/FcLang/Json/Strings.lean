import FcLang.Lib.Utf8

/-!
# JSON strings

How the bytes of a string literal are decoded. The decoder looks past the escape
of a high surrogate for the low one that completes the code point, and passes
over that escape whether or not it does.
-/

namespace FcLang.Json

def quote : UInt8 := '"'.toUInt8

def backslash : UInt8 := '\\'.toUInt8

/-- The bytes of a code point, cut off as the code does. -/
def utf8Encode (cp : ℕ) : List UInt8 :=
  if cp ≤ 0x7F then [UInt8.ofNat cp]
  else if cp ≤ 0x7FF then [UInt8.ofNat (0xC0 ||| cp >>> 6), UInt8.ofNat (0x80 ||| cp &&& 0x3F)]
  else if cp ≤ 0xFFFF then
    [UInt8.ofNat (0xE0 ||| cp >>> 12), UInt8.ofNat (0x80 ||| cp >>> 6 &&& 0x3F),
      UInt8.ofNat (0x80 ||| cp &&& 0x3F)]
  else
    [UInt8.ofNat (0xF0 ||| cp >>> 18), UInt8.ofNat (0x80 ||| cp >>> 12 &&& 0x3F),
      UInt8.ofNat (0x80 ||| cp >>> 6 &&& 0x3F), UInt8.ofNat (0x80 ||| cp &&& 0x3F)]

def hexVal (c : UInt8) : Option ℕ :=
  if '0'.toUInt8 ≤ c ∧ c ≤ '9'.toUInt8 then some (c - '0'.toUInt8).toNat
  else if 'a'.toUInt8 ≤ c ∧ c ≤ 'f'.toUInt8 then some (c - 'a'.toUInt8 + 10).toNat
  else if 'A'.toUInt8 ≤ c ∧ c ≤ 'F'.toUInt8 then some (c - 'A'.toUInt8 + 10).toNat
  else none

/-- Four hexadecimal digits and what is left, none if there are fewer. -/
def hex4 : List UInt8 → Option (ℕ × List UInt8)
  | a :: b :: c :: d :: rest =>
    match hexVal a, hexVal b, hexVal c, hexVal d with
    | some x, some y, some z, some w => some ((((x <<< 4 ||| y) <<< 4 ||| z) <<< 4) ||| w, rest)
    | _, _, _, _ => none
  | _ => none

def simpleEscape (e : UInt8) : Option UInt8 :=
  [(quote, quote), (backslash, backslash), ('/'.toUInt8, '/'.toUInt8), ('b'.toUInt8, 8),
    ('f'.toUInt8, 12), ('n'.toUInt8, 10), ('r'.toUInt8, 13), ('t'.toUInt8, 9)].lookup e

def isHigh (cp : ℕ) : Bool := 0xD800 ≤ cp ∧ cp ≤ 0xDBFF

def isLow (cp : ℕ) : Bool := 0xDC00 ≤ cp ∧ cp ≤ 0xDFFF

def pair (high low : ℕ) : ℕ := 0x10000 + (high - 0xD800) <<< 10 + (low - 0xDC00)

/-- What stands behind a `\u`: the bytes it writes and what is left. -/
def parseUnicode (rest : List UInt8) : Option (List UInt8 × List UInt8) := do
  let (cp, rest) ← hex4 rest
  match isHigh cp, rest with
  | true, b :: u :: rest' =>
    if b = backslash ∧ u = 'u'.toUInt8 then
      let (lo, rest') ← hex4 rest'
      some (utf8Encode (if isLow lo then pair cp lo else cp), rest')
    else some (utf8Encode cp, rest)
  | _, _ => some (utf8Encode cp, rest)

/-- What stands behind a backslash. -/
def parseEscape : List UInt8 → Option (List UInt8 × List UInt8)
  | [] => none
  | e :: rest =>
    match simpleEscape e with
    | some b => some ([b], rest)
    | none => if e = 'u'.toUInt8 then parseUnicode rest else none

theorem hex4_length {text rest : List UInt8} {v : ℕ} (h : hex4 text = some (v, rest)) :
    text.length = rest.length + 4 := by
  unfold hex4 at h
  split at h
  · split at h
    · cases h
      rfl
    · cases h
  · cases h

theorem parseUnicode_length {text rest out : List UInt8}
    (h : parseUnicode text = some (out, rest)) : rest.length < text.length := by
  unfold parseUnicode at h
  obtain ⟨⟨cp, rest₁⟩, h₁, h⟩ := Option.bind_eq_some_iff.mp h
  have hlen := hex4_length h₁
  dsimp only at h
  split at h
  · rename_i b u rest₂ hhigh
    split at h
    · obtain ⟨⟨lo, rest₃⟩, h₂, h⟩ := Option.bind_eq_some_iff.mp h
      have hlen' := hex4_length h₂
      dsimp only at h
      cases h
      simp only [List.length_cons] at hlen
      omega
    · cases h
      omega
  · cases h
    omega

theorem parseEscape_length {text rest out : List UInt8}
    (h : parseEscape text = some (out, rest)) : rest.length < text.length := by
  cases text with
  | nil => cases h
  | cons e text =>
    rw [parseEscape] at h
    split at h
    · cases h
      simp
    · split at h
      · exact (parseUnicode_length h).trans (by simp)
      · cases h

/-- The string behind an opening quote, and what follows its closing quote. -/
def parseString (text : List UInt8) : Option (List UInt8 × List UInt8) :=
  match text with
  | [] => none
  | c :: rest =>
    if c = quote then some ([], rest)
    else if c = backslash then
      match _h : parseEscape rest with
      | none => none
      | some (out, rest') => (parseString rest').map fun r => (out ++ r.1, r.2)
    else (parseString rest).map fun r => (c :: r.1, r.2)
termination_by text.length
decreasing_by
  · have := parseEscape_length (by assumption)
    simp only [List.length_cons]
    omega
  · simp

section Equations
variable {text rest out : List UInt8}

theorem parseString_quote (rest : List UInt8) : parseString (quote :: rest) = some ([], rest) := by
  rw [parseString, if_pos rfl]

theorem parseString_raw {c : UInt8} (hquote : c ≠ quote) (hescape : c ≠ backslash)
    (rest : List UInt8) : parseString (c :: rest) = (parseString rest).map fun r => (c :: r.1, r.2) := by
  rw [parseString, if_neg hquote, if_neg hescape]

theorem parseString_bad (h : parseEscape text = none) : parseString (backslash :: text) = none := by
  rw [parseString, if_neg (by decide), if_pos rfl]
  split
  · rfl
  · rename_i hsome
    rw [h] at hsome
    cases hsome

theorem parseString_escape (h : parseEscape text = some (out, rest)) :
    parseString (backslash :: text) = (parseString rest).map fun r => (out ++ r.1, r.2) := by
  rw [parseString, if_neg (by decide), if_pos rfl]
  split
  · rename_i hnone
    rw [h] at hnone
    cases hnone
  · rename_i hsome
    rw [h] at hsome
    cases hsome
    rfl

end Equations

/-- The size of the buffer the decoder allocates. -/
def bufferSize (text : List UInt8) : ℕ := text.length + 1

/-- A byte of the literal, written out or by a simple escape, or a `\u` escape. -/
inductive Piece where
  | byte (b : UInt8)
  | unit (cp : ℕ)
  deriving DecidableEq

/-- The pieces of the text between two quotes. -/
inductive Spells : List UInt8 → List Piece → Prop where
  | nil : Spells [] []
  | raw {c : UInt8} {text : List UInt8} {ps : List Piece} (notQuote : c ≠ quote)
      (notEscape : c ≠ backslash) (rest : Spells text ps) : Spells (c :: text) (.byte c :: ps)
  | simple {e b : UInt8} {text : List UInt8} {ps : List Piece} (escape : simpleEscape e = some b)
      (rest : Spells text ps) : Spells (backslash :: e :: text) (.byte b :: ps)
  | unit {x y z w : ℕ} {a b c d : UInt8} {text : List UInt8} {ps : List Piece}
      (ha : hexVal a = some x) (hb : hexVal b = some y) (hc : hexVal c = some z)
      (hd : hexVal d = some w) (rest : Spells text ps) :
      Spells (backslash :: 'u'.toUInt8 :: a :: b :: c :: d :: text)
        (.unit (4096 * x + 256 * y + 16 * z + w) :: ps)

/-- A high surrogate with the low one behind it is one code point, and every other escape is one
of its own. -/
def denoted : List Piece → List UInt8
  | [] => []
  | .byte b :: ps => b :: denoted ps
  | .unit cp :: .unit lo :: ps =>
    if isHigh cp ∧ isLow lo then Utf8.encode (0x10000 + 0x400 * (cp - 0xD800) + (lo - 0xDC00)) ++ denoted ps
    else Utf8.encode cp ++ denoted (.unit lo :: ps)
  | .unit cp :: ps => Utf8.encode cp ++ denoted ps

/-- What may stand behind a piece: behind an escape of a high surrogate, no escape but that of a
low one. -/
def Piece.Completes : Piece → Piece → Prop
  | .unit cp, .unit lo => isHigh cp = true → isLow lo = true
  | _, _ => True

/-- No escape of a high surrogate is directly followed by an escape of anything but a low one. -/
def Completed (ps : List Piece) : Prop := ps.IsChain Piece.Completes

theorem lor_eq_add {a k x : ℕ} (hx : x < 2 ^ k) : 2 ^ k * a ||| x = x + 2 ^ k * a := by
  rw [← Nat.two_pow_add_eq_or_of_lt hx, Nat.add_comm]

theorem trail_eq (x : ℕ) : UInt8.ofNat (0x80 ||| x &&& 0x3F) = Utf8.trail x := by
  have hmod : x &&& 0x3F = x % 0x40 := Nat.and_two_pow_sub_one_eq_mod x 6
  have hlt : x % 0x40 < 2 ^ 7 := by omega
  rw [hmod, Utf8.trail]
  exact congrArg UInt8.ofNat (lor_eq_add (a := 1) hlt)

theorem utf8Encode_eq {cp : ℕ} (h : cp < 0x110000) : utf8Encode cp = Utf8.encode cp := by
  have hsplit : (cp ≤ 0x7F ↔ cp < 0x80) ∧ (cp ≤ 0x7FF ↔ cp < 0x800) ∧
      (cp ≤ 0xFFFF ↔ cp < 0x10000) := by omega
  have h6 : cp >>> 6 = cp / 0x40 := Nat.shiftRight_eq_div_pow cp 6
  have h12 : cp >>> 12 = cp / 0x1000 := Nat.shiftRight_eq_div_pow cp 12
  have h18 : cp >>> 18 = cp / 0x40000 := Nat.shiftRight_eq_div_pow cp 18
  unfold utf8Encode Utf8.encode
  simp only [hsplit, trail_eq, h6, h12, h18]
  split_ifs with h1 h2 h3
  · rfl
  · have hlead : 0xC0 ||| cp / 0x40 = cp / 0x40 + 0xC0 :=
      lor_eq_add (a := 3) (k := 6) (by omega)
    rw [hlead]
  · have hlead : 0xE0 ||| cp / 0x1000 = cp / 0x1000 + 0xE0 :=
      lor_eq_add (a := 7) (k := 5) (by omega)
    rw [hlead]
  · have hlead : 0xF0 ||| cp / 0x40000 = cp / 0x40000 + 0xF0 :=
      lor_eq_add (a := 15) (k := 4) (by omega)
    rw [hlead]

theorem hexVal_lt {c : UInt8} {x : ℕ} (h : hexVal c = some x) : x < 16 := by
  unfold hexVal at h
  split at h
  · rename_i hc
    change (48 : UInt8) ≤ c ∧ c ≤ 57 at hc
    cases h
    change (c - 48).toNat < 16
    rw [UInt8.toNat_sub_of_le _ _ hc.1]
    have := UInt8.le_iff_toNat_le.mp hc.2
    simp at this ⊢
    omega
  · split at h
    · rename_i hc
      change (97 : UInt8) ≤ c ∧ c ≤ 102 at hc
      cases h
      change (c - 97 + 10).toNat < 16
      rw [UInt8.toNat_add, UInt8.toNat_sub_of_le _ _ hc.1]
      have := UInt8.le_iff_toNat_le.mp hc.2
      simp at this ⊢
      omega
    · split at h
      · rename_i hc
        change (65 : UInt8) ≤ c ∧ c ≤ 70 at hc
        cases h
        change (c - 65 + 10).toNat < 16
        rw [UInt8.toNat_add, UInt8.toNat_sub_of_le _ _ hc.1]
        have := UInt8.le_iff_toNat_le.mp hc.2
        simp at this ⊢
        omega
      · cases h

theorem pair_eq (cp lo : ℕ) : pair cp lo = 0x10000 + 0x400 * (cp - 0xD800) + (lo - 0xDC00) := by
  have hshift : (cp - 0xD800) <<< 10 = 0x400 * (cp - 0xD800) := by
    rw [Nat.shiftLeft_eq, Nat.mul_comm]
  unfold pair
  rw [hshift]

/-- What the decoder writes for the pieces of a literal. -/
def decoded : List Piece → List UInt8
  | [] => []
  | .byte b :: ps => b :: decoded ps
  | .unit cp :: .unit lo :: ps =>
    if isHigh cp then
      Utf8.encode (if isLow lo then 0x10000 + 0x400 * (cp - 0xD800) + (lo - 0xDC00) else cp) ++
        decoded ps
    else Utf8.encode cp ++ decoded (.unit lo :: ps)
  | .unit cp :: ps => Utf8.encode cp ++ decoded ps

/-- Four digits behind a `\u` are a piece. -/
theorem hex4_spells {text rest : List UInt8} {v : ℕ} (h : hex4 text = some (v, rest)) :
    ∃ head, text = head ++ rest ∧ head.length = 4 ∧ v < 0x10000 ∧
      ∀ body ps, Spells body ps →
        Spells (backslash :: 'u'.toUInt8 :: (head ++ body)) (.unit v :: ps) := by
  unfold hex4 at h
  split at h
  · rename_i a b c d rest'
    split at h
    · rename_i x y z w hx hy hz hw
      cases h
      have hx' := hexVal_lt hx
      have hy' := hexVal_lt hy
      have hz' := hexVal_lt hz
      have hw' := hexVal_lt hw
      have hjoin (a b : ℕ) (hb : b < 16) : a <<< 4 ||| b = 16 * a + b := by
        rw [Nat.shiftLeft_eq, Nat.mul_comm, lor_eq_add (k := 4) (by omega)]
        omega
      have hvalue : (((x <<< 4 ||| y) <<< 4 ||| z) <<< 4) ||| w =
          4096 * x + 256 * y + 16 * z + w := by
        rw [hjoin _ _ hw', hjoin _ _ hz', hjoin _ _ hy']
        omega
      rw [hvalue]
      exact ⟨[a, b, c, d], rfl, rfl, by omega, fun body ps hbody => .unit hx hy hz hw hbody⟩
    · cases h
  · cases h

theorem Spells.unit_head {body : List UInt8} {cp : ℕ} {ps : List Piece}
    (h : Spells body (.unit cp :: ps)) : ∃ rest, body = backslash :: 'u'.toUInt8 :: rest := by
  cases h
  exact ⟨_, rfl⟩

theorem decoded_unit {cp : ℕ} {ps : List Piece}
    (h : isHigh cp = true → ∀ lo ps', ps ≠ .unit lo :: ps') :
    decoded (.unit cp :: ps) = Utf8.encode cp ++ decoded ps := by
  match ps with
  | [] => rfl
  | .byte b :: ps => rfl
  | .unit lo :: ps =>
    rw [decoded, if_neg]
    exact fun hhigh => h hhigh lo ps rfl

theorem pair_lt {cp lo : ℕ} (hcp : isHigh cp = true) (hlo : isLow lo = true) :
    pair cp lo < 0x110000 := by
  simp only [isHigh, isLow, decide_eq_true_eq] at hcp hlo
  rw [pair_eq]
  omega

theorem parseUnicode_spells {text rest out : List UInt8}
    (h : parseUnicode text = some (out, rest)) :
    ∃ head, text = head ++ rest ∧ out.length ≤ head.length ∧
      ∀ body behind ps, rest = body ++ quote :: behind → Spells body ps →
        ∃ ps', Spells (backslash :: 'u'.toUInt8 :: (head ++ body)) ps' ∧
          decoded ps' = out ++ decoded ps := by
  unfold parseUnicode at h
  obtain ⟨⟨cp, rest₁⟩, h₁, hrest⟩ := Option.bind_eq_some_iff.mp h
  clear h
  obtain ⟨head, rfl, hhead, hcp, hspells⟩ := hex4_spells h₁
  dsimp only at hrest
  have hlen (cp : ℕ) (h : cp < 0x110000) : (utf8Encode cp).length ≤ 4 := by
    rw [utf8Encode_eq h, Utf8.length_encode]
    exact Utf8.size_le cp
  -- A surrogate that no escape follows is a code point of its own.
  have halone (hnot : ∀ rest', isHigh cp = true → rest₁ ≠ backslash :: 'u'.toUInt8 :: rest') :
      ∀ body behind ps, rest₁ = body ++ quote :: behind → Spells body ps →
        ∃ ps', Spells (backslash :: 'u'.toUInt8 :: (head ++ body)) ps' ∧
          decoded ps' = utf8Encode cp ++ decoded ps := by
    intro body behind ps hbody hps
    refine ⟨.unit cp :: ps, hspells body ps hps, ?_⟩
    rw [utf8Encode_eq (by omega)]
    apply decoded_unit
    rintro hhigh lo ps' rfl
    obtain ⟨rest', rfl⟩ := hps.unit_head
    exact hnot _ hhigh hbody
  split at hrest
  · rename_i b u rest₂ hhigh
    split at hrest
    · rename_i hescape
      obtain ⟨rfl, rfl⟩ := hescape
      obtain ⟨⟨lo, rest₃⟩, h₂, hlast⟩ := Option.bind_eq_some_iff.mp hrest
      clear hrest
      obtain ⟨head', rfl, hhead', hlo, hspells'⟩ := hex4_spells h₂
      dsimp only at hlast
      cases hlast
      have hvalue : (if isLow lo then pair cp lo else cp) < 0x110000 := by
        split_ifs with hlow
        · exact pair_lt hhigh hlow
        · omega
      refine ⟨head ++ backslash :: 'u'.toUInt8 :: head', by simp, ?_, ?_⟩
      · have := hlen _ hvalue
        rw [List.length_append]
        omega
      · intro body behind ps _ hps
        refine ⟨.unit cp :: .unit lo :: ps, ?_, ?_⟩
        · rw [List.append_assoc]
          exact hspells _ _ (hspells' body ps hps)
        · rw [decoded, if_pos hhigh, utf8Encode_eq hvalue, pair_eq]
    · rename_i hescape
      cases hrest
      refine ⟨head, rfl, hhead ▸ hlen cp (by omega), halone ?_⟩
      rintro rest' - heq
      cases heq
      exact hescape ⟨rfl, rfl⟩
  · rename_i hother
    cases hrest
    exact ⟨head, rfl, hhead ▸ hlen cp (by omega), halone fun rest' hhigh => hother _ _ rest' hhigh⟩

theorem simpleEscape_ne_unicode {e b : UInt8} (h : simpleEscape e = some b) : e ≠ 'u'.toUInt8 := by
  rintro rfl
  cases h

/-- An escape is one piece of a literal, or two that are decoded together. -/
theorem parseEscape_spells {text rest out : List UInt8} (h : parseEscape text = some (out, rest)) :
    ∃ head, text = head ++ rest ∧ out.length ≤ head.length ∧
      ∀ body behind ps, rest = body ++ quote :: behind → Spells body ps →
        ∃ ps', Spells (backslash :: (head ++ body)) ps' ∧ decoded ps' = out ++ decoded ps := by
  cases text with
  | nil => cases h
  | cons e text =>
    rw [parseEscape] at h
    split at h
    · rename_i b hb
      cases h
      exact ⟨[e], rfl, le_rfl, fun body behind ps _ hps => ⟨.byte b :: ps, .simple hb hps, rfl⟩⟩
    · split at h
      · rename_i he
        obtain ⟨head, rfl, hlen, hspells⟩ := parseUnicode_spells h
        exact ⟨e :: head, rfl, hlen.trans (by simp), he ▸ hspells⟩
      · cases h

/-- The decoder reads the pieces of a literal, and writes no more bytes than it reads. -/
theorem parseString_spells {text rest out : List UInt8} (h : parseString text = some (out, rest)) :
    ∃ body ps, text = body ++ quote :: rest ∧ Spells body ps ∧ out = decoded ps ∧
      out.length ≤ body.length := by
  induction hn : text.length using Nat.strong_induction_on generalizing text out with
  | _ n ih =>
    subst hn
    match text with
    | [] =>
      rw [parseString] at h
      cases h
    | c :: text =>
      by_cases hquote : c = quote
      · subst hquote
        rw [parseString_quote] at h
        cases h
        exact ⟨[], [], rfl, .nil, rfl, le_rfl⟩
      by_cases hescape : c = backslash
      · subst hescape
        cases hread : parseEscape text with
        | none =>
          rw [parseString_bad hread] at h
          cases h
        | some r =>
          obtain ⟨o, text'⟩ := r
          rw [parseString_escape hread] at h
          obtain ⟨⟨out', rest'⟩, hrest, heq⟩ := Option.map_eq_some_iff.mp h
          cases heq
          have hlt := parseEscape_length hread
          obtain ⟨body, ps, rfl, hps, rfl, hlen⟩ :=
            ih _ (hlt.trans (Nat.lt_succ_self _)) hrest rfl
          obtain ⟨head, rfl, hlen', hspells⟩ := parseEscape_spells hread
          obtain ⟨ps', hps', hdecoded⟩ := hspells body _ ps rfl hps
          refine ⟨backslash :: (head ++ body), ps', by simp, hps', hdecoded.symm, ?_⟩
          simp only [List.length_cons, List.length_append]
          omega
      · rw [parseString_raw hquote hescape] at h
        obtain ⟨⟨out', rest'⟩, hrest, heq⟩ := Option.map_eq_some_iff.mp h
        cases heq
        obtain ⟨body, ps, rfl, hps, rfl, hlen⟩ := ih _ (Nat.lt_succ_self _) hrest rfl
        exact ⟨c :: body, .byte c :: ps, rfl, .raw hquote hescape hps, rfl, Nat.succ_le_succ hlen⟩

theorem not_isHigh_of_isLow {cp : ℕ} (h : isLow cp = true) : isHigh cp = false := by
  simp only [isLow, isHigh, decide_eq_true_eq, decide_eq_false_iff_not] at h ⊢
  omega

theorem denoted_unit {cp : ℕ} {ps : List Piece} (h : isHigh cp = false) :
    denoted (.unit cp :: ps) = Utf8.encode cp ++ denoted ps := by
  match ps with
  | [] => rfl
  | .byte b :: ps => rfl
  | .unit lo :: ps => rw [denoted, if_neg (by simp [h])]

theorem denoted_last {cp : ℕ} {ps : List Piece} (h : ∀ lo ps', ps = .unit lo :: ps' → False) :
    denoted (.unit cp :: ps) = Utf8.encode cp ++ denoted ps := by
  match ps with
  | [] => rfl
  | .byte b :: ps => rfl
  | .unit lo :: ps => exact (h lo ps rfl).elim

/-- Every escape of a literal adds to what it denotes. -/
theorem denoted_length_lt (cp : ℕ) (ps : List Piece) :
    (denoted ps).length < (denoted (.unit cp :: ps)).length := by
  have hpos (cp : ℕ) : 0 < (Utf8.encode cp).length := by
    rw [Utf8.length_encode]
    exact Utf8.size_pos cp
  match ps with
  | [] =>
    have := hpos cp
    simpa [denoted] using this
  | .byte b :: ps =>
    have := hpos cp
    simp only [denoted, List.length_append, List.length_cons]
    omega
  | .unit lo :: ps =>
    rw [denoted]
    split_ifs with hpair
    · have hthree : Utf8.size lo = 3 := by
        have hlo := hpair.2
        simp only [isLow, decide_eq_true_eq] at hlo
        rw [Utf8.size, if_neg (by omega), if_neg (by omega), if_pos (by omega)]
      have hfour (x y : ℕ) : Utf8.size (0x10000 + x + y) = 4 := by
        rw [Utf8.size, if_neg (by omega), if_neg (by omega), if_neg (by omega)]
      rw [denoted_unit (not_isHigh_of_isLow hpair.2)]
      simp only [List.length_append, Utf8.length_encode, hthree, hfour]
      omega
    · have := hpos cp
      rw [List.length_append]
      omega

theorem decoded_length_le (ps : List Piece) : (decoded ps).length ≤ (denoted ps).length := by
  fun_induction decoded ps with
  | case1 => exact le_rfl
  | case2 b ps ih => exact Nat.succ_le_succ ih
  | case3 cp lo ps hhigh ih =>
    by_cases hlow : isLow lo = true
    · rw [if_pos hlow, denoted, if_pos ⟨hhigh, hlow⟩, List.length_append, List.length_append]
      omega
    · have hlt := denoted_length_lt lo ps
      rw [if_neg hlow, denoted, if_neg (by simp [hlow]), List.length_append, List.length_append]
      omega
  | case4 cp lo ps hhigh ih =>
    rw [denoted, if_neg (by simp [hhigh]), List.length_append, List.length_append]
    omega
  | case5 cp ps hps ih =>
    rw [denoted_last hps, List.length_append, List.length_append]
    omega

theorem completed_byte (b : UInt8) (ps : List Piece) : Completed (.byte b :: ps) ↔ Completed ps := by
  unfold Completed
  cases ps with
  | nil => simp
  | cons p ps => simp [Piece.Completes]

theorem completed_unit {cp : ℕ} {ps : List Piece} (h : isHigh cp = false) :
    Completed (.unit cp :: ps) ↔ Completed ps := by
  unfold Completed
  match ps with
  | [] => simp
  | .byte b :: ps => simp [Piece.Completes]
  | .unit lo :: ps => simp [Piece.Completes, h]

/-- The decoder loses nothing exactly if every escape of a high surrogate that another follows is
completed by it. -/
theorem decoded_eq_iff (ps : List Piece) : decoded ps = denoted ps ↔ Completed ps := by
  fun_induction decoded ps with
  | case1 => simp [denoted, Completed]
  | case2 b ps ih => rw [denoted, List.cons_inj_right, ih, completed_byte]
  | case3 cp lo ps hhigh ih =>
    have hcompleted : Completed (.unit cp :: .unit lo :: ps) ↔
        isLow lo = true ∧ Completed (.unit lo :: ps) := by
      simp [Completed, Piece.Completes, hhigh]
    rw [hcompleted]
    by_cases hlow : isLow lo = true
    · rw [if_pos hlow, denoted, if_pos ⟨hhigh, hlow⟩, List.append_cancel_left_eq, ih,
        completed_unit (not_isHigh_of_isLow hlow)]
      simp [hlow]
    · have hlt := denoted_length_lt lo ps
      have hle := decoded_length_le ps
      have hne : Utf8.encode cp ++ decoded ps ≠ Utf8.encode cp ++ denoted (.unit lo :: ps) := by
        intro heq
        have := congrArg List.length heq
        rw [List.length_append, List.length_append] at this
        omega
      rw [if_neg hlow, denoted, if_neg (by simp [hlow])]
      simp [hne, hlow]
  | case4 cp lo ps hhigh ih =>
    have hhigh' : isHigh cp = false := by simpa using hhigh
    rw [denoted_unit hhigh', List.append_cancel_left_eq, ih, completed_unit hhigh']
  | case5 cp ps hps ih =>
    have hcompleted : Completed (.unit cp :: ps) ↔ Completed ps := by
      unfold Completed
      match ps with
      | [] => simp
      | .byte b :: ps => simp [Piece.Completes]
      | .unit lo :: ps => exact (hps lo ps rfl).elim
    rw [denoted_last hps, List.append_cancel_left_eq, ih, hcompleted]

theorem Spells.unique {body : List UInt8} {ps ps' : List Piece} (h : Spells body ps)
    (h' : Spells body ps') : ps = ps' := by
  induction h generalizing ps' with
  | nil =>
    cases h'
    rfl
  | raw hquote hescape _ ih =>
    cases h' with
    | raw _ _ hrest => rw [ih hrest]
    | simple _ _ => exact (hescape rfl).elim
    | unit _ _ _ _ _ => exact (hescape rfl).elim
  | simple hescape _ ih =>
    cases h' with
    | raw _ hne _ => exact (hne rfl).elim
    | simple hescape' hrest =>
      cases hescape.symm.trans hescape'
      rw [ih hrest]
    | unit _ _ _ _ _ => exact (simpleEscape_ne_unicode hescape rfl).elim
  | unit ha hb hc hd _ ih =>
    cases h' with
    | raw _ hne _ => exact (hne rfl).elim
    | simple hescape _ => exact (simpleEscape_ne_unicode hescape rfl).elim
    | unit ha' hb' hc' hd' hrest =>
      cases ha.symm.trans ha'
      cases hb.symm.trans hb'
      cases hc.symm.trans hc'
      cases hd.symm.trans hd'
      rw [ih hrest]

/-- For every string literal the decoder accepts, the decoded bytes are those that the literal
denotes if and only if no escape of a high surrogate is directly followed by an escape of anything
but a low one. The decoded bytes and a NUL always fit into the buffer. -/
theorem parseString_exact_iff {text rest out : List UInt8}
    (h : parseString text = some (out, rest)) :
    out.length + 1 ≤ bufferSize text ∧ ∃ body ps, text = body ++ quote :: rest ∧
      (∀ ps', Spells body ps' ↔ ps' = ps) ∧ (out = denoted ps ↔ Completed ps) := by
  obtain ⟨body, ps, rfl, hps, rfl, hlen⟩ := parseString_spells h
  refine ⟨?_, body, ps, rfl, fun ps' => ⟨fun h' => h'.unique hps, fun heq => heq ▸ hps⟩,
    decoded_eq_iff ps⟩
  rw [bufferSize, List.length_append]
  omega

/-- `\ud83d\u0041`, an escape of a high surrogate and one of a letter. -/
def strandedBody : List UInt8 :=
  [backslash, 'u'.toUInt8, 'd'.toUInt8, '8'.toUInt8, '3'.toUInt8, 'd'.toUInt8, backslash,
    'u'.toUInt8, '0'.toUInt8, '0'.toUInt8, '4'.toUInt8, '1'.toUInt8]

theorem parseString_stranded :
    parseString (strandedBody ++ [quote]) = some ([0xED, 0xA0, 0xBD], []) := by
  have hread : parseEscape (strandedBody ++ [quote]).tail = some ([0xED, 0xA0, 0xBD], [quote]) := rfl
  have hstring := parseString_escape hread
  rw [parseString_quote] at hstring
  exact hstring

theorem spells_stranded : Spells strandedBody [.unit 0xD83D, .unit 0x41] :=
  @Spells.unit 13 8 3 13 _ _ _ _ _ _ rfl rfl rfl rfl
    (@Spells.unit 0 0 4 1 _ _ _ _ _ _ rfl rfl rfl rfl .nil)

/-- The letter is lost. -/
theorem parseString_loses_letter : ∃ ps, Spells strandedBody ps ∧
    parseString (strandedBody ++ [quote]) = some ([0xED, 0xA0, 0xBD], []) ∧
      denoted ps = [0xED, 0xA0, 0xBD, 0x41] :=
  ⟨_, spells_stranded, parseString_stranded, rfl⟩

theorem parseString_exact_iff_stranded : ∃ body ps, strandedBody ++ [quote] = body ++ [quote] ∧
    (∀ ps', Spells body ps' ↔ ps' = ps) ∧
      ([0xED, 0xA0, 0xBD] = denoted ps ↔ Completed ps) :=
  (parseString_exact_iff parseString_stranded).2

end FcLang.Json
