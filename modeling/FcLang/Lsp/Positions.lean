import FcLang.Lib.Utf8
import Mathlib.Data.List.DropRight

/-!
# Positions of the language server

A position in a document is a line and a number of UTF-16 code units for the editor,
and a line and a byte column for the compiler. The line index keeps where each line
starts; a line's newline belongs to the bytes of the line but not to its text.
-/

namespace FcLang.Lsp

structure LineIndex where
  starts : List ℕ
  count : ℕ
  len : ℕ
  ascii : Bool

/-- Behind every newline a line starts. -/
def newlineStarts (i : ℕ) : List UInt8 → List ℕ
  | [] => []
  | c :: text =>
    if c = '\n'.toUInt8 then (i + 1) :: newlineStarts (i + 1) text else newlineStarts (i + 1) text

def lineIndexBuild (text : List UInt8) : LineIndex where
  starts := 0 :: newlineStarts 0 text
  count := 1 + text.count '\n'.toUInt8
  len := text.length
  ascii := text.all fun c => c < 0x80

def clampLine0 (idx : LineIndex) (line0 : ℤ) : ℕ :=
  let line0 := if line0 ≥ idx.count then (idx.count : ℤ) - 1 else line0
  (if line0 < 0 then 0 else line0).toNat

/-- The loop of both conversions: whole sequences, while `more` of the byte and the units so
far. Every sequence has a byte, so that `fuel` for each byte of the text is enough. -/
def walk (text : List UInt8) (more : ℕ → ℕ → Bool) : (fuel byte u16 : ℕ) → ℕ × ℕ
  | 0, byte, u16 => (byte, u16)
  | fuel + 1, byte, u16 =>
    if more byte u16 then
      let nb := Utf8.seqLen (text.getD byte 0)
      let nu := if nb = 4 then 2 else 1
      walk text more fuel (byte + nb) (u16 + nu)
    else (byte, u16)

/-- There is no answer where `ls + col` does not fit into an `int`. -/
def lspToLoc (idx : LineIndex) (text : List UInt8) (line0 char0 : ℤ) : Option (ℕ × ℕ) :=
  let line0 := clampLine0 idx line0
  let ls := idx.starts.getD line0 0
  let le := if line0 + 1 < idx.count then idx.starts.getD (line0 + 1) 0 else idx.len
  let char0 := (if char0 < 0 then 0 else char0).toNat
  if idx.ascii then
    if 2 ^ 31 ≤ ls + char0 then none
    else some (line0 + 1, (if ls + char0 > le then le - ls else char0) + 1)
  else
    let byte := (walk text (fun byte u16 => byte < le && u16 < char0) text.length ls 0).1
    some (line0 + 1, (byte - ls) + 1)

def locToLsp (idx : LineIndex) (text : List UInt8) (line1 col1 : ℤ) : ℕ × ℕ :=
  let line0 := clampLine0 idx (line1 - 1)
  let byteCol := (if col1 - 1 < 0 then 0 else col1 - 1).toNat
  if idx.ascii then (line0, byteCol)
  else
    let ls := idx.starts.getD line0 0
    (line0, (walk (text.drop ls) (fun b _ => b < byteCol && ls + b < idx.len) text.length 0 0).2)

def bytes (cs : List Char) : List UInt8 := cs.flatMap fun c => Utf8.encode c.toNat

/-- The UTF-16 code units of a character. -/
def unitsOf (c : Char) : ℕ := if c.toNat < 0x10000 then 1 else 2

def units (cs : List Char) : ℕ := (cs.map unitsOf).sum

/-- Valid UTF-8 text, whose offsets and columns are of the type `int`. -/
structure Document where
  chars : List Char
  fits : (bytes chars).length < 2 ^ 31 - 1

namespace Document

variable (d : Document)

def text : List UInt8 := bytes d.chars

def index : LineIndex := lineIndexBuild d.text

end Document

/-- The line of the boundary behind `before`. -/
def lineOf (before : List Char) : ℕ := before.count '\n'

/-- What of its line is before the boundary. -/
def lineHead (before : List Char) : List Char := before.rtakeWhile (· ≠ '\n')

/-- What is read of a line for `n` units: whole characters until they are reached. -/
def taken : ℕ → List Char → List Char
  | _, [] => []
  | n, c :: cs => if n = 0 then [] else c :: taken (n - unitsOf c) cs

@[simp] theorem bytes_nil : bytes [] = [] := rfl

section
-- The equations are made here, once for all the proofs below.
attribute [local simp] newlineStarts walk taken bytes units
end

theorem bytes_cons (c : Char) (cs : List Char) :
    bytes (c :: cs) = Utf8.encode c.toNat ++ bytes cs := rfl

theorem bytes_append (a b : List Char) : bytes (a ++ b) = bytes a ++ bytes b :=
  List.flatMap_append

@[simp] theorem units_nil : units [] = 0 := rfl

theorem units_cons (c : Char) (cs : List Char) : units (c :: cs) = unitsOf c + units cs := by
  simp [units]

theorem unitsOf_pos (c : Char) : 0 < unitsOf c := by
  unfold unitsOf
  split_ifs <;> decide

theorem length_le_bytes (cs : List Char) : cs.length ≤ (bytes cs).length := by
  induction cs with
  | nil => exact le_rfl
  | cons c cs ih =>
    have := Utf8.size_pos c.toNat
    rw [bytes_cons, List.length_append, Utf8.length_encode, List.length_cons]
    omega

/-- A sequence of four bytes is two units, any other one. -/
theorem unitsOf_eq (c : Char) : (if Utf8.size c.toNat = 4 then 2 else 1) = unitsOf c := by
  unfold Utf8.size unitsOf
  split_ifs <;> first | rfl | omega

/-- Reading one character of the text. -/
theorem seqLen_at {text : List UInt8} {byte : ℕ} {c : Char} {tail : List UInt8}
    (h : text.drop byte = Utf8.encode c.toNat ++ tail) :
    Utf8.seqLen (text.getD byte 0) = Utf8.size c.toNat := by
  have hpos := Utf8.size_pos c.toNat
  have hhead : text[byte]? = (Utf8.encode c.toNat).head? := by
    rw [← List.head?_drop, h, List.head?_append_of_ne_nil]
    intro hnil
    have := Utf8.length_encode c.toNat
    rw [hnil, List.length_nil] at this
    omega
  cases hcode : Utf8.encode c.toNat with
  | nil =>
    have := Utf8.length_encode c.toNat
    rw [hcode, List.length_nil] at this
    omega
  | cons b rest =>
    rw [hcode] at hhead
    rw [List.getD_eq_getElem?_getD, hhead]
    exact Utf8.seqLen_encode (Utf8.char_lt c) b (by rw [hcode]; rfl)

/-- The loop reads the characters of `seg` if it goes on before each and stops behind them. -/
theorem walk_chars {text : List UInt8} {more : ℕ → ℕ → Bool} (seg : List Char) :
    ∀ {fuel byte u16 : ℕ} {tail : List UInt8}, seg.length ≤ fuel →
      text.drop byte = bytes seg ++ tail →
      (∀ a c b, seg = a ++ c :: b →
        more (byte + (bytes a).length) (u16 + units a) = true) →
      more (byte + (bytes seg).length) (u16 + units seg) = false →
      walk text more fuel byte u16 = (byte + (bytes seg).length, u16 + units seg) := by
  induction seg with
  | nil =>
    intro fuel byte u16 tail _ _ _ hstop
    have hstop : more byte u16 = false := hstop
    cases fuel with
    | zero => rfl
    | succ fuel =>
      rw [walk, if_neg (by simp [hstop])]
      rfl
  | cons c seg ih =>
    intro fuel byte u16 tail hfuel htext hmore hstop
    obtain ⟨fuel, rfl⟩ : ∃ n, fuel = n + 1 :=
      Nat.exists_eq_add_one.mpr (lt_of_lt_of_le (by simp) hfuel)
    have hgo : more byte u16 = true := hmore [] c seg rfl
    rw [bytes_cons, List.append_assoc] at htext
    have hlen : (bytes (c :: seg)).length = Utf8.size c.toNat + (bytes seg).length := by
      rw [bytes_cons, List.length_append, Utf8.length_encode]
    have hnext : text.drop (byte + Utf8.size c.toNat) = bytes seg ++ tail := by
      rw [← List.drop_drop, htext, ← Utf8.length_encode, List.drop_left]
    rw [walk, if_pos hgo]
    dsimp only
    rw [seqLen_at htext, unitsOf_eq, ih (by simpa using hfuel) hnext]
    · rw [hlen, units_cons, Nat.add_assoc, Nat.add_assoc]
    · intro a e b hsplit
      have h := hmore (c :: a) e b (by rw [hsplit]; rfl)
      rw [bytes_cons, List.length_append, Utf8.length_encode, units_cons] at h
      rwa [Nat.add_assoc, Nat.add_assoc]
    · rw [hlen, units_cons] at hstop
      rwa [Nat.add_assoc, Nat.add_assoc]

theorem newlineStarts_append (a b : List UInt8) (i : ℕ) :
    newlineStarts i (a ++ b) = newlineStarts i a ++ newlineStarts (i + a.length) b := by
  induction a generalizing i with
  | nil => rfl
  | cons c a ih =>
    have hsum : i + 1 + a.length = i + (c :: a).length := by simp; omega
    rw [List.cons_append, newlineStarts, newlineStarts, ih, hsum]
    split_ifs <;> rfl

theorem length_newlineStarts (text : List UInt8) (i : ℕ) :
    (newlineStarts i text).length = text.count '\n'.toUInt8 := by
  induction text generalizing i with
  | nil => rfl
  | cons c text ih =>
    rw [newlineStarts]
    split_ifs with h
    · rw [List.length_cons, ih, h, List.count_cons_self]
    · rw [ih, List.count_cons_of_ne h]

/-- No byte of another character is a newline. -/
theorem newline_mem_encode (c : Char) : '\n'.toUInt8 ∈ Utf8.encode c.toNat → c = '\n' := by
  have hlt := Utf8.char_lt c
  intro hmem
  apply Char.toNat_inj.mp
  change c.toNat = 10
  have hbyte : ∀ n < 256, '\n'.toUInt8 = UInt8.ofNat n → n = 10 := by decide +kernel
  unfold Utf8.encode Utf8.trail at hmem
  split_ifs at hmem <;> simp only [List.mem_cons, List.not_mem_nil, or_false] at hmem
  · exact hbyte _ (by omega) hmem
  · obtain h | h := hmem <;> have := hbyte _ (by omega) h <;> omega
  · obtain h | h | h := hmem <;> have := hbyte _ (by omega) h <;> omega
  · obtain h | h | h | h := hmem <;> have := hbyte _ (by omega) h <;> omega

theorem newlineStarts_encode (c : Char) (i : ℕ) :
    newlineStarts i (Utf8.encode c.toNat) = if c = '\n' then [i + 1] else [] := by
  split_ifs with h
  · subst h
    rfl
  · have hlen := length_newlineStarts (Utf8.encode c.toNat) i
    rw [List.count_eq_zero_of_not_mem fun hmem => h (newline_mem_encode c hmem)] at hlen
    exact List.length_eq_zero_iff.mp hlen

theorem count_bytes (cs : List Char) : (bytes cs).count '\n'.toUInt8 = cs.count '\n' := by
  induction cs with
  | nil => rfl
  | cons c cs ih =>
    have h := newlineStarts_encode c 0
    rw [bytes_cons, List.count_append, ih, ← length_newlineStarts _ 0, h, List.count_cons]
    by_cases hc : c = '\n' <;> simp [hc, Nat.add_comm]

theorem lineHead_concat (before : List Char) (c : Char) :
    lineHead (before ++ [c]) = if c = '\n' then [] else lineHead before ++ [c] := by
  rw [lineHead, List.rtakeWhile_concat]
  by_cases h : c = '\n' <;> simp [h, lineHead]

theorem lineOf_concat (before : List Char) (c : Char) :
    lineOf (before ++ [c]) = lineOf before + if c = '\n' then 1 else 0 := by
  rw [lineOf, List.count_append, List.count_singleton]
  by_cases h : c = '\n' <;> simp [h, lineOf]

/-- The line of a boundary starts before the head of the line. -/
theorem starts_bytes (before : List Char) :
    ∃ ss, 0 :: newlineStarts 0 (bytes before) = ss ++
        [(bytes before).length - (bytes (lineHead before)).length] ∧
      ss.length = lineOf before ∧
      (bytes (lineHead before)).length ≤ (bytes before).length := by
  induction before using List.reverseRecOn with
  | nil => exact ⟨[], rfl, rfl, le_rfl⟩
  | append_singleton before c ih =>
    obtain ⟨ss, hss, hlen, hle⟩ := ih
    have hsize := Utf8.size_pos c.toNat
    have hbytes : bytes (before ++ [c]) = bytes before ++ Utf8.encode c.toNat := by
      rw [bytes_append, bytes_cons, bytes_nil, List.append_nil]
    rw [hbytes, newlineStarts_append, newlineStarts_encode, Nat.zero_add, lineHead_concat,
      lineOf_concat, ← List.cons_append, hss, List.length_append, Utf8.length_encode]
    by_cases hc : c = '\n'
    · refine ⟨ss ++ [(bytes before).length - (bytes (lineHead before)).length], ?_, ?_, ?_⟩
      · subst hc
        rfl
      · simp [hc, hlen]
      · simp [hc]
    · refine ⟨ss, ?_, by simp [hc, hlen], ?_⟩
      · simp only [hc, if_false, List.append_nil, bytes_append, List.length_append, bytes_cons,
          bytes_nil, Utf8.length_encode]
        congr 2
        omega
      · simp only [hc, if_false, List.append_nil, bytes_append, List.length_append, bytes_cons,
          bytes_nil, Utf8.length_encode]
        omega

namespace Document

variable {d : Document} {before after : List Char}

/-- The index knows where the line of a boundary starts. -/
theorem start_eq (h : d.chars = before ++ after) :
    d.index.starts.getD (lineOf before) 0 + (bytes (lineHead before)).length =
      (bytes before).length := by
  obtain ⟨ss, hss, hlen, hle⟩ := starts_bytes before
  have hstarts : d.index.starts = ss ++
      [(bytes before).length - (bytes (lineHead before)).length] ++
        newlineStarts (0 + (bytes before).length) (bytes after) := by
    rw [← hss, List.cons_append, ← newlineStarts_append, ← bytes_append, ← h]
    rfl
  have hget : d.index.starts[lineOf before]? =
      some ((bytes before).length - (bytes (lineHead before)).length) := by
    rw [hstarts, List.append_assoc, ← hlen, List.getElem?_append_right le_rfl, Nat.sub_self]
    rfl
  rw [List.getD_eq_getElem?_getD, hget, Option.getD_some, Nat.sub_add_cancel hle]

theorem count_eq (d : Document) : d.index.count = d.chars.count '\n' + 1 := by
  rw [index, lineIndexBuild, text, count_bytes, Nat.add_comm]

theorem lineOf_le (h : d.chars = before ++ after) : lineOf before ≤ d.chars.count '\n' := by
  rw [h, List.count_append]
  exact Nat.le_add_right _ _

/-- A line of the document stays what it is. -/
theorem clampLine0_lineOf (h : d.chars = before ++ after) :
    clampLine0 d.index (lineOf before) = lineOf before := by
  have hcount := d.count_eq
  have hle := lineOf_le h
  unfold clampLine0
  rw [if_neg (by omega)]
  dsimp only
  rw [if_neg (by omega), Int.toNat_natCast]

/-- The head of a line is the end of what is before the boundary. -/
theorem lineHead_suffix (before : List Char) : ∃ start, before = start ++ lineHead before :=
  ⟨before.rdropWhile _, List.rdropWhile_append_rtakeWhile.symm⟩

end Document

theorem taken_prefix (n : ℕ) (cs : List Char) :
    ∃ b, cs = taken n cs ++ b ∧ (b = [] ∨ n ≤ units (taken n cs)) := by
  induction cs generalizing n with
  | nil => exact ⟨[], rfl, .inl rfl⟩
  | cons c cs ih =>
    rw [taken]
    split_ifs with h
    · exact ⟨c :: cs, rfl, .inr (by omega)⟩
    · obtain ⟨b, hb, hend⟩ := ih (n - unitsOf c)
      refine ⟨b, by rw [List.cons_append, ← hb], hend.imp id fun hle => ?_⟩
      rw [units_cons]
      omega

theorem taken_more (n : ℕ) (cs : List Char) :
    ∀ {a : List Char} {c : Char} {b : List Char}, taken n cs = a ++ c :: b → units a < n := by
  induction cs generalizing n with
  | nil =>
    intro a c b h
    exact (List.append_ne_nil_of_right_ne_nil a (List.cons_ne_nil c b) h.symm).elim
  | cons e cs ih =>
    intro a c b h
    rw [taken] at h
    split_ifs at h with hn
    · exact (List.append_ne_nil_of_right_ne_nil a (List.cons_ne_nil c b) h.symm).elim
    · cases a with
      | nil => exact Nat.pos_of_ne_zero hn
      | cons f a =>
        obtain ⟨rfl, htail⟩ := List.cons.inj h
        have hlt := ih _ htail
        rw [units_cons]
        omega

/-- As many units as a start of the line has are that start. -/
theorem taken_units (a b : List Char) : taken (units a) (a ++ b) = a := by
  induction a with
  | nil => cases b <;> rfl
  | cons c a ih =>
    have := unitsOf_pos c
    rw [List.cons_append, taken, units_cons, if_neg (by omega), Nat.add_sub_cancel_left, ih]

theorem ascii_chars {cs : List Char} (h : (bytes cs).all (fun c => decide (c < 0x80)) = true) :
    ∀ c ∈ cs, c.toNat < 0x80 := by
  intro c hc
  rw [List.all_eq_true] at h
  have hlt := Utf8.char_lt c
  by_contra hge
  have hsub : ∀ b ∈ Utf8.encode c.toNat, b < 0x80 := fun b hb =>
    of_decide_eq_true (h b (List.mem_flatMap.mpr ⟨c, hc, hb⟩))
  have hbyte : ∀ n < 256, UInt8.ofNat n < 0x80 → n < 0x80 := by decide +kernel
  unfold Utf8.encode at hsub
  split_ifs at hsub
  · omega
  all_goals
    have hfirst := hbyte _ (by omega) (hsub _ List.mem_cons_self)
    omega

theorem ascii_units {cs : List Char} (h : ∀ c ∈ cs, c.toNat < 0x80) :
    (bytes cs).length = units cs := by
  induction cs with
  | nil => rfl
  | cons c cs ih =>
    have hc := h c List.mem_cons_self
    rw [bytes_cons, List.length_append, Utf8.length_encode, units_cons,
      ih fun e he => h e (List.mem_cons_of_mem c he), Utf8.size, if_pos hc, unitsOf,
      if_pos (by omega)]

theorem ascii_taken {cs : List Char} (h : ∀ c ∈ cs, c.toNat < 0x80) (n : ℕ) :
    (bytes (taken n cs)).length = min n (bytes cs).length := by
  induction cs generalizing n with
  | nil => exact (Nat.min_zero n).symm
  | cons c cs ih =>
    have hc := h c List.mem_cons_self
    rw [taken]
    split_ifs with hn
    · rw [hn, Nat.zero_min]
      rfl
    · have hunit : unitsOf c = 1 := if_pos (by omega)
      have hsize : Utf8.size c.toNat = 1 := if_pos hc
      rw [bytes_cons, bytes_cons, List.length_append, List.length_append, Utf8.length_encode,
        ih fun e he => h e (List.mem_cons_of_mem c he), hunit, hsize]
      omega

/-- Where a line starts, its text and what is behind it, a newline unless the text ends. -/
structure Line (cs start line rest : List Char) : Prop where
  whole : cs = start ++ (line ++ rest)
  head : lineHead start = []
  text : '\n' ∉ line
  behind : rest = [] ∨ ∃ r, rest = '\n' :: r

theorem toNat_ite (z : ℤ) : (if z < 0 then 0 else z).toNat = z.toNat := by
  split_ifs with h
  · exact (Int.toNat_of_nonpos h.le).symm
  · rfl

namespace Document

variable {d : Document} {start line rest before after : List Char}

/-- The index of a document without its fast path. -/
def general (d : Document) : LineIndex := { d.index with ascii := false }

theorem start_of_line (h : Line d.chars start line rest) :
    d.index.starts.getD (lineOf start) 0 = (bytes start).length := by
  have hstart := start_eq h.whole
  rwa [h.head, bytes_nil, List.length_nil, Nat.add_zero] at hstart

theorem lineOf_line (h : Line d.chars start line rest) : lineOf (start ++ line) = lineOf start := by
  rw [lineOf, List.count_append, List.count_eq_zero_of_not_mem h.text]
  rfl

/-- A line ends where the next one starts, behind its newline. -/
theorem end_of_line (h : Line d.chars start line rest) :
    (if lineOf start + 1 < d.index.count then d.index.starts.getD (lineOf start + 1) 0
      else d.index.len) = (bytes start).length + (bytes (line ++ rest.take 1)).length := by
  have hcount := d.count_eq
  have hbody := lineOf_line h
  obtain hrest | ⟨r, hrest⟩ := h.behind
  · have hwhole : d.chars = start ++ line := by rw [h.whole, hrest, List.append_nil]
    have hlast : lineOf start = d.chars.count '\n' := by rw [← hbody, hwhole, lineOf]
    rw [if_neg (by omega), hrest, List.take_nil, List.append_nil, ← List.length_append,
      ← bytes_append, ← hwhole]
    rfl
  · have hnext : d.chars = start ++ line ++ ['\n'] ++ r := by
      rw [h.whole, hrest]
      simp
    have hline : lineOf (start ++ line ++ ['\n']) = lineOf start + 1 := by
      rw [lineOf_concat, hbody]
      rfl
    have hle := lineOf_le hnext
    have hstart := start_eq hnext
    rw [hline, lineHead_concat, if_pos rfl, bytes_nil, List.length_nil, Nat.add_zero] at hstart
    rw [if_pos (by omega), hstart, hrest, List.append_assoc, bytes_append, List.length_append]
    rfl

theorem range_prefix (h : Line d.chars start line rest) :
    ∃ tail, d.text.drop (bytes start).length = bytes (line ++ rest.take 1) ++ tail := by
  refine ⟨bytes (rest.drop 1), ?_⟩
  rw [← bytes_append, List.append_assoc, List.take_append_drop, text, h.whole, bytes_append,
    List.drop_left]

/-- The general path reads the line up to the requested units. -/
theorem lspToLoc_general (h : Line d.chars start line rest) {line0 char0 : ℤ}
    (hline : clampLine0 d.index line0 = lineOf start) :
    lspToLoc d.general d.text line0 char0 =
      some (lineOf start + 1, (bytes (taken char0.toNat (line ++ rest.take 1))).length + 1) := by
  obtain ⟨b, hsplit, hend⟩ := taken_prefix char0.toNat (line ++ rest.take 1)
  obtain ⟨tail, htail⟩ := range_prefix h
  have hlen : (bytes (line ++ rest.take 1)).length =
      (bytes (taken char0.toNat (line ++ rest.take 1))).length + (bytes b).length := by
    rw [← List.length_append, ← bytes_append, ← hsplit]
  have hwalk : walk d.text
      (fun byte u16 => decide (byte < (bytes start).length + (bytes (line ++ rest.take 1)).length) &&
        decide (u16 < char0.toNat)) d.text.length (bytes start).length 0 =
      ((bytes start).length + (bytes (taken char0.toNat (line ++ rest.take 1))).length,
        0 + units (taken char0.toNat (line ++ rest.take 1))) := by
    refine @walk_chars _ _ _ _ _ _ (bytes b ++ tail) ?_ ?_ ?_ ?_
    · have h1 := length_le_bytes (taken char0.toNat (line ++ rest.take 1))
      have h2 : (bytes (line ++ rest.take 1)).length ≤ d.text.length := by
        have := congrArg List.length htail
        rw [List.length_drop, List.length_append] at this
        omega
      omega
    · rw [htail, ← List.append_assoc, ← bytes_append, ← hsplit]
    · intro a c e ha
      have hmore := taken_more _ _ ha
      have hbytes := congrArg (fun l => (bytes l).length) ha
      simp only [bytes_append, bytes_cons, List.length_append, Utf8.length_encode] at hbytes
      have := Utf8.size_pos c.toNat
      rw [Bool.and_eq_true, decide_eq_true_eq, decide_eq_true_eq]
      constructor <;> omega
    · rw [Bool.and_eq_false_iff, decide_eq_false_iff_not, decide_eq_false_iff_not]
      obtain rfl | hunits := hend
      · left
        rw [hlen, bytes_nil, List.length_nil]
        omega
      · right
        omega
  have hclamp : clampLine0 d.general line0 = lineOf start := hline
  unfold lspToLoc
  dsimp only
  rw [hclamp, toNat_ite]
  change some (lineOf start + 1, (walk d.text (fun byte u16 =>
    decide (byte < if lineOf start + 1 < d.index.count then
      d.index.starts.getD (lineOf start + 1) 0 else d.index.len) && _) d.text.length
      (d.index.starts.getD (lineOf start) 0) 0).1 - d.index.starts.getD (lineOf start) 0 + 1) = _
  rw [end_of_line h, start_of_line h, hwalk, Nat.add_sub_cancel_left]

theorem ascii_of_index (h : d.index.ascii = true) : ∀ c ∈ d.chars, c.toNat < 0x80 :=
  ascii_chars h

theorem index_of_not_ascii (h : d.index.ascii = false) : d.index = d.general := by
  rw [general, ← h]

/-- The fast path reads the line up to the requested units too, where it can add them. -/
theorem lspToLoc_index (h : Line d.chars start line rest) {line0 char0 : ℤ}
    (hline : clampLine0 d.index line0 = lineOf start)
    (hfit : d.index.ascii = true → (bytes start).length + char0.toNat < 2 ^ 31) :
    lspToLoc d.index d.text line0 char0 = lspToLoc d.general d.text line0 char0 := by
  cases hascii : d.index.ascii with
  | false => rw [index_of_not_ascii hascii]
  | true =>
    have hchars : ∀ c ∈ line ++ rest.take 1, c.toNat < 0x80 := by
      intro c hc
      refine ascii_of_index hascii c ?_
      rw [h.whole, List.mem_append]
      right
      rw [List.mem_append] at hc ⊢
      exact hc.imp id fun hmem => List.mem_of_mem_take hmem
    have hfit := hfit hascii
    rw [lspToLoc_general h hline, ascii_taken hchars]
    unfold lspToLoc
    dsimp only
    rw [hline, toNat_ite, if_pos hascii, end_of_line h, start_of_line h, if_neg (by omega)]
    congr 3
    split_ifs <;> omega

/-- Where the index cannot add the units there is no position. -/
theorem lspToLoc_overflow (h : Line d.chars start line rest) {line0 char0 : ℤ}
    (hline : clampLine0 d.index line0 = lineOf start) (hascii : d.index.ascii = true)
    (hfit : 2 ^ 31 ≤ (bytes start).length + char0.toNat) :
    lspToLoc d.index d.text line0 char0 = none := by
  unfold lspToLoc
  dsimp only
  rw [hline, toNat_ite, if_pos hascii, start_of_line h, if_pos hfit]

theorem lineHead_no_newline (before : List Char) : '\n' ∉ lineHead before := by
  intro hmem
  have := List.mem_rtakeWhile_imp hmem
  simp at this

/-- A boundary cuts a line. -/
theorem line_of_boundary (h : d.chars = before ++ after) :
    ∃ start, before = start ++ lineHead before ∧ lineOf start = lineOf before ∧
      Line d.chars start (lineHead before ++ after.takeWhile (· ≠ '\n'))
        (after.dropWhile (· ≠ '\n')) := by
  refine ⟨before.rdropWhile (· ≠ '\n'), List.rdropWhile_append_rtakeWhile.symm, ?_, ?_⟩
  · conv_rhs => rw [← @List.rdropWhile_append_rtakeWhile _ (· ≠ '\n') before]
    have hnone : (before.rtakeWhile (· ≠ '\n')).count '\n' = 0 :=
      List.count_eq_zero_of_not_mem (lineHead_no_newline before)
    rw [lineOf, lineOf, List.count_append, hnone, Nat.add_zero]
  · refine ⟨?_, ?_, ?_, ?_⟩
    · rw [List.append_assoc, List.takeWhile_append_dropWhile, ← List.append_assoc, lineHead,
        List.rdropWhile_append_rtakeWhile, h]
    · rw [lineHead, List.rtakeWhile_eq_nil_iff]
      intro hne
      exact List.rdropWhile_last_not _ _ hne
    · rw [List.mem_append, not_or]
      refine ⟨lineHead_no_newline before, fun hmem => ?_⟩
      have := List.mem_takeWhile_imp hmem
      simp at this
    · cases hrest : after.dropWhile (· ≠ '\n') with
      | nil => exact .inl rfl
      | cons c r =>
        have hc := List.head?_dropWhile_not (· ≠ '\n') after
        rw [hrest] at hc
        obtain rfl : c = '\n' := by simpa using hc
        exact .inr ⟨r, rfl⟩

theorem lineHead_ascii (h : d.chars = before ++ after) (hascii : d.index.ascii = true) :
    ∀ c ∈ lineHead before, c.toNat < 0x80 := by
  intro c hc
  obtain ⟨start, hstart, -, -⟩ := line_of_boundary h
  refine ascii_of_index hascii c ?_
  rw [h, hstart]
  exact List.mem_append_left _ (List.mem_append_right _ hc)

/-- The units before a boundary on its line, however they are counted. -/
theorem locToLsp_general (h : d.chars = before ++ after) :
    locToLsp d.general d.text (lineOf before + 1) ((bytes (lineHead before)).length + 1) =
      (lineOf before, units (lineHead before)) := by
  obtain ⟨start, hstart, hlineOf, hline⟩ := line_of_boundary h
  have hclamp : clampLine0 d.general ((lineOf before : ℤ) + 1 - 1) = lineOf before := by
    rw [add_sub_cancel_right]
    exact clampLine0_lineOf h
  have hcol : (if ((bytes (lineHead before)).length : ℤ) + 1 - 1 < 0 then 0
      else ((bytes (lineHead before)).length : ℤ) + 1 - 1).toNat =
        (bytes (lineHead before)).length := by
    rw [add_sub_cancel_right, if_neg (by omega), Int.toNat_natCast]
  have hbytes : d.text.drop (bytes start).length = bytes (lineHead before) ++ bytes after := by
    rw [← bytes_append, text, h]
    conv_lhs => rw [hstart, List.append_assoc, bytes_append, List.drop_left]
  have hle : (bytes start).length + (bytes (lineHead before)).length ≤ d.index.len := by
    change _ ≤ (bytes d.chars).length
    rw [h, hstart, bytes_append, bytes_append, List.length_append, List.length_append, ← hstart]
    omega
  have hwalk : walk (d.text.drop (bytes start).length)
      (fun b _ => decide (b < (bytes (lineHead before)).length) &&
        decide ((bytes start).length + b < d.index.len)) d.text.length 0 0 =
      (0 + (bytes (lineHead before)).length, 0 + units (lineHead before)) := by
    refine @walk_chars _ _ _ _ _ _ (bytes after) ?_ (by rw [List.drop_zero, hbytes]) ?_ ?_
    · have h1 := length_le_bytes (lineHead before)
      change _ ≤ d.index.len
      omega
    · intro a c e ha
      have hlen := congrArg (fun l => (bytes l).length) ha
      simp only [bytes_append, bytes_cons, List.length_append, Utf8.length_encode] at hlen
      have := Utf8.size_pos c.toNat
      rw [Bool.and_eq_true, decide_eq_true_eq, decide_eq_true_eq]
      constructor <;> omega
    · rw [Bool.and_eq_false_iff, decide_eq_false_iff_not]
      left
      omega
  unfold locToLsp
  dsimp only
  rw [hclamp, hcol]
  change (lineOf before, (walk (d.text.drop (d.index.starts.getD (lineOf before) 0))
    (fun b _ => _ && decide (d.index.starts.getD (lineOf before) 0 + b < d.index.len))
    d.text.length 0 0).2) = _
  rw [← hlineOf, start_of_line hline, hwalk]
  dsimp only
  rw [Nat.zero_add]

theorem locToLsp_index (h : d.chars = before ++ after) :
    locToLsp d.index d.text (lineOf before + 1) ((bytes (lineHead before)).length + 1) =
      (lineOf before, units (lineHead before)) := by
  cases hascii : d.index.ascii with
  | false =>
    rw [index_of_not_ascii hascii]
    exact locToLsp_general h
  | true =>
    have hchars := lineHead_ascii h hascii
    have hclamp : clampLine0 d.index ((lineOf before : ℤ) + 1 - 1) = lineOf before := by
      rw [add_sub_cancel_right]
      exact clampLine0_lineOf h
    unfold locToLsp
    dsimp only
    rw [hclamp, if_pos hascii, add_sub_cancel_right, if_neg (by omega), Int.toNat_natCast,
      ascii_units hchars]

/-- At every boundary the editor's position is the line and the units before it, it is taken
back to the line and the byte column, and both are the same without the fast path. -/
theorem positions_exact (h : d.chars = before ++ after) :
    locToLsp d.index d.text (lineOf before + 1) ((bytes (lineHead before)).length + 1) =
        (lineOf before, units (lineHead before)) ∧
      lspToLoc d.index d.text (lineOf before) (units (lineHead before)) =
        some (lineOf before + 1, (bytes (lineHead before)).length + 1) ∧
      locToLsp d.general d.text (lineOf before + 1) ((bytes (lineHead before)).length + 1) =
        locToLsp d.index d.text (lineOf before + 1) ((bytes (lineHead before)).length + 1) ∧
      lspToLoc d.general d.text (lineOf before) (units (lineHead before)) =
        lspToLoc d.index d.text (lineOf before) (units (lineHead before)) := by
  obtain ⟨start, hstart, hlineOf, hline⟩ := line_of_boundary h
  have hclamp : clampLine0 d.index (lineOf before) = lineOf start := by
    rw [clampLine0_lineOf h, hlineOf]
  have hunits : ((units (lineHead before) : ℕ) : ℤ).toNat = units (lineHead before) :=
    Int.toNat_natCast _
  have hfit : d.index.ascii = true →
      (bytes start).length + ((units (lineHead before) : ℕ) : ℤ).toNat < 2 ^ 31 := by
    intro hascii
    have hchars := lineHead_ascii h hascii
    have hle : (bytes before).length ≤ (bytes d.chars).length := by
      rw [h, bytes_append, List.length_append]
      exact Nat.le_add_right _ _
    have hparts : (bytes before).length =
        (bytes start).length + (bytes (lineHead before)).length := by
      rw [← List.length_append, ← bytes_append, ← hstart]
    have := d.fits
    rw [hunits, ← ascii_units hchars]
    omega
  have hback := lspToLoc_index hline hclamp hfit
  have hgeneral : lspToLoc d.general d.text (lineOf before) (units (lineHead before)) = _ :=
    lspToLoc_general hline hclamp
  rw [hunits, List.append_assoc, taken_units, hlineOf] at hgeneral
  exact ⟨locToLsp_index h, hback.trans hgeneral, (locToLsp_general h).trans (locToLsp_index h).symm,
    hback.symm⟩

/-- Behind a character of two units, on the second line. -/
theorem positions_exact_astral :
    let d : Document := ⟨['a', '\n', '😀', 'b'], by decide⟩
    locToLsp d.index d.text 2 5 = (1, 2) ∧ lspToLoc d.index d.text 1 2 = some (2, 5) := by
  have h := @positions_exact ⟨['a', '\n', '😀', 'b'], by decide⟩ ['a', '\n', '😀'] ['b'] rfl
  exact ⟨h.1, h.2.1⟩

end Document

end FcLang.Lsp
