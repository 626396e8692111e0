import FcLang.Lsp.Positions

/-!
# Requests out of range

A request beyond the end of a line should be the end of the line's text. The end of a
line's bytes is behind its newline, and there the next line starts.
-/

namespace FcLang.Lsp

/-- What is before a line. -/
def lineStart : ℕ → List Char → List Char
  | 0, _ => []
  | _ + 1, [] => []
  | l + 1, c :: cs => c :: lineStart (if c = '\n' then l else l + 1) cs

/-- The text of a line, without its newline. -/
def lineText : ℕ → List Char → List Char
  | _, [] => []
  | 0, c :: cs => if c = '\n' then [] else c :: lineText 0 cs
  | l + 1, c :: cs => lineText (if c = '\n' then l else l + 1) cs

/-- What is behind the text of a line. -/
def lineRest : ℕ → List Char → List Char
  | _, [] => []
  | 0, c :: cs => if c = '\n' then c :: cs else lineRest 0 cs
  | l + 1, c :: cs => lineRest (if c = '\n' then l else l + 1) cs

theorem line_whole (l : ℕ) (cs : List Char) :
    cs = lineStart l cs ++ (lineText l cs ++ lineRest l cs) := by
  induction cs generalizing l with
  | nil => cases l <;> rfl
  | cons c cs ih =>
    cases l with
    | zero =>
      have hline := ih 0
      rw [lineStart, List.nil_append] at hline ⊢
      rw [lineText, lineRest]
      split_ifs
      · rfl
      · rw [List.cons_append, ← hline]
    | succ l => rw [lineStart, lineText, lineRest, List.cons_append, ← ih]

theorem lineText_no_newline (l : ℕ) (cs : List Char) : '\n' ∉ lineText l cs := by
  induction cs generalizing l with
  | nil => cases l <;> exact List.not_mem_nil
  | cons c cs ih =>
    cases l with
    | zero =>
      rw [lineText]
      split_ifs with h
      · exact List.not_mem_nil
      · rw [List.mem_cons, not_or]
        exact ⟨Ne.symm h, ih 0⟩
    | succ l => exact ih _

theorem lineRest_cases (l : ℕ) (cs : List Char) :
    lineRest l cs = [] ∨ ∃ r, lineRest l cs = '\n' :: r := by
  induction cs generalizing l with
  | nil => cases l <;> exact .inl rfl
  | cons c cs ih =>
    cases l with
    | zero =>
      rw [lineRest]
      split_ifs with h
      · exact .inr ⟨cs, by rw [h]⟩
      · exact ih 0
    | succ l => exact ih _

theorem lineOf_lineStart {l : ℕ} {cs : List Char} (h : l ≤ cs.count '\n') :
    lineOf (lineStart l cs) = l := by
  induction cs generalizing l with
  | nil =>
    obtain rfl : l = 0 := Nat.le_zero.mp h
    rfl
  | cons c cs ih =>
    cases l with
    | zero => rfl
    | succ l =>
      rw [List.count_cons] at h
      rw [lineStart, lineOf, List.count_cons]
      by_cases hc : c = '\n'
      · simp only [hc, beq_self_eq_true, if_true] at h ⊢
        exact congrArg (· + 1) (ih (by omega))
      · simp only [hc, beq_iff_eq, if_false, Nat.add_zero] at h ⊢
        exact ih h

theorem lineStart_ends {l : ℕ} {cs : List Char} (h : l + 1 ≤ cs.count '\n') :
    ∃ a, lineStart (l + 1) cs = a ++ ['\n'] := by
  induction cs generalizing l with
  | nil => cases h
  | cons c cs ih =>
    rw [List.count_cons] at h
    rw [lineStart]
    by_cases hc : c = '\n'
    · simp only [hc, beq_self_eq_true, if_true] at h ⊢
      cases l with
      | zero => exact ⟨[], by rw [lineStart, List.nil_append]⟩
      | succ l =>
        obtain ⟨a, ha⟩ := ih (l := l) (by omega)
        exact ⟨'\n' :: a, by rw [ha, List.cons_append]⟩
    · simp only [hc, beq_iff_eq, if_false, Nat.add_zero] at h ⊢
      obtain ⟨a, ha⟩ := ih h
      exact ⟨c :: a, by rw [ha, List.cons_append]⟩

theorem line_at {l : ℕ} {cs : List Char} (h : l ≤ cs.count '\n') :
    Line cs (lineStart l cs) (lineText l cs) (lineRest l cs) where
  whole := line_whole l cs
  head := by
    cases l with
    | zero => cases cs <;> rfl
    | succ l =>
      obtain ⟨a, ha⟩ := lineStart_ends h
      rw [ha, lineHead_concat, if_pos rfl]
  text := lineText_no_newline l cs
  behind := lineRest_cases l cs

/-- Only behind the last line there is nothing. -/
theorem lineRest_eq_nil {l : ℕ} {cs : List Char} (h : l ≤ cs.count '\n') :
    lineRest l cs = [] ↔ l = cs.count '\n' := by
  have hcount : cs.count '\n' = l + (lineRest l cs).count '\n' := by
    conv_lhs => rw [line_whole l cs]
    rw [List.count_append, List.count_append, List.count_eq_zero_of_not_mem
      (lineText_no_newline l cs), Nat.zero_add]
    exact congrArg (· + _) (lineOf_lineStart h)
  obtain hrest | ⟨r, hrest⟩ := lineRest_cases l cs
  · rw [hrest, List.count_nil, Nat.add_zero] at hcount
    simp only [hrest, true_iff]
    exact hcount.symm
  · rw [hrest, List.count_cons_self] at hcount
    simp only [hrest, List.cons_ne_nil, false_iff]
    omega

theorem lineHead_append {a b : List Char} (h : '\n' ∉ b) :
    lineHead (a ++ b) = lineHead a ++ b := by
  induction b using List.reverseRecOn with
  | nil => rw [List.append_nil, List.append_nil]
  | append_singleton b c ih =>
    rw [List.mem_append, not_or, List.mem_singleton] at h
    rw [← List.append_assoc, lineHead_concat, if_neg (Ne.symm h.2), ih h.1, List.append_assoc]

theorem taken_append_of_le {n : ℕ} {a b : List Char} (h : n ≤ units a) :
    taken n (a ++ b) = taken n a := by
  induction a generalizing n with
  | nil =>
    obtain rfl : n = 0 := Nat.le_zero.mp h
    cases b <;> rfl
  | cons c a ih =>
    rw [units_cons] at h
    rw [List.cons_append, taken, taken, ih (by omega)]

theorem taken_append_of_ge {n : ℕ} {a b : List Char} (h : units a ≤ n) :
    taken n (a ++ b) = a ++ taken (n - units a) b := by
  induction a generalizing n with
  | nil => rfl
  | cons c a ih =>
    have := unitsOf_pos c
    rw [units_cons] at h ⊢
    rw [List.cons_append, taken, if_neg (by omega), ih (by omega), List.cons_append, Nat.sub_sub]

theorem taken_all {n : ℕ} {a : List Char} (h : units a ≤ n) : taken n a = a := by
  have hall := taken_append_of_ge (b := []) h
  rwa [List.append_nil, taken, List.append_nil] at hall

namespace Document

variable {d : Document}

/-- The line of the document that is nearest to the requested one. -/
def nearest (d : Document) (line0 : ℤ) : ℕ := (max 0 (min line0 (d.chars.count '\n'))).toNat

theorem nearest_le (d : Document) (line0 : ℤ) : d.nearest line0 ≤ d.chars.count '\n' := by
  unfold nearest
  omega

theorem clampLine0_eq (d : Document) (line0 : ℤ) : clampLine0 d.index line0 = d.nearest line0 := by
  have hcount := d.count_eq
  unfold clampLine0 nearest
  dsimp only
  split_ifs <;> omega

/-- A request is taken as a boundary on the nearest line, and beyond the line's length as the
end of the line's text. -/
def Clamps (d : Document) (line0 char0 : ℤ) : Prop :=
  ∃ before after, d.chars = before ++ after ∧ lineOf before = d.nearest line0 ∧
    lspToLoc d.index d.text line0 char0 =
      some (lineOf before + 1, (bytes (lineHead before)).length + 1) ∧
    (units (lineText (lineOf before) d.chars) < char0 →
      lineHead before = lineText (lineOf before) d.chars)

/-- The units of the nearest line's text are in the request, or the nearest line is the last
one and its start and the request can be added. -/
def InRange (d : Document) (line0 char0 : ℤ) : Prop :=
  let l := d.nearest line0
  char0 ≤ units (lineText l d.chars) ∨
    l = d.chars.count '\n' ∧
      (d.index.ascii = true → (bytes (lineStart l d.chars)).length + char0 < 2 ^ 31)

/-- What the request is taken as, if it can be added to the start of the line. -/
theorem lspToLoc_nearest (d : Document) (line0 : ℤ) {char0 : ℤ}
    (hfit : d.index.ascii = true →
      (bytes (lineStart (d.nearest line0) d.chars)).length + char0.toNat < 2 ^ 31) :
    lspToLoc d.index d.text line0 char0 = some (d.nearest line0 + 1,
      (bytes (taken char0.toNat (lineText (d.nearest line0) d.chars ++
        (lineRest (d.nearest line0) d.chars).take 1))).length + 1) := by
  have hle := d.nearest_le line0
  have hclamp : clampLine0 d.index line0 = lineOf (lineStart (d.nearest line0) d.chars) := by
    rw [lineOf_lineStart hle, clampLine0_eq]
  rw [lspToLoc_index (line_at hle) hclamp hfit, lspToLoc_general (line_at hle) hclamp,
    lineOf_lineStart hle]

/-- The units of an ASCII line are in the document. -/
theorem ascii_line (d : Document) (hascii : d.index.ascii = true) (l : ℕ) :
    (bytes (lineStart l d.chars)).length + units (lineText l d.chars) < 2 ^ 31 := by
  have hwhole := line_whole l d.chars
  have hchars : ∀ c ∈ lineText l d.chars, c.toNat < 0x80 := by
    intro c hc
    refine ascii_of_index hascii c ?_
    rw [hwhole]
    exact List.mem_append_right _ (List.mem_append_left _ hc)
  have hlen := congrArg (fun cs => (bytes cs).length) hwhole
  simp only [bytes_append, List.length_append, ascii_units hchars] at hlen
  have := d.fits
  omega

/-- A start of the nearest line's text that the request is taken as. -/
theorem clamps_of_taken {line0 char0 : ℤ} {seg tail : List Char}
    (htext : lineText (d.nearest line0) d.chars = seg ++ tail)
    (hloc : lspToLoc d.index d.text line0 char0 =
      some (d.nearest line0 + 1, (bytes seg).length + 1))
    (hend : units (lineText (d.nearest line0) d.chars) < char0 → tail = []) :
    d.Clamps line0 char0 := by
  have hle := d.nearest_le line0
  have hnone : '\n' ∉ seg := by
    have := lineText_no_newline (d.nearest line0) d.chars
    rw [htext, List.mem_append, not_or] at this
    exact this.1
  have hhead : lineHead (lineStart (d.nearest line0) d.chars ++ seg) = seg := by
    rw [lineHead_append hnone, (line_at hle).head, List.nil_append]
  have hline : lineOf (lineStart (d.nearest line0) d.chars ++ seg) = d.nearest line0 := by
    rw [lineOf, List.count_append, List.count_eq_zero_of_not_mem hnone]
    exact lineOf_lineStart hle
  refine ⟨lineStart (d.nearest line0) d.chars ++ seg,
    tail ++ lineRest (d.nearest line0) d.chars, ?_, hline, ?_, ?_⟩
  · conv_lhs => rw [line_whole (d.nearest line0) d.chars, htext]
    simp only [List.append_assoc]
  · rw [hloc, hhead, hline]
  · intro hbeyond
    rw [hline] at hbeyond ⊢
    rw [hhead, htext, hend hbeyond, List.append_nil]

/-- Behind the text of a line that is not the last one, its newline is read as well. -/
theorem not_clamps {line0 char0 : ℤ} (hout : ¬d.InRange line0 char0) :
    ¬d.Clamps line0 char0 := by
  have hle := d.nearest_le line0
  rw [InRange, not_or, not_and, not_le] at hout
  obtain ⟨hbeyond, hlast⟩ := hout
  have hclamp : clampLine0 d.index line0 = lineOf (lineStart (d.nearest line0) d.chars) := by
    rw [lineOf_lineStart hle, clampLine0_eq]
  rintro ⟨before, after, -, hline, hloc, hend⟩
  rw [hline] at hend hloc
  rw [hend hbeyond] at hloc
  by_cases hfit : d.index.ascii = true →
      (bytes (lineStart (d.nearest line0) d.chars)).length + char0.toNat < 2 ^ 31
  · have hne : d.nearest line0 ≠ d.chars.count '\n' := by
      intro heq
      refine hlast heq fun hascii => ?_
      have := hfit hascii
      omega
    obtain hrest | ⟨r, hrest⟩ := lineRest_cases (d.nearest line0) d.chars
    · exact hne ((lineRest_eq_nil hle).mp hrest)
    · have hone : taken (char0.toNat - units (lineText (d.nearest line0) d.chars)) ['\n'] =
          ['\n'] := by
        rw [taken, if_neg (by omega), taken]
      rw [lspToLoc_nearest d line0 hfit, hrest, List.take_succ_cons, List.take_zero,
        taken_append_of_ge (by omega), hone, bytes_append, List.length_append] at hloc
      have hlen := congrArg Prod.snd (Option.some.inj hloc)
      have hnewline : (bytes ['\n']).length = 1 := rfl
      dsimp only at hlen
      omega
  · rw [Classical.not_imp, not_lt] at hfit
    rw [lspToLoc_overflow (line_at hle) hclamp hfit.1 hfit.2] at hloc
    cases hloc

/-- Requests are clamped within their line exactly where they are in range. -/
theorem clamps_iff_inRange (d : Document) (line0 char0 : ℤ) :
    d.Clamps line0 char0 ↔ d.InRange line0 char0 := by
  refine ⟨fun h => not_not.mp fun hout => not_clamps hout h, fun hin => ?_⟩
  have hle := d.nearest_le line0
  rw [InRange] at hin
  by_cases hwithin : char0 ≤ units (lineText (d.nearest line0) d.chars)
  · obtain ⟨tail, htail, -⟩ := taken_prefix char0.toNat (lineText (d.nearest line0) d.chars)
    have hfit : d.index.ascii = true →
        (bytes (lineStart (d.nearest line0) d.chars)).length + char0.toNat < 2 ^ 31 := by
      intro hascii
      have := d.ascii_line hascii (d.nearest line0)
      omega
    have hloc := lspToLoc_nearest d line0 hfit
    rw [taken_append_of_le (by omega)] at hloc
    exact clamps_of_taken htail hloc fun hbeyond => absurd hwithin (not_le.mpr hbeyond)
  · obtain ⟨hlast, hfit⟩ := hin.resolve_left hwithin
    have hloc := @lspToLoc_nearest d line0 char0 fun hascii => by
      have := hfit hascii
      omega
    rw [(lineRest_eq_nil hle).mpr hlast, List.take_nil, List.append_nil,
      taken_all (by omega)] at hloc
    exact clamps_of_taken (List.append_nil _).symm hloc fun _ => rfl

/-- The end of the first line of two is taken as the start of the second. -/
theorem clamps_past_newline :
    let d : Document := ⟨['a', '\n', 'b'], by decide⟩
    lspToLoc d.index d.text 0 2 = some (1, 3) ∧ ¬d.Clamps 0 2 := by
  refine ⟨by decide, not_clamps ?_⟩
  rintro (h | ⟨h, -⟩) <;> exact absurd h (by decide)

end Document

end FcLang.Lsp
