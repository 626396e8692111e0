import FcLang.Lib.Trigraphs
import FcLang.Text.Interpolate

/-!
# The format of an interpolated string

What the compiler reads for the format literal. A type's name is copied into it,
and is read as it stands unless it takes part in a trigraph; the formatter writes
it as it stands unless it has a percent sign.
-/

namespace FcLang.Text
open CText (Written HasTrigraph compileLiteral newline question quote splice trigraph trigraphs)
open Facts (Target)
open Printf (ascii)

variable {T : Target}

/-- The format that makes the formatter write a segment. -/
def Segment.meant : Segment T → List UInt8
  | .literal text => (decodeStrLit text).2.flatMap formatByte
  | .format text o =>
    if segConversion text = 'T'.toUInt8 then o.name.bytes.flatMap formatByte
    else emitSpec text o.ty

/-- The first byte of a segment, if it has one. -/
def Segment.first : Segment T → Option UInt8
  | .literal text => (decodeStrLit text).2.head?
  | .format text o =>
    if segConversion text = 'T'.toUInt8 then o.name.bytes.head? else some percent

/-- A type's name that is written as it is, with what stands behind it. -/
def TypeName.Kept (name : TypeName) (behind : List (Segment T)) : Prop :=
  percent ∉ name.bytes ∧ ¬HasTrigraph (name.bytes ++ (behind.findSome? Segment.first).toList)

/-- Every name is written as it is. -/
def NamesKept : List (Segment T) → Prop
  | [] => True
  | .literal _ :: rest => NamesKept rest
  | .format text o :: rest =>
    (segConversion text = 'T'.toUInt8 → o.name.Kept rest) ∧ NamesKept rest

/-- The bytes that a segment's part of the literal is written for. -/
def Segment.written : Segment T → List UInt8
  | .literal text => (decodeStrLit text).2.flatMap formatByte
  | .format text o =>
    if segConversion text = 'T'.toUInt8 then o.name.bytes else emitSpec text o.ty

theorem written_plain {piece text bytes : List UInt8}
    (hpiece : ∀ c ∈ piece, c ≠ quote ∧ c ≠ newline ∧ c ≠ backslash) (h : Written text bytes) :
    Written (piece ++ text) (piece ++ bytes) := by
  induction piece with
  | nil => exact h
  | cons c piece ih =>
    obtain ⟨hq, hn, hb⟩ := hpiece c List.mem_cons_self
    exact .plain hq hn hb (ih fun c hc => hpiece c (List.mem_cons_of_mem _ hc))

/-- A piece of a literal that is written for `bytes` and has no part in a trigraph. -/
structure Stands (piece bytes : List UInt8) : Prop where
  head_ne : piece.head? ≠ some question
  written : ∀ ⦃text contents⦄, text.head? ≠ some question → Written text contents →
    Written (piece ++ text) (bytes ++ contents)
  hasTrigraph : ∀ ⦃text⦄, text.head? ≠ some question →
    (HasTrigraph (piece ++ text) ↔ HasTrigraph text)

namespace Stands
variable {piece piece' bytes bytes' : List UInt8}

theorem nil : Stands [] [] where
  head_ne := by simp
  written _ _ _ h := h
  hasTrigraph _ _ := Iff.rfl

theorem head_append_ne (h : piece.head? ≠ some question) (h' : piece'.head? ≠ some question) :
    (piece ++ piece').head? ≠ some question := by
  cases piece with
  | nil => exact h'
  | cons c piece => exact h

theorem append (h : Stands piece bytes) (h' : Stands piece' bytes') :
    Stands (piece ++ piece') (bytes ++ bytes') where
  head_ne := head_append_ne h.head_ne h'.head_ne
  written text contents htext hwritten := by
    rw [List.append_assoc, List.append_assoc]
    exact h.written (head_append_ne h'.head_ne htext) (h'.written htext hwritten)
  hasTrigraph text htext := by
    rw [List.append_assoc, h.hasTrigraph (head_append_ne h'.head_ne htext), h'.hasTrigraph htext]

theorem flatMap {α : Type} {piece bytes : α → List UInt8} (h : ∀ a, Stands (piece a) (bytes a))
    (as : List α) : Stands (as.flatMap piece) (as.flatMap bytes) := by
  induction as with
  | nil => exact nil
  | cons a as ih => exact (h a).append ih

theorem plain {c : UInt8} (hq : c ≠ quote) (hn : c ≠ newline) (hb : c ≠ CText.backslash)
    (hm : c ≠ question) : Stands [c] [c] where
  head_ne := by simpa using hm
  written _ _ _ h := .plain hq hn hb h
  hasTrigraph _ _ := CText.hasTrigraph_cons_of_ne hm

theorem ofPlain (h : ∀ c ∈ piece, c ≠ quote ∧ c ≠ newline ∧ c ≠ CText.backslash ∧ c ≠ question) :
    Stands piece piece := by
  induction piece with
  | nil => exact nil
  | cons c piece ih =>
    obtain ⟨hq, hn, hb, hm⟩ := h c List.mem_cons_self
    exact (plain hq hn hb hm).append (ih fun c hc => h c (List.mem_cons_of_mem _ hc))

theorem simple {c b : UInt8} (h : CText.simpleEscape c = some b) : Stands [backslash, c] [b] where
  head_ne := by
    rw [List.head?_cons]
    decide
  written _ _ htext hrest := .simple h htext hrest
  hasTrigraph _ htext := (CText.hasTrigraph_cons_of_ne (by decide)).trans
    (CText.hasTrigraph_cons_of_head_ne htext)

theorem octal (b : UInt8) : Stands (octalEscape b) [b] where
  head_ne := by
    rw [octalEscape, List.head?_cons]
    decide
  written text contents _ hrest := by
    have hb := b.toNat_lt
    obtain ⟨h1, h2, h3, hvalue⟩ := octal_digits b
    have hwritten := Written.octal (octal_char h1).1 (octal_char h2).1 (octal_char h3).1
      (by omega) hrest
    rwa [hvalue, UInt8.ofNat_toNat] at hwritten
  hasTrigraph text _ := by
    obtain ⟨h1, h2, h3, -⟩ := octal_digits b
    unfold octalEscape
    exact (CText.hasTrigraph_cons_of_ne (by decide)).trans <|
      (CText.hasTrigraph_cons_of_ne (octal_char h1).2.2.2).trans <|
      (CText.hasTrigraph_cons_of_ne (octal_char h2).2.2.2).trans <|
      CText.hasTrigraph_cons_of_ne (octal_char h3).2.2.2

theorem percent : Stands [Text.percent] [Text.percent] :=
  .plain (by decide) (by decide) (by decide) (by decide)

theorem emitCByte (b : UInt8) : Stands (Text.emitCByte b true)
    (if b = Text.percent then [Text.percent, Text.percent] else [b]) := by
  unfold Text.emitCByte
  by_cases hpercent : b = Text.percent
  · subst hpercent
    exact percent.append percent
  rw [if_neg hpercent, if_neg hpercent]
  split_ifs with h1 h2 h3 h4 h5 h6 h7
  · subst h1
    exact simple rfl
  · subst h2
    exact simple rfl
  · subst h3
    exact simple rfl
  · subst h4
    exact simple rfl
  · subst h5
    exact simple rfl
  · subst h6
    exact simple rfl
  · exact octal b
  · exact plain h2 h3 h1 h6

theorem emitFormatText (text : List UInt8) :
    Stands (Text.emitFormatText text) ((decodeStrLit text).2.flatMap formatByte) := by
  apply flatMap
  intro b
  unfold formatByte
  split
  · exact percent.append (plain (by decide) (by decide) (by decide) (by decide))
  · exact emitCByte b

end Stands

/-- A character that stands for itself in a literal. -/
def Plain (c : UInt8) : Prop :=
  c ≠ quote ∧ c ≠ newline ∧ c ≠ CText.backslash ∧ c ≠ question

instance (c : UInt8) : Decidable (Plain c) :=
  inferInstanceAs (Decidable (c ≠ quote ∧ c ≠ newline ∧ c ≠ CText.backslash ∧ c ≠ question))

theorem plain_of {P : UInt8 → Bool} (hP : ∀ c ∈ [quote, newline, CText.backslash, question],
    P c = false) {c : UInt8} (h : P c = true) : Plain c := by
  have hne : c ∉ [quote, newline, CText.backslash, question] := by
    intro hmem
    rw [hP c hmem] at h
    cases h
  simpa [Plain] using hne

theorem SpecParts.plain_of_mem (p : SpecParts) : ∀ c ∈ p.text, Plain c := by
  have hdigits (ds : List UInt8) (h : ∀ c ∈ ds, Lexer.isDigit c = true) : ∀ c ∈ ds, Plain c :=
    fun c hc => plain_of (by decide +kernel) (h c hc)
  have hprecision : ∀ c ∈ p.precisionText, Plain c := by
    intro c hc
    unfold precisionText at hc
    split at hc
    · cases hc
    · rename_i ds hds
      obtain rfl | hc := List.mem_cons.mp hc
      · decide
      · exact hdigits ds (p.precision_ok ds hds) c hc
  intro c hc
  simp only [text, List.mem_append, List.mem_singleton] at hc
  obtain hc | hc | hc | rfl := hc
  · exact plain_of (by decide +kernel) (p.flags_ok c hc)
  · exact hdigits _ p.width_ok c hc
  · exact hprecision c hc
  · have hconv : ∀ c ∈ Lexer.bytes "diuxXofeEgGscpT", Plain c := by decide +kernel
    exact hconv _ (conversion_cases p.conversion_ok)

theorem IsSpec.plain_of_mem {text : List UInt8} (h : IsSpec text) : ∀ c ∈ text, Plain c := by
  obtain ⟨p, rfl, -⟩ := h.exists_parts
  exact p.plain_of_mem

theorem stands_emitSpec {text : List UInt8} (h : IsSpec text) (ty : OperandTy) :
    Stands (emitSpec text ty) (emitSpec text ty) := by
  have htext := h.plain_of_mem
  have hconv : Plain (segConversion text) := by
    unfold segConversion
    cases text using List.reverseRecOn with
    | nil => decide
    | append_singleton text c =>
      rw [List.getLastD_concat]
      exact htext c (by simp)
  have hpercent : Plain percent := by decide
  have hstar : ∀ c ∈ ascii ".*s", Plain c := by decide +kernel
  have hlong : ∀ c ∈ ascii "ll", Plain c := by decide +kernel
  have hdrop : ∀ c ∈ text.dropLast, Plain c := fun c hc => htext c (List.mem_of_mem_dropLast hc)
  have htake (k : ℕ) : ∀ c ∈ text.take k, Plain c := fun c hc => htext c (List.mem_of_mem_take hc)
  have hcc {P : Prop} [Decidable P] : Plain (if P then 'u'.toUInt8 else segConversion text) := by
    split_ifs
    · decide
    · exact hconv
  apply Stands.ofPlain
  unfold emitSpec
  dsimp only
  split
  · rw [List.forall_mem_cons, List.forall_mem_append]
    exact ⟨hpercent, htake _, hstar⟩
  · split
    · rw [List.forall_mem_cons, List.forall_mem_append, List.forall_mem_append,
        List.forall_mem_singleton]
      exact ⟨hpercent, hdrop, hlong, hcc⟩
    · rw [List.forall_mem_cons]
      exact ⟨hpercent, htext⟩

theorem head_emitSpec (text : List UInt8) (ty : OperandTy) :
    (emitSpec text ty).head? = some percent := by
  unfold emitSpec
  dsimp only
  split
  · rfl
  · split <;> rfl

/-- A byte ends a trigraph if and only if the first character written for it does. -/
theorem head_emitCByte (b : UInt8) :
    ∃ c, (emitCByte b true).head? = some c ∧ ((trigraph c).isSome ↔ (trigraph b).isSome) := by
  by_cases hb : (trigraph b).isSome
  · obtain ⟨hlo, hdel, hmark, hquote, hslash, hpercent⟩ := CText.trigraph_key hb
    have hne : b ≠ '\n'.toUInt8 ∧ b ≠ '\r'.toUInt8 ∧ b ≠ '\t'.toUInt8 ∧ ¬b < 0x20 := by
      refine ⟨?_, ?_, ?_, UInt8.not_lt.mpr hlo⟩ <;> · rintro rfl; exact absurd hlo (by decide)
    refine ⟨b, ?_, Iff.rfl⟩
    unfold emitCByte
    rw [if_neg (show b ≠ backslash from hslash), if_neg hquote, if_neg hne.1, if_neg hne.2.1, if_neg hne.2.2.1,
      if_neg (show b ≠ '?'.toUInt8 from hmark), if_neg (show b ≠ percent from hpercent), if_neg (not_or.mpr ⟨hne.2.2.2, hdel⟩)]
    rfl
  · unfold emitCByte
    simp only [iff_false_right hb]
    split_ifs
    all_goals first
      | exact ⟨backslash, rfl, by decide⟩
      | exact ⟨percent, rfl, by decide⟩
      | exact ⟨b, rfl, hb⟩

theorem head_emitFormatText (text : List UInt8) :
    (emitFormatText text).head? = none ∧ (decodeStrLit text).2.head? = none ∨
      ∃ b c, (decodeStrLit text).2.head? = some b ∧ (emitFormatText text).head? = some c ∧
        ((trigraph c).isSome ↔ (trigraph b).isSome) := by
  unfold emitFormatText
  cases (decodeStrLit text).2 with
  | nil => exact .inl ⟨rfl, rfl⟩
  | cons b bytes =>
    right
    rw [List.flatMap_cons, List.head?_cons]
    split
    · subst_vars
      exact ⟨0, percent, rfl, rfl, Iff.rfl⟩
    · obtain ⟨c, hc, htrigraph⟩ := head_emitCByte b
      refine ⟨b, c, rfl, ?_, htrigraph⟩
      rw [List.head?_append, hc]
      rfl

section Segments
variable {segs : List (Segment T)}

theorem Segment.head_emitFormat_ne {s : Segment T} (hs : s.Accepted) :
    s.emitFormat.head? ≠ some question := by
  cases s with
  | literal text => exact (Stands.emitFormatText text).head_ne
  | format text o =>
    rw [emitFormat]
    split_ifs
    · exact o.name.head_ne
    · exact (stands_emitSpec hs.1 o.ty).head_ne

theorem head_formatText_ne (hsegs : ∀ s ∈ segs, s.Accepted) :
    (formatText segs).head? ≠ some question := by
  induction segs with
  | nil => simp [formatText]
  | cons s segs ih =>
    obtain ⟨hs, hsegs⟩ := List.forall_mem_cons.mp hsegs
    exact Stands.head_append_ne (Segment.head_emitFormat_ne hs) (ih hsegs)

theorem written_formatText (hsegs : ∀ s ∈ segs, s.Accepted) :
    Written (formatText segs) (segs.flatMap Segment.written) := by
  induction segs with
  | nil => exact .nil
  | cons s segs ih =>
    obtain ⟨hs, hsegs⟩ := List.forall_mem_cons.mp hsegs
    have hhead := head_formatText_ne hsegs
    specialize ih hsegs
    rw [formatText, List.flatMap_cons, List.flatMap_cons]
    cases s with
    | literal text => exact (Stands.emitFormatText text).written hhead ih
    | format text o =>
      rw [Segment.emitFormat, Segment.written]
      split_ifs
      · exact written_plain (fun c hc => ⟨(o.name.plain c hc).2.2.1, (o.name.plain c hc).2.1,
          (o.name.plain c hc).2.2.2⟩) ih
      · exact (stands_emitSpec hs.1 o.ty).written hhead ih

/-- What follows a name makes a trigraph of it if and only if the first byte behind it does. -/
theorem hasTrigraph_name (name : List UInt8) (segs : List (Segment T)) :
    HasTrigraph (name ++ (formatText segs).head?.toList) ↔
      HasTrigraph (name ++ (segs.findSome? Segment.first).toList) := by
  have hsome {b c : UInt8} (h : (trigraph c).isSome ↔ (trigraph b).isSome) :
      HasTrigraph (name ++ [c]) ↔ HasTrigraph (name ++ [b]) := by
    rw [CText.hasTrigraph_concat, CText.hasTrigraph_concat, h]
  induction segs with
  | nil => rfl
  | cons s segs ih =>
    have hhead {piece : List UInt8} (h : s.emitFormat = piece) :
        (formatText (s :: segs)).head? = piece.head?.or (formatText segs).head? := by
      rw [formatText, List.flatMap_cons, h, List.head?_append, formatText]
    have hfirst {o : Option UInt8} (h : s.first = o) :
        (s :: segs).findSome? Segment.first = o.or (segs.findSome? Segment.first) := by
      rw [List.findSome?_cons, h]
      cases o <;> rfl
    cases s with
    | literal text =>
      rw [@hhead (emitFormatText text) rfl, @hfirst (decodeStrLit text).2.head? rfl]
      obtain ⟨hnone, hnone'⟩ | ⟨b, c, hb, hc, htrigraph⟩ := head_emitFormatText text
      · rw [hnone, hnone']
        exact ih
      · rw [hb, hc]
        exact hsome htrigraph
    | format text o =>
      by_cases hname : segConversion text = 'T'.toUInt8
      · rw [hhead (if_pos hname), hfirst (if_pos hname)]
        cases o.name.bytes.head? with
        | none => exact ih
        | some c => exact Iff.rfl
      · rw [hhead (if_neg hname), hfirst (if_neg hname), head_emitSpec]
        exact Iff.rfl

/-- No name has a percent sign. -/
def PercentFree (segs : List (Segment T)) : Prop :=
  ∀ text o, Segment.format text o ∈ segs → segConversion text = 'T'.toUInt8 →
    percent ∉ o.name.bytes

theorem percentFree_cons {s : Segment T} : PercentFree (s :: segs) ↔
    (∀ text o, s = .format text o → segConversion text = 'T'.toUInt8 → percent ∉ o.name.bytes) ∧
      PercentFree segs := by
  constructor
  · intro h
    exact ⟨fun text o hs => h text o (hs ▸ List.mem_cons_self),
      fun text o hmem => h text o (List.mem_cons_of_mem _ hmem)⟩
  · rintro ⟨hs, h⟩ text o hmem
    obtain rfl | hmem := List.mem_cons.mp hmem
    · exact hs text o rfl
    · exact h text o hmem

/-- No trigraph stands in the format but at a name. -/
theorem not_hasTrigraph_formatText (hsegs : ∀ s ∈ segs, s.Accepted)
    (hpercent : PercentFree segs) : NamesKept segs ↔ ¬HasTrigraph (formatText segs) := by
  induction segs with
  | nil => exact iff_of_true trivial (CText.not_hasTrigraph_toList none)
  | cons s segs ih =>
    obtain ⟨hs, hsegs⟩ := List.forall_mem_cons.mp hsegs
    have hhead := head_formatText_ne hsegs
    specialize ih hsegs (percentFree_cons.mp hpercent).2
    rw [formatText, List.flatMap_cons, ← formatText]
    cases s with
    | literal text =>
      rw [Segment.emitFormat, (Stands.emitFormatText text).hasTrigraph hhead]
      exact ih
    | format text o =>
      rw [Segment.emitFormat, NamesKept, ih]
      by_cases hname : segConversion text = 'T'.toUInt8
      · have hnot := hpercent text o List.mem_cons_self hname
        rw [if_pos hname, CText.hasTrigraph_append hhead, hasTrigraph_name, not_or]
        simp [hname, TypeName.Kept, hnot]
      · rw [if_neg hname, (stands_emitSpec hs.1 o.ty).hasTrigraph hhead]
        simp [hname]

theorem flatMap_formatByte {bytes : List UInt8} (hnul : ∀ c ∈ bytes, c ≠ 0)
    (h : percent ∉ bytes) : bytes.flatMap formatByte = bytes := by
  induction bytes with
  | nil => rfl
  | cons b bytes ih =>
    rw [List.mem_cons, not_or] at h
    obtain ⟨hb, hnul⟩ := List.forall_mem_cons.mp hnul
    rw [List.flatMap_cons, formatByte, if_neg hb, if_neg (Ne.symm h.1), ih hnul h.2]
    rfl

theorem length_flatMap_formatByte (bytes : List UInt8) :
    bytes.length ≤ (bytes.flatMap formatByte).length ∧
      (percent ∈ bytes → bytes.length < (bytes.flatMap formatByte).length) := by
  induction bytes with
  | nil => exact ⟨le_rfl, fun h => absurd h List.not_mem_nil⟩
  | cons b bytes ih =>
    have hb : 1 ≤ (formatByte b).length := by
      unfold formatByte
      split_ifs <;> simp [ascii]
    have hpercent : b = percent → 1 < (formatByte b).length := by
      rintro rfl
      decide
    rw [List.flatMap_cons, List.length_append, List.length_cons]
    refine ⟨by omega, fun hmem => ?_⟩
    obtain rfl | hmem := List.mem_cons.mp hmem
    · have := hpercent rfl
      omega
    · have := ih.2 hmem
      omega

/-- A percent sign in a name makes the format that is meant longer than what the literal is
written for. -/
theorem length_written (segs : List (Segment T)) :
    (segs.flatMap Segment.written).length ≤ (segs.flatMap Segment.meant).length ∧
      ((segs.flatMap Segment.meant).length ≤ (segs.flatMap Segment.written).length →
        PercentFree segs) := by
  have hstep (s : Segment T) : s.written.length ≤ s.meant.length ∧
      (s.meant.length ≤ s.written.length → ∀ text o, s = .format text o →
        segConversion text = 'T'.toUInt8 → percent ∉ o.name.bytes) := by
    cases s with
    | literal text => exact ⟨le_rfl, fun _ _ _ hs => by cases hs⟩
    | format text o =>
      rw [Segment.written, Segment.meant]
      split_ifs with hname
      · obtain ⟨hle, hlt⟩ := length_flatMap_formatByte o.name.bytes
        refine ⟨hle, fun hlen _ _ hs _ hmem => ?_⟩
        cases hs
        exact absurd (hlt hmem) (not_lt.mpr hlen)
      · refine ⟨le_rfl, fun _ _ _ hs hname' => ?_⟩
        cases hs
        exact absurd hname' hname
  induction segs with
  | nil => exact ⟨le_rfl, fun _ _ _ hmem => absurd hmem List.not_mem_nil⟩
  | cons s segs ih =>
    obtain ⟨hle, hnot⟩ := hstep s
    rw [List.flatMap_cons, List.flatMap_cons, List.length_append, List.length_append,
      percentFree_cons]
    exact ⟨by omega, fun hlen => ⟨hnot (by omega), ih.2 (by omega)⟩⟩

theorem meant_eq_written (h : PercentFree segs) :
    segs.flatMap Segment.meant = segs.flatMap Segment.written := by
  induction segs with
  | nil => rfl
  | cons s segs ih =>
    obtain ⟨hs, h⟩ := percentFree_cons.mp h
    rw [List.flatMap_cons, List.flatMap_cons, ih h]
    congr 1
    cases s with
    | literal text => rfl
    | format text o =>
      rw [Segment.written, Segment.meant]
      split_ifs with hname
      · exact flatMap_formatByte (fun c hc => (o.name.plain c hc).1) (hs text o rfl hname)
      · rfl

theorem NamesKept.percentFree (h : NamesKept segs) : PercentFree segs := by
  induction segs with
  | nil => exact fun _ _ hmem => absurd hmem List.not_mem_nil
  | cons s segs ih =>
    rw [percentFree_cons]
    cases s with
    | literal text => exact ⟨fun _ _ hs => (by cases hs), ih h⟩
    | format text o =>
      refine ⟨fun _ _ hs hname => ?_, ih h.2⟩
      cases hs
      exact (h.1 hname).1

/-- The compiler reads the format that is meant if and only if every name is kept. -/
theorem compile_formatText (hsegs : ∀ s ∈ segs, s.Accepted) :
    (∀ rest, compileLiteral (formatText segs ++ quote :: rest) =
      some (segs.flatMap Segment.meant, splice (trigraphs rest))) ↔ NamesKept segs := by
  have hwritten := written_formatText hsegs
  constructor
  · intro hread
    have hpercent := (length_written segs).2 (hwritten.compile_length_le (hread []))
    rw [meant_eq_written hpercent] at hread
    exact (not_hasTrigraph_formatText hsegs hpercent).mpr (hwritten.compile_iff.mp hread)
  · intro hkept
    rw [meant_eq_written hkept.percentFree]
    exact hwritten.compile_iff.mpr ((not_hasTrigraph_formatText hsegs hkept.percentFree).mp hkept)

end Segments

end FcLang.Text
