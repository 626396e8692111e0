import FcLang.Text.InterpOutput

/-!
# Interpolated strings are never clipped

The formatter writes the segments of a string one after another, whatever the
operands hold, and the buffer has room for them, if and only if no name of a type
is misread in the format.
-/

namespace FcLang.Text
open CText (HasTrigraph compileLiteral question quote splice trigraphs)
open Facts (Target target64)
open Printf (Arg Pointers printf)

variable {T : Target} {pointers : Pointers} {intMax : ℕ} {lenMax : Option ℕ} {checked : Bool}
  {segs : List (Segment T)}

/-- The formatter writes a segment, whatever stands behind it. -/
theorem Segment.printf_meant (hbits : T.pointerBits ≤ 64) {s : Segment T} (hs : s.Accepted)
    {as : List Arg} (hargs : s.args intMax checked = some as) (more : List UInt8)
    (args : List Arg) :
    printf pointers (s.meant ++ more) (as ++ args) =
      (printf pointers more args).map (s.shown pointers ++ ·) := by
  cases s with
  | literal text =>
    cases hargs
    exact printf_formatText _ more args
  | format text o =>
    rw [Segment.args] at hargs
    rw [meant, shown]
    split_ifs at hargs ⊢ with hT
    · cases hargs
      have hnul : (o.name.bytes.filter fun b => b = 0) = [] := by
        rw [List.filter_eq_nil_iff]
        intro b hb
        simpa using (o.name.plain b hb).1
      have hprintf : printf pointers (o.name.bytes.flatMap formatByte ++ more) _ = _ :=
        printf_formatText o.name.bytes more args
      rwa [hnul] at hprintf
    · exact o.shows hbits hs.1 hs.2 hT hargs more args

theorem printf_meant (hbits : T.pointerBits ≤ 64) (hsegs : ∀ s ∈ segs, s.Accepted)
    {args : List Arg} (hargs : segmentArgs intMax checked segs = some args) :
    printf pointers (segs.flatMap Segment.meant) args =
      some (segs.flatMap (Segment.shown pointers)) := by
  induction segs generalizing args with
  | nil => exact Printf.printf_nil
  | cons s segs ih =>
    obtain ⟨hs, hsegs⟩ := List.forall_mem_cons.mp hsegs
    obtain ⟨as, has, hargs⟩ := Option.bind_eq_some_iff.mp hargs
    obtain ⟨args', hargs', rfl⟩ := Option.map_eq_some_iff.mp hargs
    rw [List.flatMap_cons, List.flatMap_cons, Segment.printf_meant hbits hs has, ih hsegs hargs']
    rfl

/-- The share of a literal segment is the number of its bytes. -/
theorem literal_share {text : List UInt8} (h : Accepted text) :
    (Segment.shown pointers (.literal text : Segment T)).length =
      (interpSegBudget (.literal text : Segment T)).bytes := by
  obtain ⟨bytes, hbytes⟩ := h.denotes
  change (decodeStrLit text).2.length = (decodeStrLit text).1
  rw [hbytes.decode]

theorem Segment.shown_le (hbits : T.pointerBits ≤ 64)
    (hpointers : ∀ a : T.Address, (pointers a.toNat).length ≤ 18) {s : Segment T}
    (hs : s.Accepted) : (s.shown pointers).length ≤ s.share := by
  cases s with
  | literal text => exact (literal_share hs).le
  | format text o =>
    rw [shown]
    split_ifs with hT
    · have hbudget : interpSegBudget (.format text o) = ⟨false, o.name.bytes.length⟩ := by
        rw [interpSegBudget, if_pos hT]
      rw [share, hbudget]
      exact le_rfl
    · exact o.shown_le hbits hpointers hs.1 hs.2 hT

theorem shown_le_flen (hbits : T.pointerBits ≤ 64)
    (hpointers : ∀ a : T.Address, (pointers a.toNat).length ≤ 18)
    (hsegs : ∀ s ∈ segs, s.Accepted) :
    (segs.flatMap (Segment.shown pointers)).length ≤ flen segs := by
  induction segs with
  | nil => exact le_rfl
  | cons s segs ih =>
    obtain ⟨hs, hsegs⟩ := List.forall_mem_cons.mp hsegs
    rw [List.flatMap_cons, List.length_append, flen, List.map_cons, List.sum_cons]
    exact Nat.add_le_add (s.shown_le hbits hpointers hs) (ih hsegs)

/-- An interpolated string comes out whole. The compiler reads the formats of the segments and
each literal segment adds as many bytes as its share of the buffer; unless the code aborts, the
formatter writes all segments, the buffer holds them, and they are the result. -/
structure Whole (pointers : Pointers) (intMax : ℕ) (lenMax : Option ℕ) (checked : Bool)
    (segs : List (Segment T)) : Prop where
  format : ∀ rest, compileLiteral (formatText segs ++ quote :: rest) =
    some (segs.flatMap Segment.meant, splice (trigraphs rest))
  literals : ∀ text, Segment.literal text ∈ segs →
    (Segment.shown pointers (.literal text : Segment T)).length =
      (interpSegBudget (.literal text : Segment T)).bytes
  output : ∀ args, formatArgs intMax lenMax checked segs = some args →
    printf pointers (segs.flatMap Segment.meant) args =
        some (segs.flatMap (Segment.shown pointers)) ∧
      (segs.flatMap (Segment.shown pointers)).length ≤ flen segs ∧
      emitInterpString pointers intMax lenMax checked segs =
        some (segs.flatMap (Segment.shown pointers))

/-- An accepted string comes out whole, whatever its operands hold, if and only if the names of
types in it are written as they are and an `int` can count its text. -/
theorem whole_iff (hbits : T.pointerBits ≤ 64)
    (hpointers : ∀ a : T.Address, (pointers a.toNat).length ≤ 18)
    (hsegs : ∀ s ∈ segs, s.Accepted) :
    Whole pointers intMax lenMax checked segs ↔
      NamesKept segs ∧ ((formatArgs intMax lenMax checked segs).isSome →
        (segs.flatMap (Segment.shown pointers)).length ≤ intMax) := by
  have hprintf {args : List Arg} (hargs : formatArgs intMax lenMax checked segs = some args) :
      printf pointers (segs.flatMap Segment.meant) args =
        some (segs.flatMap (Segment.shown pointers)) := by
    unfold formatArgs at hargs
    split at hargs
    · cases hargs
    · exact printf_meant hbits hsegs hargs
  have hfits := shown_le_flen hbits hpointers hsegs
  have hresult (hformat : compileLiteral (formatText segs ++ [quote]) =
        some (segs.flatMap Segment.meant, [])) {args : List Arg}
      (hargs : formatArgs intMax lenMax checked segs = some args) :
      emitInterpString pointers intMax lenMax checked segs =
        if (segs.flatMap (Segment.shown pointers)).length ≤ intMax then
          some (segs.flatMap (Segment.shown pointers)) else none := by
    rw [emitInterpString, hformat, hargs, Option.bind_some, Option.bind_some, hprintf hargs,
      Option.bind_some, List.take_of_length_le hfits]
  constructor
  · intro h
    refine ⟨(compile_formatText hsegs).mp h.format, fun hsome => ?_⟩
    obtain ⟨args, hargs⟩ := Option.isSome_iff_exists.mp hsome
    have hwhole := (h.output args hargs).2.2
    rw [hresult (h.format []) hargs] at hwhole
    by_contra hlong
    rw [if_neg hlong] at hwhole
    cases hwhole
  · rintro ⟨hkept, hcount⟩
    have hformat := (compile_formatText hsegs).mpr hkept
    refine ⟨hformat, fun text hmem => literal_share (hsegs _ hmem), fun args hargs => ?_⟩
    refine ⟨hprintf hargs, hfits, ?_⟩
    rw [hresult (hformat []) hargs, if_pos (hcount (by rw [hargs]; rfl))]

/-- A pointer as its hexadecimal digits. -/
def hexPointers : Pointers := fun address => Printf.ascii "0x" ++ Printf.digits 16 false address

def i32Name : TypeName := ⟨Lexer.bytes "i32", by decide +kernel, by decide⟩

def pointerName : TypeName := ⟨Lexer.bytes "i32*", by decide +kernel, by decide⟩

/-- `"n=%+5d{n}%T{n}%%?%p{at}"` -/
def numberSegments : List (Segment target64) :=
  [.literal (Lexer.bytes "n="),
    .format (Lexer.bytes "+5d") ⟨.int (.fixed .int32), i32Name, ⟨-42, by decide⟩⟩,
    .format (Lexer.bytes "T") ⟨.int (.fixed .int32), i32Name, ⟨-42, by decide⟩⟩,
    .literal (Lexer.bytes "%%?"),
    .format (Lexer.bytes "p") ⟨.pointer, pointerName, 48879#64⟩]

theorem whole_iff_number : Whole hexPointers 2147483647 none false numberSegments := by
  have hpointers : ∀ a : target64.Address, (hexPointers a.toNat).length ≤ 18 := by
    intro a
    have ha : a.toNat < 16 ^ 16 := a.isLt
    have hdigits := Printf.digits_length_le (by decide) false ha
    rw [hexPointers, List.length_append]
    change 2 + _ ≤ 18
    omega
  have haccepted : ∀ s ∈ numberSegments, s.Accepted := by
    have hspec (text : List UInt8) (ty : OperandTy) (h : (interpSpecScan text).1 = text.length)
        (hpos : 0 < text.length) (hcheck : checkInterpSegment (interpSpecScan text).2 ty = []) :
        IsSpec text ∧ checkInterpSegment (interpSpecScan text).2 ty = [] :=
      ⟨⟨h ▸ hpos, h⟩, hcheck⟩
    simp only [numberSegments, List.forall_mem_cons, List.not_mem_nil, false_implies, implies_true,
      and_true]
    exact ⟨⟨[quote], .quote, rfl, trivial⟩, hspec _ _ (by decide) (by decide) (by decide),
      hspec _ _ (by decide) (by decide) (by decide), ⟨[quote], .quote, rfl, trivial⟩,
      hspec _ _ (by decide) (by decide) (by decide)⟩
  have hdecode : decodeStrLit (Lexer.bytes "%%?") = (2, Lexer.bytes "%?") :=
    (Denotes.percents (.plain (by decide) (by decide) .nil)).decode
  have hdecode' : decodeStrLit (Lexer.bytes "n=") = (2, Lexer.bytes "n=") :=
    (Denotes.plain (by decide) (by decide) (.plain (by decide) (by decide) .nil)).decode
  have hflen : flen numberSegments ≤ 2147483647 := by
    simp only [flen, numberSegments, List.map_cons, List.map_nil, Segment.share, interpSegBudget,
      hdecode, hdecode']
    decide
  have hfirst : numberSegments.tail.tail.tail.findSome? Segment.first = some percent := by
    simp only [numberSegments, List.tail_cons, List.findSome?_cons, Segment.first, hdecode]
    rfl
  have hcount : (numberSegments.flatMap (Segment.shown hexPointers)).length ≤ 2147483647 :=
    (shown_le_flen (by decide) hpointers haccepted).trans hflen
  apply (whole_iff (by decide) hpointers haccepted).mpr
  refine ⟨⟨fun h => absurd h (by decide), fun _ => ⟨by decide, ?_⟩,
    fun h => absurd h (by decide), trivial⟩, fun _ => hcount⟩
  apply CText.not_hasTrigraph_of_not_mem
  change question ∉ _ ++ (numberSegments.tail.tail.tail.findSome? Segment.first).toList
  rw [hfirst]
  decide

/-- `"%T{x}"` with `x` of the type `i32??!` -/
def misreadSegments : List (Segment target64) :=
  [.format (Lexer.bytes "T") ⟨.other, ⟨Lexer.bytes "i32??!", by decide +kernel, by decide⟩, ()⟩]

theorem whole_fails_misread : ¬Whole hexPointers 2147483647 none false misreadSegments ∧
    emitInterpString hexPointers 2147483647 none false misreadSegments = some (Lexer.bytes "i32|") ∧
      misreadSegments.flatMap (Segment.shown hexPointers) = Lexer.bytes "i32??!" := by
  have hread : compileLiteral (formatText misreadSegments ++ [quote]) =
      some (Lexer.bytes "i32|", []) := by
    have htranslated : splice (trigraphs (formatText misreadSegments ++ [quote])) =
        Lexer.bytes "i32|" ++ [quote] := rfl
    have hwritten : CText.Written (Lexer.bytes "i32|" ++ []) _ :=
      written_plain (by decide +kernel) .nil
    rw [compileLiteral, htranslated]
    exact hwritten.read []
  have hprintf : printf hexPointers (Lexer.bytes "i32|") [] = some (Lexer.bytes "i32|") := by
    have hformat : printf hexPointers _ _ = _ := printf_formatText (Lexer.bytes "i32|") [] []
    rwa [Printf.printf_nil] at hformat
  have hresult : emitInterpString hexPointers 2147483647 none false misreadSegments =
      some (Lexer.bytes "i32|") := by
    have hargs : formatArgs 2147483647 none false misreadSegments = some [] := rfl
    rw [emitInterpString, hread, hargs, Option.bind_some, Option.bind_some, hprintf]
    rfl
  refine ⟨fun h => ?_, hresult, rfl⟩
  have hwhole := (h.output [] rfl).2.2
  rw [hresult] at hwhole
  exact absurd hwhole (by decide)

end FcLang.Text
