import Mathlib.Data.List.Basic
import Mathlib.Tactic

/-!
# Errors held by speculative parses

Errors raised inside a speculation are held in one buffer until the outermost
speculation ends. A speculation that is given up drops what the buffer holds
from its mark on, and a fatal error reports what is still held. An error is
reported exactly if every speculation it was raised in has been kept.
-/

namespace FcLang.Diag

structure SrcLoc where
  filename : Option String
  line : ℤ
  col : ℤ
  deriving DecidableEq

structure HeldDiag where
  loc : SrcLoc
  msg : String
  deriving DecidableEq

/-- `reported` is what the sink has been handed, or what has been printed. -/
structure State where
  filename : String
  reported : List HeldDiag
  errorCount : ℕ
  held : List HeldDiag
  speculationDepth : ℤ

/-- A location without a file gets the one that is compiled. -/
def resolved (filename : String) (d : HeldDiag) : HeldDiag :=
  { d with loc := { d.loc with filename := some (d.loc.filename.getD filename) } }

namespace State

def dropHeld (s : State) (mark : ℕ) : State := { s with held := s.held.take mark }

def resetCounts (s : State) : State :=
  { s.dropHeld 0 with errorCount := 0, speculationDepth := 0 }

def report (s : State) (d : HeldDiag) : State :=
  { s with reported := s.reported ++ [resolved s.filename d], errorCount := s.errorCount + 1 }

def flushHeld (s : State) : State :=
  { (s.held.foldl report s).dropHeld 0 with speculationDepth := 0 }

/-- The mark, and the state. -/
def speculateBegin (s : State) : ℕ × State :=
  (s.held.length, { s with speculationDepth := s.speculationDepth + 1 })

def speculateEnd (s : State) (mark : ℕ) (keep : Bool) : State :=
  let s := if keep then s else s.dropHeld mark
  let s := { s with speculationDepth := s.speculationDepth - 1 }
  if s.speculationDepth = 0 then s.flushHeld else s

def error (s : State) (d : HeldDiag) : State :=
  if s.speculationDepth > 0 then { s with held := s.held ++ [d] } else s.report d

/-- What has been reported when the call does not return. -/
def fatal (s : State) (d : HeldDiag) : State := s.flushHeld.report d

end State

inductive Call where
  | speculateBegin
  | error (d : HeldDiag)
  | speculateEnd (keep : Bool)
  | fatal (d : HeldDiag)
  deriving DecidableEq

/-- With `n` speculations open, every end has a speculation to end, and a fatal is the last call. -/
def ProperlyNested : ℕ → List Call → Prop
  | _, [] => True
  | n, .speculateBegin :: cs => ProperlyNested (n + 1) cs
  | n, .error _ :: cs => ProperlyNested n cs
  | 0, .speculateEnd _ :: _ => False
  | n + 1, .speculateEnd _ :: cs => ProperlyNested n cs
  | _, .fatal _ :: cs => cs = []

/-- The calls in order. `marks` are those of the open speculations, the innermost first; a
speculation is ended with its own. -/
def run (s : State) (marks : List ℕ) : List Call → Option State
  | [] => some s
  | .speculateBegin :: cs => run s.speculateBegin.2 (s.speculateBegin.1 :: marks) cs
  | .error d :: cs => run (s.error d) marks cs
  | .speculateEnd keep :: cs =>
    match marks with
    | [] => none
    | mark :: marks => run (s.speculateEnd mark keep) marks cs
  | .fatal d :: _ => some (s.fatal d)

def Call.isFatal : Call → Bool
  | .fatal _ => true
  | _ => false

/-- How the speculations that are open now end, the innermost first. The next `k` ends belong to
speculations that begin later. -/
def ends : ℕ → List Call → List Bool
  | _, [] => []
  | k, .speculateBegin :: cs => ends (k + 1) cs
  | 0, .speculateEnd keep :: cs => keep :: ends 0 cs
  | k + 1, .speculateEnd _ :: cs => ends k cs
  | k, .error _ :: cs | k, .fatal _ :: cs => ends k cs

/-- Whether `n` speculations that end so are all kept, or held up to a fatal. -/
def allKept (n : ℕ) (closing : List Bool) (fatal : Bool) : Bool :=
  closing.all id && (closing.length = n || fatal)

/-- Whether an error raised inside `n` speculations is to be reported. -/
def isReported (n : ℕ) (later : List Call) : Bool :=
  allKept n (ends 0 later) (later.any Call.isFatal)

/-- The errors to be reported, in the order in which they are raised. -/
def toReport : ℕ → List Call → List HeldDiag
  | _, [] => []
  | n, .speculateBegin :: cs => toReport (n + 1) cs
  | n, .speculateEnd _ :: cs => toReport (n - 1) cs
  | n, .error d :: cs => if isReported n cs then d :: toReport n cs else toReport n cs
  | _, .fatal d :: _ => [d]

/-- All errors of the calls, in order. -/
def raised : List Call → List HeldDiag
  | [] => []
  | .error d :: cs | .fatal d :: cs => d :: raised cs
  | .speculateBegin :: cs | .speculateEnd _ :: cs => raised cs

theorem toReport_sublist (n : ℕ) (cs : List Call) : (toReport n cs).Sublist (raised cs) := by
  induction cs generalizing n with
  | nil => exact .slnil
  | cons c cs ih =>
    cases c with
    | speculateBegin => exact ih (n + 1)
    | speculateEnd keep => exact ih (n - 1)
    | fatal d => exact (List.nil_sublist _).cons_cons d
    | error d =>
      rw [toReport]
      split
      · exact (ih n).cons_cons d
      · exact (ih n).cons d

section Buffer
variable {s : State}

theorem foldl_report (ds : List HeldDiag) (s : State) :
    ds.foldl State.report s =
      { s with reported := s.reported ++ ds.map (resolved s.filename),
               errorCount := s.errorCount + ds.length } := by
  induction ds generalizing s with
  | nil => simp
  | cons d ds ih =>
    rw [List.foldl_cons, ih]
    simp [State.report]
    omega

/-- What the open speculations hold, by the speculation, the innermost first. -/
def buffer (frames : List (List HeldDiag)) : List HeldDiag := frames.reverse.flatten

@[simp] theorem buffer_nil : buffer [] = [] := rfl

@[simp] theorem buffer_cons (f : List HeldDiag) (frames : List (List HeldDiag)) :
    buffer (f :: frames) = buffer frames ++ f := by
  simp [buffer]

def marks : List (List HeldDiag) → List ℕ
  | [] => []
  | _ :: frames => (buffer frames).length :: marks frames

/-- The buffer is that of the open speculations. -/
structure Holds (s : State) (frames : List (List HeldDiag)) : Prop where
  held : s.held = buffer frames
  depth : s.speculationDepth = frames.length

theorem holds_resetCounts (s : State) : Holds s.resetCounts [] where
  held := s.held.take_zero
  depth := rfl

variable {frames : List (List HeldDiag)}

theorem Holds.speculateBegin (h : Holds s frames) :
    s.speculateBegin.1 = (buffer frames).length ∧ Holds s.speculateBegin.2 ([] :: frames) := by
  refine ⟨congrArg List.length h.held, ?_, ?_⟩
  · simpa [State.speculateBegin] using h.held
  · simpa [State.speculateBegin] using h.depth

theorem flushHeld_eq (s : State) :
    s.flushHeld = { s with reported := s.reported ++ s.held.map (resolved s.filename),
                           errorCount := s.errorCount + s.held.length, held := [],
                           speculationDepth := 0 } := by
  rw [State.flushHeld, foldl_report]
  simp [State.dropHeld]

theorem Holds.error_outside (h : Holds s []) (d : HeldDiag) : s.error d = s.report d := by
  have hdepth := h.depth
  rw [State.error, if_neg (by simp [hdepth])]

theorem Holds.error_inside {f : List HeldDiag} (h : Holds s (f :: frames)) (d : HeldDiag) :
    s.error d = { s with held := s.held ++ [d] } ∧
      Holds (s.error d) ((f ++ [d]) :: frames) := by
  have hdepth := h.depth
  have herror : s.error d = { s with held := s.held ++ [d] } := by
    rw [State.error, if_pos]
    rw [hdepth, List.length_cons]
    omega
  refine ⟨herror, ?_, ?_⟩
  · rw [herror]
    simp [h.held]
  · rw [herror]
    simpa using hdepth

/-- What an end keeps of the innermost speculation. -/
def keptPart (keep : Bool) (f : List HeldDiag) : List HeldDiag := if keep then f else []

theorem Holds.ended {f : List HeldDiag} (h : Holds s (f :: frames)) (keep : Bool) :
    (if keep then s else s.dropHeld (buffer frames).length) =
      { s with held := buffer frames ++ keptPart keep f } := by
  have hheld := h.held
  rw [buffer_cons] at hheld
  cases keep with
  | true => simp [keptPart, ← hheld]
  | false =>
    change s.dropHeld _ = { s with held := buffer frames ++ [] }
    rw [State.dropHeld, hheld, List.take_left, List.append_nil]

/-- The outermost speculation ends, and what is left of it is reported. -/
theorem Holds.speculateEnd_outermost {f : List HeldDiag} (h : Holds s [f]) (keep : Bool) :
    s.speculateEnd 0 keep =
      { s with reported := s.reported ++ (keptPart keep f).map (resolved s.filename),
               errorCount := s.errorCount + (keptPart keep f).length, held := [],
               speculationDepth := 0 } := by
  have hended := h.ended keep
  have hdepth : s.speculationDepth = 1 := h.depth
  rw [buffer_nil, List.length_nil, List.nil_append] at hended
  unfold State.speculateEnd
  rw [hended]
  dsimp only
  rw [if_pos (by omega), flushHeld_eq]

/-- An inner speculation ends, and what is left of it is held for the one around it. -/
theorem Holds.speculateEnd_inner {f g : List HeldDiag} (h : Holds s (f :: g :: frames))
    (keep : Bool) :
    s.speculateEnd (buffer (g :: frames)).length keep =
      { s with held := buffer ((g ++ keptPart keep f) :: frames),
               speculationDepth := frames.length + 1 } := by
  have hended := h.ended keep
  have hdepth := h.depth
  simp only [List.length_cons] at hdepth
  unfold State.speculateEnd
  rw [hended]
  dsimp only
  rw [if_neg (by omega), hdepth]
  simp

end Buffer

/-- What is to be reported of what the open speculations hold, the outermost first. -/
def survivors : List (List HeldDiag) → List Bool → Bool → List HeldDiag
  | [], _, _ => []
  | f :: frames, closing, fatal =>
    survivors frames closing.tail fatal ++
      if allKept (frames.length + 1) closing fatal then f else []

theorem ends_succ (k : ℕ) (cs : List Call) : ends (k + 1) cs = (ends k cs).tail := by
  induction cs generalizing k with
  | nil => rfl
  | cons c cs ih =>
    cases c with
    | speculateBegin => exact ih (k + 1)
    | error d => exact ih k
    | fatal d => exact ih k
    | speculateEnd keep =>
      cases k with
      | zero => rfl
      | succ k => exact ih k

theorem length_ends_le {n : ℕ} {cs : List Call} (h : ProperlyNested n cs) :
    (ends 0 cs).length ≤ n := by
  induction cs generalizing n with
  | nil => exact Nat.zero_le n
  | cons c cs ih =>
    cases c with
    | speculateBegin =>
      have := ih (n := n + 1) h
      change (ends 1 cs).length ≤ n
      rw [ends_succ, List.length_tail]
      omega
    | error d => exact ih (n := n) h
    | fatal d =>
      cases (show cs = [] from h)
      exact Nat.zero_le n
    | speculateEnd keep =>
      cases n with
      | zero => exact h.elim
      | succ n => exact Nat.succ_le_succ (ih (n := n) h)

theorem survivors_fatal (frames : List (List HeldDiag)) :
    survivors frames [] true = buffer frames := by
  induction frames with
  | nil => rfl
  | cons f frames ih =>
    rw [survivors, List.tail_nil, ih, buffer_cons]
    simp [allKept]

theorem survivors_open (frames : List (List HeldDiag)) : survivors frames [] false = [] := by
  induction frames with
  | nil => rfl
  | cons f frames ih =>
    rw [survivors, List.tail_nil, ih]
    simp [allKept]

/-- The state a run leaves, and what it has reported and counted. -/
def Reports (filename : String) (s s' : State) (ds : List HeldDiag) : Prop :=
  s'.reported = s.reported ++ ds.map (resolved filename) ∧
    s'.errorCount = s.errorCount + ds.length

theorem Reports.trans {filename : String} {s s' s'' : State} {ds ds' : List HeldDiag}
    (h : Reports filename s s' ds) (h' : Reports filename s' s'' ds') :
    Reports filename s s'' (ds ++ ds') := by
  refine ⟨?_, ?_⟩
  · rw [h'.1, h.1, List.map_append, List.append_assoc]
  · rw [h'.2, h.2, List.length_append, Nat.add_assoc]

section Runs
variable {cs : List Call} {s : State} {frames : List (List HeldDiag)}

/-- What a run that starts with `frames` held is to report. -/
def due (frames : List (List HeldDiag)) (cs : List Call) : List HeldDiag :=
  survivors frames (ends 0 cs) (cs.any Call.isFatal) ++ toReport frames.length cs

theorem due_speculateBegin : due frames (.speculateBegin :: cs) = due ([] :: frames) cs := by
  have hends : ends 0 (.speculateBegin :: cs) = (ends 0 cs).tail := ends_succ 0 cs
  have hfatal : (Call.speculateBegin :: cs).any Call.isFatal = cs.any Call.isFatal := rfl
  rw [due, due, hends, hfatal, survivors, ite_self, List.append_nil, toReport, List.length_cons]

theorem due_error_outside (hn : ProperlyNested 0 cs) (d : HeldDiag) :
    due [] (.error d :: cs) = d :: due [] cs := by
  have hends : ends 0 cs = [] := List.length_eq_zero_iff.mp (Nat.le_zero.mp (length_ends_le hn))
  have hreported : isReported 0 cs = true := by simp [isReported, allKept, hends]
  simp [due, survivors, toReport, hreported]

theorem due_cons (f : List HeldDiag) :
    due (f :: frames) cs =
      survivors frames (ends 0 cs).tail (cs.any Call.isFatal) ++
        (if isReported (frames.length + 1) cs then f else []) ++ toReport (frames.length + 1) cs :=
  rfl

theorem due_error_inside {f : List HeldDiag} (d : HeldDiag) :
    due (f :: frames) (.error d :: cs) = due ((f ++ [d]) :: frames) cs := by
  have hends : ends 0 (.error d :: cs) = ends 0 cs := rfl
  have hfatal : (Call.error d :: cs).any Call.isFatal = cs.any Call.isFatal := rfl
  have hreported : isReported (frames.length + 1) (.error d :: cs) =
      isReported (frames.length + 1) cs := rfl
  rw [due_cons, due_cons, hends, hfatal, hreported, toReport]
  by_cases hkept : isReported (frames.length + 1) cs = true <;> simp [hkept]

theorem due_speculateEnd_outermost {f : List HeldDiag} (hn : ProperlyNested 0 cs) (keep : Bool) :
    due [f] (.speculateEnd keep :: cs) = keptPart keep f ++ due [] cs := by
  have hends : ends 0 cs = [] := List.length_eq_zero_iff.mp (Nat.le_zero.mp (length_ends_le hn))
  cases keep <;> simp [due, ends, hends, survivors, allKept, toReport, keptPart]

theorem due_speculateEnd_inner {f g : List HeldDiag} (keep : Bool) :
    due (f :: g :: frames) (.speculateEnd keep :: cs) =
      due ((g ++ keptPart keep f) :: frames) cs := by
  have hfatal : (Call.speculateEnd keep :: cs).any Call.isFatal = cs.any Call.isFatal := rfl
  have hends : ends 0 (.speculateEnd keep :: cs) = keep :: ends 0 cs := rfl
  have hkept : allKept (frames.length + 1 + 1) (keep :: ends 0 cs) (cs.any Call.isFatal) =
      (keep && allKept (frames.length + 1) (ends 0 cs) (cs.any Call.isFatal)) := by
    simp [allKept, Bool.and_assoc]
  simp only [due, hfatal, hends, hkept, survivors, toReport, List.length_cons, List.tail_cons,
    Nat.add_sub_cancel]
  cases keep <;> cases allKept (frames.length + 1) (ends 0 cs) (cs.any Call.isFatal) <;>
    simp [keptPart]

theorem due_fatal (d : HeldDiag) : due frames [.fatal d] = buffer frames ++ [d] := by
  change survivors frames [] true ++ [d] = buffer frames ++ [d]
  rw [survivors_fatal]

/-- A run reports what is due, and counts it. -/
theorem run_reports (h : Holds s frames) (hn : ProperlyNested frames.length cs) :
    ∃ s', run s (marks frames) cs = some s' ∧ Reports s.filename s s' (due frames cs) := by
  induction cs generalizing s frames with
  | nil => exact ⟨s, rfl, by simp [Reports, due, ends, survivors_open, toReport]⟩
  | cons c cs ih =>
    cases c with
    | speculateBegin =>
      obtain ⟨hmark, hholds⟩ := h.speculateBegin
      obtain ⟨s', hrun, hreports⟩ := ih hholds hn
      rw [run, hmark, due_speculateBegin]
      exact ⟨s', hrun, hreports⟩
    | error d =>
      cases frames with
      | nil =>
        have herror := h.error_outside d
        obtain ⟨s', hrun, hreports⟩ := ih (s := s.report d) ⟨h.held, h.depth⟩ hn
        have hreport : Reports s.filename s (s.report d) [d] := ⟨rfl, rfl⟩
        rw [run, herror, due_error_outside (show ProperlyNested 0 cs from hn)]
        exact ⟨s', hrun, hreport.trans hreports⟩
      | cons f frames =>
        obtain ⟨herror, hholds⟩ := h.error_inside d
        obtain ⟨s', hrun, hreports⟩ := ih hholds hn
        rw [herror] at hreports
        rw [run, due_error_inside]
        exact ⟨s', hrun, hreports⟩
    | fatal d =>
      cases (show cs = [] from hn)
      refine ⟨s.fatal d, rfl, ?_⟩
      rw [due_fatal, State.fatal, flushHeld_eq, h.held]
      exact ⟨by simp [State.report], by simp [State.report, Nat.add_assoc]⟩
    | speculateEnd keep =>
      match frames with
      | [] => exact hn.elim
      | [f] =>
        have hended := h.speculateEnd_outermost keep
        obtain ⟨s', hrun, hreports⟩ := @ih (s.speculateEnd 0 keep) []
          (by rw [hended]; exact ⟨rfl, rfl⟩) hn
        have hreport : Reports s.filename s (s.speculateEnd 0 keep) (keptPart keep f) := by
          rw [hended]
          exact ⟨rfl, rfl⟩
        refine ⟨s', hrun, ?_⟩
        rw [due_speculateEnd_outermost hn]
        apply hreport.trans
        rw [hended] at hreports ⊢
        exact hreports
      | f :: g :: frames =>
        have hended := h.speculateEnd_inner keep
        obtain ⟨s', hrun, hreports⟩ := @ih (s.speculateEnd (buffer (g :: frames)).length keep)
          ((g ++ keptPart keep f) :: frames) (by rw [hended]; exact ⟨rfl, rfl⟩) hn
        refine ⟨s', hrun, ?_⟩
        rw [due_speculateEnd_inner]
        rw [hended] at hreports
        exact hreports

end Runs

/-- From a reset state, a properly nested sequence of calls reports the errors that were raised
outside any speculation or in speculations that were all kept, with those still held at a fatal,
once each and in the order in which they were raised. The count is that of the errors reported. -/
theorem speculation_reports_exactly (s : State) {cs : List Call} (hn : ProperlyNested 0 cs) :
    ∃ s', run s.resetCounts [] cs = some s' ∧
      s'.reported = s.reported ++ (toReport 0 cs).map (resolved s.filename) ∧
      (toReport 0 cs).Sublist (raised cs) ∧ s'.errorCount = (toReport 0 cs).length := by
  obtain ⟨s', hrun, hreported, hcount⟩ := run_reports (holds_resetCounts s) hn
  exact ⟨s', hrun, hreported, toReport_sublist 0 cs, hcount.trans (Nat.zero_add _)⟩

/-- An error of a kept speculation inside one that is given up, and an error after both. -/
def keptInsideDropped : List Call :=
  [.speculateBegin, .speculateBegin, .error ⟨⟨none, 1, 1⟩, "expected type"⟩, .speculateEnd true,
    .speculateEnd false, .error ⟨⟨none, 2, 5⟩, "expected expression"⟩]

theorem speculation_reports_exactly_dropped :
    ∃ s', run (State.resetCounts ⟨"main.fc", [], 0, [], 0⟩) [] keptInsideDropped = some s' ∧
      s'.reported = [⟨⟨some "main.fc", 2, 5⟩, "expected expression"⟩] ∧ s'.errorCount = 1 := by
  obtain ⟨s', hrun, hreported, -, hcount⟩ :=
    @speculation_reports_exactly ⟨"main.fc", [], 0, [], 0⟩ keptInsideDropped trivial
  exact ⟨s', hrun, hreported, hcount⟩

end FcLang.Diag
