import Mathlib.Tactic

/-!
# Functions that always call themselves

A function every path of which reaches a call of itself before it can return is
rejected. The check gives each expression the ways in which control can leave it. Next
to it stand the execution paths that make no such call, and with them what an answer
of the check is worth.
-/

namespace FcLang.Pass2

mutual

/-- Expressions of a checked body. A call carries the address of its result type. `value`
has every kind whose operands run, and then it completes; `lazy` is such a kind that may
leave out its second operand: `&&`, `||`, and an assertion with its message. Of a lambda, a
deferred expression, a static assertion and a parse error nothing runs in its place. -/
inductive Expr where
  | ident (name : String)
  | call (func : Expr) (args : List Expr) (ty : ℕ)
  | return (value : Option Expr)
  | break (value : Option Expr)
  | continue
  | block (stmts : List Expr)
  | if (cond thenBody : Expr) (elseBody : Option Expr)
  | match (subject : Expr) (arms : List MatchArm)
  | loop (body : List Expr)
  | for (iter : Expr) (rangeEnd : Option Expr) (body : List Expr)
  | guard (body : Expr)
  | unaryPostfix (question : Bool) (operand : Expr)
  | lazy (left : Expr) (right : Option Expr)
  | value (operands : List Expr)
  | notHere

inductive MatchArm where
  | mk (guard : Option Expr) (body : List Expr)

end

/-- A set of ways out. -/
structure Flow where
  complete : Bool
  ret : Bool
  selfRec : Bool
  brk : Bool
  cont : Bool
  deriving DecidableEq, Repr

namespace Flow

def empty : Flow := ⟨false, false, false, false, false⟩

def union (f g : Flow) : Flow :=
  ⟨f.complete || g.complete, f.ret || g.ret, f.selfRec || g.selfRec, f.brk || g.brk,
    f.cont || g.cont⟩

/-- Of the ways out, those that evaluating an operand opens. -/
def exits (f : Flow) : Flow := { f with complete := false, selfRec := false }

end Flow

def completes : Flow := { Flow.empty with complete := true }

/-- A call by the function's own name whose type is the return type of the function. -/
def srIsSelfCall (self : String) (ph : ℕ) (func : Expr) (ty : ℕ) : Bool :=
  match func with
  | .ident name => name = self && ty = ph
  | _ => false

section Check
variable (self : String) (ph : ℕ)

mutual

def srFlow : Expr → Flow
  | .ident _ => completes
  | .call func args ty =>
    (if srIsSelfCall self ph func ty then { Flow.empty with selfRec := true }
      else completes).union ((srFlow func).exits.union (srOperandExits args))
  | .return value =>
    let vf := srFlowOption value
    if vf.selfRec && !vf.complete then { Flow.empty with selfRec := true }
    else { Flow.empty with ret := true }
  | .break value => { Flow.empty with brk := true }.union (srFlowOption value).exits
  | .continue => { Flow.empty with cont := true }
  | .block stmts => srFlowBlock stmts
  | .if cond thenBody elseBody =>
    ((srFlow thenBody).union (srFlowOption elseBody)).union (srFlow cond).exits
  | .match subject arms =>
    let acc := (srFlowArms arms).union (srFlow subject).exits
    if acc ≠ Flow.empty then acc else completes
  | .loop body =>
    let f := srFlowBlock body
    { Flow.empty with ret := f.ret, selfRec := f.selfRec, complete := f.brk }
  | .for iter rangeEnd body =>
    ((completes.union { Flow.empty with ret := (srFlowBlock body).ret }).union
      (srFlow iter).exits).union (srFlowOption rangeEnd).exits
  | .guard body => srFlow body
  | .unaryPostfix question operand =>
    (completes.union (srFlow operand).exits).union { Flow.empty with ret := question }
  | .lazy left right => completes.union ((srFlow left).exits.union (srFlowOption right).exits)
  | .value operands => completes.union (srOperandExits operands)
  | .notHere => completes

/-- Nothing in the place of an expression completes. -/
def srFlowOption : Option Expr → Flow
  | none => completes
  | some e => srFlow e

def srOperandExits : List Expr → Flow
  | [] => Flow.empty
  | e :: es => (srFlow e).exits.union (srOperandExits es)

def srFlowBlock : List Expr → Flow
  | [] => completes
  | e :: es =>
    let f := srFlow e
    if f.complete then { f with complete := false }.union (srFlowBlock es) else f

/-- The bodies of the arms. -/
def srFlowArms : List MatchArm → Flow
  | [] => Flow.empty
  | .mk _ body :: arms => (srFlowBlock body).union (srFlowArms arms)

end

end Check

/-- How a path ends. -/
inductive Out where
  | complete | ret | brk | cont
  deriving DecidableEq, Repr

/-- What runs: an expression, some expressions one after the other, what may be absent, or the
arms of a match, of which one is taken. -/
inductive Code where
  | expr (e : Expr)
  | seq (es : List Expr)
  | option (e : Option Expr)
  | arms (arms : List MatchArm)

section Paths
variable (self : String) (ph : ℕ)

/-- The execution paths that make no call of the function itself. Any branch may be taken, an
operator evaluates its operands from left to right, and `x?` may fail. A path that leaves in
the guard of an arm or in the value of a `return` counts only if `hidden` does. -/
inductive Leaves (hidden : Prop) : Code → Out → Prop where
  | ident {name} : Leaves hidden (.expr (.ident name)) .complete
  | notHere : Leaves hidden (.expr .notHere) .complete
  | value {es o} (h : Leaves hidden (.seq es) o) : Leaves hidden (.expr (.value es)) o
  | call {func args ty} (other : srIsSelfCall self ph func ty = false)
      (h : Leaves hidden (.seq (func :: args)) .complete) :
      Leaves hidden (.expr (.call func args ty)) .complete
  | callExit {func args ty o} (h : Leaves hidden (.seq (func :: args)) o) (exit : o ≠ .complete) :
      Leaves hidden (.expr (.call func args ty)) o
  | ret {value} (h : Leaves hidden (.option value) .complete) :
      Leaves hidden (.expr (.return value)) .ret
  | retExit {value o} (h : Leaves hidden (.option value) o) (exit : o ≠ .complete)
      (seen : hidden) : Leaves hidden (.expr (.return value)) o
  | brk {value} (h : Leaves hidden (.option value) .complete) :
      Leaves hidden (.expr (.break value)) .brk
  | brkExit {value o} (h : Leaves hidden (.option value) o) (exit : o ≠ .complete) :
      Leaves hidden (.expr (.break value)) o
  | cont : Leaves hidden (.expr .continue) .cont
  | block {stmts o} (h : Leaves hidden (.seq stmts) o) : Leaves hidden (.expr (.block stmts)) o
  | ifExit {cond thenBody elseBody o} (h : Leaves hidden (.expr cond) o) (exit : o ≠ .complete) :
      Leaves hidden (.expr (.if cond thenBody elseBody)) o
  | ifThen {cond thenBody elseBody o} (hcond : Leaves hidden (.expr cond) .complete)
      (h : Leaves hidden (.expr thenBody) o) : Leaves hidden (.expr (.if cond thenBody elseBody)) o
  | ifElse {cond thenBody elseBody o} (hcond : Leaves hidden (.expr cond) .complete)
      (h : Leaves hidden (.option elseBody) o) :
      Leaves hidden (.expr (.if cond thenBody elseBody)) o
  | matchExit {subject arms o} (h : Leaves hidden (.expr subject) o) (exit : o ≠ .complete) :
      Leaves hidden (.expr (.match subject arms)) o
  | matchArm {subject arms o} (hsubject : Leaves hidden (.expr subject) .complete)
      (h : Leaves hidden (.arms arms) o) : Leaves hidden (.expr (.match subject arms)) o
  | loopRet {body} (h : Leaves hidden (.seq body) .ret) : Leaves hidden (.expr (.loop body)) .ret
  | loopBreak {body} (h : Leaves hidden (.seq body) .brk) :
      Leaves hidden (.expr (.loop body)) .complete
  | loopAgain {body o o'} (hbody : Leaves hidden (.seq body) o')
      (again : o' = .complete ∨ o' = .cont) (h : Leaves hidden (.expr (.loop body)) o) :
      Leaves hidden (.expr (.loop body)) o
  | forExit {iter rangeEnd body o} (h : Leaves hidden (.expr iter) o) (exit : o ≠ .complete) :
      Leaves hidden (.expr (.for iter rangeEnd body)) o
  | forEndExit {iter rangeEnd body o} (hiter : Leaves hidden (.expr iter) .complete)
      (h : Leaves hidden (.option rangeEnd) o) (exit : o ≠ .complete) :
      Leaves hidden (.expr (.for iter rangeEnd body)) o
  | forDone {iter rangeEnd body} (hiter : Leaves hidden (.expr iter) .complete)
      (hend : Leaves hidden (.option rangeEnd) .complete) :
      Leaves hidden (.expr (.for iter rangeEnd body)) .complete
  | forRet {iter rangeEnd body} (hiter : Leaves hidden (.expr iter) .complete)
      (hend : Leaves hidden (.option rangeEnd) .complete) (h : Leaves hidden (.seq body) .ret) :
      Leaves hidden (.expr (.for iter rangeEnd body)) .ret
  | guard {body o} (h : Leaves hidden (.expr body) o) : Leaves hidden (.expr (.guard body)) o
  | unary {question operand o} (h : Leaves hidden (.expr operand) o) :
      Leaves hidden (.expr (.unaryPostfix question operand)) o
  | fails {operand} (h : Leaves hidden (.expr operand) .complete) :
      Leaves hidden (.expr (.unaryPostfix true operand)) .ret
  | lazyLeft {left right o} (h : Leaves hidden (.expr left) o) :
      Leaves hidden (.expr (.lazy left right)) o
  | lazyRight {left right o} (hleft : Leaves hidden (.expr left) .complete)
      (h : Leaves hidden (.option right) o) : Leaves hidden (.expr (.lazy left right)) o
  | seqNil : Leaves hidden (.seq []) .complete
  | seqExit {e es o} (h : Leaves hidden (.expr e) o) (exit : o ≠ .complete) :
      Leaves hidden (.seq (e :: es)) o
  | seqNext {e es o} (he : Leaves hidden (.expr e) .complete) (h : Leaves hidden (.seq es) o) :
      Leaves hidden (.seq (e :: es)) o
  | optionNone : Leaves hidden (.option none) .complete
  | optionSome {e o} (h : Leaves hidden (.expr e) o) : Leaves hidden (.option (some e)) o
  | armSkip {arm arms o} (h : Leaves hidden (.arms arms) o) : Leaves hidden (.arms (arm :: arms)) o
  | armBody {guard body arms o} (hguard : Leaves hidden (.option guard) .complete)
      (h : Leaves hidden (.seq body) o) : Leaves hidden (.arms (.mk guard body :: arms)) o
  | guardExit {guard body arms o} (h : Leaves hidden (.option guard) o) (exit : o ≠ .complete)
      (seen : hidden) : Leaves hidden (.arms (.mk guard body :: arms)) o

end Paths

def Flow.has (f : Flow) : Out → Bool
  | .complete => f.complete
  | .ret => f.ret
  | .brk => f.brk
  | .cont => f.cont

namespace Flow
variable {f g : Flow} {o : Out}

@[simp] theorem has_union : (f.union g).has o = (f.has o || g.has o) := by
  cases o <;> rfl

theorem left (h : f.has o = true) : (f.union g).has o = true := by
  rw [has_union, h, Bool.true_or]

theorem right (h : g.has o = true) : (f.union g).has o = true := by
  rw [has_union, h, Bool.or_true]

theorem has_exits (h : o ≠ .complete) : f.exits.has o = f.has o := by
  cases o <;> first | rfl | exact absurd rfl h

theorem exit (ho : o ≠ .complete) (h : f.has o = true) : f.exits.has o = true :=
  (has_exits ho).trans h

/-- What an operator does whose operand goes one of these ways. -/
theorem completes_or_exits (h : f.has o = true) : (completes.union f.exits).has o = true := by
  by_cases ho : o = .complete
  · subst ho
    rfl
  · exact right (exit ho h)

theorem ne_empty (h : f.has o = true) : f ≠ empty := by
  rintro rfl
  cases o <;> cases h

end Flow

def Code.flow (self : String) (ph : ℕ) : Code → Flow
  | .expr e => srFlow self ph e
  | .seq es => srFlowBlock self ph es
  | .option e => srFlowOption self ph e
  | .arms l => srFlowArms self ph l

section Seen
variable {self : String} {ph : ℕ} {o : Out}

-- this generates the equations before the lemmas that all use them
attribute [local simp] srFlow

/-- Operands have the exits that the same expressions have as statements. -/
theorem operandExits_of_block (ho : o ≠ .complete) (es : List Expr)
    (h : (srFlowBlock self ph es).has o = true) : (srOperandExits self ph es).has o = true := by
  induction es with
  | nil => cases o <;> first | exact absurd rfl ho | cases h
  | cons e es ih =>
    rw [srOperandExits]
    rw [srFlowBlock] at h
    split_ifs at h with hcomplete
    · rw [Flow.has_union, Bool.or_eq_true] at h
      obtain hhead | htail := h
      · refine Flow.left (Flow.exit ho ?_)
        cases o <;> first | exact absurd rfl ho | exact hhead
      · exact Flow.right (ih htail)
    · exact Flow.left (Flow.exit ho h)

theorem value_flow {es : List Expr} (h : (srFlowBlock self ph es).has o = true) :
    (srFlow self ph (.value es)).has o = true := by
  rw [srFlow]
  by_cases ho : o = .complete
  · subst ho
    rfl
  · exact Flow.right (operandExits_of_block ho es h)

theorem callExit_flow {func : Expr} {args : List Expr} {ty : ℕ} (ho : o ≠ .complete)
    (h : (srFlowBlock self ph (func :: args)).has o = true) :
    (srFlow self ph (.call func args ty)).has o = true := by
  have hoperands := operandExits_of_block ho (func :: args) h
  rw [srOperandExits] at hoperands
  rw [srFlow]
  exact Flow.right hoperands

theorem ret_flow {value : Option Expr} (h : (srFlowOption self ph value).complete = true) :
    (srFlow self ph (.return value)).has .ret = true := by
  simp only [srFlow, h, Bool.not_true, Bool.and_false, Bool.false_eq_true, if_false]
  rfl

theorem match_flow {subject : Expr} {arms : List MatchArm}
    (h : ((srFlowArms self ph arms).union (srFlow self ph subject).exits).has o = true) :
    (srFlow self ph (.match subject arms)).has o = true := by
  simp only [srFlow]
  rwa [if_pos (Flow.ne_empty h)]

theorem seqExit_flow {e : Expr} {es : List Expr} (ho : o ≠ .complete)
    (h : (srFlow self ph e).has o = true) : (srFlowBlock self ph (e :: es)).has o = true := by
  simp only [srFlowBlock]
  split_ifs
  · refine Flow.left ?_
    cases o <;> first | exact absurd rfl ho | exact h
  · exact h

theorem seqNext_flow {e : Expr} {es : List Expr} (he : (srFlow self ph e).complete = true)
    (h : (srFlowBlock self ph es).has o = true) :
    (srFlowBlock self ph (e :: es)).has o = true := by
  simp only [srFlowBlock]
  rw [if_pos he]
  exact Flow.right h

/-- A path that is not hidden is one of the ways out. -/
theorem Leaves.flow {code : Code} (h : Leaves self ph False code o) :
    (code.flow self ph).has o = true := by
  induction h with
  | ident | notHere | cont => simp only [Code.flow, srFlow]; rfl
  | seqNil => simp only [Code.flow, srFlowBlock]; rfl
  | optionNone => simp only [Code.flow, srFlowOption]; rfl
  | optionSome _ ih => simpa only [Code.flow, srFlowOption] using ih
  | block _ ih | guard _ ih => simpa only [Code.flow, srFlow] using ih
  | loopRet _ ih | loopBreak _ ih =>
    simp only [Code.flow, srFlow] at ih ⊢
    exact ih
  | loopAgain _ _ _ _ ih => exact ih
  | guardExit _ _ seen | retExit _ _ seen => exact seen.elim
  | value _ ih => exact value_flow ih
  | call other _ _ =>
    simp only [Code.flow, srFlow, other, Bool.false_eq_true, if_false]
    exact Flow.left rfl
  | callExit _ exit ih => exact callExit_flow exit ih
  | ret _ ih => exact ret_flow ih
  | brk _ _ =>
    simp only [Code.flow, srFlow]
    exact Flow.left rfl
  | brkExit _ exit ih =>
    simp only [Code.flow, srFlow]
    exact Flow.right (Flow.exit exit ih)
  | ifExit _ exit ih =>
    simp only [Code.flow, srFlow]
    exact Flow.right (Flow.exit exit ih)
  | ifThen _ _ _ ih =>
    simp only [Code.flow, srFlow]
    exact Flow.left (Flow.left ih)
  | ifElse _ _ _ ih =>
    simp only [Code.flow, srFlow]
    exact Flow.left (Flow.right ih)
  | matchExit _ exit ih => exact match_flow (Flow.right (Flow.exit exit ih))
  | matchArm _ _ _ ih => exact match_flow (Flow.left ih)
  | forExit _ exit ih =>
    simp only [Code.flow, srFlow]
    exact Flow.left (Flow.right (Flow.exit exit ih))
  | forEndExit _ _ exit _ ih =>
    simp only [Code.flow, srFlow]
    exact Flow.right (Flow.exit exit ih)
  | forDone _ _ _ _ =>
    simp only [Code.flow, srFlow]
    exact Flow.left (Flow.left (Flow.left rfl))
  | forRet _ _ _ _ _ ih =>
    simp only [Code.flow, srFlow]
    exact Flow.left (Flow.left (Flow.right ih))
  | unary _ ih =>
    simp only [Code.flow, srFlow]
    exact Flow.left (Flow.completes_or_exits ih)
  | fails _ _ =>
    simp only [Code.flow, srFlow]
    exact Flow.right rfl
  | lazyLeft _ ih =>
    have hleft := Flow.completes_or_exits ih
    simp only [Code.flow, srFlow, Flow.has_union, Bool.or_eq_true] at hleft ⊢
    exact hleft.imp_right .inl
  | lazyRight _ _ _ ih =>
    have hright := Flow.completes_or_exits ih
    simp only [Code.flow, srFlow, Flow.has_union, Bool.or_eq_true] at hright ⊢
    exact hright.imp_right .inr
  | seqExit _ exit ih => exact seqExit_flow exit ih
  | seqNext _ _ ihe ih => exact seqNext_flow ihe ih
  | @armSkip arm arms o _ ih =>
    obtain ⟨guard, body⟩ := arm
    simp only [Code.flow, srFlowArms]
    exact Flow.right ih
  | armBody _ _ _ ih =>
    simp only [Code.flow, srFlowArms]
    exact Flow.left ih

end Seen

mutual

def ccfWalk (inLoop : Bool) : Expr → Bool
  | .ident _ => false
  | .call func args _ => ccfWalk inLoop func || ccfWalkList inLoop args
  | .return _ => true
  | .break value => !inLoop || ccfWalkOption inLoop value
  | .continue => !inLoop
  | .block stmts => ccfWalkList inLoop stmts
  | .if cond thenBody elseBody =>
    ccfWalk inLoop cond || ccfWalk inLoop thenBody || ccfWalkOption inLoop elseBody
  | .match subject arms => ccfWalk inLoop subject || ccfWalkArms inLoop arms
  | .loop body => ccfWalkList true body
  | .for iter rangeEnd body =>
    ccfWalk inLoop iter || ccfWalkOption inLoop rangeEnd || ccfWalkList true body
  | .guard body => ccfWalk inLoop body
  | .unaryPostfix question operand => question || ccfWalk inLoop operand
  | .lazy left right => ccfWalk inLoop left || ccfWalkOption inLoop right
  | .value operands => ccfWalkList inLoop operands
  -- a lambda is not searched; a deferred expression is refused if it has control flow
  | .notHere => false

def ccfWalkOption (inLoop : Bool) : Option Expr → Bool
  | none => false
  | some e => ccfWalk inLoop e

def ccfWalkList (inLoop : Bool) : List Expr → Bool
  | [] => false
  | e :: es => ccfWalk inLoop e || ccfWalkList inLoop es

def ccfWalkArms (inLoop : Bool) : List MatchArm → Bool
  | [] => false
  | .mk guard body :: arms =>
    ccfWalkOption inLoop guard || ccfWalkList inLoop body || ccfWalkArms inLoop arms

end

def exprContainsControlFlow (e : Expr) : Bool := ccfWalk false e

/-- The guard of the first arm, or the value of a `return`. -/
def Code.unread : Code → Option Expr
  | .expr (.return value) => value
  | .arms (.mk guard _ :: _) => guard
  | _ => none

section Places
variable (self : String) (ph : ℕ)

/-- Control that comes to the first comes to the second, a part of it, at once or after what
stands before it has completed without a call of the function itself. -/
inductive Leads : Code → Code → Prop where
  | value {es} : Leads (.expr (.value es)) (.seq es)
  | call {func args ty} : Leads (.expr (.call func args ty)) (.seq (func :: args))
  | ret {value} : Leads (.expr (.return value)) (.option value)
  | brk {value} : Leads (.expr (.break value)) (.option value)
  | block {stmts} : Leads (.expr (.block stmts)) (.seq stmts)
  | ifCond {cond thenBody elseBody} : Leads (.expr (.if cond thenBody elseBody)) (.expr cond)
  | ifThen {cond thenBody elseBody} (hcond : Leaves self ph False (.expr cond) .complete) :
      Leads (.expr (.if cond thenBody elseBody)) (.expr thenBody)
  | ifElse {cond thenBody elseBody} (hcond : Leaves self ph False (.expr cond) .complete) :
      Leads (.expr (.if cond thenBody elseBody)) (.option elseBody)
  | subject {subject arms} : Leads (.expr (.match subject arms)) (.expr subject)
  | arms {subject arms} (hsubject : Leaves self ph False (.expr subject) .complete) :
      Leads (.expr (.match subject arms)) (.arms arms)
  | loop {body} : Leads (.expr (.loop body)) (.seq body)
  | forIter {iter rangeEnd body} : Leads (.expr (.for iter rangeEnd body)) (.expr iter)
  | forEnd {iter rangeEnd body} (hiter : Leaves self ph False (.expr iter) .complete) :
      Leads (.expr (.for iter rangeEnd body)) (.option rangeEnd)
  | forBody {iter rangeEnd body} (hiter : Leaves self ph False (.expr iter) .complete)
      (hend : Leaves self ph False (.option rangeEnd) .complete) :
      Leads (.expr (.for iter rangeEnd body)) (.seq body)
  | guard {body} : Leads (.expr (.guard body)) (.expr body)
  | unary {question operand} : Leads (.expr (.unaryPostfix question operand)) (.expr operand)
  | lazyLeft {left right} : Leads (.expr (.lazy left right)) (.expr left)
  | lazyRight {left right} (hleft : Leaves self ph False (.expr left) .complete) :
      Leads (.expr (.lazy left right)) (.option right)
  | seqHead {e es} : Leads (.seq (e :: es)) (.expr e)
  | seqTail {e es} (he : Leaves self ph False (.expr e) .complete) :
      Leads (.seq (e :: es)) (.seq es)
  | optionSome {e} : Leads (.option (some e)) (.expr e)
  | armSkip {arm arms} : Leads (.arms (arm :: arms)) (.arms arms)
  | armGuard {guard body arms} : Leads (.arms (.mk guard body :: arms)) (.option guard)
  | armBody {guard body arms} (hguard : Leaves self ph False (.option guard) .complete) :
      Leads (.arms (.mk guard body :: arms)) (.seq body)

/-- Control that comes to the code can come to a guard or a value of a `return`. -/
def ComesTo (code : Code) (place : Expr) : Prop :=
  ∃ part, Relation.ReflTransGen (Leads self ph) code part ∧ part.unread = some place

/-- No guard and no value of a `return` that control can come to has an `x?`, a `return`, or a
`break` or `continue` that leads out of it. -/
def Contained (code : Code) : Prop :=
  ∀ place, ComesTo self ph code place → exprContainsControlFlow place = false

end Places

section Contained
variable {self : String} {ph : ℕ}

def Code.controlFlow (inLoop : Bool) : Code → Bool
  | .expr e => ccfWalk inLoop e
  | .seq es => ccfWalkList inLoop es
  | .option e => ccfWalkOption inLoop e
  | .arms l => ccfWalkArms inLoop l

/-- What contains no control flow completes, or goes on with the loop it stands in. -/
theorem Leaves.within {hidden : Prop} {code : Code} {o : Out} (h : Leaves self ph hidden code o)
    {inLoop : Bool} (hflow : code.controlFlow inLoop = false) :
    o = .complete ∨ inLoop = true ∧ o ≠ .ret := by
  induction h generalizing inLoop with
  | ident | notHere | seqNil | optionNone | loopBreak _ _ | forDone _ _ _ _ => exact .inl rfl
  | call _ _ _ => exact .inl rfl
  | ret _ _ => exact absurd hflow (by simp [Code.controlFlow, ccfWalk])
  | retExit _ _ _ _ => exact absurd hflow (by simp [Code.controlFlow, ccfWalk])
  | fails _ _ => exact absurd hflow (by simp [Code.controlFlow, ccfWalk])
  | brk _ _ =>
    simp only [Code.controlFlow, ccfWalk, Bool.or_eq_false_iff, Bool.not_eq_false'] at hflow
    exact .inr ⟨hflow.1, by decide⟩
  | cont =>
    simp only [Code.controlFlow, ccfWalk, Bool.not_eq_false'] at hflow
    exact .inr ⟨hflow, by decide⟩
  | loopRet _ ih =>
    obtain h | h := @ih true (by simpa [Code.controlFlow, ccfWalk] using hflow)
    · cases h
    · exact absurd rfl h.2
  | loopAgain _ _ _ _ ih => exact ih hflow
  | forRet _ _ _ _ _ ih =>
    simp only [Code.controlFlow, ccfWalk, Bool.or_eq_false_iff] at hflow
    obtain h | h := @ih true hflow.2
    · cases h
    · exact absurd rfl h.2
  | @armSkip arm arms o _ ih =>
    obtain ⟨guard, body⟩ := arm
    simp only [Code.controlFlow, ccfWalkArms, Bool.or_eq_false_iff] at hflow
    exact ih hflow.2
  | _ =>
    simp only [Code.controlFlow, ccfWalk, ccfWalkList, ccfWalkOption, ccfWalkArms,
      Bool.or_eq_false_iff] at *
    grind

theorem Leaves.completes {hidden : Prop} {e : Expr} {o : Out}
    (h : Leaves self ph hidden (.option (some e)) o) (hflow : exprContainsControlFlow e = false) :
    o = .complete := by
  cases h with
  | optionSome h => exact (h.within hflow).resolve_right fun hloop => Bool.false_ne_true hloop.1

theorem Contained.part {code part : Code} (h : Contained self ph code)
    (hlead : Leads self ph code part) : Contained self ph part :=
  fun place ⟨c, hreach, hunread⟩ => h place ⟨c, .head hlead hreach, hunread⟩

end Contained

section Reached
variable {self : String} {ph : ℕ}

theorem Leaves.mono {p q : Prop} (hpq : p → q) {code : Code} {o : Out}
    (h : Leaves self ph p code o) : Leaves self ph q code o := by
  induction h with
  | ident => exact .ident
  | notHere => exact .notHere
  | value _ ih => exact .value ih
  | call other _ ih => exact .call other ih
  | callExit _ exit ih => exact .callExit ih exit
  | ret _ ih => exact .ret ih
  | retExit _ exit seen ih => exact .retExit ih exit (hpq seen)
  | brk _ ih => exact .brk ih
  | brkExit _ exit ih => exact .brkExit ih exit
  | cont => exact .cont
  | block _ ih => exact .block ih
  | ifExit _ exit ih => exact .ifExit ih exit
  | ifThen _ _ ihcond ih => exact .ifThen ihcond ih
  | ifElse _ _ ihcond ih => exact .ifElse ihcond ih
  | matchExit _ exit ih => exact .matchExit ih exit
  | matchArm _ _ ihsubject ih => exact .matchArm ihsubject ih
  | loopRet _ ih => exact .loopRet ih
  | loopBreak _ ih => exact .loopBreak ih
  | loopAgain _ again _ ihbody ih => exact .loopAgain ihbody again ih
  | forExit _ exit ih => exact .forExit ih exit
  | forEndExit _ _ exit ihiter ih => exact .forEndExit ihiter ih exit
  | forDone _ _ ihiter ihend => exact .forDone ihiter ihend
  | forRet _ _ _ ihiter ihend ih => exact .forRet ihiter ihend ih
  | guard _ ih => exact .guard ih
  | unary _ ih => exact .unary ih
  | fails _ ih => exact .fails ih
  | lazyLeft _ ih => exact .lazyLeft ih
  | lazyRight _ _ ihleft ih => exact .lazyRight ihleft ih
  | seqNil => exact .seqNil
  | seqExit _ exit ih => exact .seqExit ih exit
  | seqNext _ _ ihe ih => exact .seqNext ihe ih
  | optionNone => exact .optionNone
  | optionSome _ ih => exact .optionSome ih
  | armSkip _ ih => exact .armSkip ih
  | armBody _ _ ihguard ih => exact .armBody ihguard ih
  | guardExit _ exit seen ih => exact .guardExit ih exit (hpq seen)

/-- A `return`, or a failing `x?`, of a part that control comes to leaves the whole. -/
theorem Leads.ret_of_part {code part : Code} (h : Leads self ph code part)
    (hpart : Leaves self ph True part .ret) : Leaves self ph True code .ret := by
  have exit : Out.ret ≠ .complete := by decide
  have all {code : Code} {o : Out} : Leaves self ph False code o → Leaves self ph True code o :=
    Leaves.mono False.elim
  cases h with
  | value => exact .value hpart
  | call => exact .callExit hpart exit
  | ret => exact .retExit hpart exit trivial
  | brk => exact .brkExit hpart exit
  | block => exact .block hpart
  | ifCond => exact .ifExit hpart exit
  | ifThen hcond => exact .ifThen (all hcond) hpart
  | ifElse hcond => exact .ifElse (all hcond) hpart
  | subject => exact .matchExit hpart exit
  | arms hsubject => exact .matchArm (all hsubject) hpart
  | loop => exact .loopRet hpart
  | forIter => exact .forExit hpart exit
  | forEnd hiter => exact .forEndExit (all hiter) hpart exit
  | forBody hiter hend => exact .forRet (all hiter) (all hend) hpart
  | guard => exact .guard hpart
  | unary => exact .unary hpart
  | lazyLeft => exact .lazyLeft hpart
  | lazyRight hleft => exact .lazyRight (all hleft) hpart
  | seqHead => exact .seqExit hpart exit
  | seqTail he => exact .seqNext (all he) hpart
  | optionSome => exact .optionSome hpart
  | armSkip => exact .armSkip hpart
  | armGuard => exact .guardExit hpart exit trivial
  | armBody hguard => exact .armBody (all hguard) hpart

theorem ret_of_unread {code : Code} {place : Expr} (hunread : code.unread = some place)
    (h : Leaves self ph True (.expr place) .ret) : Leaves self ph True code .ret := by
  match code with
  | .expr (.return value) =>
    cases (hunread : value = some place)
    exact .retExit (.optionSome h) (by decide) trivial
  | .arms (.mk guard _ :: _) =>
    cases (hunread : guard = some place)
    exact .guardExit (.optionSome h) (by decide) trivial

theorem ComesTo.ret {code : Code} {place : Expr} (h : ComesTo self ph code place)
    (hplace : Leaves self ph True (.expr place) .ret) : Leaves self ph True code .ret := by
  obtain ⟨part, hreach, hunread⟩ := h
  induction hreach using Relation.ReflTransGen.head_induction_on with
  | refl => exact ret_of_unread hunread hplace
  | head hlead _ ih => exact hlead.ret_of_part ih

end Reached

end FcLang.Pass2
