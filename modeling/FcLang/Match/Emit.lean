import FcLang.Match.Exhaustive
import FcLang.Match.PredicateExact

/-!
# The C of a match

`emit_match` writes a chain of `if` and `else` when no arm has a guard, with an
unconditional last arm, and otherwise one statement for each arm under a done
flag. Run on the object of the subject, it runs the body of the first arm that
matches and whose guard holds, unless that arm matches by a char literal of byte
128 or more: where plain `char` is signed, C takes the literal for a negative
number. Guards are functions of the bindings, and a body is known by its arm.
-/

namespace FcLang.Match

abbrev Env := List (String × CObj)

inductive Stmt where
  | declare (name : String) (path : Path)
  | ifCond (cond : List Cond) (thn els : List Stmt)
  | block (body : List Stmt)
  | ifNotDone (body : List Stmt)
  | ifGuard (arm : ℕ) (body : List Stmt)
  | body (arm : ℕ)
  | setDone
  | abort

/-- The names declared so far, `_matchdone`, and the bodies run with their names. -/
structure Frame where
  env : Env
  done : Bool
  ran : List (ℕ × Env)

def Frame.leave (outer : Frame) (r : Except Stop Frame) : Except Stop Frame :=
  r.map fun f => { f with env := outer.env }

section Execution
variable (charSigned : Bool) (guards : ℕ → Env → Bool) (o : CObj)

mutual
def exec : Stmt → Frame → Except Stop Frame
  | .declare name path, f =>
    match o.read path with
    | some c => .ok { f with env := f.env ++ [(name, c)] }
    | none => .error .undefined
  | .ifCond cond thn els, f =>
    match evalAll charSigned o cond with
    | some true => f.leave (execAll thn f)
    | some false => f.leave (execAll els f)
    | none => .error .undefined
  | .block body, f => f.leave (execAll body f)
  | .ifNotDone body, f => if f.done then .ok f else f.leave (execAll body f)
  | .ifGuard arm body, f => if guards arm f.env then f.leave (execAll body f) else .ok f
  | .body arm, f => .ok { f with ran := f.ran ++ [(arm, f.env)] }
  | .setDone, f => .ok { f with done := true }
  | .abort, _ => .error .abort

def execAll : List Stmt → Frame → Except Stop Frame
  | [], f => .ok f
  | s :: ss, f => (exec s f).bind (execAll ss)
end

end Execution

def bindStmts (p : Pat) (t : Ty) : List Stmt :=
  (emitPatBindings p [] t).map fun b => .declare b.1 b.2

def emitGuardedArm (t : Ty) (i : ℕ) (arm : Arm) : Stmt :=
  let run : List Stmt := [.body i, .setDone]
  let rest := bindStmts arm.pattern t ++ if arm.guarded then [.ifGuard i run] else run
  .ifNotDone
    [if patternHasPredicate arm.pattern then .ifCond (emitPatPredicate arm.pattern [] t) rest []
      else .block rest]

def emitGuarded (t : Ty) : ℕ → List Arm → List Stmt
  | _, [] => [.ifNotDone [.abort]]
  | i, arm :: arms => emitGuardedArm t i arm :: emitGuarded t (i + 1) arms

/-- The last arm is not tested, and arms after one without a predicate are dropped. -/
def emitChain (t : Ty) : ℕ → List Arm → List Stmt
  | _, [] => []
  | i, [arm] => [.block (bindStmts arm.pattern t ++ [.body i])]
  | i, arm :: arms =>
    if patternHasPredicate arm.pattern then
      [.ifCond (emitPatPredicate arm.pattern [] t) (bindStmts arm.pattern t ++ [.body i])
        (emitChain t (i + 1) arms)]
    else [.block (bindStmts arm.pattern t ++ [.body i])]

def emitMatch (t : Ty) (arms : List Arm) : List Stmt :=
  if arms.any (·.guarded) then emitGuarded t 0 arms else emitChain t 0 arms

/-- The bodies that the emitted match runs, each with the names in scope. -/
def runMatch (charSigned : Bool) (guards : ℕ → Env → Bool) (t : Ty) (arms : List Arm) (v : Val) :
    Except Stop (List (ℕ × Env)) :=
  (execAll charSigned guards (repr t v) (emitMatch t arms) ⟨[], false, []⟩).map Frame.ran

def armEnv (p : Pat) (t : Ty) (v : Val) : Env := (p.binds t v).map fun b => (b.1, repr b.2.1 b.2.2)

/-- The guard of the arm `i`, if it has one. -/
def Arm.passes (guards : ℕ → Env → Bool) (t : Ty) (v : Val) (i : ℕ) (arm : Arm) : Bool :=
  !arm.guarded || guards i (armEnv arm.pattern t v)

/-- The first arm that matches and whose guard holds, and the arms after it. -/
def firstArm (guards : ℕ → Env → Bool) (t : Ty) (v : Val) :
    ℕ → List Arm → Option (ℕ × Arm × List Arm)
  | _, [] => none
  | i, arm :: arms =>
    if arm.pattern.matches v && arm.passes guards t v i then some (i, arm, arms)
    else firstArm guards t v (i + 1) arms

section Runs
variable {charSigned : Bool} {guards : ℕ → Env → Bool} {t : Ty} {v : Val} {p : Pat} {f : Frame}
  {arm : Arm} {arms checked : List Arm} {i : ℕ}

theorem execAll_append {o : CObj} (ss ss' : List Stmt) (f : Frame) :
    execAll charSigned guards o (ss ++ ss') f =
      (execAll charSigned guards o ss f).bind (execAll charSigned guards o ss') := by
  induction ss generalizing f with
  | nil => rfl
  | cons s ss ih =>
    rw [List.cons_append, execAll, execAll]
    cases exec charSigned guards o s f with
    | error e => rfl
    | ok g => exact ih g

theorem execAll_singleton {o : CObj} (s : Stmt) :
    execAll charSigned guards o [s] f = exec charSigned guards o s f := by
  rw [execAll]
  cases exec charSigned guards o s f <;> rfl

theorem execAll_declares {o : CObj} {bs : List (String × Path)} {cs : List (String × Ty × Val)}
    (h : List.Forall₂ (Bound o) bs cs) (f : Frame) :
    execAll charSigned guards o (bs.map fun b => .declare b.1 b.2) f =
      .ok { f with env := f.env ++ cs.map fun c => (c.1, repr c.2.1 c.2.2) } := by
  induction h generalizing f with
  | nil => simp [execAll]
  | cons hb _ ih =>
    obtain ⟨hname, hread⟩ := hb
    rw [List.map_cons, execAll, exec, hread]
    simp [Except.bind, ih, hname]

/-- The bindings of a pattern that matches. -/
theorem execAll_bindStmts (ht : Typed false p t) (hv : HasTy false v t) (hm : p.matches v = true)
    (f : Frame) : execAll charSigned guards (repr t v) (bindStmts p t) f =
      .ok { f with env := f.env ++ armEnv p t v } :=
  execAll_declares (emitPatBindings_spec p ht hv rfl hm) f

theorem execAll_arm (ht : Typed false arm.pattern t) (hv : HasTy false v t)
    (hm : arm.pattern.matches v = true) (henv : f.env = []) :
    execAll charSigned guards (repr t v) (bindStmts arm.pattern t ++
        if arm.guarded then [.ifGuard i [.body i, .setDone]] else [.body i, .setDone]) f =
      .ok (if arm.passes guards t v i then
          ⟨armEnv arm.pattern t v, true, f.ran ++ [(i, armEnv arm.pattern t v)]⟩
        else { f with env := armEnv arm.pattern t v }) := by
  rw [execAll_append, execAll_bindStmts ht hv hm, henv, List.nil_append]
  cases hg : arm.guarded with
  | false => simp [Except.bind, execAll, exec, Arm.passes, hg]
  | true =>
    cases hp : guards i (armEnv arm.pattern t v) <;>
      simp [Except.bind, execAll, exec, Arm.passes, Frame.leave, Except.map, hg, hp]

/-- The statement that tests a pattern does what is under it where the C of the
pattern matches. -/
theorem exec_test {body els : List Stmt} (ht : Typed false arm.pattern t) (hv : HasTy false v t) :
    exec charSigned guards (repr t v) (if patternHasPredicate arm.pattern then
        .ifCond (emitPatPredicate arm.pattern [] t) body els else .block body) f =
      f.leave (execAll charSigned guards (repr t v)
        (if arm.pattern.matchesC charSigned v then body else els) f) := by
  have hpred : evalAll charSigned (repr t v) (emitPatPredicate arm.pattern [] t) =
      some (arm.pattern.matchesC charSigned v) := emitPatPredicate_spec arm.pattern _ _ _ ht hv rfl
  split
  · rw [exec, hpred]
    cases arm.pattern.matchesC charSigned v <;> rfl
  · rename_i hno
    rw [emit_of_no_predicate _ (by simpa using hno)] at hpred
    rw [exec, ← Option.some.inj hpred, if_pos rfl]

theorem exec_guardedArm (ht : Typed false arm.pattern t) (hv : HasTy false v t)
    (henv : f.env = []) (hdone : f.done = false) :
    exec charSigned guards (repr t v) (emitGuardedArm t i arm) f =
      .ok (if arm.pattern.matchesC charSigned v && arm.passes guards t v i then
          ⟨[], true, f.ran ++ [(i, armEnv arm.pattern t v)]⟩ else f) := by
  obtain ⟨env, done, ran⟩ := f
  obtain rfl : env = [] := henv
  obtain rfl : done = false := hdone
  rw [emitGuardedArm, exec, if_neg (by simp), execAll_singleton, exec_test ht hv]
  cases hm : arm.pattern.matchesC charSigned v with
  | false => rfl
  | true =>
    rw [if_pos rfl, execAll_arm ht hv (matches_of_matchesC _ hm) rfl]
    cases arm.passes guards t v i <;> rfl

/-- Once a body has run, the arms after it do nothing. -/
theorem execAll_done (hdone : f.done = true) :
    execAll charSigned guards (repr t v) (emitGuarded t i arms) f = .ok f := by
  induction arms generalizing i with
  | nil => simp [emitGuarded, execAll, exec, hdone, Except.bind]
  | cons arm arms ih =>
    rw [emitGuarded, execAll, emitGuardedArm, exec, if_pos hdone]
    exact ih

/-- The first arm that takes the value as far as C sees. -/
def firstArmC (charSigned : Bool) (guards : ℕ → Env → Bool) (t : Ty) (v : Val) :
    ℕ → List Arm → Option (ℕ × Arm)
  | _, [] => none
  | i, arm :: arms =>
    if arm.pattern.matchesC charSigned v && arm.passes guards t v i then some (i, arm)
    else firstArmC charSigned guards t v (i + 1) arms

theorem execAll_guarded (ht : ∀ arm ∈ arms, Typed false arm.pattern t) (hv : HasTy false v t)
    (henv : f.env = []) (hdone : f.done = false) :
    execAll charSigned guards (repr t v) (emitGuarded t i arms) f =
      match firstArmC charSigned guards t v i arms with
      | some (j, arm) => .ok ⟨[], true, f.ran ++ [(j, armEnv arm.pattern t v)]⟩
      | none => .error .abort := by
  induction arms generalizing i with
  | nil => simp [emitGuarded, execAll, exec, hdone, Except.bind, firstArmC, Frame.leave, Except.map]
  | cons arm arms ih =>
    obtain ⟨harm, hrest⟩ := List.forall_mem_cons.mp ht
    rw [emitGuarded, execAll, exec_guardedArm harm hv henv hdone, firstArmC]
    split
    · exact execAll_done rfl
    · exact ih hrest

theorem le_of_firstArmC {j : ℕ} (h : firstArmC charSigned guards t v i arms = some (j, arm)) :
    i ≤ j := by
  induction arms generalizing i with
  | nil => cases h
  | cons arm' arms ih =>
    rw [firstArmC] at h
    split at h
    · cases h
      exact le_rfl
    · exact Nat.le_of_succ_le (ih h)

/-- An arm that C sees match does match. -/
theorem firstArm_cases (charSigned : Bool) (guards : ℕ → Env → Bool) (t : Ty) (v : Val) (i : ℕ) (arm : Arm)
    (arms : List Arm) :
    (firstArm guards t v i (arm :: arms) = some (i, arm, arms) ∧
        arm.pattern.matches v = true ∧ arm.passes guards t v i = true) ∨
      (firstArm guards t v i (arm :: arms) = firstArm guards t v (i + 1) arms ∧
        (arm.pattern.matchesC charSigned v && arm.passes guards t v i) = false ∧
        (arm.pattern.matches v && arm.passes guards t v i) = false) := by
  rw [firstArm]
  cases htakes : arm.pattern.matches v && arm.passes guards t v i with
  | true => exact .inl ⟨rfl, Bool.and_eq_true_iff.mp htakes⟩
  | false =>
    refine .inr ⟨rfl, Bool.eq_false_iff.mpr fun h => ?_, rfl⟩
    obtain ⟨hm, hp⟩ := Bool.and_eq_true_iff.mp h
    rw [matches_of_matchesC _ hm, hp] at htakes
    cases htakes

/-- C finds the first arm exactly when it sees the arm match. -/
theorem firstArmC_of_seen {j : ℕ} {after : List Arm}
    (h : firstArm guards t v i arms = some (j, arm, after))
    (hm : arm.pattern.matchesC charSigned v = true) :
    firstArmC charSigned guards t v i arms = some (j, arm) := by
  induction arms generalizing i with
  | nil => cases h
  | cons arm' arms ih =>
    rw [firstArmC]
    obtain ⟨hfirst, -, hp⟩ | ⟨hfirst, hno, -⟩ :=
      firstArm_cases charSigned guards t v i arm' arms
    · rw [hfirst] at h
      cases h
      rw [hm, hp]
      rfl
    · rw [hno]
      exact ih (hfirst.symm.trans h)

theorem seen_of_firstArmC {j : ℕ} {arm' : Arm} {after : List Arm}
    (h : firstArm guards t v i arms = some (j, arm, after))
    (hc : firstArmC charSigned guards t v i arms = some (j, arm')) :
    arm.pattern.matchesC charSigned v = true := by
  induction arms generalizing i with
  | nil => cases h
  | cons first arms ih =>
    rw [firstArmC] at hc
    obtain ⟨hfirst, -, hp⟩ | ⟨hfirst, hno, -⟩ :=
      firstArm_cases charSigned guards t v i first arms
    · rw [hfirst] at h
      cases h
      rw [hp, Bool.and_true] at hc
      split at hc
      · assumption
      · exact absurd (le_of_firstArmC hc) (by omega)
    · rw [hno] at hc
      exact ih (hfirst.symm.trans h) hc

/-- The chain tests every arm but the last. -/
theorem emitChain_cons {next : Arm} : emitChain t i (arm :: next :: arms) =
    [if patternHasPredicate arm.pattern then
      .ifCond (emitPatPredicate arm.pattern [] t) (bindStmts arm.pattern t ++ [.body i])
        (emitChain t (i + 1) (next :: arms))
    else .block (bindStmts arm.pattern t ++ [.body i])] := by
  simp only [emitChain]
  split <;> rfl

theorem ran_of_declares {o : CObj} {g : Frame} {bs : List (String × Path)}
    (h : execAll charSigned guards o (bs.map fun b => .declare b.1 b.2) f = .ok g) :
    g.ran = f.ran := by
  induction bs generalizing f with
  | nil =>
    cases h
    rfl
  | cons b bs ih =>
    rw [List.map_cons, execAll, exec] at h
    cases hread : o.read b.2 with
    | none =>
      rw [hread] at h
      cases h
    | some c =>
      rw [hread] at h
      exact ih (f := { f with env := f.env ++ [(b.1, c)] }) h

/-- Whatever the arm does, no other arm's body runs with it. -/
theorem ran_of_arm {o : CObj} {g : Frame}
    (h : execAll charSigned guards o (bindStmts p t ++ [.body i]) f = .ok g) :
    ∃ env, g.ran = f.ran ++ [(i, env)] := by
  rw [execAll_append] at h
  cases hb : execAll charSigned guards o (bindStmts p t) f with
  | error e =>
    rw [hb] at h
    cases h
  | ok g' =>
    rw [hb] at h
    cases h
    exact ⟨g'.env, by rw [ran_of_declares hb]⟩

theorem leave_ran (f : Frame) (r : Except Stop Frame) :
    (f.leave r).map Frame.ran = r.map Frame.ran := by
  cases r <;> rfl

theorem leave_eq_ok {r : Except Stop Frame} {g : Frame} (h : f.leave r = .ok g) :
    ∃ g', r = .ok g' ∧ g.ran = g'.ran := by
  cases r with
  | error e => cases h
  | ok g' =>
    cases h
    exact ⟨g', rfl, rfl⟩

theorem ran_of_chain (ht : ∀ a ∈ arm :: arms, Typed false a.pattern t) (hv : HasTy false v t)
    {g : Frame} (h : execAll charSigned guards (repr t v) (emitChain t i (arm :: arms)) f = .ok g) :
    ∃ j env, i ≤ j ∧ g.ran = f.ran ++ [(j, env)] := by
  induction arms generalizing arm i f g with
  | nil =>
    rw [emitChain, execAll_singleton, exec] at h
    obtain ⟨g', hg', hran⟩ := leave_eq_ok h
    obtain ⟨env, henv⟩ := ran_of_arm hg'
    exact ⟨i, env, le_rfl, hran.trans henv⟩
  | cons next arms ih =>
    obtain ⟨harm, hrest⟩ := List.forall_mem_cons.mp ht
    rw [emitChain_cons, execAll_singleton, exec_test harm hv] at h
    obtain ⟨g', hg', hran⟩ := leave_eq_ok h
    split at hg'
    · obtain ⟨env, henv⟩ := ran_of_arm hg'
      exact ⟨i, env, le_rfl, hran.trans henv⟩
    · obtain ⟨j, env, hj, henv⟩ := ih hrest hg'
      exact ⟨j, env, Nat.le_of_succ_le hj, hran.trans henv⟩

theorem execAll_chain_body (ht : Typed false arm.pattern t) (hv : HasTy false v t)
    (hm : arm.pattern.matches v = true) (henv : f.env = []) :
    execAll charSigned guards (repr t v) (bindStmts arm.pattern t ++ [.body i]) f =
      .ok ⟨armEnv arm.pattern t v, f.done, f.ran ++ [(i, armEnv arm.pattern t v)]⟩ := by
  rw [execAll_append, execAll_bindStmts ht hv hm, henv, List.nil_append]
  rfl

/-- The chain runs the first arm exactly when C sees it match or does not look. -/
theorem execAll_chain_iff (ht : ∀ a ∈ arms, Typed false a.pattern t) (hv : HasTy false v t)
    (hfree : ∀ a ∈ arms, a.guarded = false) (henv : f.env = []) {j : ℕ} {after : List Arm}
    (h : firstArm guards t v i arms = some (j, arm, after)) :
    (execAll charSigned guards (repr t v) (emitChain t i arms) f).map Frame.ran =
        .ok (f.ran ++ [(j, armEnv arm.pattern t v)]) ↔
      arm.pattern.matchesC charSigned v = true ∨ after = [] := by
  induction arms generalizing i with
  | nil => cases h
  | cons first arms ih =>
    obtain ⟨hfirst, hrest⟩ := List.forall_mem_cons.mp ht
    obtain ⟨hffree, hfree⟩ := List.forall_mem_cons.mp hfree
    cases arms with
    | nil =>
      rw [emitChain, execAll_singleton, exec, leave_ran]
      obtain ⟨heq, hm, -⟩ | ⟨heq, -, -⟩ :=
        firstArm_cases charSigned guards t v i first []
      · rw [heq] at h
        cases h
        rw [execAll_chain_body hfirst hv hm henv]
        exact iff_of_true rfl (.inr rfl)
      · rw [heq] at h
        cases h
    | cons next arms =>
      rw [emitChain_cons, execAll_singleton, exec_test hfirst hv, leave_ran]
      obtain ⟨heq, hm, -⟩ | ⟨heq, hno, -⟩ :=
        firstArm_cases charSigned guards t v i first (next :: arms)
      · rw [heq] at h
        cases h
        cases hc : arm.pattern.matchesC charSigned v with
        | true =>
          rw [if_pos rfl, execAll_chain_body hfirst hv hm henv]
          exact iff_of_true rfl (.inl rfl)
        | false =>
          rw [if_neg (by simp)]
          refine iff_of_false (fun hran => ?_) (by simp)
          cases hg : execAll charSigned guards (repr t v) (emitChain t (j + 1) (next :: arms)) f with
          | error e =>
            rw [hg] at hran
            cases hran
          | ok g =>
            obtain ⟨k, env, hk, henv⟩ := ran_of_chain hrest hv hg
            rw [hg] at hran
            have hlast := henv.symm.trans (Except.ok.inj hran)
            have hpair := List.singleton_inj.mp (List.append_cancel_left hlast)
            have hkj : k = j := congrArg Prod.fst hpair
            omega
      · have hc : first.pattern.matchesC charSigned v = false := by
          simpa [Arm.passes, hffree] using hno
        rw [hc, if_neg (by simp)]
        exact ih hrest hfree (heq.symm.trans h)

/-- Under the done flag the first arm runs exactly when C sees it match. -/
theorem execAll_guarded_iff (ht : ∀ a ∈ arms, Typed false a.pattern t) (hv : HasTy false v t)
    {j : ℕ} {after : List Arm} (h : firstArm guards t v i arms = some (j, arm, after)) :
    (execAll charSigned guards (repr t v) (emitGuarded t i arms) ⟨[], false, []⟩).map Frame.ran =
        .ok [(j, armEnv arm.pattern t v)] ↔ arm.pattern.matchesC charSigned v = true := by
  rw [execAll_guarded ht hv rfl rfl]
  constructor
  · intro hran
    cases hc : firstArmC charSigned guards t v i arms with
    | none =>
      rw [hc] at hran
      cases hran
    | some found =>
      rw [hc] at hran
      have hpair := List.singleton_inj.mp (Except.ok.inj hran)
      obtain rfl : found.1 = j := congrArg Prod.fst hpair
      exact seen_of_firstArmC h hc
  · intro hm
    rw [firstArmC_of_seen h hm]
    rfl

theorem runMatch_iff (ht : ∀ a ∈ arms, Typed false a.pattern t) (hv : HasTy false v t) {j : ℕ}
    {after : List Arm} (h : firstArm guards t v 0 arms = some (j, arm, after)) :
    runMatch charSigned guards t arms v = .ok [(j, armEnv arm.pattern t v)] ↔
      arm.pattern.matchesC charSigned v = true ∨
        (∀ a ∈ arms, a.guarded = false) ∧ after = [] := by
  unfold runMatch emitMatch
  split
  · rename_i hany
    have hguard : ¬∀ a ∈ arms, a.guarded = false := by
      simpa using hany
    rw [execAll_guarded_iff ht hv h]
    simp [hguard]
  · rename_i hany
    have hfree : ∀ a ∈ arms, a.guarded = false := by
      simpa using hany
    rw [and_iff_right hfree]
    exact execAll_chain_iff ht hv hfree rfl h

theorem exists_firstArm (h : Covers arms v) : ∃ found, firstArm guards t v i arms = some found := by
  induction arms generalizing i with
  | nil =>
    obtain ⟨a, ha, -⟩ := h
    cases ha
  | cons first arms ih =>
    rw [firstArm]
    split
    · exact ⟨_, rfl⟩
    · rename_i hno
      obtain ⟨a, ha, hguard, hm⟩ := h
      obtain rfl | ha := List.mem_cons.mp ha
      · simp [hm, Arm.passes, hguard] at hno
      · exact ih ⟨a, ha, hguard, hm⟩

/-- The emitted match runs the body of the first arm that matches and whose
guard holds, with the names it binds, exactly where there is such an arm and C
sees it match or does not look. -/
theorem runMatch_agrees_iff (hcheck : checkArms t arms = some checked) (hv : HasTy false v t) :
    ((∃ i arm after, firstArm guards t v 0 checked = some (i, arm, after) ∧
        runMatch charSigned guards t checked v = .ok [(i, armEnv arm.pattern t v)]) ↔
      ∃ i arm after, firstArm guards t v 0 checked = some (i, arm, after) ∧
        (arm.pattern.matchesC charSigned v = true ∨
          (∀ a ∈ checked, a.guarded = false) ∧ after = [])) ∧
    (checkMatchExhaustiveness t checked = none → (∀ a ∈ arms, a.pattern.fieldsOnce = true) →
      ∃ found, firstArm guards t v 0 checked = some found) := by
  have ht : ∀ a ∈ checked, Typed false a.pattern t := checkArms_typed hcheck (by simp)
  constructor
  · refine exists_congr fun i => exists_congr fun arm => exists_congr fun after => ?_
    exact and_congr_right fun h => runMatch_iff ht hv h
  · intro hexh once
    have htyped : ∀ a ∈ checked, Typed true a.pattern t := checkArms_typed hcheck fun _ => once
    exact exists_firstArm (covers_of_exhaustive htyped hexh v (hasTy_ideal v hv))

def highByteArms : List Arm := [⟨.charLit 200, false⟩, ⟨.wildcard, false⟩]

theorem runMatch_agrees_iff_high_byte :
    ((∃ i arm after, firstArm (fun _ _ => true) (.prim .uint8) (.int 200) 0 highByteArms =
          some (i, arm, after) ∧
        runMatch false (fun _ _ => true) (.prim .uint8) highByteArms (.int 200) =
          .ok [(i, armEnv arm.pattern (.prim .uint8) (.int 200))]) ↔
      ∃ i arm after, firstArm (fun _ _ => true) (.prim .uint8) (.int 200) 0 highByteArms =
          some (i, arm, after) ∧
        (arm.pattern.matchesC false (.int 200) = true ∨
          (∀ a ∈ highByteArms, a.guarded = false) ∧ after = [])) ∧
    (checkMatchExhaustiveness (.prim .uint8) highByteArms = none →
      (∀ a ∈ highByteArms, a.pattern.fieldsOnce = true) →
      ∃ found, firstArm (fun _ _ => true) (.prim .uint8) (.int 200) 0 highByteArms = some found) :=
  runMatch_agrees_iff (show checkArms _ highByteArms = some highByteArms from rfl)
    (.int rfl (by decide))

/-- `'\xc8'` is -56 where plain `char` is signed. -/
theorem high_byte_arm_skipped :
    ¬∀ (t : Ty) (arms checked : List Arm) (guards : ℕ → Env → Bool) (v : Val),
      checkArms t arms = some checked → checkMatchExhaustiveness t checked = none →
      HasTy false v t → ∃ i arm after, firstArm guards t v 0 checked = some (i, arm, after) ∧
        runMatch true guards t checked v = .ok [(i, armEnv arm.pattern t v)] := by
  intro h
  have hexh : checkMatchExhaustiveness (.prim .uint8) highByteArms = none := by
    have hrows : armRows (.prim .uint8) highByteArms =
        some [[.ctor (.charLit 200) []], [.wild]] := rfl
    simp [checkMatchExhaustiveness, hrows, PatternMatrix.findWitness, signature, typeCtorsList,
      PatternMatrix.defaultMatrix, PatternMatrix.defaultRow]
  obtain ⟨i, arm, after, hfirst, hrun⟩ := h (.prim .uint8) highByteArms highByteArms
    (fun _ _ => true) (.int 200) rfl hexh (.int rfl (by decide))
  have ht : ∀ a ∈ highByteArms, Typed false a.pattern (.prim .uint8) := by
    simp [highByteArms, Typed.charLit, Typed.wildcard]
  have hseen := (runMatch_iff ht (.int rfl (by decide)) hfirst).mp hrun
  cases hfirst
  revert hseen
  simp [Pat.matchesC]

end Runs

end FcLang.Match
