/-
  In what order the calls of a workflow run ask their statements.

  Three kinds of statement are never asked out of the blue. A job is created right after a claim or
  a recovery that was won. A pass closes the run right after it has read the step rows, by what they
  say. A stop that has read the step rows goes on until it returns, and hands over the job of every
  dispatched row it has read. All calls keep to this order (`program_orderly`).
-/
import Sp00ky.ScheduleCore.Signed

namespace Sp00ky.ScheduleCore

open Lib Lib.Succession

/-! ## The order -/

namespace SignedStatement

/-- A job is created. -/
def creates : SignedStatement → Bool
  | .ask _ (.createJob ..) => true
  | _ => false

/-- The run is closed by what the steps are: as a success, or as failed by a pass. -/
def closes : SignedStatement → Option RunStatus
  | .ask caller (.finalizeWorkflowRun status) =>
    if status = .success ∨ caller = .pass then some status else none
  | _ => none

/-- A stop is at work: it has read the step rows and not returned. -/
def stopping : SignedStatement → Bool
  | .ask .stop .selectSteps => false
  | .ask .stop _ => true
  | .stopReturned => true
  | _ => false

/-- The statement may be asked at any time. -/
def free (q : SignedStatement) : Bool := !q.creates && q.closes.isNone && !q.stopping

end SignedStatement

/-- A claim or a recovery was won. -/
def won : (q : SignedStatement) → SignedAnswer q → Bool
  | .ask _ (.claimStepReady _), claimed => claimed
  | .ask _ (.bumpStepDispatchAttempt _), charged => (charged : Option Nat).isSome
  | _, _ => false

/-- The step rows that were read. -/
def stepsRead (caller : Caller) : (q : SignedStatement) → SignedAnswer q → Option (List StepRow)
  | .ask caller' .selectSteps, rows => if caller' = caller then some rows else none
  | _, _ => none

/-- What a pass closes the run with, on the rows it has read. -/
def ClosesOn (rows : List StepRow) : RunStatus → Prop
  | .success => rows ≠ [] ∧ ∀ row ∈ rows, row.status.isTerminal = true ∧ row.status ≠ .failed
  | .failed => ∃ row ∈ rows, row.status = .failed
  | .running | .killed => False

/-- On every way the job is handed over before a stop returns. -/
def Hands {α : Type} (j : JobId) : SignedPass α → Prop
  | .done _ => False
  | .ask q k => q = .ask .stop (.killJob j) ∨ (q ≠ .stopReturned ∧ ∀ x, Hands j (k x))

variable {α β : Type} {p : SignedPass α}

theorem Hands.bind {j : JobId} (f : α → SignedPass β) (h : Hands j p) : Hands j (p.bind f) := by
  induction p with
  | done a => exact h.elim
  | ask q k ih => exact h.imp_right fun h => ⟨h.1, fun x => ih x (h.2 x)⟩

variable {f : α → SignedPass β}

/-- What comes after the statements of a program. -/
theorem Hands.after {j : JobId} (caller : Caller) (p : Pass α)
    (h : ∀ a, Hands j (f a)) : Hands j ((signed caller p).bind f) := by
  induction p with
  | done a => exact h a
  | ask q k ih => exact .inr ⟨nofun, ih⟩

/-- How a call may go on after a statement and its answer. -/
structure Next {α : Type} (q : SignedStatement) (x : SignedAnswer q) (p : SignedPass α) : Prop where
  creates : ∀ q', p.head? = some q' → q'.creates = true → won q x = true
  closes : ∀ q' status, p.head? = some q' → q'.closes = some status →
    ∃ rows, stepsRead .pass q x = some rows ∧ ClosesOn rows status
  stops : ∀ q', p.head? = some q' → q'.stopping = true → q.stopping = true ∨
    ∃ rows, stepsRead .stop q x = some rows ∧
      ∀ row ∈ rows, ∀ j, row.status = .dispatched → row.jobId = some j → Hands j p

/-- It starts with a statement that may be asked at any time. -/
def Free {α : Type} (p : SignedPass α) : Prop := ∀ q, p.head? = some q → q.free = true

theorem Free.done (a : α) : Free (.done a) := by
  intro q h
  cases h

variable {q : SignedStatement} {x : SignedAnswer q}

theorem Free.next (h : Free p) : Next q x p := by
  refine ⟨fun q' hq' hc => ?_, fun q' status hq' hc => ?_, fun q' hq' hs => ?_⟩ <;>
    have hfree := h q' hq' <;> simp only [SignedStatement.free] at hfree
  · simp [hc] at hfree
  · simp [hc] at hfree
  · simp [hs] at hfree

theorem Free.bind (h : Free p) (hf : ∀ a, Free (f a)) : Free (p.bind f) := by
  cases p with
  | done a => exact hf a
  | ask q k => exact h

theorem Next.bind (h : Next q x p) (hf : ∀ a, Free (f a)) : Next q x (p.bind f) := by
  cases p with
  | done a => exact (hf a).next
  | ask q' k =>
    refine ⟨h.creates, h.closes, fun q'' hq'' hs => (h.stops q'' hq'' hs).imp_right ?_⟩
    rintro ⟨rows, hrows, hhands⟩
    exact ⟨rows, hrows, fun row hrow j hd hj => (hhands row hrow j hd hj).bind f⟩

/-- The order of all calls. -/
def callOrder : Succession SignedStatement SignedAnswer where
  fresh := Free
  next := Next
  fresh_done := Free.done
  fresh_bind := Free.bind
  next_fresh := Free.next
  next_bind := Next.bind

theorem signed_bind (caller : Caller) (p : Pass α) (f : α → Pass β) :
    signed caller (p.bind f) = (signed caller p).bind fun a => signed caller (f a) :=
  Prog.translate_bind _ p f

/-- The same of the statements that one function asks. -/
def orderBy (caller : Caller) : Succession Statement Answer where
  fresh p := Free (signed caller p)
  next q x p := Next (.ask caller q) x (signed caller p)
  fresh_done := Free.done
  fresh_bind h hf := by
    rw [signed_bind]
    exact Free.bind h hf
  next_fresh := Free.next
  next_bind h hf := by
    rw [signed_bind]
    exact Next.bind h hf

theorem signed_keeps {caller : Caller} {p : Pass α} (h : (orderBy caller).Keeps p) :
    callOrder.Keeps (signed caller p) := by
  induction p with
  | done a => trivial
  | ask q k ih => exact fun x => ⟨(h x).1, ih x (h x).2⟩

theorem signed_sound {caller : Caller} {p : Pass α} (h : (orderBy caller).Sound p) :
    callOrder.Sound (signed caller p) := ⟨h.fresh, signed_keeps h.keeps⟩

/-- A statement that may be asked at any time. -/
theorem ask_orderly {caller : Caller} {q : Statement}
    (h : (SignedStatement.ask caller q).free = true) :
    (orderBy caller).Sound (ask q) := by
  refine Sound.stmt fun q' hq' => ?_
  obtain rfl : SignedStatement.ask caller q = q' := Option.some.inj hq'
  exact h

/-! ## A pass -/

theorem landStep_orderly (row : StepRow) : (orderBy .pass).Sound (landStep row) := by
  unfold landStep
  split
  · split
    next => exact Sound.done _
    next job _ =>
      refine (ask_orderly (by rfl)).bind fun found => ?_
      cases found with
      | none => exact (ask_orderly (by rfl)).bind fun _ => Sound.done _
      | some job' =>
        dsimp only
        split
        next => exact (ask_orderly (by rfl)).bind fun _ => Sound.done _
        next => exact (ask_orderly (by rfl)).bind fun _ => Sound.done _
        all_goals exact Sound.done _
  · exact Sound.done _

theorem skipUndispatched_orderly (row : StepRow) :
    (orderBy .pass).Sound (skipUndispatched row) := by
  unfold skipUndispatched
  split
  · exact (ask_orderly (by rfl)).bind fun _ => Sound.done _
  · exact Sound.done _

variable (w : Workflow)

theorem propagateFailure_orderly (rows : List StepRow) :
    (orderBy .pass).Sound (propagateFailure w rows) := by
  have hskip : ∀ step, (orderBy .pass).Sound (ask (.skipStep step)) := fun _ => ask_orderly (by rfl)
  unfold propagateFailure skipSteps
  split
  · refine (Sound.each fun step _ => hskip step).bind fun _ => ?_
    exact Sound.each fun row _ => skipUndispatched_orderly row
  · exact Sound.done _

theorem dispatchStep_keeps (run : RunRow) (step : StepDef)
    (outputs : String → Option Sp00ky.Ssp.Json) :
    (orderBy .pass).Keeps (dispatchStep w run step outputs) := by
  unfold dispatchStep
  split
  next => exact (ask_orderly (by rfl)).keeps
  next table _ =>
    intro _
    have hmark : (orderBy .pass).Sound
        (ask (.markStepDispatched step.name ⟨table, step.name, run.retryCount⟩)) := ask_orderly (by rfl)
    exact ⟨(orderBy .pass).next_fresh hmark.fresh, hmark.keeps⟩

/-- A step is dispatched right after it was won. -/
theorem dispatchStep_next {w : Workflow} {run : RunRow} {step : StepDef}
    {outputs : String → Option Sp00ky.Ssp.Json} {q : Statement} {x : Answer q}
    (h : won (.ask .pass q) x = true) :
    (orderBy .pass).next q x (dispatchStep w run step outputs) := by
  refine ⟨fun _ _ _ => h, fun q' status hq' hc => ?_, fun q' hq' hs => ?_⟩ <;>
    unfold dispatchStep at hq' <;> split at hq' <;> cases hq'
  · cases hc
  · cases hc
  · cases hs
  · cases hs

/-- A statement is won, and the step dispatched if it was. -/
theorem dispatchIf_orderly {w : Workflow} {run : RunRow} {step : StepDef}
    {outputs : String → Option Sp00ky.Ssp.Json} {q : Statement} {cond : Answer q → Bool}
    (hfree : (SignedStatement.ask .pass q).free = true)
    (hwon : ∀ x, cond x = true → won (.ask .pass q) x = true) :
    (orderBy .pass).Sound
      ((ask q).bind fun x => if cond x then dispatchStep w run step outputs else .done ()) := by
  have hask : (orderBy .pass).Sound (ask q) := ask_orderly hfree
  refine ⟨hask.fresh, fun x => ?_⟩
  simp only [Prog.bind]
  split
  next h => exact ⟨dispatchStep_next (hwon x h), dispatchStep_keeps w run step outputs⟩
  next => exact ⟨(orderBy .pass).next_fresh ((orderBy .pass).fresh_done ()), trivial⟩

theorem recoverStep_orderly (run : RunRow) (statuses : Statuses)
    (outputs : String → Option Sp00ky.Ssp.Json) (row : StepRow) :
    (orderBy .pass).Sound (recoverStep w run statuses outputs row) := by
  unfold recoverStep
  split
  · split
    · exact Sound.done _
    · split
      · split
        · refine Sound.bind (ask_orderly ?_) fun _ => Sound.done _
          split <;> rfl
        · exact dispatchIf_orderly rfl fun _ h => h
      · exact Sound.done _
  · exact Sound.done _

theorem startStep_orderly (run : RunRow)
    (outputs : String → Option Sp00ky.Ssp.Json) (rows : List StepRow) (step : StepDef) :
    (orderBy .pass).Sound (startStep w run outputs rows step) := by
  unfold startStep
  split
  · exact dispatchIf_orderly rfl fun _ h => h
  · exact Sound.done _

theorem dispatchReady_orderly (run : RunRow) (anyFailed : Bool)
    (rows : List StepRow) : (orderBy .pass).Sound (dispatchReady w run anyFailed rows) := by
  unfold dispatchReady
  split
  · exact Sound.done _
  · refine (Sound.each fun row _ => recoverStep_orderly w run _ _ row).bind fun _ => ?_
    refine (Sound.each fun step _ => startStep_orderly w run _ rows step).bind fun _ => ?_
    exact Sound.done _

theorem deleteJobsOf_orderly (rows : List StepRow) :
    (orderBy .pass).Sound (deleteJobsOf rows) := by
  unfold deleteJobsOf
  split
  · exact Sound.done _
  · exact (ask_orderly (by rfl)).bind fun _ => Sound.done _

theorem discardWorkflow_orderly : (orderBy .pass).Sound discardWorkflow := by
  refine (ask_orderly (by rfl)).bind fun rows => ?_
  refine (deleteJobsOf_orderly rows).bind fun _ => ?_
  exact (ask_orderly (by rfl)).bind fun _ => Sound.done _

theorem completeWorkflowRun_keeps :
    (orderBy .pass).Keeps (completeWorkflowRun w) := by
  intro finalized
  have hrest : (orderBy .pass).Sound
      (if (finalized : Bool) && w.failuresOnly then discardWorkflow else .done ()) := by
    split
    · exact discardWorkflow_orderly
    · exact Sound.done _
  exact ⟨(orderBy .pass).next_fresh hrest.fresh, hrest.keeps⟩

/-- A pass closes the run by the rows it reads last. -/
theorem finishWorkflow_orderly : (orderBy .pass).Sound (finishWorkflow w) := by
  have hask : (orderBy .pass).Sound (ask .selectSteps) := ask_orderly (by rfl)
  refine ⟨hask.fresh, fun rows => ?_⟩
  change List StepRow at rows
  simp only [Prog.bind]
  split
  next => exact ⟨(orderBy .pass).next_fresh ((orderBy .pass).fresh_done ()), trivial⟩
  next hopen =>
    simp only [Bool.or_eq_true, List.isEmpty_iff, Bool.not_eq_true', not_or,
      Bool.not_eq_false] at hopen
    split
    next hfailed =>
      refine ⟨⟨fun _ h hc => ?_, fun _ status h hc => ?_, fun _ h hs => ?_⟩, ?_⟩
      · cases h
        cases hc
      · cases h
        cases hc
        obtain ⟨row, hrow, hf⟩ := List.any_eq_true.mp hfailed
        exact ⟨rows, rfl, row, hrow, of_decide_eq_true hf⟩
      · cases h
        cases hs
      · intro _
        exact ⟨(orderBy .pass).next_fresh ((orderBy .pass).fresh_done ()), trivial⟩
    next hfailed =>
      refine ⟨⟨fun _ h hc => ?_, fun _ status h hc => ?_, fun _ h hs => ?_⟩,
        completeWorkflowRun_keeps w⟩
      · cases h
        cases hc
      · cases h
        cases hc
        refine ⟨rows, rfl, hopen.1, fun row hrow => ⟨List.all_eq_true.mp hopen.2 row hrow, ?_⟩⟩
        intro hrowFailed
        exact hfailed (List.any_eq_true.mpr ⟨row, hrow, decide_eq_true hrowFailed⟩)
      · cases h
        cases hs

theorem workOn_orderly (run : RunRow) : (orderBy .pass).Sound (workOn w run) := by
  refine (ask_orderly (by rfl)).bind fun rows => ?_
  refine (Sound.each fun row _ => landStep_orderly row).bind fun landed => ?_
  refine (propagateFailure_orderly w landed).bind fun left => ?_
  refine (dispatchReady_orderly w run _ left).bind fun _ => ?_
  exact finishWorkflow_orderly w

/-! ## A stop -/

/-- A statement of a stop that has read the rows is followed by anything. -/
theorem next_of_stopping
    (h : q.stopping = true) (hp : ∀ q', p.head? = some q' → q'.creates = false ∧ q'.closes = none) :
    Next q x p := by
  refine ⟨fun q' hq' hc => ?_, fun q' status hq' hc => ?_, fun _ _ _ => .inl h⟩
  · rw [(hp q' hq').1] at hc
    cases hc
  · rw [(hp q' hq').2] at hc
    cases hc

/-- The statements of a stop once it has read the rows, and its return. -/
structure StopStatement (q : Statement) : Prop where
  stopping : (SignedStatement.ask .stop q).stopping = true
  creates : (SignedStatement.ask .stop q).creates = false
  closes : (SignedStatement.ask .stop q).closes = none

theorem stop_keeps {p : Pass Unit} (h : p.Only StopStatement) :
    callOrder.Keeps ((signed .stop p).bind fun _ => askSigned .stopReturned) ∧
      ∀ q, ((signed .stop p).bind fun _ => askSigned .stopReturned).head? = some q →
        q.creates = false ∧ q.closes = none := by
  induction p with
  | done a =>
    refine ⟨fun x => ⟨next_of_stopping rfl (fun _ h => by cases h), trivial⟩, fun q hq => ?_⟩
    cases hq
    exact ⟨rfl, rfl⟩
  | ask q k ih =>
    have hq : StopStatement q := h.1
    refine ⟨fun x => ⟨next_of_stopping hq.stopping (ih x (h.2 x)).2, (ih x (h.2 x)).1⟩, ?_⟩
    intro q' hq'
    cases hq'
    exact ⟨hq.creates, hq.closes⟩

/-- What a stop does with a row. -/
def stopStep (row : StepRow) : Pass Unit :=
  match row.status with
  | .blocked | .ready => ask (.skipStep row.step)
  | .dispatched =>
    match row.jobId with
    | some job => ask (.killJob job)
    | none => do
      let _ ← ask (.skipUndispatchedStep row.step)
      pure ()
  | _ => .done ()

/-- What a stop does with the rows it has read. -/
def stopSteps (status : RunStatus) (rows : List StepRow) : Pass Unit :=
  (Prog.each stopStep rows).bind fun _ => (ask (.finalizeWorkflowRun status)).bind fun _ => .done ()

theorem stopStep_only (row : StepRow) : (stopStep row).Only StopStatement := by
  unfold stopStep
  cases row.status with
  | blocked | ready => exact ⟨⟨rfl, rfl, rfl⟩, fun _ => trivial⟩
  | dispatched =>
    cases row.jobId with
    | some job | none => exact ⟨⟨rfl, rfl, rfl⟩, fun _ => trivial⟩
  | success | failed | skipped => trivial

theorem stopSteps_only (reason : StopReason) (rows : List StepRow) :
    (stopSteps reason.status rows).Only StopStatement :=
  (Prog.Only.each fun row _ => stopStep_only row).bind fun _ =>
    ⟨⟨rfl, rfl, by cases reason <;> rfl⟩, fun _ => trivial⟩

/-- The jobs of the dispatched rows are handed over, each as its row comes. -/
theorem hands_each {rows : List StepRow} {row : StepRow} {j : JobId} (hrow : row ∈ rows)
    (hd : row.status = .dispatched) (hj : row.jobId = some j) {f : List Unit → SignedPass β} :
    Hands j ((signed .stop (Prog.each stopStep rows)).bind f) := by
  induction rows generalizing f with
  | nil => cases hrow
  | cons r rest ih =>
    rw [Prog.each, signed_bind, Prog.bind_assoc]
    rcases List.mem_cons.mp hrow with rfl | hrow
    · refine Hands.bind _ ?_
      unfold stopStep
      rw [hd, hj]
      exact .inl rfl
    · refine Hands.after .stop _ fun _ => ?_
      rw [signed_bind, Prog.bind_assoc]
      exact ih hrow

theorem stopRun_orderly (reason : StopReason) : callOrder.Sound (stopRun reason) := by
  refine ⟨fun q hq => ?_, fun rows => ?_⟩
  · cases hq
    rfl
  · change List StepRow at rows
    obtain ⟨hkeeps, hhead⟩ := stop_keeps (stopSteps_only reason rows)
    refine ⟨⟨fun q hq hc => ?_, fun q status hq hc => ?_, fun q _ _ => .inr ⟨rows, rfl, ?_⟩⟩, hkeeps⟩
    · have hc' := (hhead q hq).1
      rw [hc] at hc'
      cases hc'
    · have hc' := (hhead q hq).2
      rw [hc] at hc'
      cases hc'
    · intro row hrow j hd hj
      have hhands := hands_each (f := fun _ => (signed .stop
        ((ask (.finalizeWorkflowRun reason.status)).bind fun _ => .done ())).bind fun _ =>
          askSigned .stopReturned) hrow hd hj
      rw [← Prog.bind_assoc, ← signed_bind] at hhands
      exact hhands

/-! ## Whole calls -/

theorem advance_orderly : callOrder.Sound (advance w) := by
  refine (signed_sound (ask_orderly (by rfl))).bind fun run => ?_
  cases run with
  | none => exact Sound.done _
  | some run =>
    dsimp only
    split
    · exact Sound.done _
    · split
      · exact stopRun_orderly .killed
      · exact signed_sound (workOn_orderly w run)

theorem observeTerminal_orderly (job : JobId) (status : JobStatus) :
    callOrder.Sound (observeTerminal w job status) := by
  unfold observeTerminal
  split
  · refine (signed_sound (ask_orderly (by rfl))).bind fun found => ?_
    exact (Sound.each fun _ _ => advance_orderly w).bind fun _ => Sound.done _
  · exact Sound.done _

theorem requestKill_orderly : callOrder.Sound requestKill := by
  refine (signed_sound (ask_orderly (by rfl))).bind fun _ => ?_
  refine (signed_sound (ask_orderly (by rfl))).bind fun run => ?_
  cases run with
  | none => exact Sound.done _
  | some run =>
    dsimp only
    split
    · exact stopRun_orderly .killed
    · exact Sound.done _

theorem settledJobs_orderly (rows : List StepRow) :
    (orderBy .operator).Sound (settledJobs rows) := by
  induction rows with
  | nil => exact Sound.done _
  | cons row rest ih =>
    unfold settledJobs
    split
    · split
      · exact ih.bind fun _ => Sound.done _
      · refine (ask_orderly (by rfl)).bind fun found => ?_
        split
        · exact Sound.done _
        · exact ih.bind fun _ => Sound.done _
    · exact ih.bind fun _ => Sound.done _

theorem resetStep_orderly (settled : StepRow × Option JobStatus) :
    (orderBy .operator).Sound (resetStep settled) := by
  unfold resetStep
  split
  · exact ask_orderly (by rfl)
  · exact ask_orderly (by rfl)
  · split
    · exact Sound.done _
    · exact ask_orderly (by rfl)
  all_goals exact Sound.done _

theorem resetAndReopen_orderly : (orderBy .operator).Sound resetAndReopen := by
  refine (ask_orderly (by rfl)).bind fun run => ?_
  cases run with
  | none => exact Sound.done _
  | some run =>
    dsimp only
    split
    · refine (ask_orderly (by rfl)).bind fun rows => ?_
      refine (settledJobs_orderly rows).bind fun settled => ?_
      cases settled with
      | none => exact Sound.done _
      | some settled =>
        refine (Sound.each fun p _ => resetStep_orderly p).bind fun reset => ?_
        split
        · exact (ask_orderly (by rfl)).bind fun _ => Sound.done _
        · exact Sound.done _
    · exact Sound.done _

theorem retry_orderly : callOrder.Sound (retry w) := by
  refine (signed_sound resetAndReopen_orderly).bind fun reopened => ?_
  cases reopened with
  | true => exact advance_orderly w
  | false => exact Sound.done _

theorem rerun_orderly : callOrder.Sound (rerun w) := by
  refine (signed_sound (ask_orderly (by rfl))).bind fun created => ?_
  change Bool at created
  cases created with
  | true =>
    have hcreate : ∀ step, (orderBy .operator).Sound (ask (.createStepRun step)) :=
      fun _ => ask_orderly (by rfl)
    refine (signed_sound (Sound.each fun step _ => hcreate step)).bind fun _ => ?_
    exact advance_orderly w
  | false => exact Sound.done _

theorem askSigned_orderly (h : q.free = true) :
    callOrder.Sound (askSigned q) := by
  refine Sound.stmt fun q' hq' => ?_
  obtain rfl : q = q' := Option.some.inj hq'
  exact h

theorem skeleton_orderly {w : Workflow} {p : Pass Unit} (h : p ∈ skeleton w) :
    (orderBy .spawn).Sound p := by
  rcases List.mem_cons.mp h with rfl | h
  · exact (ask_orderly (by rfl)).bind fun _ => Sound.done _
  · obtain ⟨step, _, rfl⟩ := List.mem_map.mp h
    exact ask_orderly (by rfl)

theorem spawn_orderly : callOrder.Sound (spawn w) := by
  refine (askSigned_orderly rfl).bind fun created => ?_
  change Bool at created
  cases created with
  | true =>
    refine (signed_sound (Sound.each fun p hp => skeleton_orderly hp)).bind fun _ => ?_
    exact advance_orderly w
  | false => exact Sound.done _

theorem spawnFailing_orderly (written : Nat) :
    callOrder.Sound (spawnFailing w written) := by
  refine (askSigned_orderly rfl).bind fun created => ?_
  change Bool at created
  cases created with
  | true =>
    refine (signed_sound (Sound.each fun p hp => ?_)).bind fun _ => ?_
    · exact skeleton_orderly (List.mem_of_mem_take hp)
    · exact (signed_sound (ask_orderly (by rfl))).bind fun _ => Sound.done _
  | false => exact Sound.done _

/-- Every call keeps to the order. -/
theorem program_orderly (i : Invocation) : callOrder.Sound (i.program w) := by
  cases i with
  | advance => exact advance_orderly w
  | observeJobTerminal job status => exact observeTerminal_orderly w job status
  | stop reason => exact stopRun_orderly reason
  | requestKill => exact requestKill_orderly
  | retry => exact retry_orderly w
  | rerun => exact rerun_orderly w
  | spawn => exact spawn_orderly w
  | spawnFailing written => exact spawnFailing_orderly w written

end Sp00ky.ScheduleCore
