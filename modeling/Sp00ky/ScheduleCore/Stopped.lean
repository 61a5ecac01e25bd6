/-
  What goes on after a workflow run is stopped.

  A stop reads the step rows once. It skips the rows that have not started, hands over the jobs of
  those that have, and closes the run; a pass works on a read of its own, and nothing but the step
  row is asked before it claims a step and creates its job. So a job can be created after the stop
  has read, or stand beside a row that does not name it. In a run in which neither happens, nothing
  starts once a stop has returned, and what still runs was handed over
  (`nothing_starts_after_a_stop`).

  What carries it: while a stop is at work, and once one has returned, no call is about to create a
  job; and a stop at work still hands over every job that is loose (`Quiet`).
-/
import Sp00ky.ScheduleCore.Closing

namespace Sp00ky.ScheduleCore

open Lib
open Ssp (Json)

/-! ## What stays quiet -/

/-- The call is about to create a job. -/
def creating (p : SignedPass Unit) : Bool := p.head?.any (·.creates)

/-- The call is a stop at work. -/
def stopping (p : SignedPass Unit) : Bool := p.head?.any (·.stopping)

namespace Ledger

/-- A job that is not terminal, and that no stop has handed over. -/
def loose (s : Ledger) (j : JobId) : Bool :=
  (s.state.jobs j).any (·.unfinished) && decide (j ∉ s.handed)

/-- The job is that of a dispatched step. -/
def onItsRow (w : Workflow) (s : Ledger) (j : JobId) : Bool :=
  (s.state.rows w).any fun row => row.status = .dispatched && row.jobId = some j

end Ledger

/-- A stop reads the rows when no call is about to create a job and every job that is loose is that
of a dispatched step; a step is won only while the run is running and no stop is at work. -/
def quiet (w : Workflow) (e : Signers) : SignedStatement → Bool
  | .ask .stop .selectSteps =>
    (e.calls.all fun p => !creating p) &&
      e.state.created.all fun j => !e.state.loose j || e.state.onItsRow w j
  | .ask _ (.claimStepReady step) =>
    !(e.state.state.steps step).any (·.status = .blocked) ||
      e.state.state.running && e.calls.all fun p => !stopping p
  | .ask _ (.bumpStepDispatchAttempt step) =>
    !(e.state.state.steps step).any (fun row => row.status = .ready || row.status = .dispatched) ||
      e.state.state.running && e.calls.all fun p => !stopping p
  | _ => true

/-- The same of an event. -/
def quietEvent (w : Workflow) (e : Signers) : SignerEvent → Bool
  | .next i =>
    match e.calls[i]? with
    | some (.ask q _) => quiet w e q
    | _ => true
  | _ => true

/-! ## What a statement does to the jobs -/

variable {w : Workflow}

/-- A job after a statement was there before, or the statement creates it. -/
theorem RunState.exec_jobs {s : RunState} {q : Statement} {j : JobId} {job : JobRow}
    (h : (exec w s q).1.jobs j = some job) :
    s.jobs j = some job ∨ ∃ content outputs, q = .createJob j content outputs := by
  cases q with
  | selectRun | selectSteps | selectJob job' | findStepByJob job' | killJob job'
  | deleteWorkflowRun => exact .inl h
  | createRun =>
    simp only [exec] at h
    split at h <;> exact .inl h
  | createStepRun step =>
    simp only [exec] at h
    split at h <;> exact .inl h
  | createJob job' content outputs =>
    simp only [exec] at h
    split at h
    next => exact .inl h
    next =>
      by_cases hj : j = job'
      · subst hj
        exact .inr ⟨content, outputs, rfl⟩
      · dsimp only at h
        rw [Function.update_of_ne hj] at h
        exact .inl h
  | finalizeWorkflowRun status | requestWorkflowKill | reopenWorkflowRun =>
    exact .inl ((congrFun (updateRun_steps s _ _).2 j).symm.trans h)
  | deleteJobs jobs =>
    simp only [exec] at h
    split at h
    next => cases h
    next => exact .inl h
  | _ => exact .inl ((congrFun (updateStep_run s _ _ _).2 j).symm.trans h)

/-- A statement that creates no job lets none loose. -/
theorem Ledger.exec_loose {s : Ledger} {q : SignedStatement} (hq : q.creates = false) {j : JobId}
    (h : (s.exec w q).1.loose j = true) : s.loose j = true := by
  cases q with
  | createScheduleRun | stopReturned => exact h
  | ask caller q =>
    obtain ⟨hjob, hhanded⟩ := Bool.and_eq_true_iff.mp h
    obtain ⟨job, hjob, hunfinished⟩ := (Option.any_eq_true _ _).mp hjob
    refine Bool.and_eq_true_iff.mpr ⟨(Option.any_eq_true _ _).mpr ⟨job, ?_, hunfinished⟩, ?_⟩
    · rcases RunState.exec_jobs hjob with hwas | ⟨content, outputs, rfl⟩
      · exact hwas
      · cases hq
    · refine decide_eq_true fun hmem => of_decide_eq_true hhanded ?_
      cases q with
      | killJob job' => exact List.mem_cons_of_mem _ hmem
      | _ => exact hmem

/-- Every job that is there is noted as created. -/
def Ledger.Noted (s : Ledger) : Prop := ∀ j job, s.state.jobs j = some job → j ∈ s.created

theorem Ledger.exec_noted {s : Ledger} (hs : s.Noted) (q : SignedStatement) :
    (s.exec w q).1.Noted := by
  cases q with
  | createScheduleRun | stopReturned => exact hs
  | ask caller q =>
    intro j job hjob
    rcases RunState.exec_jobs hjob with hwas | ⟨content, outputs, rfl⟩
    · cases q with
      | createJob job' content outputs => exact List.mem_cons_of_mem _ (hs j job hwas)
      | _ => exact hs j job hwas
    · exact List.mem_cons_self

/-- A step that was won was blocked, or past it. -/
theorem won_exec {s : Ledger} {q : SignedStatement} (h : won q (s.exec w q).2 = true) :
    ∃ caller step,
      (q = .ask caller (.claimStepReady step) ∧
        (s.state.steps step).any (·.status = .blocked) = true) ∨
      (q = .ask caller (.bumpStepDispatchAttempt step) ∧
        (s.state.steps step).any (fun row => row.status = .ready || row.status = .dispatched) =
          true) := by
  have hupdate : ∀ (step : String) (p : StepRow → Bool) (f : StepRow → StepRow),
      (s.state.updateStep step p f).2.isSome = true → (s.state.steps step).any p = true := by
    intro step p f hsome
    unfold RunState.updateStep at hsome
    split at hsome
    next => cases hsome
    next row hrow =>
      split at hsome
      next hp =>
        rw [hrow]
        exact hp
      next => cases hsome
  cases q with
  | createScheduleRun | stopReturned => cases h
  | ask caller q =>
    cases q with
    | claimStepReady step => exact ⟨caller, step, .inl ⟨rfl, hupdate _ _ _ h⟩⟩
    | bumpStepDispatchAttempt step =>
      refine ⟨caller, step, .inr ⟨rfl, hupdate step _ (fun row =>
        { row with dispatchAttempts := row.dispatchAttempts + 1 }) ?_⟩⟩
      exact Option.isSome_map.symm.trans h
    | _ => cases h

/-! ## Runs -/

/-- While a stop is at work and once one has returned no job is created, and what is loose is still
handed over. -/
structure Quiet (e : Signers) : Prop where
  keeps : ∀ p ∈ e.calls, callOrder.Keeps p
  noted : e.state.Noted
  notRunning : e.state.stopped = true → e.state.state.running = false
  settled : e.state.stopped = true → ∀ j, e.state.loose j = false
  hands : ∀ p ∈ e.calls, stopping p = true → ∀ j, e.state.loose j = true → Hands j p
  idle : (e.state.stopped = true ∨ ∃ p ∈ e.calls, stopping p = true) →
    ∀ p ∈ e.calls, creating p = false

theorem quiet_start : Quiet ⟨.empty, []⟩ := ⟨nofun, nofun, nofun, nofun, nofun, nofun⟩

/-- A call that starts is not about to create a job, and no stop at work. -/
theorem free_program (w : Workflow) (i : Invocation) :
    creating (i.program w) = false ∧ stopping (i.program w) = false := by
  have hfree : Free (i.program w) := (program_orderly w i).fresh
  unfold creating stopping
  cases hq : (i.program w).head? with
  | none => exact ⟨rfl, rfl⟩
  | some q =>
    have hq' := hfree q hq
    simp only [SignedStatement.free, Bool.and_eq_true, Bool.not_eq_true'] at hq'
    exact ⟨hq'.1.1, hq'.2⟩

/-- Fewer calls are as quiet, over the same ledger. -/
theorem Quiet.sub {e e' : Signers} (h : Quiet e) (hstate : e'.state = e.state)
    (hcalls : ∀ p ∈ e'.calls, p ∈ e.calls ∨ ∃ c : Invocation, p = c.program w) : Quiet e' := by
  have hold : ∀ p ∈ e'.calls, stopping p = true → p ∈ e.calls := by
    intro p hp hstop
    rcases hcalls p hp with hp | ⟨c, rfl⟩
    · exact hp
    · rw [(free_program w c).2] at hstop
      cases hstop
  refine ⟨fun p hp => ?_, ?_, ?_, ?_, fun p hp hstop => ?_, fun hquiet p hp => ?_⟩
  · rcases hcalls p hp with hp | ⟨c, rfl⟩
    · exact h.keeps p hp
    · exact (program_orderly w c).keeps
  · rw [hstate]
    exact h.noted
  · rw [hstate]
    exact h.notRunning
  · rw [hstate]
    exact h.settled
  · rw [hstate]
    exact h.hands p (hold p hp hstop) hstop
  · rw [hstate] at hquiet
    rcases hcalls p hp with hp | ⟨c, rfl⟩
    · refine h.idle (hquiet.imp_right ?_) p hp
      rintro ⟨p', hp', hstop⟩
      exact ⟨p', hold p' hp' hstop, hstop⟩
    · exact (free_program w c).1

section Statement

variable {e : Signers} {q : SignedStatement} {k : SignedAnswer q → SignedPass Unit}

/-- A stop that was at work, or has just read the rows. -/
theorem stopping_next (h : Quiet e) (hmem : Prog.ask q k ∈ e.calls)
    (hstop : stopping (k (e.state.exec w q).2) = true) :
    stopping (.ask q k) = true ∨ q = .ask .stop .selectSteps ∧
      ∀ row ∈ e.state.state.rows w, ∀ j, row.status = .dispatched → row.jobId = some j →
        Hands j (k (e.state.exec w q).2) := by
  obtain ⟨q', hq', hq'stop⟩ := (Option.any_eq_true _ _).mp hstop
  obtain ⟨hnext, _⟩ := h.keeps _ hmem (e.state.exec w q).2
  rcases hnext.stops q' hq' hq'stop with hwas | ⟨rows, hrows, hhands⟩
  · exact .inl hwas
  · obtain ⟨rfl, rfl⟩ := stepsRead_eq_some hrows
    exact .inr ⟨rfl, hhands⟩

/-- A job is created by a step that was won: the run is running and no stop at work. -/
theorem creating_next (h : Quiet e) (hmem : Prog.ask q k ∈ e.calls) (hok : quiet w e q = true)
    (hcreate : creating (k (e.state.exec w q).2) = true) :
    e.state.state.running = true ∧ (∀ p ∈ e.calls, stopping p = false) ∧
      won q (e.state.exec w q).2 = true := by
  obtain ⟨q', hq', hq'create⟩ := (Option.any_eq_true _ _).mp hcreate
  obtain ⟨hnext, _⟩ := h.keeps _ hmem (e.state.exec w q).2
  have hwon := hnext.creates q' hq' hq'create
  have hboth : (e.state.state.running && e.calls.all fun p => !stopping p) = true := by
    obtain ⟨caller, step, ⟨rfl, hrow⟩ | ⟨rfl, hrow⟩⟩ := won_exec hwon <;>
      simpa only [quiet, hrow, Bool.not_true, Bool.false_or] using hok
  obtain ⟨hrunning, hstops⟩ := Bool.and_eq_true_iff.mp hboth
  exact ⟨hrunning, fun p hp => by simpa using List.all_eq_true.mp hstops p hp, hwon⟩

/-- Under a stop at work, or once one has returned, the statement creates no job. -/
theorem not_creates (h : Quiet e) (hmem : Prog.ask q k ∈ e.calls)
    (hquiet : e.state.stopped = true ∨ ∃ p ∈ e.calls, stopping p = true) : q.creates = false :=
  h.idle hquiet _ hmem

/-- A stop has returned before the statement, or the statement is its return. -/
theorem stopped_before (hstopped : (e.state.exec w q).1.stopped = true) :
    e.state.stopped = true ∨ q = .stopReturned := by
  cases q with
  | stopReturned => exact .inr rfl
  | createScheduleRun => exact .inl hstopped
  | ask caller q => exact .inl (Bool.and_eq_true_iff.mp hstopped).1

theorem quiet_next (h : Quiet e) (hmem : Prog.ask q k ∈ e.calls) (hok : quiet w e q = true)
    {e' : Signers} (hstate : e'.state = (e.state.exec w q).1)
    (hcalls : ∀ p ∈ e'.calls, p ∈ e.calls ∨ p = k (e.state.exec w q).2) : Quiet e' := by
  -- What makes a call at work so now made it, or another, so before.
  have hbefore : (e'.state.stopped = true ∨ ∃ p ∈ e'.calls, stopping p = true) →
      (e.state.stopped = true ∨ ∃ p ∈ e.calls, stopping p = true) ∨
        q = .ask .stop .selectSteps := by
    rintro (hstopped | ⟨p, hp, hstop⟩)
    · rw [hstate] at hstopped
      rcases stopped_before hstopped with hwas | rfl
      · exact .inl (.inl hwas)
      · exact .inl (.inr ⟨_, hmem, rfl⟩)
    · rcases hcalls p hp with hp | rfl
      · exact .inl (.inr ⟨p, hp, hstop⟩)
      · exact (stopping_next h hmem hstop).imp (fun hwas => .inr ⟨_, hmem, hwas⟩) And.left
  refine ⟨fun p hp => ?_, ?_, fun hstopped => ?_, fun hstopped j => ?_,
    fun p hp hstop j hloose => ?_, fun hquiet p hp => ?_⟩
  · rcases hcalls p hp with hp | rfl
    · exact h.keeps p hp
    · exact (h.keeps _ hmem _).2
  · rw [hstate]
    exact Ledger.exec_noted h.noted q
  · rw [hstate] at hstopped ⊢
    cases q with
    | createScheduleRun => exact h.notRunning hstopped
    | stopReturned =>
      rcases Bool.or_eq_true_iff.mp hstopped with hwas | hclosed
      · exact h.notRunning hwas
      · obtain ⟨run, hrun, hst⟩ := (Option.any_eq_true _ _).mp hclosed
        change e.state.state.run.any (·.status = .running) = false
        rw [hrun]
        cases hrs : run.status <;> simp [hrs] at hst ⊢
    | ask caller q =>
      obtain ⟨hwas, hopens⟩ := Bool.and_eq_true_iff.mp hstopped
      rw [Bool.eq_false_iff]
      intro hrunning
      rcases RunState.exec_running w _ q hrunning with hrun | hopen
      · rw [h.notRunning hwas] at hrun
        cases hrun
      · rw [hopen] at hopens
        cases hopens
  · rw [hstate] at hstopped ⊢
    rw [Bool.eq_false_iff]
    intro hloose
    rcases stopped_before hstopped with hwas | rfl
    · have hwasLoose := Ledger.exec_loose (not_creates h hmem (.inl hwas)) hloose
      rw [h.settled hwas j] at hwasLoose
      cases hwasLoose
    · -- The stop that returns has handed over all that was loose.
      rcases h.hands _ hmem rfl j hloose with hkill | ⟨hne, _⟩
      · cases hkill
      · exact hne rfl
  · rw [hstate] at hloose
    rcases hcalls p hp with hp | rfl
    · exact h.hands p hp hstop j
        (Ledger.exec_loose (not_creates h hmem (.inr ⟨p, hp, hstop⟩)) hloose)
    · rcases stopping_next h hmem hstop with hwas | ⟨rfl, hrows⟩
      · have hwasLoose := Ledger.exec_loose (not_creates h hmem (.inr ⟨_, hmem, hwas⟩)) hloose
        rcases h.hands _ hmem hwas j hwasLoose with rfl | ⟨_, hrest⟩
        · have hhanded := of_decide_eq_true (Bool.and_eq_true_iff.mp hloose).2
          exact absurd List.mem_cons_self hhanded
        · exact hrest _
      · -- It has read the row of every job that is loose.
        have hloose : e.state.loose j = true := hloose
        obtain ⟨job, hjob, _⟩ := (Option.any_eq_true _ _).mp (Bool.and_eq_true_iff.mp hloose).1
        have hall := List.all_eq_true.mp (Bool.and_eq_true_iff.mp hok).2 j (h.noted j job hjob)
        rw [hloose, Bool.not_true, Bool.false_or] at hall
        obtain ⟨row, hrow, hon⟩ := List.any_eq_true.mp hall
        obtain ⟨hd, hj⟩ := Bool.and_eq_true_iff.mp hon
        exact hrows row hrow j (of_decide_eq_true hd) (of_decide_eq_true hj)
  · rcases hcalls p hp with hp | rfl
    · rcases hbefore hquiet with hwas | rfl
      · exact h.idle hwas p hp
      · simpa using List.all_eq_true.mp (Bool.and_eq_true_iff.mp hok).1 p hp
    · rw [Bool.eq_false_iff]
      intro hcreate
      obtain ⟨hrunning, hstops, hwon⟩ := creating_next h hmem hok hcreate
      rcases hbefore hquiet with (hstopped | ⟨p', hp', hstop⟩) | rfl
      · rw [h.notRunning hstopped] at hrunning
        cases hrunning
      · rw [hstops p' hp'] at hstop
        cases hstop
      · cases hwon

end Statement

theorem quiet_step {e e' : Signers} {a : SignerEvent} (h : Quiet e)
    (hok : quietEvent w e a = true) (hstep : signedStep w e a = some e') : Quiet e' := by
  rcases Calls.step_cases hstep with ⟨hstate, hcalls⟩ | ⟨c, rfl, hstate, hcalls⟩ |
    ⟨i, q, k, rfl, hi, hstate, hcalls⟩ | ⟨event, rfl, henv, hcalls⟩
  · exact h.sub (w := w) hstate fun p hp => .inl (hcalls hp)
  · exact h.sub (w := w) hstate fun p hp => (hcalls p hp).imp_right fun hp => ⟨c, hp⟩
  · have hok' : quiet w e q = true := by simpa only [quietEvent, hi] using hok
    exact quiet_next h (List.mem_of_getElem? hi) hok' hstate hcalls
  · obtain ⟨t, ht, hledger⟩ := Option.map_eq_some_iff.mp henv
    have hloose : ∀ j, e'.state.loose j = true → e.state.loose j = true := by
      intro j hj
      rw [← hledger] at hj
      obtain ⟨hjob, hhanded⟩ := Bool.and_eq_true_iff.mp hj
      obtain ⟨job, hjob, hunfinished⟩ := (Option.any_eq_true _ _).mp hjob
      obtain ⟨job', hjob', hunfinished'⟩ := (RunState.jobEvent_open ht).2 hjob hunfinished
      exact Bool.and_eq_true_iff.mpr
        ⟨(Option.any_eq_true _ _).mpr ⟨job', hjob', hunfinished'⟩, hhanded⟩
    have hstopped : e'.state.stopped = e.state.stopped := by rw [← hledger]
    refine ⟨fun p hp => h.keeps p (hcalls ▸ hp), fun j job hjob => ?_, fun hs => ?_, fun hs j => ?_,
      fun p hp hstop j hj => ?_, fun hquiet p hp => ?_⟩
    · rw [← hledger] at hjob ⊢
      obtain ⟨job', hjob', _⟩ := (RunState.jobEvent_steps ht).2 hjob
      exact h.noted j job' hjob'
    · rw [hstopped] at hs
      have hrun : e'.state.state.run = e.state.state.run := by
        rw [← hledger]
        exact (RunState.jobEvent_open ht).1
      unfold RunState.running
      rw [hrun]
      exact h.notRunning hs
    · rw [hstopped] at hs
      rw [Bool.eq_false_iff]
      intro hj
      have hwas := hloose j hj
      rw [h.settled hs j] at hwas
      cases hwas
    · exact h.hands p (hcalls ▸ hp) hstop j (hloose j hj)
    · rw [hstopped, hcalls] at hquiet
      exact h.idle hquiet p (hcalls ▸ hp)

theorem quiet_run {e : Signers}
    (hrun : Run (signedStep w) (fun e a => quietEvent w e a = true) ⟨.empty, []⟩ e) : Quiet e :=
  hrun.invariant quiet_start fun _ _ _ h hok hstep => quiet_step h hok hstep

/-- In a quiet run, once a stop has returned with the run closed and until it is opened again, no
step of any call creates a job, and every job that is not terminal was handed over. -/
theorem nothing_starts_after_a_stop (w : Workflow) {e e' : Signers} {a : SignerEvent}
    (hrun : Run (signedStep w) (fun e a => quietEvent w e a = true) ⟨.empty, []⟩ e)
    (hstopped : e.state.stopped = true) (hstep : signedStep w e a = some e') :
    (∀ j, (e'.state.state.jobs j).isSome = true → (e.state.state.jobs j).isSome = true) ∧
      ∀ j job, e.state.state.jobs j = some job → job.unfinished = true → j ∈ e.state.handed := by
  have hq := quiet_run hrun
  refine ⟨fun j hj => ?_, fun j job hjob hunfinished => ?_⟩
  · obtain ⟨job, hjob⟩ := Option.isSome_iff_exists.mp hj
    rcases Calls.step_cases hstep with ⟨hstate, _⟩ | ⟨c, rfl, hstate, _⟩ |
      ⟨i, q, k, rfl, hi, hstate, _⟩ | ⟨event, rfl, henv, _⟩
    · rw [hstate] at hj
      exact hj
    · rw [hstate] at hj
      exact hj
    · have hmem := List.mem_of_getElem? hi
      rw [hstate] at hj hjob
      cases q with
      | createScheduleRun | stopReturned => exact hj
      | ask caller q =>
        rcases RunState.exec_jobs hjob with hwas | ⟨content, outputs, rfl⟩
        · exact Option.isSome_iff_exists.mpr ⟨job, hwas⟩
        · cases hq.idle (.inl hstopped) _ hmem
    · obtain ⟨t, ht, hledger⟩ := Option.map_eq_some_iff.mp henv
      rw [← hledger] at hjob
      obtain ⟨job', hjob', _⟩ := (RunState.jobEvent_steps ht).2 hjob
      exact Option.isSome_iff_exists.mpr ⟨job', hjob'⟩
  · by_contra hne
    have hloose : e.state.loose j = true := Bool.and_eq_true_iff.mpr
      ⟨(Option.any_eq_true _ _).mpr ⟨job, hjob, hunfinished⟩, decide_eq_true hne⟩
    rw [hq.settled hstopped j] at hloose
    cases hloose

/-- The run is spawned and `a` started; then it is stopped. -/
def stoppedAfterA : List SignerEvent :=
  (.call .rerun : SignerEvent) :: List.replicate 10 (.next 0) ++
    (.call (.stop .killed) : SignerEvent) :: List.replicate 6 (.next 0)

theorem nothing_starts_after_a_stop_killed : ∃ e : Signers, e.state.stopped = true ∧
    (e.state.state.jobs ⟨"job", "a", 0⟩).any (·.unfinished) = true ∧
      ⟨"job", "a", 0⟩ ∈ e.state.handed := by
  have hrun : ((runAll (signedStep twoSteps) (quietEvent twoSteps) ⟨.empty, []⟩
      stoppedAfterA).bind fun e => (signedStep twoSteps e (.call .advance)).map
        fun e' => (e, e')).any (fun p => p.1.state.stopped &&
          (p.1.state.state.jobs ⟨"job", "a", 0⟩).any (·.unfinished)) = true := by decide +kernel
  obtain ⟨e, e', he, hstep, h⟩ := exists_pair hrun
  obtain ⟨hstopped, hopen⟩ := Bool.and_eq_true_iff.mp h
  obtain ⟨job, hjob, hunfinished⟩ := (Option.any_eq_true _ _).mp hopen
  exact ⟨e, hstopped, hopen, (nothing_starts_after_a_stop twoSteps (run_of_runAll he) hstopped
    hstep).2 _ job hjob hunfinished⟩

/-- The first pass claims `a` after a stop has read the rows; the stop skips `a`, closes the run and
returns. -/
def claimedUnderStop : List SignerEvent :=
  (.call .rerun : SignerEvent) :: List.replicate 5 (.next 0) ++
    [(.call (.stop .killed) : SignerEvent), .next 1, .next 0] ++
    List.replicate 4 (.next 1 : SignerEvent)

/-- The pass then creates the job of `a`. -/
theorem job_starts_after_stop : ¬ ∀ e e' : Signers, ∀ a : SignerEvent,
    Run (signedStep twoSteps) (fun _ _ => True) ⟨.empty, []⟩ e → e.state.stopped = true →
      signedStep twoSteps e a = some e' →
        (∀ j, (e'.state.state.jobs j).isSome = true → (e.state.state.jobs j).isSome = true) ∧
          ∀ j job, e.state.state.jobs j = some job → job.unfinished = true →
            j ∈ e.state.handed := by
  intro hall
  have hrun : ((runAll (signedStep twoSteps) (fun _ _ => true) ⟨.empty, []⟩
      claimedUnderStop).bind fun e => (signedStep twoSteps e (.next 0)).map
        fun e' => (e, e')).any (fun p => (p.1.state.stopped &&
          (p.2.state.state.jobs ⟨"job", "a", 0⟩).isSome) &&
            (p.1.state.state.jobs ⟨"job", "a", 0⟩).isNone) = true := by decide +kernel
  obtain ⟨e, e', he, hstep, h⟩ := exists_pair hrun
  simp only [Bool.and_eq_true] at h
  obtain ⟨⟨hstopped, hnew⟩, hnone⟩ := h
  have hwas := (hall e e' _ (freeRun he) hstopped hstep).1 _ hnew
  rw [Option.isNone_iff_eq_none.mp hnone] at hwas
  cases hwas

end Sp00ky.ScheduleCore
