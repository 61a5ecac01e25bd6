/-
  All calls of the engine keep to every account.

  Each part of a pass is sound from what its rows are good for: a row read as `success` has an
  output that is known, and what a pass has landed on stays known however old the read becomes.
-/
import Sp00ky.ScheduleCore.Account

namespace Sp00ky.ScheduleCore.Account

open Lib Lib.Discipline
open Ssp (Json)

variable {w : Workflow} {ok : RunState → Statement → Prop} (A : Account w ok)

/-! ## Statements -/

variable {s t : RunState}

/-- A statement with all that a pass is to know. -/
theorem ask_sound {q : Statement} {R : Answer q → RunState → Prop}
    (hpre : ∀ t, A.rely s t → A.inv t → Pre w A.known A.observed t q)
    (hpost : ∀ t u, A.rely s t → A.inv t → ok t q → A.rely (RunState.exec w t q).1 u → A.inv u →
      R (RunState.exec w t q).2 u) : A.Sound R (ask q) s := by
  refine Sound.stmt fun t hst ht hok => ?_
  obtain ⟨hinv, hrely⟩ := A.statement ht hok (hpre t hst ht)
  exact ⟨hinv, hrely, fun u hu hui => hpost t u hst ht hok hu hui⟩

/-- A statement that asks nothing of the pass. -/
theorem ask_plain {q : Statement} (s : RunState) (hpre : ∀ t, Pre w A.known A.observed t q) :
    A.Sound (fun _ _ => True) (ask q) s :=
  A.ask_sound (fun t _ _ => hpre t) fun _ _ _ _ _ _ _ => trivial

theorem done_sound {α : Type} (a : α) (s : RunState) : A.Sound (fun _ _ => True) (.done a) s :=
  Sound.done fun _ _ _ => trivial

/-- The programs of a list, one after another. -/
theorem each_sound {α β : Type} {f : α → Pass β} {l : List α} (hs : A.inv s)
    (hf : ∀ a ∈ l, ∀ t, A.inv t → A.rely s t → A.Sound (fun _ _ => True) (f a) t) :
    A.Sound (fun _ _ => True) (Prog.each f l) s := by
  refine (Sound.eachAll (P := fun a t => a ∈ l ∧ A.rely s t) (R := fun _ _ => True)
    (fun a t u htu h => ⟨h.1, A.trans h.2 htu⟩) (fun _ _ _ _ h => h)
    (fun a t ht h => hf a h.1 t ht h.2) hs fun a ha => ⟨ha, A.refl s⟩).imp ?_
  exact fun _ _ _ _ _ => trivial

/-! ## Reads -/

/-- What a row is good for as it is read. -/
def Read (row : StepRow) (s : RunState) : Prop :=
  (row.status = .success → A.known row.step row.output s) ∧
    ∀ j, row.status = .dispatched → row.jobId = some j →
      A.observed row.step j s ∧ ∃ job, s.jobs j = some job

/-- What a row is good for once a pass has landed on it. -/
def Landed (row : StepRow) (s : RunState) : Prop :=
  row.status = .success → A.known row.step row.output s

variable {A} {row : StepRow}

theorem Read.later (h : A.Read row s) (hst : A.rely s t) :
    A.Read row t := by
  refine ⟨fun hs => A.known_rely hst (h.1 hs), fun j hd hj => ?_⟩
  obtain ⟨ho, job, hjob⟩ := h.2 j hd hj
  obtain ⟨job', hjob', _, _⟩ := (A.onward hst).job j job hjob
  exact ⟨A.observed_rely hst ho, job', hjob'⟩

theorem Landed.later (h : A.Landed row s) (hst : A.rely s t) :
    A.Landed row t := fun hs => A.known_rely hst (h hs)

variable (A)

theorem read_rows (hs : A.inv s) : ∀ row ∈ s.rows w, A.Read row s := by
  intro row hrow
  obtain ⟨x, _, hx⟩ := List.mem_filterMap.mp hrow
  obtain ⟨r, hr, rfl⟩ := Option.map_eq_some_iff.mp hx
  have hname : r.step = x := A.named hs hr
  refine ⟨fun hd => ?_, fun j hd hj => ?_⟩
  · rw [hname]
    exact A.known_of_row hs hr hd
  · rw [hname]
    exact A.observed_of_row hs hr hd hj

theorem selectSteps_sound (s : RunState) :
    A.Sound (fun (rows : List StepRow) t => ∀ row ∈ rows, A.Read row t) (ask .selectSteps) s :=
  A.ask_sound (fun _ _ _ => trivial) fun _ _ _ ht _ hu _ row hrow =>
    (A.read_rows ht row hrow).later hu

theorem selectRun_sound (s : RunState) :
    A.Sound (fun (run : Option RunRow) t => ∀ run' ∈ run, ∃ now, t.run = some now ∧
      run'.retryCount ≤ now.retryCount) (ask .selectRun) s :=
  A.ask_sound (fun _ _ _ => trivial) fun _ _ _ _ _ hu _ run' hrun' =>
    (A.onward hu).run run' hrun'

/-- A job that has ended stays as it was read. -/
theorem selectJob_sound (j : JobId) (hs : ∃ job, s.jobs j = some job) :
    A.Sound (fun (found : Option JobRow) t => ∃ job, found = some job ∧
      (job.unfinished = false → t.jobs j = some job)) (ask (.selectJob j)) s := by
  obtain ⟨job, hjob⟩ := hs
  refine A.ask_sound (fun _ _ _ => trivial) fun t u hst _ _ hu _ => ?_
  obtain ⟨job', hjob', _, _⟩ := (A.onward hst).job j job hjob
  exact ⟨job', hjob', fun hend => (A.onward hu).ended hjob' hend⟩

/-! ## Landing -/

theorem finalize_sound (outcome : Outcome) {x : String} {j : JobId} {job : JobRow}
    (hobs : A.observed x j s) (hjob : s.jobs j = some job)
    (hstatus : job.status = outcome.jobStatus) :
    A.Sound (fun _ t => outcome = .success → A.known x job.result t)
      (ask (.finalizeStep x outcome (outcome.output job) j)) s := by
  have hend : job.unfinished = false := by
    unfold JobRow.unfinished
    rw [hstatus]
    cases outcome <;> rfl
  have hpre : ∀ t, A.rely s t →
      Pre w A.known A.observed t (.finalizeStep x outcome (outcome.output job) j) := fun t hst =>
    ⟨A.observed_rely hst hobs, job, (A.onward hst).ended hjob hend, hstatus, rfl⟩
  refine A.ask_sound (fun t hst _ => hpre t hst) fun t u hst ht hok hu _ hsuccess => ?_
  subst hsuccess
  exact A.known_rely hu (A.landed ht hok (hpre t hst))

theorem landStep_sound (hs : A.inv s) (hrow : A.Read row s) :
    A.Sound A.Landed (landStep row) s := by
  have hkeep : ∀ t, A.rely s t → A.Landed row t := fun t hst => (hrow.later hst).1
  unfold landStep
  split
  next hd =>
    split
    next => exact Sound.done fun t hst _ => hkeep t hst
    next j hj =>
      obtain ⟨hobs, hjob⟩ := hrow.2 j hd hj
      refine Sound.bind (A.selectJob_sound j hjob) (fun found t hst ht hfound => ?_) hs
      obtain ⟨job, rfl, hended⟩ := hfound
      have hobs' : A.observed row.step j t := A.observed_rely hst hobs
      dsimp only
      split
      next hstatus =>
        have hjob' : t.jobs j = some job := hended (by simp [JobRow.unfinished, hstatus])
        refine Sound.bind (A.finalize_sound .success hobs' hjob' hstatus)
          (fun _ u _ _ hknown => ?_) ht
        exact Sound.done fun v huv _ _ => A.known_rely huv (hknown rfl)
      next hstatus =>
        have hjob' : t.jobs j = some job := hended (by simp [JobRow.unfinished, hstatus])
        refine Sound.bind (A.finalize_sound .failed hobs' hjob' hstatus)
          (fun _ u _ _ _ => ?_) ht
        exact Sound.done fun v _ _ hfailed => absurd hfailed nofun
      next => exact Sound.done fun u htu _ => hkeep u (A.trans hst htu)
      next => exact Sound.done fun u htu _ => hkeep u (A.trans hst htu)
  next => exact Sound.done fun t hst _ => hkeep t hst

variable {rows : List StepRow}

/-- The rows of a pass with what their jobs have come to. -/
theorem landAll_sound (hs : A.inv s) (hrows : ∀ row ∈ rows, A.Read row s) :
    A.Sound (fun landed t => ∀ row ∈ landed, A.Landed row t) (Prog.each landStep rows) s :=
  Sound.eachAll (P := A.Read) (R := A.Landed) (fun _ _ _ hst h => h.later hst)
    (fun _ _ _ hst h => h.later hst) (fun _ _ => A.landStep_sound) hs hrows

/-! ## Skipping -/

theorem skipUndispatched_sound (hs : A.inv s)
    (hrow : A.Landed row s) : A.Sound A.Landed (skipUndispatched row) s := by
  unfold skipUndispatched
  split
  · refine Sound.bind (A.ask_plain s fun _ => trivial) (fun skipped t hst _ _ => ?_) hs
    refine Sound.done fun u htu _ => ?_
    split
    · exact fun h => absurd h nofun
    · exact hrow.later (A.trans hst htu)
  · exact Sound.done fun t hst _ => hrow.later hst

theorem skipSteps_sound (hs : A.inv s) (hrows : ∀ row ∈ rows, A.Landed row s) :
    A.Sound (fun left t => ∀ row ∈ left, A.Landed row t) (skipSteps w rows) s := by
  unfold skipSteps
  refine Sound.bind (A.each_sound hs fun _ _ t _ _ => A.ask_plain t fun _ => trivial)
    (fun _ t hst ht _ => ?_) hs
  refine Sound.eachAll (P := A.Landed) (R := A.Landed) (fun _ _ _ hst h => h.later hst)
    (fun _ _ _ hst h => h.later hst) (fun _ _ => A.skipUndispatched_sound) ht fun row hrow => ?_
  obtain ⟨old, hold, rfl⟩ := List.mem_map.mp hrow
  split
  · exact fun h => absurd h nofun
  · exact (hrows old hold).later hst

theorem propagateFailure_sound (hs : A.inv s) (hrows : ∀ row ∈ rows, A.Landed row s) :
    A.Sound (fun left t => ∀ row ∈ left, A.Landed row t) (propagateFailure w rows) s := by
  unfold propagateFailure
  split
  · exact A.skipSteps_sound hs hrows
  · exact Sound.done fun t hst _ row hrow => (hrows row hrow).later hst

/-! ## Dispatching -/

variable {step : StepDef}

/-- A dependency that looks successful has the output the pass holds. -/
theorem known_of_satisfied
    (hrows : ∀ row ∈ rows, A.Landed row s) (h : step.satisfied (statusesOf rows) = true) :
    ∀ dep ∈ step.dependsOn, A.known dep (outputsOf rows dep) s := by
  intro dep hdep
  have hstatus : statusesOf rows dep = some .success := by
    simpa using List.all_eq_true.mp h dep hdep
  obtain ⟨row, hfind, hsuccess⟩ := Option.map_eq_some_iff.mp hstatus
  have hname : row.step = dep := by simpa using List.find?_some hfind
  -- The first row of the name is successful, so it is the first successful one.
  have hfind' : rows.find? (fun r => r.step = dep && r.status = .success) = some row := by
    obtain ⟨hp, before, after, rfl, hbefore⟩ := List.find?_eq_some_iff_append.mp hfind
    refine List.find?_eq_some_iff_append.mpr ⟨by simpa [hsuccess] using hp, before, after, rfl, ?_⟩
    intro r hr
    have hne := hbefore r hr
    simp only [Bool.not_eq_true', decide_eq_false_iff_not] at hne
    simp [hne]
  rw [outputsOf, hfind', ← hname]
  exact hrows row (List.mem_of_find?_eq_some hfind) hsuccess

theorem dispatchStep_sound {run now : RunRow} {outputs : String → Option Json} (hs : A.inv s) (hstep : step ∈ w.dag.steps)
    (hdeps : ∀ dep ∈ step.dependsOn, A.known dep (outputs dep) s) (hrun : s.run = some now)
    (hcount : run.retryCount ≤ now.retryCount) :
    A.Sound (fun _ _ => True) (dispatchStep w run step outputs) s := by
  unfold dispatchStep
  split
  next => exact A.ask_plain s fun _ => trivial
  next table htable =>
    have hcreate : A.Sound (fun _ t => ∃ job, t.jobs ⟨table, step.name, run.retryCount⟩ = some job)
        (ask (.createJob ⟨table, step.name, run.retryCount⟩ (jobContent w step outputs) outputs))
          s := by
      refine A.ask_sound (fun t hst _ => ?_) fun t u _ _ _ hu _ => ?_
      · obtain ⟨now', hnow', hle⟩ := (A.onward hst).run now hrun
        exact ⟨⟨step, hstep, htable, rfl, rfl, fun dep hdep => A.known_rely hst (hdeps dep hdep)⟩,
          now', hnow', Nat.le_trans hcount hle⟩
      · -- It is there now, by this statement or from before.
        have hthere : ∃ job, (RunState.exec w t (.createJob ⟨table, step.name, run.retryCount⟩
            (jobContent w step outputs) outputs)).1.jobs ⟨table, step.name, run.retryCount⟩ =
              some job := by
          simp only [RunState.exec]
          split
          next job hjob => exact ⟨job, hjob⟩
          next => exact ⟨_, Function.update_self ..⟩
        obtain ⟨job, hjob⟩ := hthere
        obtain ⟨job', hjob', _, _⟩ := (A.onward hu).job _ job hjob
        exact ⟨job', hjob'⟩
    refine Sound.bind hcreate (fun _ t _ _ hjob => ?_) hs
    obtain ⟨job, hjob⟩ := hjob
    refine A.ask_sound (fun u htu _ => ⟨rfl, ?_⟩) fun _ _ _ _ _ _ _ => trivial
    obtain ⟨job', hjob', _, _⟩ := (A.onward htu).job _ job hjob
    exact ⟨job', hjob'⟩

/-- What a pass holds as it dispatches: the run it read, and its rows. -/
structure Holds (run : RunRow) (rows : List StepRow) (s : RunState) : Prop where
  run : ∃ now, s.run = some now ∧ run.retryCount ≤ now.retryCount
  rows : ∀ row ∈ rows, A.Landed row s

variable {A} {run : RunRow}

theorem Holds.later (h : A.Holds run rows s) (hst : A.rely s t) : A.Holds run rows t := by
  obtain ⟨now, hnow, hle⟩ := h.run
  obtain ⟨now', hnow', hle'⟩ := (A.onward hst).run now hnow
  exact ⟨⟨now', hnow', Nat.le_trans hle hle'⟩, fun row hrow => (h.rows row hrow).later hst⟩

variable (A)

/-- What is dispatched when its dependencies look successful. -/
theorem dispatchSatisfied_sound (hs : A.inv s) (hheld : A.Holds run rows s) (hstep : step ∈ w.dag.steps)
    (hdeps : step.satisfied (statusesOf rows) = true) :
    A.Sound (fun _ _ => True) (dispatchStep w run step (outputsOf rows)) s := by
  obtain ⟨now, hnow, hle⟩ := hheld.run
  exact A.dispatchStep_sound hs hstep (A.known_of_satisfied hheld.rows hdeps) hnow hle

theorem recoverStep_sound (hs : A.inv s) (hheld : A.Holds run rows s) (row : StepRow) :
    A.Sound (fun _ _ => True) (recoverStep w run (statusesOf rows) (outputsOf rows) row) s := by
  unfold recoverStep
  split
  · split
    next => exact A.done_sound _ s
    next step hstep =>
      split
      next hdeps =>
        split
        · refine Sound.bind (A.ask_plain s ?_) (fun _ t _ _ _ => A.done_sound _ t) hs
          intro t
          split <;> trivial
        · refine Sound.bind (A.ask_plain s fun _ => trivial) (fun charged t hst ht _ => ?_) hs
          split
          · exact A.dispatchSatisfied_sound ht (hheld.later hst)
              (WorkflowDag.step_eq_some hstep).1 hdeps
          · exact A.done_sound _ t
      next => exact A.done_sound _ s
  · exact A.done_sound _ s

theorem startStep_sound (hs : A.inv s) (hheld : A.Holds run rows s)
    (hready : step ∈ w.dag.readySteps (statusesOf rows)) :
    A.Sound (fun _ _ => True) (startStep w run (outputsOf rows) rows step) s := by
  obtain ⟨hstep, hdeps⟩ := List.mem_filter.mp hready
  unfold startStep
  split
  · refine Sound.bind (A.ask_plain s fun _ => trivial) (fun claimed t hst ht _ => ?_) hs
    split
    · exact A.dispatchSatisfied_sound ht (hheld.later hst) hstep (Bool.and_eq_true_iff.mp hdeps).2
    · exact A.done_sound _ t
  · exact A.done_sound _ s

theorem dispatchReady_sound (hs : A.inv s) (hheld : A.Holds run rows s) (anyFailed : Bool) :
    A.Sound (fun _ _ => True) (dispatchReady w run anyFailed rows) s := by
  unfold dispatchReady
  split
  · exact A.done_sound _ s
  · refine Sound.bind (A.each_sound hs fun row _ t ht hst =>
      A.recoverStep_sound ht (hheld.later hst) row) (fun _ t hst ht _ => ?_) hs
    refine Sound.bind (A.each_sound ht fun step hstep u hu htu =>
      A.startStep_sound hu (hheld.later (A.trans hst htu)) hstep) (fun _ u _ _ _ => ?_) ht
    exact A.done_sound _ u

/-! ## Whole calls -/

theorem deleteJobsOf_sound (rows : List StepRow) (hs : A.inv s) :
    A.Sound (fun _ _ => True) (deleteJobsOf rows) s := by
  unfold deleteJobsOf
  split
  · exact A.done_sound _ s
  · exact Sound.bind (A.ask_plain s fun _ => trivial) (fun _ t _ _ _ => A.done_sound _ t) hs

theorem completeWorkflowRun_sound (hs : A.inv s) :
    A.Sound (fun _ _ => True) (completeWorkflowRun w) s := by
  unfold completeWorkflowRun
  refine Sound.bind (A.ask_plain s fun _ => trivial) (fun finalized t _ ht _ => ?_) hs
  split
  · unfold discardWorkflow
    refine Sound.bind (A.ask_plain t fun _ => trivial) (fun rows u _ hu _ => ?_) ht
    refine Sound.bind (A.deleteJobsOf_sound rows hu) (fun _ v _ hv _ => ?_) hu
    exact Sound.bind (A.ask_plain v fun _ => trivial) (fun _ x _ _ _ => A.done_sound _ x) hv
  · exact A.done_sound _ t

theorem finishWorkflow_sound (hs : A.inv s) :
    A.Sound (fun _ _ => True) (finishWorkflow w) s := by
  unfold finishWorkflow
  refine Sound.bind (A.ask_plain s fun _ => trivial) (fun rows t _ ht _ => ?_) hs
  split
  · exact A.done_sound _ t
  · split
    · exact Sound.bind (A.ask_plain t fun _ => trivial) (fun _ u _ _ _ => A.done_sound _ u) ht
    · exact A.completeWorkflowRun_sound ht

theorem stopWorkflowRun_sound (status : RunStatus) (hs : A.inv s) :
    A.Sound (fun _ _ => True) (stopWorkflowRun status) s := by
  unfold stopWorkflowRun
  refine Sound.bind (A.ask_plain s fun _ => trivial) (fun rows t _ ht _ => ?_) hs
  refine Sound.bind (A.each_sound ht fun row _ u hu _ => ?_) (fun _ u _ hu _ => ?_) ht
  · cases row.status with
    | blocked | ready => exact A.ask_plain u fun _ => trivial
    | dispatched =>
      cases row.jobId with
      | some job => exact A.ask_plain u fun _ => trivial
      | none =>
        exact Sound.bind (A.ask_plain u fun _ => trivial) (fun _ v _ _ _ => A.done_sound _ v) hu
    | success | failed | skipped => exact A.done_sound _ u
  · exact Sound.bind (A.ask_plain u fun _ => trivial) (fun _ v _ _ _ => A.done_sound _ v) hu

theorem advanceWorkflow_sound (hs : A.inv s) :
    A.Sound (fun _ _ => True) (advanceWorkflow w) s := by
  unfold advanceWorkflow
  refine Sound.bind (A.selectRun_sound s) (fun run t _ ht hrun => ?_) hs
  cases run with
  | none => exact A.done_sound _ t
  | some run =>
    dsimp only
    split
    · exact A.done_sound _ t
    · split
      · exact A.stopWorkflowRun_sound .killed ht
      · refine Sound.bind (A.selectSteps_sound t) (fun rows u htu hu hrows => ?_) ht
        refine Sound.bind (A.landAll_sound hu hrows) (fun landed v huv hv hlanded => ?_) hu
        obtain ⟨now, hnow, hle⟩ := hrun run rfl
        obtain ⟨now', hnow', hle'⟩ := (A.onward (A.trans htu huv)).run now hnow
        refine Sound.bind (A.propagateFailure_sound hv hlanded) (fun left x hvx hx hleft => ?_) hv
        have hheld : A.Holds run left x :=
          ⟨(A.onward hvx).run now' hnow' |>.imp fun _ h => ⟨h.1, by omega⟩, hleft⟩
        refine Sound.bind (A.dispatchReady_sound hx hheld _) (fun _ y _ hy _ => ?_) hx
        exact A.finishWorkflow_sound hy

theorem requestWorkflowKill_sound (hs : A.inv s) :
    A.Sound (fun _ _ => True) requestWorkflowKill s := by
  unfold requestWorkflowKill
  refine Sound.bind (A.ask_plain s fun _ => trivial) (fun _ t _ ht _ => ?_) hs
  refine Sound.bind (A.ask_plain t fun _ => trivial) (fun run u _ hu _ => ?_) ht
  cases run with
  | none => exact A.done_sound _ u
  | some run =>
    dsimp only
    split
    · exact A.stopWorkflowRun_sound .killed hu
    · exact A.done_sound _ u

theorem observeJobTerminal_sound (job : JobId) (status : JobStatus)
    (hs : A.inv s) : A.Sound (fun _ _ => True) (observeJobTerminal w job status) s := by
  unfold observeJobTerminal
  split
  · refine Sound.bind (A.ask_plain s fun _ => trivial) (fun found t _ ht _ => ?_) hs
    refine Sound.bind (A.each_sound ht fun _ _ u hu _ => A.advanceWorkflow_sound hu)
      (fun _ u _ _ _ => A.done_sound _ u) ht
  · exact A.done_sound _ s

/-- What a retry has seen of a dispatched row's job is good for its reset. -/
def Settled (settled : StepRow × Option JobStatus) (s : RunState) : Prop :=
  ∀ j, settled.1.status = .dispatched → settled.1.jobId = some j → settled.2 ≠ some .success →
    ∃ job, s.jobs j = some job ∧ job.status = .failed

variable {A} in
theorem Settled.later {settled : StepRow × Option JobStatus}
    (h : Settled settled s) (hst : A.rely s t) : Settled settled t := by
  intro j hd hj hne
  obtain ⟨job, hjob, hfailed⟩ := h j hd hj hne
  exact ⟨job, (A.onward hst).ended hjob (by simp [JobRow.unfinished, hfailed]), hfailed⟩

theorem settledJobs_sound (hs : A.inv s) (hrows : ∀ row ∈ rows, A.Read row s) :
    A.Sound (fun found t => ∀ settled, found = some settled → ∀ p ∈ settled, Settled p t)
      (settledJobs rows) s := by
  induction rows generalizing s with
  | nil =>
    refine Sound.done fun t _ _ settled h p hp => ?_
    cases h
    cases hp
  | cons row rest ih =>
    -- The rest, with one more row whose job is known to be over.
    have hrest : ∀ (p : StepRow × Option JobStatus) (t : RunState), A.rely s t → A.inv t →
        Settled p t → A.Sound (fun found u => ∀ settled, found = some settled →
          ∀ p ∈ settled, Settled p u)
            (Prog.bind (settledJobs rest) fun l => .done (l.map (p :: ·))) t := by
      intro p t hst ht hp
      have hread : ∀ r ∈ rest, A.Read r t := fun r hr => (hrows r (.tail _ hr)).later hst
      refine Sound.bind (ih ht hread) (fun found u htu _ hfound => ?_) ht
      refine Sound.done fun v huv _ settled h => ?_
      obtain ⟨l, rfl, rfl⟩ := Option.map_eq_some_iff.mp h
      refine List.forall_mem_cons.mpr ⟨hp.later (A.trans htu huv), fun q hq => ?_⟩
      exact (hfound l rfl q hq).later huv
    unfold settledJobs
    split
    next hd =>
      split
      next hnone =>
        refine hrest _ s (A.refl s) hs fun j _ hj _ => ?_
        rw [hnone] at hj
        cases hj
      next j hj =>
        obtain ⟨_, hjob⟩ := (hrows row List.mem_cons_self).2 j hd hj
        refine Sound.bind (A.selectJob_sound j hjob) (fun found t hst ht hfound => ?_) hs
        obtain ⟨job, rfl, hended⟩ := hfound
        split
        · exact Sound.done fun _ _ _ _ h => absurd h nofun
        next hu =>
          have hend : job.unfinished = false := by simpa using hu
          refine hrest _ t hst ht fun j' _ hj' hne => ?_
          rw [hj, Option.some.injEq] at hj'
          refine ⟨job, hj' ▸ hended hend, ?_⟩
          cases hstatus : job.status with
          | failed => rfl
          | success => exact absurd (by simp [hstatus]) hne
          | pending | processing => simp [JobRow.unfinished, hstatus] at hend
    next hnd => exact hrest _ s (A.refl s) hs fun j hd _ _ => absurd hd hnd

theorem resetStep_sound {settled : StepRow × Option JobStatus}
    (h : Settled settled s) : A.Sound (fun _ _ => True) (resetStep settled) s := by
  unfold resetStep
  split
  next => exact A.ask_plain s fun _ => trivial
  next => exact A.ask_plain s fun _ => trivial
  next hd =>
    split
    next => exact A.done_sound _ s
    next hne =>
      refine A.ask_sound (fun t hst _ => ?_) fun _ _ _ _ _ _ _ => trivial
      cases hj : settled.1.jobId with
      | none => trivial
      | some j => exact h.later hst j hd hj hne
  all_goals exact A.done_sound _ s

theorem retryWorkflow_sound (hs : A.inv s) :
    A.Sound (fun _ _ => True) (retryWorkflow w) s := by
  unfold retryWorkflow
  refine Sound.bind (A.ask_plain s fun _ => trivial) (fun run t _ ht _ => ?_) hs
  cases run with
  | none => exact A.done_sound _ t
  | some run =>
    dsimp only
    split
    · refine Sound.bind (A.selectSteps_sound t) (fun rows u _ hu hrows => ?_) ht
      refine Sound.bind (A.settledJobs_sound hu hrows) (fun found v _ hv hfound => ?_) hu
      cases found with
      | none => exact A.done_sound _ v
      | some settled =>
        refine Sound.bind (A.each_sound hv fun p hp x _ hvx =>
          A.resetStep_sound ((hfound settled rfl p hp).later hvx)) (fun _ x _ hx _ => ?_) hv
        split
        · refine Sound.bind (A.ask_plain x fun _ => trivial) (fun reopened y _ hy _ => ?_) hx
          cases reopened with
          | none => exact A.done_sound _ y
          | some _ => exact A.advanceWorkflow_sound hy
        · exact A.done_sound _ x
    · exact A.done_sound _ t

theorem spawnRerun_sound (hs : A.inv s) :
    A.Sound (fun _ _ => True) (spawnRerun w) s := by
  unfold spawnRerun
  refine Sound.bind (A.ask_plain s fun _ => trivial) (fun created t _ ht _ => ?_) hs
  split
  · refine Sound.bind (A.each_sound ht fun _ _ u _ _ => A.ask_plain u fun _ => trivial)
      (fun _ u _ hu _ => A.advanceWorkflow_sound hu) ht
  · exact A.done_sound _ t

/-- Every call of the engine keeps to the account. -/
theorem sound (c : Call) (hs : A.inv s) :
    A.Sound (fun _ _ => True) (c.program w) s := by
  cases c with
  | advance => exact A.advanceWorkflow_sound hs
  | observeJobTerminal job status => exact A.observeJobTerminal_sound job status hs
  | stop status => exact A.stopWorkflowRun_sound status hs
  | requestKill => exact A.requestWorkflowKill_sound hs
  | retry => exact A.retryWorkflow_sound hs
  | rerunFrom =>
    exact Sound.bind (A.ask_plain s fun _ => trivial) (fun _ t _ _ _ => A.done_sound _ t) hs
  | rerunTo => exact A.spawnRerun_sound hs

/-- What an account holds to in a state with no call underway, it holds to in every state of a
run, and from each to those after. -/
theorem holds (hs : A.inv s) {e e' : Engine} (hrun : Run (engineStep w) (Calls.Allows ok) ⟨s, []⟩ e)
    (hlater : Run (engineStep w) (Calls.Allows ok) e e') :
    A.inv e.state ∧ A.inv e'.state ∧ A.rely e.state e'.state := by
  obtain ⟨hgood, _⟩ := good_run (good_start (fun c _ ht => A.sound c ht) hs) hrun
  obtain ⟨hgood', hrely⟩ := good_run hgood hlater
  exact ⟨hgood.2.1, hgood'.2.1, hrely⟩

end Sp00ky.ScheduleCore.Account
