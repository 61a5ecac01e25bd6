/-
  `concurrency: skip` (`packages/schedule-core/src/engine.rs`: `spawn_one`, `blocking_run`;
  `workflow.rs`: `retry_workflow`).

  A fire asks for a run of its key that is `running` and, in a second statement, creates its own.
  Between the two another engine's sweep, or a trigger, may have done the same; and a retry reopens
  the run of its workflow whatever runs under the key by then. So two runs of a key can be
  `running` (`skip_overlaps`). As long as what started after a fire's check has ended when the fire
  creates its run, and a retry finds no other run of its key, there is one at most
  (`skip_never_overlaps`): that the check saw none, and what has started since, is all there is to
  know when the run is created.
-/
import Sp00ky.ScheduleCore.ScheduleRuns

namespace Sp00ky.ScheduleCore.Skip

open Lib

/-! ## The table -/

inductive Concurrency where
  | allow | skip | replace
deriving DecidableEq, Repr

/-- One fire of one key. -/
structure Fire where
  runKey : String
  scheduleName : String
  key : String
  kind : ScheduleKind
  jobId : Option String
  failuresOnly : Bool
deriving DecidableEq, Repr

/-- A call of an engine, by the statement it is about to run. -/
inductive Call where
  /-- `spawn_one`, at `SELECT_BLOCKING_RUN` or `SELECT_ACTIVE_RUNS` -/
  | gating (f : Fire)
  /-- at the finalization of the runs it replaces -/
  | replacing (f : Fire) (runs : List String)
  /-- at the record of a fire that is suppressed -/
  | suppressing (f : Fire) (error : RunError)
  /-- at `CREATE_SCHEDULE_RUN`, with the runs that started since its check -/
  | creating (f : Fire) (since : List String)
  /-- `retry_workflow`, at `REOPEN_SCHEDULE_RUN` -/
  | reopening (run : String)
deriving DecidableEq, Repr

structure Table where
  runs : ScheduleRuns
  calls : List Call

inductive Event where
  /-- a claimed fire of a sweep, by the clock or by a trigger -/
  | spawnOne (f : Fire) (quarantined : Bool)
  | retryWorkflow (run : String)
  /-- `FINALIZE_SCHEDULE_RUN`, by a heal, an observer, the reaper or a workflow that ends -/
  | finalize (run : String) (outcome : Outcome) (error : Option RunError)
  | kill (run : String)
  | prune (doomed : List String)
  | delete (run : String)
  | resume (call : Call)
deriving DecidableEq, Repr

/-- The run of an id has started. -/
def Call.note (run : String) : Call → Call
  | .creating f since => .creating f (since ++ [run])
  | call => call

namespace Table

def start : Table := ⟨[], []⟩

def spawn (s : Table) (calls : List Call) : Table := { s with calls := s.calls ++ calls }

/-- A statement has made the run of an id `running`. -/
def started (s : Table) (run : String) (runs : ScheduleRuns) : Table :=
  { s with runs, calls := s.calls.map (·.note run) }

def rowOf (f : Fire) (status : ScheduleRunStatus) (error : Option RunError) : ScheduleRun where
  id := f.runKey
  scheduleName := f.scheduleName
  key := f.key
  kind := f.kind
  status
  error
  jobId := f.jobId
  failuresOnly := f.failuresOnly

/-- A call runs its statement and goes on. -/
def resume (policy : String → Concurrency) (s : Table) : Call → Table
  | .gating f =>
    match policy f.scheduleName with
    | .allow => s.spawn [.creating f []]
    | .skip =>
      match s.runs.blocking f.scheduleName f.key with
      | some blocker => s.spawn [.suppressing f (.skip blocker.id)]
      | none => s.spawn [.creating f []]
    | .replace => s.spawn [.replacing f ((s.runs.active f.scheduleName f.key).map (·.id))]
  | .replacing f [] => s.spawn [.creating f []]
  | .replacing f (run :: runs) =>
    { s with runs := s.runs.finalize run .replaced none }.spawn [.replacing f runs]
  | .suppressing f error =>
    if f.failuresOnly then s
    else match s.runs.create (rowOf f .skipped (some error)) with
      | some runs => { s with runs }
      | none => s
  | .creating f _ =>
    match s.runs.create (rowOf f .running none) with
    | some runs => s.started f.runKey runs
    | none => s
  | .reopening run => s.started run (s.runs.reopen run)

/-- One step; `policy` is the concurrency of each schedule. -/
def step (policy : String → Concurrency) (s : Table) : Event → Option Table
  | .spawnOne f quarantined =>
    if quarantined then some (s.spawn [.suppressing f .quarantine]) else some (s.spawn [.gating f])
  | .retryWorkflow run => some (s.spawn [.reopening run])
  | .finalize run outcome error =>
    some { s with runs := s.runs.finalize run outcome.runStatus error }
  | .kill run => some { s with runs := s.runs.finalize run .killed none }
  | .prune doomed => some { s with runs := s.runs.prune doomed }
  | .delete run => some { s with runs := s.runs.delete run }
  | .resume call =>
    if call ∈ s.calls then some (resume policy { s with calls := s.calls.erase call } call)
    else none

/-- What started after the check of a fire has ended when the fire creates its run, and a retry
reopens a run only when no other of its key is `running`. -/
def Alone (policy : String → Concurrency) (s : Table) (e : Event) : Prop :=
  match e with
  | .resume (.creating f since) => policy f.scheduleName = .skip → f.runKey ∉ s.runs.map (·.id) →
      ∀ r ∈ s.runs.active f.scheduleName f.key, r.id ∉ since
  | .resume (.reopening run) => ∀ r ∈ s.runs, policy r.scheduleName = .skip → r.id = run →
      r.Reopens → s.runs.active r.scheduleName r.key = []
  | _ => True

instance (policy : String → Concurrency) (s : Table) (e : Event) : Decidable (s.Alone policy e) := by
  unfold Alone
  exact match e with
    | .resume (.creating _ _) | .resume (.reopening _) => inferInstance
    | .resume (.gating _) | .resume (.replacing _ _) | .resume (.suppressing _ _)
    | .spawnOne _ _ | .retryWorkflow _ | .finalize _ _ _ | .kill _ | .prune _
    | .delete _ => isTrue trivial

end Table

/-! ## One run of a key -/

/-- A run of the key that is `running` while a fire is past its check started since. -/
def Call.Fits (policy : String → Concurrency) (runs : ScheduleRuns) : Call → Prop
  | .creating f since => policy f.scheduleName = .skip →
    ∀ r ∈ runs.active f.scheduleName f.key, r.id ∈ since
  | .replacing f _ => policy f.scheduleName = .replace
  | .gating _ | .suppressing _ _ | .reopening _ => True

namespace Table

/-- Of a key of a schedule that skips one run is `running` at most. -/
structure Single (policy : String → Concurrency) (s : Table) : Prop where
  nodup : (s.runs.map (·.id)).Nodup
  one : ∀ name key, policy name = .skip → ∀ r ∈ s.runs.active name key,
    ∀ r' ∈ s.runs.active name key, r.id = r'.id
  calls : ∀ call ∈ s.calls, call.Fits policy s.runs

section

variable {policy : String → Concurrency} {s t : Table}

theorem single_start : Table.start.Single policy :=
  ⟨List.nodup_nil, fun _ _ _ _ hr => (by cases hr), fun _ hc => (by cases hc)⟩

theorem fits_shrink {runs runs' : ScheduleRuns} {call : Call} (h : call.Fits policy runs)
    (ha : ∀ name key r, r ∈ runs'.active name key → r ∈ runs.active name key) :
    call.Fits policy runs' := by
  cases call with
  | creating f since => exact fun hskip r hr => h hskip r (ha _ _ r hr)
  | replacing f runs => exact h
  | gating f | suppressing f error | reopening run => trivial

variable {runs : ScheduleRuns}

/-- A table whose `running` runs were `running` before. -/
theorem Single.shrink (h : s.Single policy) (hn : (runs.map (·.id)).Nodup)
    (ha : ∀ name key r, r ∈ runs.active name key → r ∈ s.runs.active name key) :
    Single policy { s with runs } where
  nodup := hn
  one name key hskip r hr r' hr' := h.one name key hskip r (ha _ _ r hr) r' (ha _ _ r' hr')
  calls call hc := fits_shrink (h.calls call hc) ha

theorem Single.sublist (h : s.Single policy)
    (hsub : List.Sublist runs s.runs) : Single policy { s with runs } :=
  h.shrink ((hsub.map _).nodup h.nodup) fun _ _ _ hr => ScheduleRuns.active_of_subset hsub.subset hr

theorem Single.finalize (h : s.Single policy) (run : String) {status : ScheduleRunStatus}
    (error : Option RunError) (hs : status ≠ .running) :
    Single policy { s with runs := s.runs.finalize run status error } := by
  refine h.shrink ?_ fun _ _ _ hr => ScheduleRuns.active_finalize hs hr
  rw [ScheduleRuns.finalize, ScheduleRuns.ids_onRow (ScheduleRun.finalize_id status error)]
  exact h.nodup

theorem Single.spawn (h : s.Single policy) {call : Call} (hc : call.Fits policy s.runs) :
    (s.spawn [call]).Single policy where
  nodup := h.nodup
  one := h.one
  calls c hmem := (List.mem_append.mp hmem).elim (h.calls c) fun hmem =>
    (List.mem_singleton.mp hmem) ▸ hc

/-- A run starts when no other of its key is `running`. -/
theorem Single.started (h : s.Single policy) {run : String}
    (hn : (runs.map (·.id)).Nodup)
    (ha : ∀ name key r, policy name = .skip → r ∈ runs.active name key →
      r ∈ s.runs.active name key ∨ (r.id = run ∧ s.runs.active name key = [])) :
    (s.started run runs).Single policy where
  nodup := hn
  one name key hskip r hr r' hr' := by
    rcases ha name key r hskip hr with hr | ⟨hid, hnone⟩
    · rcases ha name key r' hskip hr' with hr' | ⟨-, hnone⟩
      · exact h.one name key hskip r hr r' hr'
      · rw [hnone] at hr
        cases hr
    · rcases ha name key r' hskip hr' with hr' | ⟨hid', -⟩
      · rw [hnone] at hr'
        cases hr'
      · exact hid.trans hid'.symm
  calls := by
    intro c hmem
    obtain ⟨call, hcall, rfl⟩ := List.mem_map.mp hmem
    have hfits := h.calls call hcall
    cases call with
    | creating f since =>
      intro hskip r hr
      refine List.mem_append.mpr ?_
      rcases ha _ _ r hskip hr with hr | ⟨hid, -⟩
      · exact .inl (hfits hskip r hr)
      · exact .inr (List.mem_singleton.mpr hid)
    | replacing f runs => exact hfits
    | gating f | suppressing f error | reopening run => trivial

/-- A suppressed fire is recorded. -/
theorem Single.suppress (h : s.Single policy) {f : Fire} {error : RunError}
    (hc : s.runs.create (rowOf f .skipped (some error)) = some runs) :
    Single policy { s with runs } := by
  refine h.shrink (ScheduleRuns.nodup_create hc h.nodup) fun name key r hr => ?_
  obtain ⟨hmem, hof, hrun⟩ := ScheduleRuns.mem_active.mp hr
  rcases ScheduleRuns.mem_of_create hc hmem with hmem | rfl
  · exact ScheduleRuns.mem_active.mpr ⟨hmem, hof, hrun⟩
  · cases hrun

/-- A fire creates its run, when what started since its check has ended. -/
theorem Single.create (h : s.Single policy) {f : Fire}
    (hc : s.runs.create (rowOf f .running none) = some runs)
    (hnone : policy f.scheduleName = .skip → s.runs.active f.scheduleName f.key = []) :
    (s.started f.runKey runs).Single policy := by
  refine h.started (ScheduleRuns.nodup_create hc h.nodup) fun name key r hskip hr => ?_
  obtain ⟨hmem, hof, hrun⟩ := ScheduleRuns.mem_active.mp hr
  rcases ScheduleRuns.mem_of_create hc hmem with hmem | rfl
  · exact .inl (ScheduleRuns.mem_active.mpr ⟨hmem, hof, hrun⟩)
  · obtain ⟨rfl, rfl⟩ := hof
    exact .inr ⟨rfl, hnone hskip⟩

/-- A retry reopens its run, when no other of its key is `running`. -/
theorem Single.reopen (h : s.Single policy) {run : String}
    (hok : s.Alone policy (.resume (.reopening run))) :
    (s.started run (s.runs.reopen run)).Single policy := by
  refine h.started ?_ fun name key r hskip hr => ?_
  · rw [ScheduleRuns.reopen, ScheduleRuns.ids_onRow ScheduleRun.reopen_id]
    exact h.nodup
  · obtain ⟨hmem, hof, hrun⟩ := ScheduleRuns.mem_active.mp hr
    rcases ScheduleRuns.mem_reopen hmem with hmem | ⟨r', hr', hid, hre, rfl⟩
    · exact .inl (ScheduleRuns.mem_active.mpr ⟨hmem, hof, hrun⟩)
    · obtain ⟨rfl, rfl⟩ := hof
      exact .inr ⟨hid, hok r' hr' hskip hid hre⟩

theorem Single.resume (h : s.Single policy) {call : Call} (hcall : call ∈ s.calls)
    (hok : s.Alone policy (.resume call)) :
    (Table.resume policy { s with calls := s.calls.erase call } call).Single policy := by
  have hrest : Single policy { s with calls := s.calls.erase call } :=
    ⟨h.nodup, h.one, fun c hc => h.calls c (List.mem_of_mem_erase hc)⟩
  have hfits := h.calls call hcall
  cases call with
  | gating f =>
    simp only [Table.resume]
    split
    next hp => exact hrest.spawn fun hskip => by rw [hp] at hskip; cases hskip
    next =>
      split
      next => exact hrest.spawn trivial
      next hfree =>
        refine hrest.spawn fun _ r hr => ?_
        rw [ScheduleRuns.blocking_eq_none.mp hfree] at hr
        cases hr
    next hp => exact hrest.spawn hp
  | replacing f runs =>
    have hp : policy f.scheduleName = .replace := hfits
    cases runs with
    | nil => exact hrest.spawn fun hskip => by rw [hp] at hskip; cases hskip
    | cons run runs => exact (hrest.finalize run none (by decide)).spawn hp
  | suppressing f error =>
    simp only [Table.resume]
    split
    · exact hrest
    · split
      next hc => exact hrest.suppress hc
      next => exact hrest
  | creating f since =>
    simp only [Table.resume]
    split
    next hc =>
      refine hrest.create hc fun hskip => ?_
      -- the check saw none, and what has started since has ended
      have hnew : f.runKey ∉ s.runs.map (·.id) := by
        intro htaken
        exact absurd hc (by simp [ScheduleRuns.create, rowOf, htaken])
      refine List.eq_nil_iff_forall_not_mem.mpr fun r hr => ?_
      exact hok hskip hnew r hr (hfits hskip r hr)
    next => exact hrest
  | reopening run => exact hrest.reopen hok

theorem Single.step (h : s.Single policy) {e : Event} (hok : s.Alone policy e)
    (ht : Table.step policy s e = some t) : t.Single policy := by
  cases e with
  | spawnOne f quarantined =>
    simp only [Table.step] at ht
    split at ht <;> cases ht
    · exact h.spawn trivial
    · exact h.spawn trivial
  | retryWorkflow run =>
    cases ht
    exact h.spawn trivial
  | finalize run outcome error =>
    cases ht
    exact h.finalize run error (by cases outcome <;> decide)
  | kill run =>
    cases ht
    exact h.finalize run none (by decide)
  | prune doomed | delete run =>
    cases ht
    exact h.sublist List.filter_sublist
  | resume call =>
    simp only [Table.step] at ht
    split at ht
    next hcall =>
      cases ht
      exact h.resume hcall hok
    next => cases ht

/-! ## Runs -/

/-- Rows of one id are one row. -/
theorem Single.length_active (h : s.Single policy) {name : String} (hskip : policy name = .skip)
    (key : String) : (s.runs.active name key).length ≤ 1 := by
  have hn : ((s.runs.active name key).map (·.id)).Nodup :=
    (List.filter_sublist.map _).nodup h.nodup
  have hone := h.one name key hskip
  cases ha : s.runs.active name key with
  | nil => simp
  | cons r l =>
    rw [ha] at hn hone
    have hnone : l = [] := by
      refine List.eq_nil_iff_forall_not_mem.mpr fun r' hr' => ?_
      have hid := hone r List.mem_cons_self r' (List.mem_cons_of_mem _ hr')
      rw [List.map_cons, List.nodup_cons] at hn
      exact hn.1 (hid ▸ List.mem_map_of_mem hr')
    simp [hnone]

end

/-- As long as a fire creates its run when what started since its check has ended, and a retry
reopens one that no other run of its key goes beside, one run of a key is `running` at most. -/
theorem skip_never_overlaps (policy : String → Concurrency) (s : Table)
    (hrun : Run (Table.step policy) (Table.Alone policy) Table.start s) (name key : String)
    (hskip : policy name = .skip) : (s.runs.active name key).length ≤ 1 := by
  have hsingle : s.Single policy :=
    hrun.invariant single_start fun _ _ _ h hok hstep => h.step hok hstep
  exact hsingle.length_active hskip key

/-! ## Two runs of a key -/

def nightly (runKey : String) : Fire := ⟨runKey, "nightly", "", .workflow, none, false⟩

def skips : String → Concurrency := fun _ => .skip

/-- A fire of the key that runs by itself. -/
def fireAlone (runKey : String) : List Event :=
  [.spawnOne (nightly runKey) false, .resume (.gating (nightly runKey)),
    .resume (.creating (nightly runKey) [])]

/-- Two fires with both checks before the creations. -/
def fireTwice : List Event :=
  [.spawnOne (nightly "a") false, .spawnOne (nightly "b") false,
    .resume (.gating (nightly "a")), .resume (.gating (nightly "b")),
    .resume (.creating (nightly "a") []), .resume (.creating (nightly "b") ["a"])]

/-- A run that failed is retried. -/
def retryAfter (between : List Event) : List Event :=
  fireAlone "a" ++ [.finalize "a" .failed none] ++ between ++
    [.retryWorkflow "a", .resume (.reopening "a")]

/-- A run that is retried while no other run of its key is on. -/
theorem skip_never_overlaps_retry : ∃ s : Table,
    Run (Table.step skips) (Table.Alone skips) Table.start s ∧
    s.runs.any (fun r => r.id = "a" ∧ r.status = .running) = true ∧
    (s.runs.active "nightly" "").length ≤ 1 := by
  have hrun : (runAll (Table.step skips) (fun s e => decide (s.Alone skips e)) Table.start
      (retryAfter [])).any
        (fun s => s.runs.any fun r => r.id = "a" ∧ r.status = .running) = true := by
    decide +kernel
  obtain ⟨s, hs, hall⟩ := exists_run hrun
  have hin : Run (Table.step skips) (Table.Alone skips) Table.start s :=
    hs.mono fun _ _ => of_decide_eq_true
  exact ⟨s, hin, hall, skip_never_overlaps skips s hin "nightly" "" rfl⟩

/-- Two sweeps that check before either creates its run leave two, and so does a retry of a run
whose key has fired again. -/
theorem skip_overlaps :
    (∃ s : Table, Run (Table.step skips) (fun _ _ => True) Table.start s ∧
      (s.runs.active "nightly" "").map (·.id) = ["a", "b"]) ∧
    ¬ ∀ s : Table, Run (Table.step skips) (fun _ _ => True) Table.start s →
      ∀ name key, skips name = .skip → (s.runs.active name key).length ≤ 1 := by
  have hrace : (runAll (Table.step skips) (fun _ _ => true) Table.start fireTwice).any
      (fun s => (s.runs.active "nightly" "").map (·.id) = ["a", "b"]) = true := by decide +kernel
  have hretry : (runAll (Table.step skips) (fun _ _ => true) Table.start
      (retryAfter (fireAlone "b"))).any
        (fun s => (s.runs.active "nightly" "").length = 2) = true := by decide +kernel
  obtain ⟨s, hs, htwo⟩ := exists_freeRun hrace
  obtain ⟨t, ht, hlength⟩ := exists_freeRun hretry
  refine ⟨⟨s, hs, of_decide_eq_true htwo⟩, fun h => ?_⟩
  have hone := h t ht "nightly" "" rfl
  rw [of_decide_eq_true hlength] at hone
  omega

end Table

end Sp00ky.ScheduleCore.Skip
