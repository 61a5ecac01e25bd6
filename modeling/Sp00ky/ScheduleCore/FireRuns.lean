/-
  What a claimed fire leaves.

  A run's id is made of the time of the sweep, so a fire finds its id taken when another fire of
  the schedule in the sweep, or in one of the same millisecond, had the key. Its creation is then
  refused, after `replace` has stopped what ran under the key; and a key that comes twice lets
  `replace` stop the fire's own run (`fire_without_run`). As long as the ids are free, or what is
  there is discarded as it is replaced, and under `replace` no key comes again while its run is
  on, each key has one run that the fire made, and did not stop (`fires_leave_their_runs`).

  The proof goes along the keys: what is ready stays so while other keys are handled, and what is
  done too.
-/
import Sp00ky.ScheduleCore.Fires

namespace Sp00ky.ScheduleCore

open Lib
open Skip (Concurrency)

/-! ## The rows of an id -/

namespace ScheduleRuns

def under (runs : ScheduleRuns) (id : String) : ScheduleRuns := runs.filter fun r => r.id = id

section

variable {runs : ScheduleRuns} {r : ScheduleRun} {id i : String}

theorem mem_under : r ∈ runs.under id ↔ r ∈ runs ∧ r.id = id := by
  unfold under
  rw [List.mem_filter, decide_eq_true_iff]

theorem of_runningRow (h : runs.runningRow id = some r) :
    r ∈ runs.under id ∧ r.status = .running := by
  unfold runningRow at h
  have hp := List.find?_some h
  obtain ⟨hid, hrun⟩ := of_decide_eq_true hp
  exact ⟨mem_under.mpr ⟨List.mem_of_find?_eq_some h, hid⟩, hrun⟩

theorem under_eq_nil : runs.under id = [] ↔ id ∉ runs.map (·.id) := by
  constructor
  · intro h hmem
    obtain ⟨r, hr, rfl⟩ := List.mem_map.mp hmem
    have hin : r ∈ runs.under r.id := mem_under.mpr ⟨hr, rfl⟩
    rw [h] at hin
    cases hin
  · intro h
    refine List.eq_nil_iff_forall_not_mem.mpr fun r hr => h ?_
    obtain ⟨hmem, rfl⟩ := mem_under.mp hr
    exact List.mem_map_of_mem hmem

theorem create_eq_none : runs.create r = none ↔ runs.under r.id ≠ [] := by
  rw [Ne, under_eq_nil, Decidable.not_not]
  unfold create
  split
  next h => exact ⟨fun _ => h, fun _ => rfl⟩
  next h => exact ⟨fun hn => (by cases hn), fun hin => absurd hin h⟩

theorem under_create {runs' : ScheduleRuns} (h : runs.create r = some runs') (i : String) :
    runs'.under i = if i = r.id then [r] else runs.under i := by
  unfold create at h
  split at h
  next => cases h
  next hnew =>
    cases h
    rw [under, List.filter_append]
    split
    next hi =>
      subst hi
      have hnil : runs.under r.id = [] := under_eq_nil.mpr hnew
      rw [under] at hnil
      rw [hnil]
      simp
    next hi =>
      rw [List.filter_singleton]
      simp [under, Ne.symm hi]

theorem under_onRow {change : ScheduleRun → ScheduleRun} (hid : ∀ r, (change r).id = r.id) :
    (runs.onRow id change).under i = if i = id then (runs.under id).map change else runs.under i := by
  induction runs with
  | nil => simp [onRow, under]
  | cons r runs ih =>
    unfold onRow under at ih ⊢
    rw [List.map_cons, List.filter_cons, ih]
    by_cases hr : r.id = id
    · by_cases hi : i = id
      · subst hi
        simp [hr, hid]
      · have hne : ¬ r.id = i := fun h => hi (h.symm.trans hr)
        simp [hr, hid, hi, Ne.symm hi]
    · by_cases hi : i = id
      · subst hi
        simp [hr]
      · simp [hr, hi, List.filter_cons]

theorem under_finalize (status : ScheduleRunStatus) (error : Option RunError) :
    (runs.finalize id status error).under i =
      if i = id then (runs.under id).map (·.finalize status error) else runs.under i :=
  under_onRow (ScheduleRun.finalize_id status error)

theorem under_delete : (runs.delete id).under i = if i = id then [] else runs.under i := by
  unfold under delete
  rw [List.filter_filter]
  split
  next hi =>
    subst hi
    refine List.filter_eq_nil_iff.mpr fun r _ => ?_
    simp
  next hi =>
    refine List.filter_congr fun r _ => ?_
    by_cases hr : r.id = i
    · simp [hr, hi]
    · simp [hr]

end

end ScheduleRuns

namespace Fires

/-! ## Conditions -/

def ScheduleSpec.Startable (spec : ScheduleSpec) : Prop :=
  match spec.work with
  | .job table path => table.isSome ∧ path.isSome
  | .workflow valid => valid

instance (spec : ScheduleSpec) : Decidable spec.Startable := by
  unfold ScheduleSpec.Startable
  exact match spec.work with
    | .job _ _ => inferInstance
    | .workflow _ => inferInstance

section

variable (cfg : EngineConfig)

namespace Fire

variable (f : Fire) (s : Tables) (key : String)

/-- There is no run under the id, but one that is discarded as it is replaced. -/
def Free : Prop :=
  ∀ r ∈ s.runs.under (f.id cfg key), f.spec.concurrency = .replace ∧ r.IsOf f.spec.name key ∧
    r.status = .running ∧ r.failuresOnly = true ∧ ¬ s.Live (f.id cfg key)

/-- How the first pass will end the run. -/
def firstEnd : Option Outcome :=
  match f.spec.work with
  | .workflow _ =>
    if (EntryMap.get s.workflowRuns (f.id cfg key)).all (· = .running) then
      f.firstPass (f.id cfg key)
    else none
  | .job _ _ => none

/-- `skip` finds another run of the key. -/
def Suppressed : Prop :=
  f.spec.concurrency = .skip ∧ ∃ r ∈ s.runs, r.IsOf f.spec.name key ∧ r.status = .running

/-- What the key needs to get its run, when these keys are still to come. -/
structure ReadyFor (todo : List String) : Prop where
  free : f.Free cfg s key
  recorded : f.Suppressed s key → f.spec.failuresOnly = false
  starts : ¬ f.Suppressed s key → f.spec.Startable ∧
    (f.firstEnd cfg s key = some .success → f.spec.failuresOnly = false)
  once : f.spec.concurrency = .replace → todo.count key = 1 ∨ (f.firstEnd cfg s key).isSome

/-- The rows are within the fan-out limit, or bring no key of their own; no two keys have one id;
and each key is ready. -/
structure Ready : Prop where
  fits : ∀ key ∈ f.keys, key ∈ f.kept cfg
  distinct : ∀ key ∈ f.kept cfg, ∀ key' ∈ f.kept cfg, f.id cfg key = f.id cfg key' → key = key'
  ready : ∀ key ∈ f.kept cfg, f.ReadyFor cfg s key (f.kept cfg)

end Fire

instance (f : Fire) (s : Tables) (key : String) : Decidable (f.Free cfg s key) :=
  inferInstanceAs (Decidable (∀ _ ∈ _, _))

instance (f : Fire) (s : Tables) (key : String) : Decidable (f.Suppressed s key) :=
  inferInstanceAs (Decidable (_ ∧ ∃ _ ∈ _, _))

instance (f : Fire) (s : Tables) (key : String) (todo : List String) :
    Decidable (f.ReadyFor cfg s key todo) :=
  decidable_of_iff
    (f.Free cfg s key ∧ (f.Suppressed s key → f.spec.failuresOnly = false) ∧
      (¬ f.Suppressed s key → f.spec.Startable ∧
        (f.firstEnd cfg s key = some .success → f.spec.failuresOnly = false)) ∧
      (f.spec.concurrency = .replace → todo.count key = 1 ∨ (f.firstEnd cfg s key).isSome))
    ⟨fun h => ⟨h.1, h.2.1, h.2.2.1, h.2.2.2⟩, fun h => ⟨h.free, h.recorded, h.starts, h.once⟩⟩

instance (f : Fire) (s : Tables) : Decidable (f.Ready cfg s) :=
  decidable_of_iff
    ((∀ key ∈ f.keys, key ∈ f.kept cfg) ∧
      (∀ key ∈ f.kept cfg, ∀ key' ∈ f.kept cfg, f.id cfg key = f.id cfg key' → key = key') ∧
      ∀ key ∈ f.kept cfg, f.ReadyFor cfg s key (f.kept cfg))
    ⟨fun h => ⟨h.1, h.2.1, h.2.2⟩, fun h => ⟨h.fits, h.distinct, h.ready⟩⟩

/-- For each key the fire made one run, which is there, and which it did not stop. -/
def Fired.LeavesItsRuns (g : Fired) : Prop :=
  ∀ key ∈ g.fire.keys, g.made.count key = 1 ∧ ∃ r, g.after.runs.under (g.fire.id cfg key) = [r] ∧
    r.IsOf g.fire.spec.name key ∧
    (g.fire.spec.concurrency ≠ .skip → r.status ≠ .killed ∧ r.status ≠ .replaced)

end

/-! ## What a finalization and a replace touch -/

namespace Tables

/-- Nothing has happened under an id. -/
structure Same (s t : Tables) (i : String) : Prop where
  rows : t.runs.under i = s.runs.under i
  linked : i ∈ t.linked ↔ i ∈ s.linked
  run : EntryMap.get t.workflowRuns i = EntryMap.get s.workflowRuns i

variable {s t u : Tables} {i id : String}

theorem Same.refl (s : Tables) (i : String) : Same s s i := ⟨rfl, Iff.rfl, rfl⟩

theorem Same.trans (h : Same s t i) (h' : Same t u i) : Same s u i :=
  ⟨h'.rows.trans h.rows, h'.linked.trans h.linked, h'.run.trans h.run⟩

theorem Same.live (h : Same s t i) : t.Live i ↔ s.Live i := by
  unfold Live
  rw [h.linked, h.run]

theorem finalizeScheduleRun_linked (s : Tables) (id : String) (status : ScheduleRunStatus) :
    (s.finalizeScheduleRun id status).linked = s.linked := by
  unfold finalizeScheduleRun
  dsimp only
  split
  · rfl
  · split <;> rfl

theorem finalizeScheduleRun_workflowRuns (s : Tables) (id : String) (status : ScheduleRunStatus) :
    (s.finalizeScheduleRun id status).workflowRuns = s.workflowRuns := by
  unfold finalizeScheduleRun
  dsimp only
  split
  · rfl
  · split <;> rfl

theorem same_finalizeScheduleRun (s : Tables) (status : ScheduleRunStatus) (hi : i ≠ id) :
    Same s (s.finalizeScheduleRun id status) i := by
  refine ⟨?_, by rw [finalizeScheduleRun_linked], by rw [finalizeScheduleRun_workflowRuns]⟩
  unfold finalizeScheduleRun
  dsimp only
  split
  · rw [ScheduleRuns.under_finalize, if_neg hi]
  · split
    · rw [ScheduleRuns.under_delete, if_neg hi, ScheduleRuns.under_finalize, if_neg hi]
    · rw [ScheduleRuns.under_finalize, if_neg hi]

/-- What is under the id is finalized, or discarded. -/
theorem under_finalizeScheduleRun (s : Tables) (id : String) (status : ScheduleRunStatus) :
    (s.finalizeScheduleRun id status).runs.under id =
        (s.runs.under id).map (·.finalize status none) ∨
      (s.finalizeScheduleRun id status).runs.under id = [] ∧ status.successShaped = true ∧
        ∃ r ∈ s.runs.under id, r.failuresOnly = true := by
  unfold finalizeScheduleRun
  dsimp only
  split
  next =>
    left
    rw [ScheduleRuns.under_finalize, if_pos rfl]
  next row hrow =>
    split
    next hdiscard =>
      obtain ⟨honly, hshaped⟩ := Bool.and_eq_true_iff.mp hdiscard
      exact .inr ⟨by rw [ScheduleRuns.under_delete, if_pos rfl], hshaped, row,
        (ScheduleRuns.of_runningRow hrow).1, honly⟩
    next =>
      left
      rw [ScheduleRuns.under_finalize, if_pos rfl]

theorem same_requestWorkflowKill (s : Tables) (hi : i ≠ id) :
    Same s (s.requestWorkflowKill id) i := by
  unfold requestWorkflowKill
  split
  · have hkilled : Same s
        { s with workflowRuns := EntryMap.set s.workflowRuns id .killed } i :=
      ⟨rfl, Iff.rfl, by rw [EntryMap.get_set, if_neg hi]⟩
    exact hkilled.trans (same_finalizeScheduleRun _ _ hi)
  · exact Same.refl s i

theorem get_createWorkflowRun (s : Tables) (id i : String) :
    EntryMap.get (s.createWorkflowRun id).workflowRuns i =
      if i = id then (EntryMap.get s.workflowRuns id).or (some .running)
      else EntryMap.get s.workflowRuns i := by
  unfold createWorkflowRun
  dsimp only
  split
  next hthere =>
    obtain ⟨status, hget⟩ := Option.isSome_iff_exists.mp hthere
    rw [hget]
    split
    next hi => rw [hi, hget]; rfl
    next => rfl
  next hnone =>
    rw [EntryMap.get_set, Option.not_isSome_iff_eq_none.mp hnone]
    rfl

theorem same_createWorkflowRun (s : Tables) (hi : i ≠ id) : Same s (s.createWorkflowRun id) i :=
  ⟨rfl, by simp [createWorkflowRun, hi], by rw [get_createWorkflowRun, if_neg hi]⟩

theorem same_killJob (s : Tables) (job : Option String) (i : String) : Same s (s.killJob job) i :=
  ⟨rfl, Iff.rfl, rfl⟩

theorem same_replaceRun (s : Tables) {r : ScheduleRun} (hi : i ≠ r.id) : Same s (s.replaceRun r) i :=
  ((same_killJob s r.jobId i).trans (same_requestWorkflowKill _ hi)).trans
    (same_finalizeScheduleRun _ _ hi)

theorem same_replaceRuns (s : Tables) {runs : List ScheduleRun} (h : ∀ r ∈ runs, i ≠ r.id) :
    Same s (runs.foldl replaceRun s) i := by
  induction runs generalizing s with
  | nil => exact Same.refl s i
  | cons r runs ih =>
    exact (same_replaceRun s (h r List.mem_cons_self)).trans
      (ih _ (List.forall_mem_cons.mp h).2)

theorem same_replaceActiveRuns (s : Tables) {name key : String}
    (h : ∀ r ∈ s.runs.under i, ¬ r.IsOf name key) : Same s (s.replaceActiveRuns name key) i := by
  refine same_replaceRuns s fun r hr hi => ?_
  obtain ⟨hmem, hof, -⟩ := ScheduleRuns.mem_active.mp hr
  exact h r (ScheduleRuns.mem_under.mpr ⟨hmem, hi.symm⟩) hof

/-- What is discarded as it is replaced leaves its id free. -/
theorem under_replaceRun {r : ScheduleRun} (hi : r.id = i) (hlive : ¬ s.Live i)
    (h : ∀ r ∈ s.runs.under i, r.status = .running ∧ r.failuresOnly = true) :
    (s.replaceRun r).runs.under i = [] := by
  subst hi
  have hkill : (s.killJob r.jobId).requestWorkflowKill r.id = s.killJob r.jobId := if_neg hlive
  unfold replaceRun
  rw [hkill]
  unfold finalizeScheduleRun
  dsimp only
  split
  next hnone =>
    rw [ScheduleRuns.finalize_of_runningRow hnone]
    refine List.eq_nil_iff_forall_not_mem.mpr fun r' hr' => ?_
    have hrow := List.find?_eq_none.mp hnone r' (ScheduleRuns.mem_under.mp hr').1
    exact hrow (decide_eq_true ⟨(ScheduleRuns.mem_under.mp hr').2, (h r' hr').1⟩)
  next row hrow =>
    have honly := (h row (ScheduleRuns.of_runningRow hrow).1).2
    rw [if_pos (by rw [honly]; rfl), ScheduleRuns.under_delete, if_pos rfl]

theorem same_run_replaceRun (s : Tables) (r : ScheduleRun) (hlive : ¬ s.Live i) :
    (i ∈ (s.replaceRun r).linked ↔ i ∈ s.linked) ∧
      EntryMap.get (s.replaceRun r).workflowRuns i = EntryMap.get s.workflowRuns i := by
  by_cases hi : i = r.id
  · subst hi
    have hkill : (s.killJob r.jobId).requestWorkflowKill r.id = s.killJob r.jobId := if_neg hlive
    unfold replaceRun
    rw [hkill, finalizeScheduleRun_linked, finalizeScheduleRun_workflowRuns]
    exact ⟨Iff.rfl, rfl⟩
  · exact ⟨(same_replaceRun s hi).linked, (same_replaceRun s hi).run⟩

theorem under_replaceRuns {runs : List ScheduleRun} (hlive : ¬ s.Live i)
    (h : ∀ r ∈ s.runs.under i, r.status = .running ∧ r.failuresOnly = true)
    (hin : s.runs.under i = [] ∨ ∃ r ∈ runs, r.id = i) :
    (runs.foldl replaceRun s).runs.under i = [] ∧
      EntryMap.get (runs.foldl replaceRun s).workflowRuns i = EntryMap.get s.workflowRuns i := by
  induction runs generalizing s with
  | nil =>
    rcases hin with hin | ⟨r, hr, -⟩
    · exact ⟨hin, rfl⟩
    · cases hr
  | cons r runs ih =>
    obtain ⟨hlinked, hrun⟩ := same_run_replaceRun s r hlive
    have hlive' : ¬ (s.replaceRun r).Live i := by
      unfold Live
      rw [hlinked, hrun]
      exact hlive
    rw [List.foldl_cons, ← hrun]
    by_cases hi : r.id = i
    · have hnil := under_replaceRun hi hlive h
      exact ih hlive' (by rw [hnil]; exact fun _ hr => by cases hr) (.inl hnil)
    · have hsame := same_replaceRun s (Ne.symm hi)
      refine ih hlive' (by rw [hsame.rows]; exact h) ?_
      rw [hsame.rows]
      refine hin.imp_right fun ⟨r', hr', hi'⟩ => ⟨r', ?_, hi'⟩
      refine (List.mem_cons.mp hr').resolve_left ?_
      rintro rfl
      exact hi hi'

theorem under_replaceActiveRuns {name key : String} (hlive : ¬ s.Live i)
    (h : ∀ r ∈ s.runs.under i, r.IsOf name key ∧ r.status = .running ∧ r.failuresOnly = true) :
    (s.replaceActiveRuns name key).runs.under i = [] ∧
      EntryMap.get (s.replaceActiveRuns name key).workflowRuns i = EntryMap.get s.workflowRuns i := by
  refine under_replaceRuns hlive (fun r hr => (h r hr).2) ?_
  cases hrows : s.runs.under i with
  | nil => exact .inl rfl
  | cons r rows =>
    have hr : r ∈ s.runs.under i := by rw [hrows]; exact List.mem_cons_self
    obtain ⟨hmem, hid⟩ := ScheduleRuns.mem_under.mp hr
    exact .inr ⟨r, ScheduleRuns.mem_active.mpr ⟨hmem, (h r hr).1, (h r hr).2.1⟩, hid⟩

end Tables

/-! ## One key -/

namespace Fire

variable {cfg : EngineConfig} {f : Fire} {s t : Tables} {key i : String}

open Tables (Same)

theorem same_startWorkflow (s : Tables) (hi : i ≠ f.id cfg key) :
    Same s (f.startWorkflow cfg s key) i := by
  have hcreated := Tables.same_createWorkflowRun s hi
  unfold startWorkflow
  dsimp only
  split
  · split
    · exact hcreated
    next outcome _ =>
      have hended : Same s
          { s.createWorkflowRun (f.id cfg key) with
            workflowRuns := EntryMap.set (s.createWorkflowRun (f.id cfg key)).workflowRuns
              (f.id cfg key) (endStatus outcome) } i :=
        ⟨hcreated.rows, hcreated.linked, by rw [EntryMap.get_set, if_neg hi]; exact hcreated.run⟩
      exact hended.trans (Tables.same_finalizeScheduleRun _ _ hi)
  · exact hcreated

theorem same_create {r : ScheduleRun} {runs : ScheduleRuns} (hc : s.runs.create r = some runs)
    (hi : i ≠ r.id) : Same s { s with runs } i :=
  ⟨by rw [ScheduleRuns.under_create hc, if_neg hi], Iff.rfl, rfl⟩

theorem same_spawn (s : Tables) (hi : i ≠ f.id cfg key) : Same s (f.spawn cfg s key).1 i := by
  unfold spawn
  split
  · dsimp only
    split
    next hc =>
      have hcreated := same_create hc hi
      exact ⟨hcreated.rows, Iff.rfl, rfl⟩
    next => exact Same.refl s i
  · split
    next hc => exact (same_create hc hi).trans (same_startWorkflow _ hi)
    next => exact Same.refl s i
  · exact Same.refl s i
  · exact Same.refl s i

theorem same_skip (s : Tables) (hi : i ≠ f.id cfg key) : Same s (f.skip cfg s key).1 i := by
  unfold skip
  split
  · exact Same.refl s i
  · split
    next hc => exact same_create hc hi
    next => exact Same.refl s i

/-- A fire touches what has the id of the key, and under `replace` what ran under the key. -/
theorem same_spawnOne (s : Tables) (hi : i ≠ f.id cfg key)
    (h : f.spec.concurrency = .replace → ∀ r ∈ s.runs.under i, ¬ r.IsOf f.spec.name key) :
    Same s (f.spawnOne cfg s key).1 i := by
  unfold spawnOne
  split
  · exact same_spawn s hi
  · split
    · exact same_skip s hi
    · exact same_spawn s hi
  next hp => exact (Tables.same_replaceActiveRuns s (h hp)).trans (same_spawn _ hi)

/-! ### A taken id -/

theorem spawn_taken (h : s.runs.under (f.id cfg key) ≠ []) : f.spawn cfg s key = (s, false) := by
  have hnone : ∀ status job, s.runs.create (f.row cfg key status job) = none :=
    fun _ _ => ScheduleRuns.create_eq_none.mpr h
  unfold spawn
  split
  · dsimp only
    rw [hnone]
  · rw [hnone]
  · rfl
  · rfl

theorem skip_taken (h : s.runs.under (f.id cfg key) ≠ []) : f.skip cfg s key = (s, false) := by
  have hnone : s.runs.create (f.row cfg key .skipped none) = none :=
    ScheduleRuns.create_eq_none.mpr h
  unfold skip
  rw [hnone]
  split <;> rfl

/-! ### A free id -/

theorem create_free (h : s.runs.under (f.id cfg key) = []) (status : ScheduleRunStatus)
    (job : Option String) : ∃ runs, s.runs.create (f.row cfg key status job) = some runs ∧
      runs.under (f.id cfg key) = [f.row cfg key status job] := by
  have hid : (f.row cfg key status job).id = f.id cfg key := by unfold row; rfl
  cases hc : s.runs.create (f.row cfg key status job) with
  | none =>
    have hne := ScheduleRuns.create_eq_none.mp hc
    rw [hid] at hne
    exact absurd h hne
  | some runs =>
    refine ⟨runs, rfl, ?_⟩
    rw [ScheduleRuns.under_create hc, if_pos hid.symm]

theorem skip_made (h : s.runs.under (f.id cfg key) = []) (hall : f.spec.failuresOnly = false) :
    (f.skip cfg s key).2 = true ∧
      (f.skip cfg s key).1.runs.under (f.id cfg key) = [f.row cfg key .skipped none] := by
  obtain ⟨runs, hc, hunder⟩ := create_free h .skipped none
  unfold skip
  rw [hall, hc]
  exact ⟨rfl, hunder⟩

/-- What became of a run that the fire has just made. -/
structure Made (f : Fire) (key : String) (ended : Bool) (r : ScheduleRun) : Prop where
  isOf : r.IsOf f.spec.name key
  kept : r.status ≠ .killed ∧ r.status ≠ .replaced
  ended : ended = true → r.status ≠ .running

theorem startWorkflow_made {runs : ScheduleRuns} {valid : Bool}
    (hwork : f.spec.work = .workflow valid)
    (hunder : runs.under (f.id cfg key) = [f.row cfg key .running none])
    (hend : f.firstEnd cfg s key = some .success → f.spec.failuresOnly = false) :
    ∃ r, (f.startWorkflow cfg { s with runs } key).runs.under (f.id cfg key) = [r] ∧
      f.Made key (f.firstEnd cfg s key).isSome r := by
  have hfirst : f.firstEnd cfg s key =
      if (EntryMap.get s.workflowRuns (f.id cfg key)).all (· = .running) then
        f.firstPass (f.id cfg key) else none := by
    unfold firstEnd
    rw [hwork]
  have hrun : EntryMap.get ({ s with runs }.createWorkflowRun (f.id cfg key)).workflowRuns
      (f.id cfg key) = some .running ↔
      (EntryMap.get s.workflowRuns (f.id cfg key)).all (· = .running) = true := by
    rw [Tables.get_createWorkflowRun, if_pos rfl]
    cases EntryMap.get s.workflowRuns (f.id cfg key) <;> simp
  unfold startWorkflow
  dsimp only
  split
  next hrunning =>
    rw [if_pos (hrun.mp hrunning)] at hfirst
    split
    next hnone =>
      rw [hnone] at hfirst
      rw [hfirst]
      exact ⟨_, hunder, ⟨rfl, rfl⟩, ⟨by simp [row], by simp [row]⟩, fun h => by cases h⟩
    next outcome hsome =>
      rw [hsome] at hfirst
      rcases Tables.under_finalizeScheduleRun
        { { s with runs }.createWorkflowRun (f.id cfg key) with
          workflowRuns := EntryMap.set ({ s with runs }.createWorkflowRun
            (f.id cfg key)).workflowRuns (f.id cfg key) (endStatus outcome) }
        (f.id cfg key) outcome.runStatus with hrows | ⟨-, hshaped, r, hr, honly⟩
      · refine ⟨_, hrows.trans (congrArg _ hunder), ⟨rfl, rfl⟩, ?_, fun _ => ?_⟩ <;>
          cases outcome <;> simp [ScheduleRun.finalize, row, Outcome.runStatus]
      · -- only what went well is discarded
        have hr : r ∈ [f.row cfg key .running none] := hunder ▸ hr
        have hsame : r = f.row cfg key .running none := List.mem_singleton.mp hr
        subst hsame
        cases outcome with
        | success =>
          have hall := hend hfirst
          have honly : f.spec.failuresOnly = true := honly
          rw [hall] at honly
          cases honly
        | failed => cases hshaped
  next hno =>
    rw [if_neg fun h => hno (hrun.mpr h)] at hfirst
    rw [hfirst]
    exact ⟨_, hunder, ⟨rfl, rfl⟩, ⟨by simp [row], by simp [row]⟩, fun h => by cases h⟩

theorem spawn_made (h : s.runs.under (f.id cfg key) = []) (hstart : f.spec.Startable)
    (hend : f.firstEnd cfg s key = some .success → f.spec.failuresOnly = false) :
    (f.spawn cfg s key).2 = true ∧
      ∃ r, (f.spawn cfg s key).1.runs.under (f.id cfg key) = [r] ∧
        f.Made key (f.firstEnd cfg s key).isSome r := by
  unfold spawn
  unfold ScheduleSpec.Startable at hstart
  split
  next table path hwork =>
    obtain ⟨runs, hc, hunder⟩ := create_free h .running (some (f.job cfg table key))
    dsimp only
    rw [hc]
    have hfirst : f.firstEnd cfg s key = none := by
      unfold firstEnd
      rw [hwork]
    rw [hfirst]
    exact ⟨rfl, _, hunder, ⟨rfl, rfl⟩, ⟨by simp [row], by simp [row]⟩, fun h => by cases h⟩
  next hwork =>
    obtain ⟨runs, hc, hunder⟩ := create_free h .running none
    rw [hc]
    exact ⟨rfl, startWorkflow_made hwork hunder hend⟩
  next table path hno hwork =>
    rw [hwork] at hstart
    obtain ⟨table, rfl⟩ := Option.isSome_iff_exists.mp hstart.1
    obtain ⟨path, rfl⟩ := Option.isSome_iff_exists.mp hstart.2
    exact (hno table path rfl rfl).elim
  next hwork =>
    rw [hwork] at hstart
    cases hstart

/-! ### A step -/

/-- The key has its run, and nothing to come stops it. -/
def Done (cfg : EngineConfig) (f : Fire) (s : Tables) (todo : List String) (key : String) : Prop :=
  ∃ r, s.runs.under (f.id cfg key) = [r] ∧ r.IsOf f.spec.name key ∧
    (f.spec.concurrency ≠ .skip → r.status ≠ .killed ∧ r.status ≠ .replaced) ∧
    (f.spec.concurrency = .replace → r.status = .running → key ∉ todo)

theorem blocking_isSome {name : String} :
    (s.runs.blocking name key).isSome ↔ ∃ r ∈ s.runs, r.IsOf name key ∧ r.status = .running := by
  rw [← Option.ne_none_iff_isSome, Ne, ScheduleRuns.blocking_eq_none]
  constructor
  · intro h
    obtain ⟨r, hr⟩ := List.exists_mem_of_ne_nil _ h
    exact ⟨r, ScheduleRuns.mem_active.mp hr⟩
  · rintro ⟨r, hr⟩ hnil
    have hin := ScheduleRuns.mem_active.mpr hr
    rw [hnil] at hin
    cases hin

variable {todo : List String}

/-- A key that is ready gets its run. -/
theorem spawnOne_ready (h : f.ReadyFor cfg s key (key :: todo)) :
    (f.spawnOne cfg s key).2 = true ∧ Done cfg f (f.spawnOne cfg s key).1 todo key := by
  have hfree : f.spec.concurrency ≠ .replace → s.runs.under (f.id cfg key) = [] := fun hp =>
    List.eq_nil_iff_forall_not_mem.mpr fun r hr => hp (h.free r hr).1
  have hdone : ∀ {t ended}, f.spec.concurrency ≠ .replace →
      (∃ r, t.runs.under (f.id cfg key) = [r] ∧ f.Made key ended r) → Done cfg f t todo key := by
    rintro t ended hp ⟨r, hr, hmade⟩
    exact ⟨r, hr, hmade.isOf, fun _ => hmade.kept, fun hp' => absurd hp' hp⟩
  unfold spawnOne
  split
  next hp =>
    have hno : ¬ f.Suppressed s key := fun hs => by rw [hs.1] at hp; cases hp
    obtain ⟨hmade, hrun⟩ := spawn_made (hfree (by simp [hp])) (h.starts hno).1 (h.starts hno).2
    exact ⟨hmade, hdone (by simp [hp]) hrun⟩
  next hp =>
    have hunder := hfree (by simp [hp])
    split
    next blocker hb =>
      have hs : f.Suppressed s key := ⟨hp, blocking_isSome.mp (by rw [hb]; rfl)⟩
      obtain ⟨hmade, hrow⟩ := skip_made hunder (h.recorded hs)
      exact ⟨hmade, _, hrow, ⟨rfl, rfl⟩, fun hne => absurd hp hne, fun hr => by rw [hp] at hr; cases hr⟩
    next hb =>
      have hno : ¬ f.Suppressed s key := fun hs => by
        have hsome := blocking_isSome.mpr hs.2
        rw [hb] at hsome
        cases hsome
      obtain ⟨hmade, hrun⟩ := spawn_made hunder (h.starts hno).1 (h.starts hno).2
      exact ⟨hmade, hdone (by simp [hp]) hrun⟩
  next hp =>
    have hno : ¬ f.Suppressed s key := fun hs => by rw [hs.1] at hp; cases hp
    -- what is replaced leaves the id free, and the workflow run of the id as it is
    have hclear : (s.replaceActiveRuns f.spec.name key).runs.under (f.id cfg key) = [] ∧
        EntryMap.get (s.replaceActiveRuns f.spec.name key).workflowRuns (f.id cfg key) =
          EntryMap.get s.workflowRuns (f.id cfg key) := by
      cases hrows : s.runs.under (f.id cfg key) with
      | nil =>
        have hsame : Same s (s.replaceActiveRuns f.spec.name key) (f.id cfg key) :=
          Tables.same_replaceActiveRuns s (by rw [hrows]; exact fun _ hr => by cases hr)
        exact ⟨hsame.rows.trans hrows, hsame.run⟩
      | cons r rows =>
        have hr : r ∈ s.runs.under (f.id cfg key) := by rw [hrows]; exact List.mem_cons_self
        refine Tables.under_replaceActiveRuns (h.free r hr).2.2.2.2 fun r' hr' => ?_
        obtain ⟨-, hof, hrun, honly, -⟩ := h.free r' hr'
        exact ⟨hof, hrun, honly⟩
    have hend : f.firstEnd cfg (s.replaceActiveRuns f.spec.name key) key = f.firstEnd cfg s key := by
      unfold firstEnd
      rw [hclear.2]
    obtain ⟨hstart, hends⟩ := h.starts hno
    obtain ⟨hmade, r, hrow, hr⟩ := spawn_made hclear.1 hstart (by rw [hend]; exact hends)
    refine ⟨hmade, r, hrow, hr.isOf, fun _ => hr.kept, fun _ hrunning hin => ?_⟩
    rcases h.once hp with hcount | hsome
    · rw [List.count_cons_self] at hcount
      exact (List.count_pos_iff.mpr hin).ne' (by omega)
    · exact hr.ended (by rw [hend]; exact hsome) hrunning

/-- A key that has its run gets no other. -/
theorem spawnOne_done (h : Done cfg f s (key :: todo) key) :
    (f.spawnOne cfg s key).2 = false ∧ Done cfg f (f.spawnOne cfg s key).1 todo key := by
  obtain ⟨r, hrow, hof, hkept, honce⟩ := h
  have htaken : s.runs.under (f.id cfg key) ≠ [] := by rw [hrow]; simp
  have hstill : Done cfg f s todo key :=
    ⟨r, hrow, hof, hkept, fun hp hr => absurd List.mem_cons_self (honce hp hr)⟩
  unfold spawnOne
  split
  · rw [spawn_taken htaken]
    exact ⟨rfl, hstill⟩
  · split
    · rw [skip_taken htaken]
      exact ⟨rfl, hstill⟩
    · rw [spawn_taken htaken]
      exact ⟨rfl, hstill⟩
  next hp =>
    have hnot : r.status ≠ .running := fun hr => absurd List.mem_cons_self (honce hp hr)
    have hsame : Same s (s.replaceActiveRuns f.spec.name key) (f.id cfg key) := by
      refine Tables.same_replaceRuns s fun r' hr' hid => ?_
      obtain ⟨hmem, -, hrun⟩ := ScheduleRuns.mem_active.mp hr'
      have hin : r' ∈ s.runs.under (f.id cfg key) := ScheduleRuns.mem_under.mpr ⟨hmem, hid.symm⟩
      rw [hrow] at hin
      cases List.mem_singleton.mp hin
      exact hnot hrun
    have hrow' := hsame.rows.trans hrow
    rw [spawn_taken (by rw [hrow']; simp)]
    exact ⟨rfl, r, hrow', hof, hkept, fun _ hr => absurd hr hnot⟩

/-! ### Other keys -/

variable {key' : String}

theorem Done.frame (h : Done cfg f s (key :: todo) key')
    (hsame : Same s t (f.id cfg key')) : Done cfg f t todo key' := by
  obtain ⟨r, hrow, hof, hkept, honce⟩ := h
  exact ⟨r, hsame.rows.trans hrow, hof, hkept, fun hp hr hin =>
    honce hp hr (List.mem_cons_of_mem _ hin)⟩

theorem Done.isOf (h : Done cfg f s todo key) :
    ∀ r ∈ s.runs.under (f.id cfg key), r.IsOf f.spec.name key := by
  obtain ⟨r', hrow, hof, -⟩ := h
  intro r hr
  rw [hrow] at hr
  cases List.mem_singleton.mp hr
  exact hof

theorem ReadyFor.isOf (h : f.ReadyFor cfg s key todo) :
    ∀ r ∈ s.runs.under (f.id cfg key), r.IsOf f.spec.name key :=
  fun r hr => (h.free r hr).2.1

/-- What is written for one key does not suppress another. -/
theorem suppressed_frame (hne : key' ≠ key)
    (hsame : f.spec.concurrency = .skip → ∀ i, i ≠ f.id cfg key → t.runs.under i = s.runs.under i)
    (hs : ∀ r ∈ s.runs.under (f.id cfg key), r.IsOf f.spec.name key)
    (ht : ∀ r ∈ t.runs.under (f.id cfg key), r.IsOf f.spec.name key) :
    f.Suppressed t key' ↔ f.Suppressed s key' := by
  have hother : ∀ {r : ScheduleRun}, r.IsOf f.spec.name key → ¬ r.IsOf f.spec.name key' :=
    fun h h' => hne (h'.2.symm.trans h.2)
  have hstep : ∀ {s t : Tables}, (∀ i, i ≠ f.id cfg key → t.runs.under i = s.runs.under i) →
      (∀ r ∈ s.runs.under (f.id cfg key), r.IsOf f.spec.name key) →
      (∃ r ∈ s.runs, r.IsOf f.spec.name key' ∧ r.status = .running) →
      ∃ r ∈ t.runs, r.IsOf f.spec.name key' ∧ r.status = .running := by
    rintro s t hsame hs ⟨r, hr, hof, hrun⟩
    have hi : r.id ≠ f.id cfg key := fun hid =>
      hother (hs r (ScheduleRuns.mem_under.mpr ⟨hr, hid⟩)) hof
    have hin : r ∈ t.runs.under r.id := by
      rw [hsame r.id hi]
      exact ScheduleRuns.mem_under.mpr ⟨hr, rfl⟩
    exact ⟨r, (ScheduleRuns.mem_under.mp hin).1, hof, hrun⟩
  constructor
  · rintro ⟨hp, h⟩
    exact ⟨hp, hstep (fun i hi => (hsame hp i hi).symm) ht h⟩
  · rintro ⟨hp, h⟩
    exact ⟨hp, hstep (hsame hp) hs h⟩

theorem ReadyFor.frame (h : f.ReadyFor cfg s key' (key :: todo))
    (hne : key' ≠ key) (hsame : Same s t (f.id cfg key'))
    (hsup : f.Suppressed t key' ↔ f.Suppressed s key') : f.ReadyFor cfg t key' todo := by
  have hend : f.firstEnd cfg t key' = f.firstEnd cfg s key' := by
    unfold firstEnd
    rw [hsame.run]
  refine ⟨fun r hr => ?_, ?_, ?_, fun hp => ?_⟩
  · rw [hsame.live]
    exact h.free r (hsame.rows ▸ hr)
  · rw [hsup]
    exact h.recorded
  · rw [hsup, hend]
    exact h.starts
  · rw [hend]
    have honce := h.once hp
    rwa [List.count_cons_of_ne (Ne.symm hne)] at honce

/-! ### All keys -/

/-- Along the keys that are left, those that are done stay so, and each other one gets its run. -/
theorem spawnAll_spec {K : List String}
    (hinj : ∀ k ∈ K, ∀ k' ∈ K, f.id cfg k = f.id cfg k' → k = k') (todo : List String)
    (htodo : ∀ k ∈ todo, k ∈ K) (done : List String) (s : Tables)
    (hdone : ∀ k ∈ K, k ∈ done → Done cfg f s todo k)
    (hready : ∀ k ∈ K, k ∉ done → k ∈ todo ∧ f.ReadyFor cfg s k todo) :
    ∀ k ∈ K, Done cfg f (f.spawnAll cfg s todo).1 [] k ∧
      (f.spawnAll cfg s todo).2.count k = if k ∈ done then 0 else 1 := by
  induction todo generalizing done s with
  | nil =>
    intro k hk
    by_cases hin : k ∈ done
    · rw [if_pos hin]
      exact ⟨hdone k hk hin, rfl⟩
    · cases (hready k hk hin).1
  | cons key todo ih =>
    have hkey : key ∈ K := htodo key List.mem_cons_self
    -- the key itself
    have hself : (f.spawnOne cfg s key).2 = !decide (key ∈ done) ∧
        Done cfg f (f.spawnOne cfg s key).1 todo key := by
      by_cases hin : key ∈ done
      · rw [decide_eq_true hin]
        exact spawnOne_done (hdone key hkey hin)
      · rw [decide_eq_false hin]
        exact spawnOne_ready (hready key hkey hin).2
    have hrows : ∀ k ∈ K, ∀ r ∈ s.runs.under (f.id cfg k), r.IsOf f.spec.name k := by
      intro k hk
      by_cases hin : k ∈ done
      · exact (hdone k hk hin).isOf
      · exact (hready k hk hin).2.isOf
    -- and the others
    have hsame : ∀ k ∈ K, k ≠ key → Same s (f.spawnOne cfg s key).1 (f.id cfg k) := by
      intro k hk hne
      refine same_spawnOne s (fun hid => hne (hinj k hk key hkey hid)) fun _ r hr hof => ?_
      exact hne ((hrows k hk r hr).2.symm.trans hof.2)
    have hsup : ∀ k ∈ K, k ≠ key →
        (f.Suppressed (f.spawnOne cfg s key).1 k ↔ f.Suppressed s k) := by
      intro k _ hne
      refine suppressed_frame hne (fun hp i hi => ?_) (hrows key hkey) hself.2.isOf
      exact (same_spawnOne s hi fun hr => by rw [hp] at hr; cases hr).rows
    have hrest := ih (List.forall_mem_cons.mp htodo).2 (key :: done)
      (f.spawnOne cfg s key).1 ?_ ?_
    · intro k hk
      obtain ⟨hk', hcount⟩ := hrest k hk
      refine ⟨hk', ?_⟩
      unfold spawnAll
      dsimp only
      rw [hself.1]
      by_cases hne : k = key
      · subst hne
        rw [if_pos List.mem_cons_self] at hcount
        by_cases hin : k ∈ done
        · simp [hin, hcount]
        · simp [hin, hcount]
      · have hcons : (k ∈ key :: done) ↔ k ∈ done := by simp [hne]
        rw [if_congr hcons rfl rfl] at hcount
        rw [← hcount]
        split
        · exact List.count_cons_of_ne (Ne.symm hne)
        · rfl
    · intro k hk hin
      by_cases hne : k = key
      · rw [hne]
        exact hself.2
      · have hin : k ∈ done := (List.mem_cons.mp hin).resolve_left hne
        exact (hdone k hk hin).frame (hsame k hk hne)
    · intro k hk hin
      rw [List.mem_cons, not_or] at hin
      obtain ⟨hmem, hr⟩ := hready k hk hin.2
      exact ⟨(List.mem_cons.mp hmem).resolve_left hin.1,
        hr.frame hin.1 (hsame k hk hin.1) (hsup k hk hin.1)⟩

/-- A fire that is ready leaves its runs. -/
theorem Ready.leavesItsRuns (h : f.Ready cfg s) : (f.run cfg s).LeavesItsRuns cfg := by
  intro key hkey
  have hin : key ∈ f.kept cfg := h.fits key hkey
  have hspec := spawnAll_spec h.distinct (f.kept cfg) (fun _ hk => hk) [] s
    (fun _ _ hk => by cases hk) (fun k hk _ => ⟨hk, h.ready k hk⟩) key hin
  obtain ⟨⟨r, hrow, hof, hkept, -⟩, hcount⟩ := hspec
  exact ⟨hcount, r, hrow, hof, hkept⟩

end Fire

/-! ## Sweeps -/

section

variable {cfg : EngineConfig}

theorem mem_fireDue {w : Sweep} {due : List (String × Schedule)} {s : Tables} {g : Fired}
    (h : g ∈ (w.fireDue cfg s due).2) : g = g.fire.run cfg g.before := by
  induction due generalizing s with
  | nil => cases h
  | cons e due ih =>
    unfold Sweep.fireDue at h
    split at h
    · split at h
      · rcases List.mem_cons.mp h with rfl | h
        · rfl
        · exact ih h
      · exact ih h
    · exact ih h

theorem mem_fireTriggered {w : Sweep} {triggered : List (String × Schedule)} {s : Tables}
    {g : Fired} (h : g ∈ (w.fireTriggered cfg s triggered).2) : g = g.fire.run cfg g.before := by
  induction triggered generalizing s with
  | nil => cases h
  | cons e triggered ih =>
    unfold Sweep.fireTriggered at h
    split at h
    · split at h
      · rcases List.mem_cons.mp h with rfl | h
        · rfl
        · exact ih h
      · exact ih h
    · exact ih h

theorem mem_sweeps {input : List ((Tables → Tables) × Sweep)} {s : Tables} {g : Fired}
    (h : g ∈ sweeps cfg s input) : g = g.fire.run cfg g.before := by
  induction input generalizing s with
  | nil => cases h
  | cons e input ih =>
    rcases List.mem_append.mp h with h | h
    · rcases List.mem_append.mp h with h | h
      · exact mem_fireDue h
      · exact mem_fireTriggered h
    · exact ih h

end

/-- In any sequence of sweeps, a claimed fire that finds what it needs leaves one run of its own
for each of its keys, and has not stopped it. -/
theorem fires_leave_their_runs (cfg : EngineConfig) (s : Tables)
    (input : List ((Tables → Tables) × Sweep)) (g : Fired) (hg : g ∈ sweeps cfg s input)
    (hready : g.fire.Ready cfg g.before) : g.LeavesItsRuns cfg := by
  rw [mem_sweeps hg]
  exact hready.leavesItsRuns

/-! ## A fire without its run -/

def minutely : EngineConfig := ⟨Ids.digests, 10000, fun _ now => some (now + 60000)⟩

/-- A job schedule that replaces, over the rows of a query or not. -/
def gameSync (forEach : Bool) : ScheduleSpec :=
  ⟨"game-sync", .replace, .job (some "job") (some "/sync"), forEach, none, false⟩

/-- The schedule is due, and triggered or not. -/
def dueAt (spec : ScheduleSpec) (trigger : Option Int) : Tables :=
  ⟨[(spec.name, ⟨spec, false, false, some 0, trigger, none⟩)], [], [], [], [], []⟩

def sweepAt (now : Int) (keys : List String) : (Tables → Tables) × Sweep :=
  (id, ⟨now, now, fun _ _ => keys.map fun key => [("id", .text key)], fun _ => none⟩)

/-- Two sweeps a minute apart; the second fire replaces the runs of the first. -/
theorem fires_leave_their_runs_replacing :
    ∃ g ∈ sweeps minutely (dueAt (gameSync true) none)
      [sweepAt 1000 ["x", "A"], sweepAt 61000 ["A", "x"]],
      g.before.runs.map (·.status) = [.running, .running] ∧
      g.after.runs.map (·.status) = [.replaced, .replaced, .running, .running] ∧
      g.LeavesItsRuns minutely := by
  have hrun : (sweeps minutely (dueAt (gameSync true) none)
      [sweepAt 1000 ["x", "A"], sweepAt 61000 ["A", "x"]]).any
        (fun g => decide (g.before.runs.map (·.status) = [.running, .running]) &&
          decide (g.after.runs.map (·.status) = [.replaced, .replaced, .running, .running]) &&
          decide (g.fire.Ready minutely g.before)) = true := by decide +kernel
  obtain ⟨g, hg, hall⟩ := List.any_eq_true.mp hrun
  obtain ⟨hall, hready⟩ := Bool.and_eq_true_iff.mp hall
  obtain ⟨hbefore, hafter⟩ := Bool.and_eq_true_iff.mp hall
  exact ⟨g, hg, of_decide_eq_true hbefore, of_decide_eq_true hafter,
    fires_leave_their_runs minutely _ _ g hg (of_decide_eq_true hready)⟩

/-- A trigger in the sweep of a fire by the clock stops that fire's run and leaves none; a key
that comes twice has its one run replaced by the fire itself. -/
theorem fire_without_run :
    (∃ g ∈ sweeps minutely (dueAt (gameSync false) (some 500)) [sweepAt 1000 []],
      g.fire.keys = [""] ∧ g.made = [] ∧ g.before.runs.map (·.status) = [.running] ∧
      g.after.runs.map (·.status) = [.replaced]) ∧
    (∃ g ∈ sweeps minutely (dueAt (gameSync true) none) [sweepAt 1000 ["x", "x"]],
      g.made = ["x"] ∧ g.before.runs = [] ∧ g.after.runs.map (·.status) = [.replaced]) ∧
    ¬ ∀ (cfg : EngineConfig) (s : Tables) (input : List ((Tables → Tables) × Sweep)),
      ∀ g ∈ sweeps cfg s input, g.LeavesItsRuns cfg := by
  have hboth : (sweeps minutely (dueAt (gameSync false) (some 500)) [sweepAt 1000 []]).any
      (fun g => decide (g.fire.keys = [""]) && decide (g.made = []) &&
        decide (g.before.runs.map (·.status) = [.running]) &&
        decide (g.after.runs.map (·.status) = [.replaced])) = true := by decide +kernel
  have htwice : (sweeps minutely (dueAt (gameSync true) none) [sweepAt 1000 ["x", "x"]]).any
      (fun g => decide (g.made = ["x"]) && decide (g.before.runs = []) &&
        decide (g.after.runs.map (·.status) = [.replaced])) = true := by decide +kernel
  obtain ⟨g, hg, hall⟩ := List.any_eq_true.mp hboth
  obtain ⟨hall, hafter⟩ := Bool.and_eq_true_iff.mp hall
  obtain ⟨hall, hbefore⟩ := Bool.and_eq_true_iff.mp hall
  obtain ⟨hkeys, hmade⟩ := Bool.and_eq_true_iff.mp hall
  obtain ⟨g', hg', hall⟩ := List.any_eq_true.mp htwice
  obtain ⟨hall, hafter'⟩ := Bool.and_eq_true_iff.mp hall
  obtain ⟨hmade', hbefore'⟩ := Bool.and_eq_true_iff.mp hall
  refine ⟨⟨g, hg, of_decide_eq_true hkeys, of_decide_eq_true hmade, of_decide_eq_true hbefore,
    of_decide_eq_true hafter⟩, ⟨g', hg', of_decide_eq_true hmade', of_decide_eq_true hbefore',
    of_decide_eq_true hafter'⟩, fun h => ?_⟩
  have hone := (h minutely _ _ g hg "" (by rw [of_decide_eq_true hkeys]; simp)).1
  rw [of_decide_eq_true hmade] at hone
  cases hone

end Fires

end Sp00ky.ScheduleCore
