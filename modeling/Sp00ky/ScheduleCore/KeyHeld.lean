/-
  Keys that a later sweep can free.

  The sweeps reach the run of a workflow only through its workflow run, so a schedule run that is
  `running` beside a workflow run that has ended, or is not there, holds its key for good. That is
  what a call leaves that dies, or whose statement fails, between the two rows
  (`spawn_that_dies_holds_key`); a retry leaves it as well, if the run it reopened has ended again
  when it reopens the owner. While none of these happens some call has still to end such a run
  (`Covered`), so with no call going on there is none (`no_key_held`).
-/
import Sp00ky.ScheduleCore.Owner

namespace Sp00ky.ScheduleCore.Owner

open Lib

/-- The call goes on to finalize the owner, whatever it finds. -/
def Call.Owes : Call → Prop
  | .creatingRun _ | .failingRun | .failingMirror | .failingOwner | .mirroring _ _ _
  | .stopping _ _ | .replacing => True
  | .requesting replaces | .loadingRequested replaces | .discardingOwner _ replaces =>
    replaces = true
  | .creatingOwner _ | .creatingJob | .failingJobRun | .creatingSteps _ | .linking | .loading
  | .passing | .completing | .failing | .discardingRun | .loadingKill | .reaping | .cancelling
  | .selecting | .loadingRetry | .resetting | .reopeningRun | .reopeningOwner => False

instance : (call : Call) → Decidable call.Owes
  | .creatingRun _ | .failingRun | .failingMirror | .failingOwner | .mirroring _ _ _
  | .stopping _ _ | .replacing => isTrue trivial
  | .requesting _ | .loadingRequested _ | .discardingOwner _ _ =>
    inferInstanceAs (Decidable (_ = true))
  | .creatingOwner _ | .creatingJob | .failingJobRun | .creatingSteps _ | .linking | .loading
  | .passing | .completing | .failing | .discardingRun | .loadingKill | .reaping | .cancelling
  | .selecting | .loadingRetry | .resetting | .reopeningRun | .reopeningOwner => isFalse id

namespace Pair

/-- The run of a workflow is `running` and its workflow run is not. -/
def Held (s : Pair) : Prop :=
  (s.owner.any fun o => o.status = .running ∧ o.kind = .workflow) = true ∧ ¬ s.RunRuns

instance (s : Pair) : Decidable s.Held := inferInstanceAs (Decidable (_ ∧ _))

/-- A call still has to end the owner. -/
def Owed (s : Pair) : Prop := ∃ call ∈ s.calls, call.Owes

instance (s : Pair) : Decidable s.Owed := inferInstanceAs (Decidable (∃ _ ∈ _, _))

/-- No owner is left `running` without its workflow run: by a call that dies or returns an error
when it alone had to end it, by a spawn that finds a workflow run of its key that has ended, by a
retry whose run is not `running` any more, by a discard of a run that is. -/
def Kept (s : Pair) : Event → Prop
  | .die call => call.Owes → s.Held → (s.others call).Owed
  | .fail call => call.Owes → onFail call = [] → s.Held → (s.others call).Owed
  | .resume (.creatingRun f) => s.run.isSome → s.Held → (s.others (.creatingRun f)).Owed
  | .resume .reopeningOwner => s.owner.any (·.Reopens) → s.RunRuns ∨ (s.others .reopeningOwner).Owed
  | .resume .discardingRun => s.OwnerRuns → s.RunRuns → (s.others .discardingRun).Owed
  | _ => True

instance (s : Pair) : (e : Event) → Decidable (s.Kept e)
  | .die _ => inferInstanceAs (Decidable (_ → _ → _))
  | .fail _ => inferInstanceAs (Decidable (_ → _ → _ → _))
  | .resume (.creatingRun _) => inferInstanceAs (Decidable (_ → _ → _))
  | .resume .reopeningOwner => inferInstanceAs (Decidable (_ → _))
  | .resume .discardingRun => inferInstanceAs (Decidable (_ → _ → _))
  | .resume (.creatingOwner _) | .resume .creatingJob | .resume .failingJobRun
  | .resume (.creatingSteps _) | .resume .linking | .resume .failingRun | .resume .failingMirror
  | .resume .failingOwner | .resume .loading | .resume .passing | .resume .completing
  | .resume .failing | .resume (.mirroring _ _ _) | .resume (.discardingOwner _ _)
  | .resume .loadingKill | .resume .reaping | .resume .cancelling | .resume (.requesting _)
  | .resume (.loadingRequested _) | .resume (.stopping _ _) | .resume .selecting
  | .resume .replacing | .resume .loadingRetry | .resume .resetting | .resume .reopeningRun
  | .fire _ | .advance | .healKill | .reap | .cancel | .replace | .retry | .finalizeJobRun _
  | .pruneOwner | .pruneRun | .finishPass _ | .finishReset _ => isTrue trivial

/-- What the sweeps can end: the run of a job that has one, and the run of a workflow that is
`running`. -/
def Endable (s : Pair) : Prop :=
  ∀ o ∈ s.owner, o.status = .running →
    (o.kind = .job ∧ o.jobId ≠ none) ∨ (o.kind = .workflow ∧ s.RunRuns)

/-- An owner that no sweep could end has a call that will; and the run of a job has one. -/
structure Covered (s : Pair) : Prop where
  owed : s.Held → s.Owed
  job : ∀ o ∈ s.owner, o.kind = .job → o.jobId ≠ none

section

variable {s t : Pair} {call : Call} {calls : List Call}

theorem owed_spawn : (s.spawn calls).Owed ↔ s.Owed ∨ ∃ c ∈ calls, c.Owes := by
  unfold Owed spawn
  simp only [List.mem_append, or_and_right, exists_or]

theorem Owed.erase (h : s.Owed) (call : Call) : (s.others call).Owed ∨ call.Owes := by
  obtain ⟨c, hc, ho⟩ := h
  by_cases he : c = call
  · exact .inr (he ▸ ho)
  · exact .inl ⟨c, (List.mem_erase_of_ne he).mpr hc, ho⟩

theorem Covered.spawn (h : s.Covered) (calls : List Call) : (s.spawn calls).Covered :=
  ⟨fun hh => owed_spawn.mpr (.inl (h.owed hh)), h.job⟩

/-- The call that goes on still has to end the owner. -/
theorem covered_of_owes (hj : ∀ o ∈ s.owner, o.kind = .job → o.jobId ≠ none)
    (hc : call.Owes) : (s.spawn [call]).Covered :=
  ⟨fun _ => owed_spawn.mpr (.inr ⟨call, List.mem_singleton_self _, hc⟩), hj⟩

theorem covered_of_not_held (hj : ∀ o ∈ s.owner, o.kind = .job → o.jobId ≠ none)
    (hh : ¬ s.Held) : s.Covered := ⟨fun h => absurd h hh, hj⟩

theorem not_held_of_runRuns (h : s.RunRuns) : ¬ s.Held := fun hh => hh.2 h

/-- A change of the owner that keeps its kind and its job. -/
theorem job_map (hj : ∀ o ∈ s.owner, o.kind = .job → o.jobId ≠ none) {f : ScheduleRun → ScheduleRun}
    (hf : ∀ o, (f o).kind = o.kind ∧ (f o).jobId = o.jobId) :
    ∀ o ∈ s.owner.map f, o.kind = .job → o.jobId ≠ none := by
  intro o ho hk
  obtain ⟨o', ho', rfl⟩ := Option.map_eq_some_iff.mp ho
  rw [(hf o').2]
  exact hj o' ho' ((hf o').1 ▸ hk)

theorem finalize_kind (status : ScheduleRunStatus) (o : ScheduleRun) :
    (o.finalize status none).kind = o.kind ∧ (o.finalize status none).jobId = o.jobId := by
  unfold ScheduleRun.finalize
  split <;> exact ⟨rfl, rfl⟩

theorem reopen_kind (o : ScheduleRun) : o.reopen.kind = o.kind ∧ o.reopen.jobId = o.jobId := by
  unfold ScheduleRun.reopen
  split <;> exact ⟨rfl, rfl⟩

theorem not_held_finalizeOwner {status : ScheduleRunStatus} (hs : status ≠ .running) :
    ¬ (s.finalizeOwner status).Held := by
  rintro ⟨h, -⟩
  obtain ⟨o, ho, hrun⟩ := (Option.any_eq_true _ _).mp h
  obtain ⟨o', -, rfl⟩ := Option.map_eq_some_iff.mp ho
  have hrunning := (of_decide_eq_true hrun).1
  unfold ScheduleRun.finalize at hrunning
  split at hrunning
  next => exact hs hrunning
  next hno => exact hno hrunning

/-- A finalized owner holds nothing. -/
theorem covered_finalizeScheduleRun {status : ScheduleRunStatus} (hs : status ≠ .running)
    (hj : ∀ o ∈ s.owner, o.kind = .job → o.jobId ≠ none) (discards replaces : Bool) :
    (s.finalizeScheduleRun status discards replaces).Covered := by
  have hf : (s.finalizeOwner status).Covered :=
    covered_of_not_held (job_map hj (finalize_kind status)) (not_held_finalizeOwner hs)
  unfold finalizeScheduleRun
  split
  · exact hf.spawn _
  · exact hf.spawn _

theorem ofOwner_ne (ending : Ending) : ending.status.ofOwner ≠ .running := by
  cases ending <;> decide

theorem runRuns_requestKill : s.requestKill.RunRuns ↔ s.RunRuns := by
  unfold RunRuns requestKill
  cases s.run <;> simp

theorem runRuns_reopenRun (h : s.Retries) : s.reopenRun.RunRuns := by
  obtain ⟨w, hw, -⟩ := h
  exact ⟨_, Option.map_eq_some_iff.mpr ⟨w, hw, rfl⟩, rfl⟩

/-- What a retry does not match it leaves. -/
theorem reopenOwner_of_not (h : ¬ (s.owner.any (·.Reopens)) = true) : s.reopenOwner = s := by
  unfold reopenOwner
  cases ho : s.owner with
  | none => rw [Option.map_none, ← ho]
  | some o =>
    have hno : ¬ o.Reopens := fun hr => h (by rw [ho]; exact decide_eq_true hr)
    rw [Option.map_some, ScheduleRun.reopen, if_neg hno, ← ho]

/-- A call goes on, from a state in which the owner is owed its end by others or by this one. -/
theorem Covered.resume (hj : ∀ o ∈ s.owner, o.kind = .job → o.jobId ≠ none)
    (h : s.Held → s.Owed ∨ call.Owes)
    (hrun : ∀ f, call = .creatingRun f → s.run.isSome → s.Held → s.Owed)
    (hreopen : call = .reopeningOwner → s.owner.any (·.Reopens) → s.RunRuns ∨ s.Owed)
    (hdiscard : call = .discardingRun → s.OwnerRuns → s.RunRuns → s.Owed)
    (ht : s.resume call = some t) : t.Covered := by
  have hsame : ¬ call.Owes → s.Covered := fun hno => ⟨fun hh => (h hh).resolve_right hno, hj⟩
  cases call with
  | creatingOwner f =>
    have hs := hsame id
    simp only [Pair.resume] at ht
    split at ht
    next => cases ht; exact hs
    next =>
      split at ht
      next hk =>
        cases ht
        refine Covered.spawn ⟨fun hh => ?_, fun o ho _ => ?_⟩ _
        · exact absurd hh.1 (by simp [ownerOf, hk])
        · cases ho
          simp [ownerOf, hk]
      next hk =>
        cases ht
        refine covered_of_owes (fun o ho hjob => ?_) trivial
        cases ho
        exact absurd hjob (by simp [ownerOf, hk])
  | creatingJob => cases ht; exact hsame id
  | failingJobRun | failingOwner
  | replacing => cases ht; exact covered_finalizeScheduleRun (by decide) hj _ _
  | creatingRun f =>
    simp only [Pair.resume] at ht
    split at ht
    next w hw =>
      cases ht
      exact Covered.spawn ⟨hrun f rfl (by rw [hw]; rfl), hj⟩ _
    next =>
      cases ht
      have hs : Covered { s with run := some ⟨.running, false, f.failuresOnly, false⟩ } :=
        covered_of_not_held hj (not_held_of_runRuns ⟨_, rfl, rfl⟩)
      exact hs.spawn _
  | creatingSteps left =>
    cases left with
    | zero | succ left => cases ht; exact (hsame id).spawn _
  | linking =>
    cases ht
    have hs : Covered { s with linked := true } := ⟨(hsame id).owed, hj⟩
    exact hs.spawn _
  | failingRun =>
    simp only [Pair.resume] at ht
    split at ht <;> cases ht
    · exact covered_of_owes (s := s.closeRun .failed false) hj trivial
    · exact covered_of_owes hj trivial
  | failingMirror =>
    cases ht
    exact (covered_finalizeScheduleRun (by decide) hj _ _).spawn _
  | loading =>
    simp only [Pair.resume] at ht
    split at ht <;> cases ht
    · exact (hsame id).spawn _
    · exact (hsame id).spawn _
    · exact hsame id
  | passing | resetting => cases ht
  | completing =>
    simp only [Pair.resume] at ht
    split at ht <;> cases ht
    · exact covered_of_owes (s := s.closeRun .success false) hj trivial
    · exact hsame id
  | failing =>
    simp only [Pair.resume] at ht
    split at ht <;> cases ht
    · exact covered_of_owes (s := s.closeRun .failed false) hj trivial
    · exact hsame id
  | mirroring ending discards replaces =>
    cases ht
    exact covered_finalizeScheduleRun (ofOwner_ne ending) hj _ _
  | discardingOwner discards replaces =>
    cases ht
    refine Covered.spawn ⟨fun hh => ?_, fun o ho => by cases ho⟩ _
    cases hh.1
  | discardingRun =>
    cases ht
    refine ⟨fun hh => ?_, hj⟩
    by_cases hr : s.RunRuns
    · obtain ⟨o, ho, hrunning⟩ := (Option.any_eq_true _ _).mp hh.1
      exact hdiscard rfl ⟨o, ho, (of_decide_eq_true hrunning).1⟩ hr
    · exact (hsame id).owed ⟨hh.1, hr⟩
  | loadingKill | reaping | cancelling | loadingRetry =>
    simp only [Pair.resume] at ht
    split at ht <;> cases ht
    · exact (hsame id).spawn _
    · exact hsame id
  | requesting replaces =>
    cases ht
    refine ⟨fun hh => owed_spawn.mpr ?_, hj⟩
    refine (h ⟨hh.1, mt runRuns_requestKill.mpr hh.2⟩).imp_right fun ho => ?_
    exact ⟨_, List.mem_singleton_self _, ho⟩
  | loadingRequested replaces =>
    simp only [Pair.resume] at ht
    split at ht <;> cases ht
    · exact covered_of_owes hj trivial
    · cases replaces with
      | true => exact covered_of_owes hj trivial
      | false => exact (hsame Bool.false_ne_true).spawn _
  | stopping ending replaces =>
    simp only [Pair.resume] at ht
    split at ht <;> cases ht
    · exact covered_of_owes (s := s.closeRun ending replaces) hj trivial
    · exact covered_of_owes hj trivial
  | selecting =>
    simp only [Pair.resume] at ht
    split at ht
    next =>
      split at ht <;> cases ht
      · exact (hsame id).spawn _
      · exact (hsame id).spawn _
    next => cases ht; exact hsame id
  | reopeningRun =>
    simp only [Pair.resume] at ht
    split at ht
    next hretries =>
      cases ht
      have hs : s.reopenRun.Covered :=
        covered_of_not_held hj (not_held_of_runRuns (runRuns_reopenRun hretries))
      exact hs.spawn _
    next => cases ht; exact hsame id
  | reopeningOwner =>
    cases ht
    by_cases hre : (s.owner.any (·.Reopens)) = true
    · refine Covered.spawn ⟨fun hh => ?_, job_map hj reopen_kind⟩ _
      exact (hreopen rfl hre).resolve_left hh.2
    · rw [reopenOwner_of_not hre]
      exact (hsame id).spawn _

/-- A call that goes on after an error still has to do what it had to do. -/
theorem owes_onFail {c : Call} (h : onFail call = c :: calls) (ho : call.Owes) : c.Owes := by
  unfold onFail at h
  split at h
  · cases ho
  · cases h; trivial
  · cases h; trivial
  · cases h; trivial
  · cases h; trivial
  · cases ho
  · obtain rfl : _ = true := ho
    cases h
    trivial
  · cases h

/-- A call ends that was not the only one to end an owner. -/
theorem Covered.drop (h : s.Covered) (hk : call.Owes → s.Held → (s.others call).Owed) :
    (s.others call).Covered := by
  refine ⟨fun hh => ?_, h.job⟩
  rcases (h.owed hh).erase call with ho | ho
  · exact ho
  · exact hk ho hh

theorem Covered.step {e : Event} (h : s.Covered) (hok : s.Kept e) (ht : s.step e = some t) :
    t.Covered := by
  cases e with
  | fire f | advance | healKill | reap | cancel | replace | retry => cases ht; exact h.spawn _
  | finalizeJobRun outcome =>
    simp only [Pair.step] at ht
    split at ht <;> cases ht
    exact covered_finalizeScheduleRun (by cases outcome <;> decide) h.job _ _
  | pruneOwner =>
    simp only [Pair.step] at ht
    split at ht <;> cases ht
    exact ⟨fun hh => (by cases hh.1), fun o ho => (by cases ho)⟩
  | pruneRun =>
    simp only [Pair.step] at ht
    split at ht
    · cases ht
    next hno =>
      cases ht
      exact ⟨fun hh => h.owed ⟨hh.1, hno⟩, h.job⟩
  | finishPass verdict =>
    have hs : (s.others .passing).Covered := h.drop False.elim
    simp only [Pair.step] at ht
    split at ht
    next =>
      split at ht <;> cases ht
      · exact hs
      · exact hs.spawn _
      · exact hs.spawn _
    next => cases ht
  | finishReset found =>
    have hs : (s.others .resetting).Covered := h.drop False.elim
    simp only [Pair.step] at ht
    split at ht
    next =>
      split at ht <;> cases ht
      · exact hs.spawn _
      · exact hs
    next => cases ht
  | resume call =>
    simp only [Pair.step] at ht
    split at ht
    next =>
      refine Covered.resume (s := s.others call) h.job (fun hh => (h.owed hh).erase call) ?_ ?_ ?_ ht
      · rintro f rfl
        exact hok
      · rintro rfl
        exact hok
      · rintro rfl
        exact hok
    next => cases ht
  | fail call =>
    simp only [Pair.step] at ht
    split at ht
    next =>
      cases ht
      cases hcalls : onFail call with
      | nil => exact (h.drop fun ho => hok ho hcalls).spawn _
      | cons c calls =>
        refine ⟨fun hh => owed_spawn.mpr ?_, h.job⟩
        refine ((h.owed hh).erase call).imp_right fun ho => ?_
        exact ⟨c, List.mem_cons_self, owes_onFail hcalls ho⟩
    next => cases ht
  | die call =>
    simp only [Pair.step] at ht
    split at ht
    next => cases ht; exact h.drop hok
    next => cases ht

end

end Pair

/-! ## Runs -/

/-- As long as no owner is left `running` without its workflow run, whenever no call is going on
every schedule run that is `running` is one a sweep can end. -/
theorem no_key_held (table : String → Pair)
    (hrun : Run (family Pair.step) (fun s e => (s e.1).Kept e.2) (fun _ => Pair.blank) table)
    (hidle : ∀ key, (table key).calls = []) (key : String) : (table key).Endable := by
  have hcovered : (table key).Covered := (hrun.member key).invariant
    ⟨fun hh => (by cases hh.1), fun o ho => (by cases ho)⟩ fun _ _ _ h hok hstep => h.step hok hstep
  intro o ho hrunning
  cases hk : o.kind with
  | job => exact .inl ⟨rfl, hcovered.job o ho hk⟩
  | workflow =>
    refine .inr ⟨rfl, by_contra fun hno => ?_⟩
    have hheld : (table key).Held := ⟨by rw [ho]; simp [hrunning, hk], hno⟩
    obtain ⟨call, hcall, -⟩ := hcovered.owed hheld
    rw [hidle key] at hcall
    cases hcall

/-! ## A key that is held for good -/

def nightlyRun : Fire := ⟨"nightly_1", "nightly", "", .workflow, "", false, 1⟩

/-- The whole spawn, with the first pass. -/
def spawnAll : List Event :=
  [.fire nightlyRun, .resume (.creatingOwner nightlyRun), .resume (.creatingRun nightlyRun),
    .resume (.creatingSteps 1), .resume (.creatingSteps 0), .resume .linking, .resume .loading,
    .finishPass none]

/-- A pass that finds the run to have ended. -/
def passTo (verdict : Outcome) (call : Call) (ending : Ending) : List Event :=
  [.advance, .resume .loading, .finishPass (some verdict), .resume call,
    .resume (.mirroring ending false false)]

/-- A retry up to the reopen of the owner. -/
def retryUpTo : List Event :=
  [.retry, .resume .loadingRetry, .finishReset true, .resume .reopeningRun]

/-- The spawn dies between the rows. -/
def spawnDies : List Event :=
  [.fire nightlyRun, .resume (.creatingOwner nightlyRun), .die (.creatingRun nightlyRun)]

/-- The reopened run ends before its owner is reopened. -/
def retryOvertaken : List Event :=
  spawnAll ++ passTo .failed .failing .failed ++ retryUpTo ++ passTo .success .completing .success ++
    [.resume .reopeningOwner, .resume .loading]

theorem idle_update {p : Pair} (h : p.calls = []) (key key' : String) :
    (Function.update (fun _ => Pair.blank) key p key').calls = [] := by
  by_cases hk : key' = key
  · rw [hk, Function.update_self]
    exact h
  · rw [Function.update_of_ne hk]
    rfl

/-- A run that fails and is retried without any other call. -/
theorem no_key_held_one : ∃ table : String → Pair,
    Run (family Pair.step) (fun s e => (s e.1).Kept e.2) (fun _ => Pair.blank) table ∧
    (table "nightly_1").OwnerRuns ∧ (table "nightly_1").Endable := by
  have hrun : (runAll Pair.step (fun s e => decide (s.Kept e)) Pair.blank
      (spawnAll ++ passTo .failed .failing .failed ++ retryUpTo ++
        [.resume .reopeningOwner, .resume .loading, .finishPass none])).any
        (fun s => s.calls = [] ∧ s.OwnerRuns) = true := by decide +kernel
  obtain ⟨p, hp, hall⟩ := exists_run hrun
  obtain ⟨hidle, howner⟩ := of_decide_eq_true hall
  have hin : Run Pair.step Pair.Kept Pair.blank p := hp.mono fun _ _ => of_decide_eq_true
  have htable := Run.ofMember (s := fun _ => Pair.blank) (i := "nightly_1") hin
  refine ⟨_, htable, ?_, no_key_held _ htable (idle_update hidle "nightly_1") "nightly_1"⟩
  rw [Function.update_self]
  exact howner

/-- A spawn that dies between the rows, and a retry that is overtaken by the end of the run it
reopened, leave a schedule run `running` that no sweep ends. -/
theorem spawn_that_dies_holds_key :
    (∃ p : Pair, Run Pair.step (fun _ e => ∀ call, e ≠ .die call ∧ e ≠ .fail call) Pair.blank p ∧
      p.calls = [] ∧ p.Held) ∧
    ¬ ∀ table : String → Pair,
      Run (family Pair.step) (fun _ _ => True) (fun _ => Pair.blank) table →
      (∀ key, (table key).calls = []) → ∀ key, (table key).Endable := by
  have hretry : (runAll Pair.step (fun _ e => match e with | .die _ | .fail _ => false | _ => true)
      Pair.blank retryOvertaken).any (fun s => s.calls = [] ∧ s.Held) = true := by decide +kernel
  have hdies : (runAll Pair.step (fun _ _ => true) Pair.blank spawnDies).any
      (fun s => s.calls = [] ∧ s.Held) = true := by decide +kernel
  obtain ⟨p, hp, hall⟩ := exists_run hretry
  obtain ⟨q, hq, hheld⟩ := exists_freeRun hdies
  refine ⟨⟨p, hp.mono fun s e he call => ?_, of_decide_eq_true hall⟩, fun h => ?_⟩
  · constructor
    · rintro rfl
      cases he
    · rintro rfl
      cases he
  · obtain ⟨hidle, howner, hrun⟩ := of_decide_eq_true hheld
    have hfree : Run Pair.step (fun _ _ => True) Pair.blank q :=
      hq
    have htable := Run.ofMember (s := fun _ => Pair.blank) (i := "nightly_1") hfree
    have hend := h _ htable (idle_update hidle "nightly_1") "nightly_1"
    rw [Function.update_self] at hend
    obtain ⟨o, ho, hrunning⟩ := (Option.any_eq_true _ _).mp howner
    obtain ⟨hstatus, hkind⟩ := of_decide_eq_true hrunning
    rcases hend o ho hstatus with ⟨hjob, -⟩ | ⟨-, hruns⟩
    · rw [hkind] at hjob
      cases hjob
    · exact hrun hruns

end Sp00ky.ScheduleCore.Owner
