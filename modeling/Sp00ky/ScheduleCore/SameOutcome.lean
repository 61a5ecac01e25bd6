/-
  A workflow run and its owner report the same.

  A finalization writes the workflow run and then the owner, a retry reopens them in the same
  order. A stop writes the owner whether it has closed the run or not, and a replace writes
  `replaced` after its own stop has written `killed`; so the owner can come to say what the run does
  not (`owner_differs`). As long as each write on a `running` owner says what the run says, and a
  reopen of either finds the other to be reopened as well, the two say the same whenever no call is
  going on (`same_outcome`): while they differ, a call is between its two writes (`Tied`).
-/
import Sp00ky.ScheduleCore.Owner

namespace Sp00ky.ScheduleCore.Owner

open Lib

/-- What the owner is to say of a run that has ended. -/
def WorkflowRun.reads (w : WorkflowRun) : ScheduleRunStatus :=
  if w.replaced then .replaced else w.status.ofOwner

namespace Pair

/-- The owner is `running` exactly when the run is, and else says the same, unless a replace has
stopped the run. -/
def SameOutcome (s : Pair) : Prop :=
  ∀ o ∈ s.owner, (o.status = .running ↔ s.RunRuns) ∧
    ∀ w ∈ s.run, w.status ≠ .running →
      if w.replaced then o.status = .replaced ∧ w.status = .killed
      else o.status = w.status.ofOwner

end Pair

/-- The passes, stops, replaces and retries, without a crash or a statement that fails. -/
def Event.Calm : Event → Prop
  | .advance | .healKill | .reap | .cancel | .replace | .retry | .finishPass _ | .finishReset _
  | .resume _ => True
  | .fire _ | .finalizeJobRun _ | .pruneOwner | .pruneRun | .fail _ | .die _ => False

instance : (e : Event) → Decidable e.Calm
  | .advance | .healKill | .reap | .cancel | .replace | .retry | .finishPass _ | .finishReset _
  | .resume _ => isTrue trivial
  | .fire _ | .finalizeJobRun _ | .pruneOwner | .pruneRun | .fail _ | .die _ => isFalse id

/-- What a call writes on the owner. -/
def Call.writes : Call → Option ScheduleRunStatus
  | .mirroring ending _ _ => some ending.status.ofOwner
  | .replacing => some .replaced
  | _ => none

namespace Pair

/-- A write on an owner that is `running` says what the run says, which has ended; a retry reopens
an owner whose run it finds `running`, and no run whose owner says `replaced`. -/
def Timely (s : Pair) : Event → Prop
  | .resume (.mirroring ending _ _) =>
    s.OwnerRuns → (s.run.any fun w => w.status ≠ .running ∧ w.reads = ending.status.ofOwner) = true
  | .resume .replacing =>
    s.OwnerRuns → (s.run.any fun w => w.status ≠ .running ∧ w.reads = .replaced) = true
  | .resume .reopeningRun => s.Retries → (s.owner.all fun o => o.status ≠ .replaced) = true
  | .resume .reopeningOwner => s.owner.any (·.Reopens) = true → s.RunRuns
  | _ => True

instance (s : Pair) : (e : Event) → Decidable (s.Timely e)
  | .resume (.mirroring _ _ _) | .resume .replacing | .resume .reopeningRun
  | .resume .reopeningOwner => inferInstanceAs (Decidable (_ → _))
  | .resume (.creatingRun _) | .resume .discardingRun
  | .resume (.creatingOwner _) | .resume .creatingJob | .resume .failingJobRun
  | .resume (.creatingSteps _) | .resume .linking | .resume .failingRun | .resume .failingMirror
  | .resume .failingOwner | .resume .loading | .resume .passing | .resume .completing
  | .resume .failing | .resume (.discardingOwner _ _)
  | .resume .loadingKill | .resume .reaping | .resume .cancelling | .resume (.requesting _)
  | .resume (.loadingRequested _) | .resume (.stopping _ _) | .resume .selecting
  | .resume .loadingRetry | .resume .resetting
  | .fire _ | .advance | .healKill | .reap | .cancel | .replace | .retry | .finalizeJobRun _
  | .pruneOwner | .pruneRun | .finishPass _ | .finishReset _ | .fail _ | .die _ => isTrue trivial

end Pair

/-! ## Between two writes -/

/-- A call of a run that has been spawned; a replace stops with `killed`. -/
def Call.Later : Call → Prop
  | .stopping ending replaces => replaces = true → ending = .killed
  | .creatingOwner _ | .creatingJob | .failingJobRun | .creatingRun _ | .creatingSteps _ | .linking
  | .failingRun | .failingMirror | .failingOwner => False
  | _ => True

/-- A call that goes on to discard the run. -/
def Call.Discards : Call → Prop
  | .mirroring _ discards _ | .discardingOwner discards _ => discards = true
  | .discardingRun => True
  | _ => False

def Call.Mirrors : Call → Prop
  | .mirroring _ _ _ => True
  | _ => False

namespace Pair

/-- The call is going on, or is the one that runs its statement. -/
def Live (extra : List Call) (s : Pair) (c : Call) : Prop := c ∈ s.calls ∨ c ∈ extra

/-- The two rows say the same, or a call is between its two writes. `extra` is the call that runs
its statement. -/
structure Tied (extra : List Call) (s : Pair) : Prop where
  later : ∀ c ∈ s.calls, c.Later
  kind : ∀ o ∈ s.owner, o.kind = .workflow
  killed : ∀ w ∈ s.run, w.replaced = true → w.status = .killed
  discarded : ∀ c, Live extra s c → c.Discards → ∀ w ∈ s.run, w.status = .success
  left : Live extra s .discardingRun → ¬ s.OwnerRuns
  agree : s.SameOutcome ∨
    (s.OwnerRuns ∧ ¬ s.RunRuns ∧ ∃ c, Live extra s c ∧ c.Mirrors) ∨
    ((∃ o ∈ s.owner, o.Reopens) ∧ Live extra s .reopeningOwner)

section

variable {s t : Pair} {call : Call} {calls extra : List Call} {c : Call}

theorem live_spawn : Live extra (s.spawn calls) c ↔ Live extra s c ∨ c ∈ calls := by
  unfold Live spawn
  rw [List.mem_append, or_right_comm]

theorem live_others (h : Live [] s c) : Live [call] (s.others call) c := by
  rcases h with h | h
  · by_cases he : c = call
    · exact .inr (List.mem_singleton.mpr he)
    · exact .inl ((List.mem_erase_of_ne he).mpr h)
  · cases h

theorem live_of_others (hmem : call ∈ s.calls) (h : Live [call] (s.others call) c) :
    Live [] s c := by
  rcases h with h | h
  · exact .inl (List.mem_of_mem_erase h)
  · exact .inl ((List.mem_singleton.mp h) ▸ hmem)

theorem Tied.others (h : Tied [] s) (hmem : call ∈ s.calls) : Tied [call] (s.others call) where
  later c hc := h.later c (List.mem_of_mem_erase hc)
  kind := h.kind
  killed := h.killed
  discarded c hc := h.discarded c (live_of_others hmem hc)
  left hc := h.left (live_of_others hmem hc)
  agree := by
    rcases h.agree with hs | ⟨ho, hr, c, hc, hm⟩ | ⟨ho, hc⟩
    · exact .inl hs
    · exact .inr (.inl ⟨ho, hr, c, live_others hc, hm⟩)
    · exact .inr (.inr ⟨ho, live_others hc⟩)

/-- A call that has no second write to do may end. -/
theorem Tied.done (h : Tied [call] s) (hm : ¬ call.Mirrors) (hr : call ≠ .reopeningOwner) :
    Tied [] s where
  later := h.later
  kind := h.kind
  killed := h.killed
  discarded c hc := h.discarded c (hc.imp_right fun hc => by cases hc)
  left hc := h.left (hc.imp_right fun hc => by cases hc)
  agree := by
    rcases h.agree with hs | ⟨ho, hn, c, hc, hmc⟩ | ⟨ho, hc⟩
    · exact .inl hs
    · refine .inr (.inl ⟨ho, hn, c, .inl (hc.resolve_right fun hc => ?_), hmc⟩)
      exact hm ((List.mem_singleton.mp hc) ▸ hmc)
    · refine .inr (.inr ⟨ho, .inl (hc.resolve_right fun hc => ?_)⟩)
      exact hr (List.mem_singleton.mp hc).symm

theorem Tied.spawn (h : Tied extra s) (hl : ∀ c ∈ calls, c.Later)
    (hd : ∀ c ∈ calls, c.Discards → ∀ w ∈ s.run, w.status = .success)
    (ho : .discardingRun ∈ calls → ¬ s.OwnerRuns) : Tied extra (s.spawn calls) where
  later c hc := (List.mem_append.mp hc).elim (h.later c) (hl c)
  kind := h.kind
  killed := h.killed
  discarded c hc := (live_spawn.mp hc).elim (h.discarded c) (hd c)
  left hc := (live_spawn.mp hc).elim h.left ho
  agree := by
    rcases h.agree with hs | ⟨ho, hr, c, hc, hm⟩ | ⟨ho, hc⟩
    · exact .inl hs
    · exact .inr (.inl ⟨ho, hr, c, live_spawn.mpr (.inl hc), hm⟩)
    · exact .inr (.inr ⟨ho, live_spawn.mpr (.inl hc)⟩)

/-- A call goes on to a statement that discards nothing. -/
theorem Tied.goOn (h : Tied extra s) (hl : c.Later) (hd : ¬ c.Discards) :
    Tied extra (s.spawn [c]) := by
  refine h.spawn ?_ ?_ ?_
  · exact fun c' hc => (List.mem_singleton.mp hc) ▸ hl
  · exact fun c' hc hdis => absurd hdis ((List.mem_singleton.mp hc) ▸ hd)
  · intro hc
    obtain rfl := List.mem_singleton.mp hc
    exact absurd trivial hd

theorem not_runRuns_of_success (h : ∀ w ∈ s.run, w.status = .success) : ¬ s.RunRuns := by
  rintro ⟨w, hw, hrun⟩
  rw [h w hw] at hrun
  cases hrun

theorem not_retries_of_success (h : ∀ w ∈ s.run, w.status = .success) : ¬ s.Retries := by
  rintro ⟨w, hw, hrun⟩
  rw [h w hw] at hrun
  rcases hrun with hrun | hrun <;> cases hrun

/-- A run that is `running` or may be retried is not discarded. -/
theorem Tied.not_discards (h : Tied extra s) (hr : s.RunRuns ∨ s.Retries)
    (hc : Live extra s c) : ¬ c.Discards := fun hd =>
  hr.elim (not_runRuns_of_success (h.discarded c hc hd))
    (not_retries_of_success (h.discarded c hc hd))

/-! ## The run -/

theorem not_runRuns_closeRun {ending : Ending} {replaced : Bool} :
    ¬ (s.closeRun ending replaced).RunRuns := by
  rintro ⟨w, hw, hrun⟩
  obtain ⟨w', -, rfl⟩ := Option.map_eq_some_iff.mp hw
  cases ending <;> cases hrun

/-- A finalization of the run goes on to its owner. -/
theorem Tied.closeRun (h : Tied [call] s) (hmir : ¬ call.Mirrors) (hre : call ≠ .reopeningOwner)
    (hr : s.RunRuns) {ending : Ending} {discards replaces : Bool}
    (hk : replaces = true → ending = .killed) (hd : discards = true → ending = .success) :
    Tied [] ((s.closeRun ending replaces).spawn [.mirroring ending discards replaces]) := by
  have hs := h.done hmir hre
  refine ⟨?_, h.kind, ?_, ?_, ?_, ?_⟩
  · intro c hc
    rcases List.mem_append.mp hc with hc | hc
    · exact h.later c hc
    · exact (List.mem_singleton.mp hc) ▸ trivial
  · intro w hw hrep
    obtain ⟨w', -, rfl⟩ := Option.map_eq_some_iff.mp hw
    rw [hk hrep]
    rfl
  · intro c hc hdis w hw
    rcases live_spawn.mp hc with hc | hc
    · exact absurd hdis (hs.not_discards (.inl hr) hc)
    · obtain rfl := List.mem_singleton.mp hc
      obtain ⟨w', -, rfl⟩ := Option.map_eq_some_iff.mp hw
      rw [hd hdis]
      rfl
  · intro hc
    rcases live_spawn.mp hc with hc | hc
    · exact absurd trivial (hs.not_discards (.inl hr) hc)
    · exact absurd (List.mem_singleton.mp hc) (by simp)
  · have hnew : ∃ c, Live [] ((s.closeRun ending replaces).spawn
        [.mirroring ending discards replaces]) c ∧ c.Mirrors :=
      ⟨_, live_spawn.mpr (.inr (List.mem_singleton_self _)), trivial⟩
    rcases hs.agree with hsame | ⟨-, hno, -⟩ | ⟨ho, hc⟩
    · by_cases ho : s.OwnerRuns
      · exact .inr (.inl ⟨ho, not_runRuns_closeRun, hnew⟩)
      · -- the run is `running`, so there is no owner left
        refine .inl fun o hmem => absurd ?_ ho
        exact ⟨o, hmem, (hsame o hmem).1.mpr hr⟩
    · exact absurd hr hno
    · exact .inr (.inr ⟨ho, live_spawn.mpr (.inl hc)⟩)

/-- What says the same as a run that may be retried is reopened with it. -/
theorem SameOutcome.reopens (h : s.SameOutcome) (hr : s.Retries) {o : ScheduleRun}
    (ho : o ∈ s.owner) (hk : o.kind = .workflow) (hno : o.status ≠ .replaced) : o.Reopens := by
  obtain ⟨w, hw, hend⟩ := hr
  have hagree := (h o ho).2 w hw (by rcases hend with hend | hend <;> rw [hend] <;> decide)
  split at hagree
  next => exact absurd hagree.1 hno
  next =>
    refine ⟨hk, ?_⟩
    rcases hend with hend | hend
    · exact .inl (by rw [hagree, hend]; rfl)
    · exact .inr (by rw [hagree, hend]; rfl)

/-- A retry reopens the run, and goes on to its owner. -/
theorem Tied.reopenRun (h : Tied [.reopeningRun] s) (hr : s.Retries)
    (ho : (s.owner.all fun o => o.status ≠ .replaced) = true) :
    Tied [] (s.reopenRun.spawn [.reopeningOwner]) := by
  have hs := h.done id (by simp)
  have hlive : Live [] (s.reopenRun.spawn [.reopeningOwner]) .reopeningOwner :=
    live_spawn.mpr (.inr (List.mem_singleton_self _))
  refine ⟨?_, h.kind, ?_, ?_, ?_, ?_⟩
  · intro c hc
    rcases List.mem_append.mp hc with hc | hc
    · exact h.later c hc
    · exact (List.mem_singleton.mp hc) ▸ trivial
  · intro w hw hrep
    obtain ⟨w', -, rfl⟩ := Option.map_eq_some_iff.mp hw
    cases hrep
  · intro c hc hdis
    rcases live_spawn.mp hc with hc | hc
    · exact absurd hdis (hs.not_discards (.inr hr) hc)
    · obtain rfl := List.mem_singleton.mp hc
      cases hdis
  · intro hc
    rcases live_spawn.mp hc with hc | hc
    · exact absurd trivial (hs.not_discards (.inr hr) hc)
    · exact absurd (List.mem_singleton.mp hc) (by simp)
  · rcases hs.agree with hsame | ⟨⟨o, ho, hrun⟩, -, -⟩ | ⟨hre, hc⟩
    · cases howner : s.owner with
      | none =>
        refine .inl fun o hmem => ?_
        rw [show (s.reopenRun.spawn [Call.reopeningOwner]).owner = s.owner from rfl, howner] at hmem
        cases hmem
      | some o =>
        have hno : o.status ≠ .replaced := by
          rw [howner] at ho
          exact of_decide_eq_true ho
        exact .inr (.inr ⟨⟨o, howner, hsame.reopens hr howner (h.kind o howner) hno⟩, hlive⟩)
    · -- the owner has not been closed yet, and need not be
      obtain ⟨w, hw, -⟩ := hr
      refine .inl fun o' ho' => ?_
      obtain rfl := Option.mem_unique ho ho'
      refine ⟨iff_of_true hrun ⟨_, Option.map_eq_some_iff.mpr ⟨w, hw, rfl⟩, rfl⟩, ?_⟩
      intro w' hw' hend
      obtain ⟨w'', -, rfl⟩ := Option.map_eq_some_iff.mp hw'
      exact absurd rfl hend
    · exact .inr (.inr ⟨hre, live_spawn.mpr (.inl hc)⟩)

/-- A kill that is asked for changes no status. -/
theorem Tied.requestKill (h : Tied extra s) : Tied extra s.requestKill := by
  have hruns : s.requestKill.RunRuns ↔ s.RunRuns := by
    unfold RunRuns Pair.requestKill
    cases s.run <;> simp
  have hrun : ∀ w ∈ s.requestKill.run, ∃ w' ∈ s.run, w.status = w'.status ∧ w.replaced = w'.replaced := by
    intro w hw
    obtain ⟨w', hw', rfl⟩ := Option.map_eq_some_iff.mp hw
    exact ⟨w', hw', rfl, rfl⟩
  refine ⟨h.later, h.kind, ?_, ?_, h.left, ?_⟩
  · intro w hw hrep
    obtain ⟨w', hw', hst, hre⟩ := hrun w hw
    rw [hst]
    exact h.killed w' hw' (hre ▸ hrep)
  · intro c hc hdis w hw
    obtain ⟨w', hw', hst, -⟩ := hrun w hw
    rw [hst]
    exact h.discarded c hc hdis w' hw'
  · rcases h.agree with hsame | ⟨ho, hno, hc⟩ | hc
    · refine .inl fun o ho => ⟨(hsame o ho).1.trans hruns.symm, fun w hw hend => ?_⟩
      obtain ⟨w', hw', hst, hre⟩ := hrun w hw
      rw [hst] at hend ⊢
      rw [hre]
      exact (hsame o ho).2 w' hw' hend
    · exact .inr (.inl ⟨ho, mt hruns.mp hno, hc⟩)
    · exact .inr (.inr hc)

/-! ## The owner -/

/-- What is not `running` is not finalized. -/
theorem finalizeOwner_of_not (h : ¬ s.OwnerRuns) (status : ScheduleRunStatus) :
    s.finalizeOwner status = s := by
  unfold finalizeOwner
  cases ho : s.owner with
  | none => rw [Option.map_none, ← ho]
  | some o =>
    have hno : o.status ≠ .running := fun hr => h ⟨o, ho, hr⟩
    rw [Option.map_some, ScheduleRun.finalize, if_neg hno, ← ho]

variable {status : ScheduleRunStatus}

theorem not_ownerRuns_finalizeOwner (hs : status ≠ .running) :
    ¬ (s.finalizeOwner status).OwnerRuns := by
  rintro ⟨o, ho, hrun⟩
  obtain ⟨o', -, rfl⟩ := Option.map_eq_some_iff.mp ho
  unfold ScheduleRun.finalize at hrun
  split at hrun
  next => exact hs hrun
  next hno => exact hno hrun

/-- A finalization of an owner that is `running` says what the run says. -/
theorem sameOutcome_finalizeOwner (hs : status ≠ .running)
    (hkilled : ∀ w ∈ s.run, w.replaced = true → w.status = .killed) (ho : s.OwnerRuns)
    (hok : (s.run.any fun w => w.status ≠ .running ∧ w.reads = status) = true) :
    (s.finalizeOwner status).SameOutcome := by
  obtain ⟨w, hw, hreads⟩ := (Option.any_eq_true _ _).mp hok
  obtain ⟨hend, hreads⟩ := of_decide_eq_true hreads
  obtain ⟨o, ho, hrun⟩ := ho
  intro o' ho'
  obtain ⟨o'', ho'', rfl⟩ := Option.map_eq_some_iff.mp ho'
  obtain rfl := Option.mem_unique ho ho''
  have hstatus : (o.finalize status none).status = status := by
    unfold ScheduleRun.finalize
    rw [if_pos hrun]
  rw [hstatus]
  constructor
  · refine iff_of_false hs ?_
    rintro ⟨w', hw', hrun'⟩
    obtain rfl := Option.mem_unique hw hw'
    exact hend hrun'
  · intro w' hw' _
    obtain rfl := Option.mem_unique hw hw'
    unfold WorkflowRun.reads at hreads
    split at hreads
    next hrep =>
      rw [if_pos hrep]
      exact ⟨hreads.symm, hkilled w hw hrep⟩
    next hrep =>
      rw [if_neg hrep]
      exact hreads.symm

/-- A finalization that finds the owner `running` only when it says what the run says. -/
theorem Tied.finalizeOwner (h : Tied [call] s) (hre : call ≠ .reopeningOwner) (hs : status ≠ .running)
    (hok : s.OwnerRuns → (s.run.any fun w => w.status ≠ .running ∧ w.reads = status) = true) :
    Tied [] (s.finalizeOwner status) := by
  refine ⟨h.later, ?_, h.killed, ?_, ?_, ?_⟩
  · intro o ho
    obtain ⟨o', ho', rfl⟩ := Option.map_eq_some_iff.mp ho
    unfold ScheduleRun.finalize
    split <;> exact h.kind o' ho'
  · exact fun c hc => h.discarded c (hc.imp_right fun hc => by cases hc)
  · exact fun _ => not_ownerRuns_finalizeOwner hs
  · by_cases ho : s.OwnerRuns
    · exact .inl (sameOutcome_finalizeOwner hs h.killed ho (hok ho))
    · rw [finalizeOwner_of_not ho]
      rcases h.agree with hsame | ⟨hruns, -⟩ | ⟨hreopens, hc⟩
      · exact .inl hsame
      · exact absurd hruns ho
      · refine .inr (.inr ⟨hreopens, .inl (hc.resolve_right fun hc => ?_)⟩)
        exact hre (List.mem_singleton.mp hc).symm

/-- `finalize_schedule_run`; with a discard to come the run has succeeded. -/
theorem Tied.finalizeScheduleRun (h : Tied [call] s) (hre : call ≠ .reopeningOwner) (hs : status ≠ .running) {discards replaces : Bool}
    (hd : discards = true → ∀ w ∈ s.run, w.status = .success)
    (hok : s.OwnerRuns → (s.run.any fun w => w.status ≠ .running ∧ w.reads = status) = true) :
    Tied [] (s.finalizeScheduleRun status discards replaces) := by
  have hf := h.finalizeOwner hre hs hok
  unfold Pair.finalizeScheduleRun
  split
  · refine hf.spawn ?_ ?_ ?_
    · exact fun c hc => (List.mem_singleton.mp hc) ▸ trivial
    · intro c hc hdis
      obtain rfl := List.mem_singleton.mp hc
      exact hd hdis
    · exact fun hc => absurd (List.mem_singleton.mp hc) (by simp)
  · unfold afterMirror
    split
    · exact hf.goOn trivial id
    · split
      next hdis =>
        refine hf.spawn ?_ ?_ ?_
        · exact fun c hc => (List.mem_singleton.mp hc) ▸ trivial
        · exact fun _ _ _ => hd hdis
        · exact fun _ => not_ownerRuns_finalizeOwner hs
      next =>
        refine hf.spawn ?_ ?_ ?_
        · exact fun c hc => by cases hc
        · exact fun c hc => by cases hc
        · exact fun hc => by cases hc

/-- A retry reopens the owner of a run that is `running`. -/
theorem Tied.reopenOwner (h : Tied [.reopeningOwner] s)
    (hok : s.owner.any (·.Reopens) = true → s.RunRuns) : Tied [] s.reopenOwner := by
  have hkind : ∀ o ∈ s.reopenOwner.owner, o.kind = .workflow := by
    intro o ho
    obtain ⟨o', ho', rfl⟩ := Option.map_eq_some_iff.mp ho
    unfold ScheduleRun.reopen
    split <;> exact h.kind o' ho'
  have hlive : ∀ {c : Call}, Live [] s.reopenOwner c → Live [.reopeningOwner] s c :=
    fun hc => hc.imp_right fun hc => by cases hc
  by_cases hre : s.owner.any (·.Reopens) = true
  · have hr := hok hre
    obtain ⟨o, ho, hreopens⟩ := (Option.any_eq_true _ _).mp hre
    refine ⟨h.later, hkind, h.killed, fun c hc => h.discarded c (hlive hc), fun hc => ?_, .inl ?_⟩
    · exact absurd trivial (h.not_discards (.inl hr) (hlive hc))
    · intro o' ho'
      obtain ⟨o'', ho'', rfl⟩ := Option.map_eq_some_iff.mp ho'
      obtain rfl := Option.mem_unique ho ho''
      have hstatus : o.reopen.status = .running := by
        unfold ScheduleRun.reopen
        rw [if_pos (of_decide_eq_true hreopens)]
      refine ⟨iff_of_true hstatus hr, fun w hw hend => ?_⟩
      obtain ⟨w', hw', hrun⟩ := hr
      obtain rfl := Option.mem_unique hw hw'
      exact absurd hrun hend
  · have hsame : s.reopenOwner = s := by
      unfold Pair.reopenOwner
      cases ho : s.owner with
      | none => rw [Option.map_none, ← ho]
      | some o =>
        have hno : ¬ o.Reopens := fun hr => hre (by rw [ho]; exact decide_eq_true hr)
        rw [Option.map_some, ScheduleRun.reopen, if_neg hno, ← ho]
    refine ⟨h.later, hkind, h.killed, fun c hc => h.discarded c (hlive hc), ?_, ?_⟩
    · rw [hsame]
      exact fun hc => h.left (hc.imp_right fun hc => by cases hc)
    · rw [hsame]
      rcases h.agree with hs | ⟨ho, hno, c, hc, hm⟩ | ⟨⟨o, ho, hr⟩, -⟩
      · exact .inl hs
      · refine .inr (.inl ⟨ho, hno, c, .inl (hc.resolve_right fun hc => ?_), hm⟩)
        rw [List.mem_singleton.mp hc] at hm
        exact hm
      · exact absurd (by rw [ho]; exact decide_eq_true hr) hre

/-! ## Steps -/

theorem ofOwner_ne_running (ending : Ending) : ending.status.ofOwner ≠ .running := by
  cases ending <;> decide

theorem Tied.resume (h : Tied [call] s) (hl : call.Later) (hok : s.Timely (.resume call))
    (ht : s.resume call = some t) : Tied [] t := by
  cases call with
  | creatingOwner f | creatingJob | failingJobRun | creatingRun f | creatingSteps left
  | linking | failingRun | failingMirror | failingOwner => cases hl
  | loading =>
    have hs := h.done id (by simp)
    simp only [Pair.resume] at ht
    split at ht <;> cases ht
    · exact hs.goOn (fun _ => rfl) id
    · exact hs.goOn trivial id
    · exact hs
  | passing | resetting => cases ht
  | completing =>
    simp only [Pair.resume] at ht
    split at ht
    next hr =>
      cases ht
      exact h.closeRun id (by simp) hr (fun hf => by cases hf) fun _ => rfl
    next => cases ht; exact h.done id (by simp)
  | failing =>
    simp only [Pair.resume] at ht
    split at ht
    next hr =>
      cases ht
      exact h.closeRun id (by simp) hr (fun hf => by cases hf) fun hf => by cases hf
    next => cases ht; exact h.done id (by simp)
  | mirroring ending discards replaces =>
    cases ht
    refine h.finalizeScheduleRun (by simp) (ofOwner_ne_running ending) ?_ hok
    exact fun hd => h.discarded _ (.inr (List.mem_singleton_self _)) hd
  | discardingOwner discards replaces =>
    cases ht
    have hs := h.done id (by simp)
    have hgone : Tied [] { s with owner := none } :=
      ⟨hs.later, fun o ho => (by cases ho), hs.killed, hs.discarded,
        fun _ ⟨o, ho, _⟩ => (by cases ho), .inl fun o ho => (by cases ho)⟩
    unfold afterMirror
    split
    · exact hgone.goOn trivial id
    · split
      next hd =>
        refine hgone.spawn ?_ ?_ ?_
        · exact fun c hc => (List.mem_singleton.mp hc) ▸ trivial
        · exact fun _ _ _ => h.discarded _ (.inr (List.mem_singleton_self _)) hd
        · rintro - ⟨o, ho, -⟩
          cases ho
      next =>
        refine hgone.spawn ?_ ?_ ?_
        · exact fun c hc => by cases hc
        · exact fun c hc => by cases hc
        · exact fun hc => by cases hc
  | discardingRun =>
    cases ht
    have hs := h.done id (by simp)
    have hno : ¬ s.OwnerRuns := h.left (.inr (List.mem_singleton_self _))
    refine ⟨hs.later, hs.kind, fun w hw => (by cases hw), fun c hc hd w hw => (by cases hw),
      fun _ => hno, .inl fun o ho => ⟨iff_of_false ?_ ?_, fun w hw => by cases hw⟩⟩
    · exact fun hr => hno ⟨o, ho, hr⟩
    · rintro ⟨w, hw, -⟩
      cases hw
  | loadingKill =>
    have hs := h.done id (by simp)
    simp only [Pair.resume] at ht
    split at ht <;> cases ht
    · exact hs.goOn (fun _ => rfl) id
    · exact hs
  | reaping =>
    have hs := h.done id (by simp)
    simp only [Pair.resume] at ht
    split at ht <;> cases ht
    · exact hs.goOn (fun hf => by cases hf) id
    · exact hs
  | cancelling | loadingRetry =>
    have hs := h.done id (by simp)
    simp only [Pair.resume] at ht
    split at ht <;> cases ht
    · exact hs.goOn trivial id
    · exact hs
  | requesting replaces =>
    cases ht
    exact (h.done id (by simp)).requestKill.goOn trivial id
  | loadingRequested replaces =>
    have hs := h.done id (by simp)
    simp only [Pair.resume] at ht
    split at ht <;> cases ht
    · exact hs.goOn (fun _ => rfl) id
    · cases replaces with
      | true => exact hs.goOn trivial id
      | false =>
        refine hs.spawn ?_ ?_ ?_
        · exact fun c hc => by cases hc
        · exact fun c hc => by cases hc
        · exact fun hc => by cases hc
  | stopping ending replaces =>
    simp only [Pair.resume] at ht
    split at ht
    next hr =>
      cases ht
      exact h.closeRun id (by simp) hr hl fun hf => by cases hf
    next =>
      cases ht
      exact (h.done id (by simp)).goOn trivial (by simp [Call.Discards])
  | selecting =>
    have hs := h.done id (by simp)
    simp only [Pair.resume] at ht
    split at ht
    next =>
      split at ht <;> cases ht
      · exact hs.goOn trivial id
      · exact hs.goOn trivial id
    next => cases ht; exact hs
  | replacing =>
    cases ht
    exact h.finalizeScheduleRun (by simp) (by decide) (fun hf => by cases hf) hok
  | reopeningRun =>
    simp only [Pair.resume] at ht
    split at ht
    next hr =>
      cases ht
      exact h.reopenRun hr (hok hr)
    next => cases ht; exact h.done id (by simp)
  | reopeningOwner =>
    cases ht
    exact (h.reopenOwner hok).goOn trivial id

theorem Tied.step {e : Event} (h : Tied [] s) (hcalm : e.Calm) (hok : s.Timely e)
    (ht : s.step e = some t) : Tied [] t := by
  cases e with
  | fire f | finalizeJobRun outcome | pruneOwner | pruneRun | fail call | die call => cases hcalm
  | advance | healKill | reap | cancel | replace | retry => cases ht; exact h.goOn trivial id
  | finishPass verdict =>
    simp only [Pair.step] at ht
    split at ht
    next hmem =>
      have hs := (h.others hmem).done id (by simp)
      split at ht <;> cases ht
      · exact hs
      · exact hs.goOn trivial id
      · exact hs.goOn trivial id
    next => cases ht
  | finishReset found =>
    simp only [Pair.step] at ht
    split at ht
    next hmem =>
      have hs := (h.others hmem).done id (by simp)
      split at ht <;> cases ht
      · exact hs.goOn trivial id
      · exact hs
    next => cases ht
  | resume call =>
    simp only [Pair.step] at ht
    split at ht
    next hmem => exact (h.others hmem).resume (h.later call hmem) (by exact hok) ht
    next => cases ht

/-! ## Runs -/

end

/-- A replace, with nothing in between. -/
def replaceAll : List Event :=
  [.replace, .resume .selecting, .resume (.requesting true), .resume (.loadingRequested true),
    .resume (.stopping .killed true), .resume (.mirroring .killed false true), .resume .replacing]

end Pair

end Sp00ky.ScheduleCore.Owner
