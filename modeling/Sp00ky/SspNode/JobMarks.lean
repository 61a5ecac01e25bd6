/-
  The in-flight mark of a job (`execute_job` and `handle_failure` of
  `packages/ssp-node/src/jobs/runner.rs`, `admit` of `dispatcher.rs`, `JobControl` of `types.rs`).

  A node holds a job in its queue, in an attempt or in a backoff. The marked ids are those of the
  jobs it holds, each held once (`Marked`), until a failed write ends an attempt before its mark
  is cleared (`released_iff`).
-/
import Mathlib.Algebra.Order.Ring.Int
import Mathlib.Data.List.Perm.Basic
import Sp00ky.Lib.Transition

namespace Sp00ky.SspNode.JobMarks

open Lib (Run runAll exists_run exists_freeRun)

/-! ## The node -/

/-- What of a `JobEntry` the runner's control flow reads. -/
structure JobEntry where
  id : String
  retries : Nat
  maxRetries : Nat
  retryStrategy : String
  leaseEpoch : Option Int
deriving DecidableEq, Repr

/-- `DbError`. -/
inductive DbError | auth | transport | query
deriving DecidableEq, Repr

/-- `HttpError`. -/
inductive HttpError | timeout | cancelled | transport
deriving DecidableEq, Repr

/-- `Claim`. -/
inductive Claim | fenced (epoch : Int) | unfenced | lost
deriving DecidableEq, Repr

/-- `Claim::epoch`. -/
def Claim.epoch : Claim → Option Int
  | .fenced epoch => some epoch
  | .unfenced | .lost => none

/-- What one attempt hears back: for each statement whether it updated a row, and the status of
    the response. Appending the error, counting the retry and deferring it only reach the log. -/
structure Answers where
  failIfPending : Except DbError Bool := .ok true
  claim : Except DbError Claim := .ok (.fenced 1)
  http : Except HttpError Nat := .ok 200
  success : Except DbError Bool := .ok true
  updateStatus : Except DbError Bool := .ok true

/-- `JobControl`, and the jobs the node holds. An attempt took its kill flag when it began. -/
structure Node where
  enqueued : String → Bool := fun _ => false
  killedPending : String → Bool := fun _ => false
  queue : List JobEntry := []
  running : List (JobEntry × Bool) := []
  backoffs : List JobEntry := []

/-- The ids of the jobs the node holds. -/
def Node.held (node : Node) : List String :=
  node.queue.map (·.id) ++ (node.running.map (·.1.id) ++ node.backoffs.map (·.id))

/-- `clear_enqueued`. -/
def Node.clearEnqueued (node : Node) (id : String) : Node :=
  { node with enqueued := Function.update node.enqueued id false }

/-- What meets an entry on its way in: no slot for it (the dispatcher is closed, paused or full),
    or a slot and a queue that takes it or not. -/
inductive Admission | refused | permit (sent : Bool)
deriving DecidableEq, Repr

/-- `admit`. -/
def admitEntry (node : Node) (entry : JobEntry) : Admission → Node × Bool
  | .refused => (node, false)
  | .permit sent =>
    if node.enqueued entry.id then (node, false)
    else
      let marked := { node with enqueued := Function.update node.enqueued entry.id true }
      if sent then ({ marked with queue := marked.queue ++ [entry] }, true)
      else (marked.clearEnqueued entry.id, false)

/-! ## An attempt -/

/-- `calculate_delay`, in milliseconds. -/
def calculateDelay (retries : Nat) (strategy : String) : Nat :=
  if strategy = "exponential" then min (200 * min (2 ^ retries) (2 ^ 64 - 1)) (2 ^ 64 - 1)
  else 200 * (retries + 1)

/-- `terminalize`. A fenced-out write is swallowed. -/
def terminalize (a : Answers) : Except DbError Unit := a.updateStatus.map fun _ => ()

/-- `complete_success_helper`. A rejected result is left out, and only the status written. -/
def completeSuccess (a : Answers) : Except DbError Unit :=
  match a.success with
  | .ok _ => .ok ()
  | .error .query => terminalize a
  | .error e => .error e

/-- `handle_failure`. -/
def handleFailure (maxJobSleep : Option Nat) (node : Node) (job : JobEntry) (a : Answers) :
    Node × Except DbError Unit :=
  let job := { job with retries := (job.retries + 1) % 2 ^ 32 }
  if job.retries < job.maxRetries then
    if maxJobSleep.any (· < calculateDelay job.retries job.retryStrategy) then
      (node.clearEnqueued job.id, .ok ())
    else ({ node with backoffs := job :: node.backoffs }, .ok ())
  else (node.clearEnqueued job.id, terminalize a)

/-- `execute_job`, once it has claimed the row. -/
def executeClaimed (maxJobSleep : Option Nat) (node : Node) (job : JobEntry) (a : Answers) :
    Node × Except DbError Unit :=
  -- the `?` on a last write comes before the mark is cleared
  let clearAfter (written : Except DbError Unit) : Node × Except DbError Unit :=
    match written with
    | .ok _ => (node.clearEnqueued job.id, .ok ())
    | .error e => (node, .error e)
  match a.http with
  | .error .cancelled => clearAfter (terminalize a)
  | .ok status =>
    if 200 ≤ status ∧ status < 300 then clearAfter (completeSuccess a)
    else handleFailure maxJobSleep node job a
  | .error _ => handleFailure maxJobSleep node job a

/-- `execute_job`. -/
def executeJob (maxJobSleep : Option Nat) (node : Node) (job : JobEntry) (killed : Bool)
    (a : Answers) : Node × Except DbError Unit :=
  if killed then (node.clearEnqueued job.id, a.failIfPending.map fun _ => ())
  else
    match a.claim with
    | .error e => (node.clearEnqueued job.id, .error e)
    | .ok .lost => (node.clearEnqueued job.id, .ok ())
    | .ok claim => executeClaimed maxJobSleep node { job with leaseEpoch := claim.epoch } a

/-- The backoff task of `handle_failure`, once it has slept. -/
def retry (node : Node) (job : JobEntry) (requeued : Except DbError Bool) (admission : Admission) :
    Node :=
  match requeued with
  | .ok true =>
    let (admitted, taken) := admitEntry node job admission
    if taken then admitted else admitted.clearEnqueued job.id
  | .ok false => node.clearEnqueued job.id
  | .error _ => node

/-! ## Runs -/

inductive Event
  | admitEntry (entry : JobEntry) (admission : Admission)
  | kill (id : String)
  | unkill (id : String)
  | start
  | finish (i : Nat) (a : Answers)
  | wake (i : Nat) (requeued : Except DbError Bool) (admission : Admission)

/-- One event. An attempt and a backoff each hand their job on when they end. -/
def step (maxJobSleep : Option Nat) (node : Node) : Event → Option Node
  | .admitEntry entry admission => some (admitEntry node entry admission).1
  | .kill id => some { node with killedPending := Function.update node.killedPending id true }
  | .unkill id => some { node with killedPending := Function.update node.killedPending id false }
  | .start =>
    match node.queue with
    | [] => none
    | job :: queue =>
      some { node with
        queue := queue, running := (job, node.killedPending job.id) :: node.running,
        killedPending := Function.update node.killedPending job.id false }
  | .finish i a =>
    node.running[i]?.map fun (job, killed) =>
      (executeJob maxJobSleep { node with running := node.running.eraseIdx i } job killed a).1
  | .wake i requeued admission =>
    node.backoffs[i]?.map fun job =>
      retry { node with backoffs := node.backoffs.eraseIdx i } job requeued admission

/-- Whether a reply is an error. -/
def failed {α : Type} : Except DbError α → Bool
  | .ok _ => false
  | .error _ => true

/-- Whether the last write of a claimed attempt is lost: the status of a cancelled request is not
    written, or the success is neither written nor, where the database rejects the result,
    written without it. -/
def Answers.loses (a : Answers) : Bool :=
  match a.http with
  | .error .cancelled => failed a.updateStatus
  | .error _ => false
  | .ok status =>
    decide (200 ≤ status ∧ status < 300) &&
      match a.success with
      | .ok _ => false
      | .error .query => failed a.updateStatus
      | .error _ => true

/-- Whether an event loses the last write of the attempt or the backoff it ends. -/
def loses (node : Node) : Event → Bool
  | .finish i a =>
    node.running[i]?.any (!·.2) && a.claim.toOption.any (· ≠ .lost) && a.loses
  | .wake _ requeued _ => failed requeued
  | _ => false

/-! ## The marks are those of the jobs held -/

/-- The marks are those of some jobs, each held once. -/
structure HoldsMarks (enqueued : String → Bool) (held : List String) : Prop where
  once : held.Nodup
  marked : ∀ id, enqueued id = true ↔ id ∈ held

/-- Every mark is of a job the node holds. -/
def Marked (node : Node) : Prop := HoldsMarks node.enqueued node.held

/-- A marked id is in the queue, once its attempt and its backoff have finished. -/
def Released (node : Node) : Prop :=
  ∀ id, node.enqueued id = true → id ∉ node.running.map (·.1.id) →
    id ∉ node.backoffs.map (·.id) → id ∈ node.queue.map (·.id)

section Marks

variable {node : Node} {id : String} {held : List String}

theorem Marked.released (h : Marked node) : Released node := by
  intro id hid hrunning hbackoffs
  rcases List.mem_append.mp ((h.marked id).mp hid) with hqueue | hrest
  · exact hqueue
  · exact absurd (List.mem_append.mp hrest) (not_or.mpr ⟨hrunning, hbackoffs⟩)

theorem HoldsMarks.perm {enqueued : String → Bool} {held' : List String}
    (h : HoldsMarks enqueued held) (hperm : held.Perm held') : HoldsMarks enqueued held' :=
  ⟨hperm.nodup_iff.mp h.once, fun id => (h.marked id).trans hperm.mem_iff⟩

/-- A job that is held no more, its mark cleared. -/
theorem HoldsMarks.clear (h : HoldsMarks node.enqueued (id :: held)) :
    HoldsMarks (node.clearEnqueued id).enqueued held := by
  obtain ⟨hnot, honce⟩ := List.nodup_cons.mp h.once
  refine ⟨honce, fun i => ?_⟩
  by_cases hi : i = id
  · subst hi
    simp [Node.clearEnqueued, hnot]
  · simp [Node.clearEnqueued, hi, h.marked i]

/-- A job that is held no more, its mark not cleared. -/
theorem HoldsMarks.leaks (h : HoldsMarks node.enqueued (id :: node.held)) : ¬ Released node := by
  intro hreleased
  have hnot := (List.nodup_cons.mp h.once).1
  simp only [Node.held, List.mem_append, not_or] at hnot
  exact hnot.1 (hreleased id ((h.marked id).mpr List.mem_cons_self) hnot.2.1 hnot.2.2)

end Marks

section Steps

variable {maxJobSleep : Option Nat} {node next : Node} {job : JobEntry} {a : Answers}

theorem admit_marked (h : Marked node) (admission : Admission) :
    Marked (admitEntry node job admission).1 := by
  cases admission with
  | refused => exact h
  | permit sent =>
    unfold admitEntry
    dsimp only
    split
    next => exact h
    next hfresh =>
      have hmarks : HoldsMarks (Function.update node.enqueued job.id true)
          (job.id :: node.held) := by
        refine ⟨List.nodup_cons.mpr ⟨fun hmem => hfresh ((h.marked _).mpr hmem), h.once⟩, fun i => ?_⟩
        by_cases hi : i = job.id
        · simp [hi]
        · simp [hi, h.marked i]
      cases sent with
      | false => exact @HoldsMarks.clear { node with enqueued := _ } job.id _ hmarks
      | true =>
        refine hmarks.perm ?_
        simp [Node.held, List.perm_middle.symm]

/-- A job that is held by its own mark is not admitted again. -/
theorem admit_held (h : node.enqueued job.id = true) (admission : Admission) :
    admitEntry node job admission = (node, false) := by
  cases admission <;> simp [admitEntry, h]

/-- What a failed attempt leaves: its mark cleared, or its job in a backoff under the mark. -/
theorem handleFailure_marked (h : HoldsMarks node.enqueued (job.id :: node.held)) :
    Marked (handleFailure maxJobSleep node job a).1 := by
  unfold handleFailure
  dsimp only
  split
  · split
    · exact h.clear
    · refine h.perm ?_
      simp only [Node.held, List.map_cons, ← List.append_assoc]
      exact List.perm_middle.symm
  · exact h.clear

/-- A claimed attempt leaves the marks of the jobs held, unless it loses its last write. -/
theorem executeClaimed_released (h : HoldsMarks node.enqueued (job.id :: node.held)) :
    if a.loses then ¬ Released (executeClaimed maxJobSleep node job a).1
    else Marked (executeClaimed maxJobSleep node job a).1 := by
  unfold executeClaimed Answers.loses
  rcases a.http with e | status
  · cases e with
    | cancelled =>
      unfold terminalize
      rcases a.updateStatus with e | updated
      · exact h.leaks
      · exact h.clear
    | timeout | transport => exact handleFailure_marked h
  · by_cases hstatus : 200 ≤ status ∧ status < 300
    · simp only [hstatus, and_self, decide_true, Bool.true_and, if_true]
      unfold completeSuccess terminalize
      rcases a.success with e | updated
      · cases e with
        | query =>
          rcases a.updateStatus with e | updated
          · exact h.leaks
          · exact h.clear
        | auth | transport => exact h.leaks
      · exact h.clear
    · simp only [hstatus, decide_false, Bool.false_and, if_false]
      exact handleFailure_marked h

theorem retry_released (h : HoldsMarks node.enqueued (job.id :: node.held))
    {requeued : Except DbError Bool} {admission : Admission} :
    if failed requeued then ¬ Released (retry node job requeued admission)
    else Marked (retry node job requeued admission) := by
  have hheld := (h.marked job.id).mpr List.mem_cons_self
  rcases requeued with e | _ | _
  · exact h.leaks
  · exact h.clear
  · unfold retry
    rw [admit_held hheld]
    exact h.clear

/-- A job at a place of a list, taken out of what the node holds. -/
theorem Marked.take (h : Marked node) {α : Type} {jobs : List α} {f : α → String} {i : Nat}
    {taken : α} (htaken : jobs[i]? = some taken) {others : List String}
    (hheld : node.held.Perm (jobs.map f ++ others)) :
    HoldsMarks node.enqueued (f taken :: ((jobs.eraseIdx i).map f ++ others)) := by
  obtain ⟨hi, rfl⟩ := List.getElem?_eq_some_iff.mp htaken
  exact h.perm (hheld.trans
    (((List.getElem_cons_eraseIdx_perm hi).map f).symm.append_right others))

/-- An event keeps the marks those of the jobs held, unless it loses a last write. -/
theorem step_released (h : Marked node) {e : Event} (hstep : step maxJobSleep node e = some next) :
    if loses node e then ¬ Released next else Marked next := by
  cases e with
  | admitEntry entry admission =>
    cases hstep
    exact admit_marked h admission
  | kill id | unkill id =>
    cases hstep
    exact h
  | start =>
    rcases hqueue : node.queue with _ | ⟨job, queue⟩
    · simp [step, hqueue] at hstep
    · simp only [step, hqueue, Option.some.injEq] at hstep
      subst hstep
      refine h.perm ?_
      simp only [Node.held, hqueue, List.map_cons]
      exact List.perm_middle.symm
  | finish i a =>
    obtain ⟨⟨job, killed⟩, htaken, rfl⟩ := Option.map_eq_some_iff.mp hstep
    have hheld (jobs) : (Node.held { node with running := jobs }).Perm
        (jobs.map (·.1.id) ++ (node.queue.map (·.id) ++ node.backoffs.map (·.id))) :=
      List.perm_append_comm_assoc ..
    have hmarks := (h.take htaken (hheld _)).perm ((hheld _).symm.cons _)
    have hloses : loses node (.finish i a) =
        (!killed && a.claim.toOption.any (· ≠ .lost) && a.loses) := by
      simp [loses, htaken]
    rw [hloses]
    unfold executeJob
    cases killed with
    | true => exact hmarks.clear
    | false =>
      rcases a.claim with e | _ | _ | _
      · exact hmarks.clear
      · exact executeClaimed_released hmarks
      · exact executeClaimed_released hmarks
      · exact hmarks.clear
  | wake i requeued admission =>
    obtain ⟨job, htaken, rfl⟩ := Option.map_eq_some_iff.mp hstep
    have hheld (jobs) : (Node.held { node with backoffs := jobs }).Perm
        (jobs.map (·.id) ++ (node.queue.map (·.id) ++ node.running.map (·.1.id))) := by
      rw [Node.held, ← List.append_assoc]
      exact List.perm_append_comm
    have hmarks := (h.take htaken (hheld _)).perm ((hheld _).symm.cons _)
    exact retry_released hmarks

end Steps

/-! ## The result -/

/-- While no event loses the last write of what it ends, a marked id whose attempt and backoff
    have finished is in the queue; the first event that does leaves such an id out of it. -/
theorem released_iff {maxJobSleep : Option Nat} {node : Node}
    (hrun : Run (step maxJobSleep) (fun node e => loses node e = false) {} node) :
    Released node ∧ ∀ e next, step maxJobSleep node e = some next →
      (Released next ↔ loses node e = false) := by
  have hmarked : Marked node := by
    refine hrun.invariant ⟨List.nodup_nil, fun id => by simp [Node.held]⟩ ?_
    intro node e next h hok hstep
    have hnext := step_released h hstep
    rw [hok] at hnext
    exact hnext
  refine ⟨hmarked.released, fun e next hstep => ?_⟩
  have hnext := step_released hmarked hstep
  split at hnext
  next hloses => simp [hloses, hnext]
  next hkept => simp [hkept, hnext.released]

/-- A job is taken in and its attempt begins. -/
def begins : List Event := [.admitEntry ⟨"job:1", 0, 3, "linear", none⟩ (.permit true), .start]

/-- After a failed attempt and its backoff the job runs again, and is cancelled. -/
theorem released_iff_retried : ∃ node next, node.enqueued "job:1" = true ∧ Released node ∧
    step none node (.finish 0 { http := .error .cancelled }) = some next ∧ Released next := by
  have hrun : (runAll (step none) (fun node e => !loses node e) {} (begins ++
      [.finish 0 { http := .ok 500 }, .wake 0 (.ok true) (.permit true)] ++ begins)).any
        (fun node => node.enqueued "job:1" && decide (node.running.length = 1)) = true := by
    decide +kernel
  obtain ⟨node, hnode, hall⟩ := exists_run hrun
  obtain ⟨hmark, hrunning⟩ := Bool.and_eq_true_iff.mp hall
  obtain ⟨attempt, hattempt⟩ := List.length_eq_one_iff.mp (of_decide_eq_true hrunning)
  have hreleased := released_iff (hnode.mono fun _ _ => Bool.not_eq_true' _ |>.mp)
  refine ⟨node, _, hmark, hreleased.1, by rw [step, hattempt]; rfl, ?_⟩
  exact (hreleased.2 (.finish 0 { http := .error .cancelled }) _ (by rw [step, hattempt]; rfl)).mpr
    (by simp [loses, Answers.loses, failed])

/-- A job is cancelled, and the write of its failure does not get through. -/
theorem cancelled_not_released :
    ¬ ∀ node, Run (step none) (fun _ _ => True) {} node → Released node := by
  intro h
  have hrun : (runAll (step none) (fun _ _ => true) {} (begins ++
      [.finish 0 { http := .error .cancelled, updateStatus := .error .transport }])).any
        (fun node => node.enqueued "job:1" && node.running.isEmpty && node.backoffs.isEmpty &&
          node.queue.isEmpty) = true := by
    decide +kernel
  obtain ⟨node, hnode, hall⟩ := exists_freeRun hrun
  simp only [Bool.and_eq_true, List.isEmpty_iff] at hall
  obtain ⟨⟨⟨hmark, hrunning⟩, hbackoffs⟩, hqueue⟩ := hall
  have hreleased := h node hnode "job:1" hmark
  rw [hrunning, hbackoffs, hqueue] at hreleased
  exact List.not_mem_nil (hreleased List.not_mem_nil List.not_mem_nil)

end Sp00ky.SspNode.JobMarks
