/-
  The retry budget of a pool job.

  A row counts its retries, and an attempt that fails with none left fails the job. A lease that
  runs out is handled by two statements that are to partition the expired rows: what has no retry
  left is failed, everything else goes back to the queue. Each compares with its own clock, so the
  second also requeues a last attempt whose lease ran out after the first (`requeued_without_retry`).
  Where no last attempt is expired when the second one runs, no job is claimed more often than its
  budget allows (`claims_within_budget`).
-/
import Sp00ky.Pool.Fenced

namespace Sp00ky.Pool

open Lib

namespace JobRow

/-- How often a job may be claimed: `max_retries` times, and once in any case. -/
def budget (row : JobRow) : Int := max 1 (row.maxRetries.getD 3)

/-- It is on its last attempt, and the lease of that has run out. -/
def lostLast (now : Nat) (row : JobRow) : Bool :=
  row.status = .processing && row.leaseExpired now && row.exhausted

theorem exhausted_iff {row : JobRow} :
    row.exhausted = true ↔ row.maxRetries.getD 3 ≤ (row.retries : Int) + 1 := decide_eq_true_iff

/-- The claims of a row against its retries: what is queued or running has one left for it. -/
def Accounted (row : JobRow) : Prop :=
  match row.status with
  | .pending => row.claims = row.retries ∧ (row.retries : Int) + 1 ≤ row.budget
  | .processing => row.claims = row.retries + 1 ∧ (row.retries : Int) + 1 ≤ row.budget
  | .success | .failed => (row.claims : Int) ≤ row.budget

theorem Accounted.claims_le {row : JobRow} (h : row.Accounted) : (row.claims : Int) ≤ row.budget := by
  unfold Accounted at h
  split at h <;> omega

theorem Accounted.of_processing {row : JobRow} (h : row.Accounted) (hrow : row.status = .processing) :
    row.claims = row.retries + 1 ∧ (row.retries : Int) + 1 ≤ row.budget := by
  simpa only [Accounted, hrow] using h

end JobRow

/-- No lease of a last attempt has run out when the expired ones are requeued. -/
def Db.partitions (s : Db) : Statement → Bool
  | .requeueExpired => !s.jobs.any (·.lostLast s.now)
  | _ => true

namespace JobMove

variable {s : Db} {q : Statement} {row row' : JobRow}

/-- What is final has been claimed as often as before. -/
theorem claims_le_of_final (h : row.Accounted) (hclaims : row'.claims = row.claims)
    (hbudget : row'.budget = row.budget) (hfinal : row'.status = .success ∨ row'.status = .failed) :
    row'.Accounted := by
  have hle : (row'.claims : Int) ≤ row'.budget := by
    rw [hclaims, hbudget]
    exact h.claims_le
  unfold JobRow.Accounted
  rcases hfinal with hfinal | hfinal <;> rw [hfinal] <;> exact hle

/-- Every move keeps the account, where no last attempt is requeued. -/
theorem accounted (h : JobMove s q row row') (hrow : row.Accounted) (hmem : row ∈ s.jobs)
    (hq : s.partitions q = true) : row'.Accounted := by
  cases h with
  | same => exact hrow
  | claimed machine leaseSecs hpending =>
    simp only [JobRow.Accounted, hpending] at hrow
    exact ⟨congrArg (· + 1) hrow.1, hrow.2⟩
  | renewed leaseSecs hid hheld =>
    simp only [JobRow.Accounted, JobRow.processing_of_heldBy hheld] at hrow ⊢
    exact hrow
  | exhausted | overdue | ended | killed => exact claims_le_of_final hrow rfl rfl (.inr rfl)
  | requeued hprocessing hexpired =>
    have hleft : row.exhausted = false := by
      simp only [Db.partitions, Bool.not_eq_true', List.any_eq_false] at hq
      have hlost := hq row hmem
      simpa [JobRow.lostLast, hprocessing, hexpired] using hlost
    obtain ⟨hclaims, _⟩ := hrow.of_processing hprocessing
    have hmore : ¬ row.maxRetries.getD 3 ≤ (row.retries : Int) + 1 := by
      rw [← JobRow.exhausted_iff, hleft]
      exact nofun
    refine ⟨hclaims, ?_⟩
    simp only [Db.requeue, Db.endJob, JobRow.budget]
    omega
  | succeeded => exact claims_le_of_final hrow rfl rfl (.inl rfl)
  | failed error hid hheld =>
    obtain ⟨hclaims, _⟩ := hrow.of_processing (JobRow.processing_of_heldBy hheld)
    cases hexhausted : row.exhausted with
    | true => exact claims_le_of_final hrow rfl rfl (.inr (by simp [Db.failAttempt, Db.endJob, hexhausted]))
    | false =>
      have hmore : ¬ row.maxRetries.getD 3 ≤ (row.retries : Int) + 1 := by
        rw [← JobRow.exhausted_iff, hexhausted]
        exact nofun
      simp only [Db.failAttempt, Db.endJob, hexhausted, JobRow.Accounted, JobRow.budget]
      exact ⟨hclaims, by simp; omega⟩
  | retried => exact ⟨rfl, by simp [Db.reset, JobRow.budget]⟩

/-- A last attempt goes back to the queue only by the requeue. -/
theorem of_last_requeued (h : JobMove s q row row') (hrow : row.status = .processing)
    (hlast : row.exhausted = true) (hrow' : row'.status = .pending) :
    q = .requeueExpired ∧ row.leaseExpired s.now = true := by
  cases h with
  | same | renewed => simp [hrow] at hrow'
  | requeued _ hexpired => exact ⟨rfl, hexpired⟩
  | retried h => simp [hrow] at h
  | failed error hid hheld => simp [Db.failAttempt, Db.endJob, hlast] at hrow'
  | claimed | exhausted | overdue | succeeded | ended | killed => cases hrow'

end JobMove

/-! ## Whole runs -/

/-- Whenever expired attempts are requeued, none of them is a last one. -/
def Partitions (w : World) (q : Statement) : Prop := w.db.partitions q = true

/-- A last attempt goes back to the queue in a step. -/
def RequeuesLast (e e' : Engines) : Prop :=
  ∃ row ∈ e.state.db.jobs, ∃ row' ∈ e'.state.db.jobs, row'.id = row.id ∧
    row.status = .processing ∧ row.exhausted = true ∧ row'.status = .pending

theorem Db.requeues_of_not_partitions {s : Db} {q : Statement} (h : s.partitions q = false) :
    q = .requeueExpired := by
  cases q with
  | requeueExpired => rfl
  | _ => cases h

variable {e e' : Engines} {a : EngineEvent}

theorem asked_of_not_allows (h : ¬ Calls.Allows Partitions e a) :
    ∃ q, e.asked a = some q ∧ e.state.db.partitions q = false := by
  by_contra hnone
  refine h ?_
  cases a with
  | next i =>
    intro q k hi
    by_contra hnot
    exact hnone ⟨q, by simp [Engines.asked, hi, Prog.head?], Bool.eq_false_iff.mpr hnot⟩
  | _ => trivial

/-- The rows of the pool against their budgets. -/
def AllAccounted (s : Db) : Prop := ∀ row ∈ s.jobs, row.Accounted

theorem AllAccounted.step (h : AllAccounted e.state.db)
    (hok : Calls.Allows Partitions e a) (hstep : engineStep e a = some e') :
    AllAccounted e'.state.db := by
  intro row' hrow'
  rcases Engines.step_db hstep with hdb | ⟨q, hq, hdb⟩ | ⟨event, hdb⟩ <;> rw [hdb] at hrow'
  · exact h row' hrow'
  · obtain ⟨row, hrow, hmove⟩ := e.state.db.exec_back hrow'
    exact hmove.accounted (h row hrow) hrow (Engines.allows_asked hok hq)
  · cases event with
    | tick ms => exact h row' hrow'
    | createJob maxRetries timeout delay =>
      rcases List.mem_append.mp hrow' with hrow' | hrow'
      · exact h row' hrow'
      · rw [List.mem_singleton.mp hrow']
        exact ⟨rfl, by simp [JobRow.budget]⟩

/-- A step requeues a last attempt only where the statement for the others does. -/
theorem partitions_of_requeuesLast (h : Fenced e.state.db)
    (hstep : engineStep e a = some e') (hlast : RequeuesLast e e') :
    e.asked a = some .requeueExpired ∧ e.state.db.partitions .requeueExpired = false := by
  obtain ⟨row, hrow, row', hrow', hid, hprocessing, hexhausted, hpending⟩ := hlast
  have hne : row' ≠ row := by
    rintro rfl
    rw [hprocessing] at hpending
    cases hpending
  obtain ⟨q, hq, hmove⟩ := h.moved hstep hrow hrow' hid hne
  obtain ⟨rfl, hexpired⟩ := hmove.of_last_requeued hprocessing hexhausted hpending
  refine ⟨hq, ?_⟩
  simp only [Db.partitions, Bool.not_eq_false', List.any_eq_true]
  exact ⟨row, hrow, by simp [JobRow.lostLast, hprocessing, hexpired, hexhausted]⟩

/-- Where it does, the last attempt goes back to the queue. -/
theorem requeuesLast_of_not_partitions
    (hstep : engineStep e a = some e') (hq : e.asked a = some .requeueExpired)
    (hfault : e.state.fault = none) (hlast : e.state.db.partitions .requeueExpired = false) :
    RequeuesLast e e' := by
  simp only [Db.partitions, Bool.not_eq_false', List.any_eq_true] at hlast
  obtain ⟨row, hrow, hlost⟩ := hlast
  have hguard : (row.status = .processing && row.leaseExpired e.state.db.now) = true :=
    (Bool.and_eq_true_iff.mp hlost).1
  have hstate : e'.state.db = (e.state.db.exec .requeueExpired).1 := by
    rw [Engines.step_asked hq hstep]
    simp only [World.exec, hfault]
  refine ⟨row, hrow, e.state.db.requeue row, ?_, rfl, ?_, (Bool.and_eq_true_iff.mp hlost).2, rfl⟩
  · rw [hstate]
    exact List.mem_map.mpr ⟨row, hrow, if_pos hguard⟩
  · exact of_decide_eq_true (Bool.and_eq_true_iff.mp hguard).1

/-- In a run in which no lease of a last attempt is expired when the others are requeued, no job
is claimed more often than its budget allows since it was created or retried. And a step of such
a run requeues a last attempt exactly if it leaves this. -/
theorem claims_within_budget (pool : PoolRow) {e : Engines}
    (h : Run engineStep (Calls.Allows Partitions) (Engines.start pool) e) :
    (∀ row ∈ e.state.db.jobs, (row.claims : Int) ≤ row.budget) ∧
    ∀ a e', engineStep e a = some e' → e.state.fault = none →
      (RequeuesLast e e' ↔ ¬ Calls.Allows Partitions e a) := by
  have hfenced : Fenced e.state.db :=
    h.invariant (P := fun e => Fenced e.state.db) (Fenced.empty pool)
      fun _ _ _ hfenced _ hstep => hfenced.step hstep
  have haccounted : AllAccounted e.state.db :=
    h.invariant (P := fun e => AllAccounted e.state.db) (fun _ hrow => absurd hrow List.not_mem_nil)
      fun _ _ _ haccounted hok hstep => haccounted.step hok hstep
  refine ⟨fun row hrow => (haccounted row hrow).claims_le, fun a e' hstep hfault => ⟨?_, ?_⟩⟩
  · intro hlast hok
    obtain ⟨hq, hnot⟩ := partitions_of_requeuesLast hfenced hstep hlast
    have hyes : e.state.db.partitions .requeueExpired = true := Engines.allows_asked hok hq
    rw [hnot] at hyes
    cases hyes
  · intro hnot
    obtain ⟨q, hq, hfails⟩ := asked_of_not_allows hnot
    obtain rfl := Db.requeues_of_not_partitions hfails
    exact requeuesLast_of_not_partitions hstep hq hfault hfails

/-- The only attempt of a job is claimed, and its machine is heard of again just before its lease
runs out. A pass finds nothing to fail; then the lease is over, and the pass requeues the job and
claims it once more. -/
def lateExpiry : List EngineEvent :=
  (.env (.db (.createJob (some 1) none none)) : EngineEvent) :: alone (.tickPass defaultConfig false) 10 ++
    alone (.onReady 0) 2 ++ alone (.tickPass defaultConfig false) 10 ++
    (.env (.db (.tick 90000)) : EngineEvent) :: alone (.onPoll ⟨0, []⟩) 3 ++
    (.call (.tickPass defaultConfig false) : EngineEvent) :: List.replicate 2 (.next 0) ++
    (.env (.db (.tick 1)) : EngineEvent) :: List.replicate 9 (.next 0)

theorem requeued_without_retry : ∃ e, Run engineStep (fun _ _ => True) (Engines.start smallPool) e ∧
    ∃ row ∈ e.state.db.jobs, row.budget < (row.claims : Int) := by
  have hrun : (runAll engineStep (fun _ _ => true) (Engines.start smallPool) lateExpiry).any
      (fun e => e.state.db.jobs.any fun row => row.budget < (row.claims : Int)) = true := by
    decide +kernel
  obtain ⟨e, he, hover⟩ := exists_freeRun hrun
  obtain ⟨row, hrow, hclaims⟩ := List.any_eq_true.mp hover
  exact ⟨e, he, row, hrow, of_decide_eq_true hclaims⟩

theorem claims_within_budget_first : ∃ e,
    Run engineStep (Calls.Allows Partitions) (Engines.start smallPool) e ∧
      (∃ row ∈ e.state.db.jobs, row.claims = 1) ∧
      ∀ row ∈ e.state.db.jobs, (row.claims : Int) ≤ row.budget := by
  have hrun : (runAll engineStep (Calls.allows fun w q => w.db.partitions q)
      (Engines.start smallPool) firstClaim).any
        (fun e => e.state.db.jobs.any fun row => row.claims = 1) = true := by
    decide +kernel
  obtain ⟨e, he, hclaimed⟩ := exists_run hrun
  obtain ⟨row, hrow, hclaims⟩ := List.any_eq_true.mp hclaimed
  have hreach : Run engineStep (Calls.Allows Partitions) (Engines.start smallPool) e :=
    he.mono fun e a => Calls.allows_sound (fun _ _ h => h) e a
  exact ⟨e, hreach, ⟨row, hrow, of_decide_eq_true hclaims⟩, (claims_within_budget smallPool hreach).1⟩

end Sp00ky.Pool
