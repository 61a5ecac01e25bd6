/-
  What the statements of the pool engine do to a job.

  Every statement maps the rows of the outbox, and `JobMove` lists what can happen to one: the guard
  it was under and the row after. The theorems about jobs are case splits on it.
-/
import Sp00ky.Pool.Engine

namespace Sp00ky.Pool

open Lib

/-- What a statement does to a row: nothing, or what it says under its guard. -/
inductive JobMove (s : Db) : Statement → JobRow → JobRow → Prop
  | same (q : Statement) (row : JobRow) : JobMove s q row row
  | claimed {row : JobRow} (machine : MachineId) (leaseSecs : Nat) (h : row.status = .pending) :
      JobMove s (.claimJob row.id machine leaseSecs) row (s.claim machine leaseSecs row)
  | renewed {row : JobRow} {attempt : Attempt} (leaseSecs : Nat) (hid : row.id = attempt.job)
      (h : row.heldBy attempt = true) :
      JobMove s (.renewLease attempt leaseSecs) row
        { row with leaseUntil := some (s.now + secs leaseSecs) }
  | exhausted {row : JobRow} (h : row.status = .processing) (hexpired : row.leaseExpired s.now = true)
      (hexhausted : row.exhausted = true) : JobMove s .failExpiredExhausted row (s.failExhausted row)
  | requeued {row : JobRow} (h : row.status = .processing)
      (hexpired : row.leaseExpired s.now = true) : JobMove s .requeueExpired row (s.requeue row)
  | overdue {row : JobRow} (limitSecs : Nat) (h : row.status = .processing) :
      JobMove s (.failOverdue limitSecs) row
        { s.endJob .failed (some "deadline") row with leaseEpoch := row.leaseEpoch + 1 }
  | succeeded {row : JobRow} {attempt : Attempt} (result : Option String)
      (hid : row.id = attempt.job) (h : row.heldBy attempt = true) :
      JobMove s (.completeSuccess attempt result) row
        { s.endJob .success none row with result := result.or row.result }
  | failed {row : JobRow} {attempt : Attempt} (error : String) (hid : row.id = attempt.job)
      (h : row.heldBy attempt = true) :
      JobMove s (.completeFailure attempt error) row (s.failAttempt error row)
  | ended {row : JobRow} {attempt : Attempt} (error : String) (hid : row.id = attempt.job)
      (h : row.heldBy attempt = true) :
      JobMove s (.completeTerminalFailure attempt error) row (s.endJob .failed (some error) row)
  | retried {row : JobRow} (h : row.status = .failed ∨ row.status = .success) :
      JobMove s (.retryJob row.id) row (s.reset row)
  | killed {row : JobRow} (h : row.status = .pending ∨ row.status = .processing) :
      JobMove s (.killJob row.id) row
        { s.endJob .failed (some "killed") row with leaseEpoch := row.leaseEpoch + 1 }

namespace JobMove

variable {s : Db} {q : Statement} {row row' : JobRow}

theorem id_eq (h : JobMove s q row row') : row'.id = row.id := by
  cases h <;> rfl

/-- The epoch only rises. -/
theorem epoch_le (h : JobMove s q row row') : row.leaseEpoch ≤ row'.leaseEpoch := by
  cases h <;> first | exact Nat.le_refl _ | exact Nat.le_succ _

/-- A row is processing because it was, under the same claim, or because it was just claimed. -/
theorem of_processing (h : JobMove s q row row') (hrow' : row'.status = .processing) :
    (row.status = .processing ∧ row'.assignee = row.assignee ∧ row'.leaseEpoch = row.leaseEpoch) ∨
      (row.status = .pending ∧ ∃ machine leaseSecs, q = .claimJob row.id machine leaseSecs ∧
        row'.assignee = some machine ∧ row'.leaseEpoch = row.leaseEpoch + 1) := by
  cases h with
  | same | renewed => exact .inl ⟨hrow', rfl, rfl⟩
  | claimed machine leaseSecs h => exact .inr ⟨h, machine, leaseSecs, rfl, rfl, rfl⟩
  | failed error hid hheld =>
    simp only [Db.failAttempt, Db.endJob] at hrow'
    split at hrow' <;> cases hrow'
  | exhausted | requeued | overdue | succeeded | ended | retried | killed => cases hrow'

end JobMove

namespace JobRow

variable {row : JobRow} {attempt : Attempt}

theorem heldBy_iff : row.heldBy attempt = true ↔
    row.status = .processing ∧ row.assignee = some attempt.machine ∧
      row.leaseEpoch = attempt.epoch := by
  simp [heldBy, and_assoc]

theorem processing_of_heldBy (h : row.heldBy attempt = true) : row.status = .processing :=
  (heldBy_iff.mp h).1

end JobRow

/-- The attempt whose result a statement writes. -/
def Statement.finishes : Statement → Option Attempt
  | .completeSuccess attempt _ | .completeFailure attempt _ | .completeTerminalFailure attempt _ =>
    some attempt
  | _ => none

namespace Db

variable (s : Db) {q : Statement} {change : JobRow → JobRow}

theorem updateJobs_moves {guard : JobRow → Bool}
    (h : ∀ row, guard row = true → JobMove s q row (change row)) :
    ∃ f, (s.updateJobs guard change).jobs = s.jobs.map f ∧ ∀ row, JobMove s q row (f row) := by
  refine ⟨fun row => if guard row then change row else row, rfl, fun row => ?_⟩
  dsimp only
  split
  next hguard => exact h row hguard
  next => exact .same q row

theorem updateJob_moves {id : JobId} {guard : JobRow → Bool}
    (h : ∀ row, row.id = id → guard row = true → JobMove s q row (change row)) :
    ∃ f, (s.updateJob id guard change).1.jobs = s.jobs.map f ∧ ∀ row, JobMove s q row (f row) :=
  s.updateJobs_moves fun row hrow => by
    obtain ⟨hid, hguard⟩ := Bool.and_eq_true_iff.mp hrow
    exact h row (of_decide_eq_true hid) hguard

/-- Every statement moves each row of the outbox on its own. -/
theorem exec_jobs (q : Statement) :
    ∃ f, (s.exec q).1.jobs = s.jobs.map f ∧ ∀ row, JobMove s q row (f row) := by
  have hsame : ∃ f, s.jobs = s.jobs.map f ∧ ∀ row, JobMove s q row (f row) :=
    ⟨fun row => row, s.jobs.map_id'.symm, JobMove.same q⟩
  cases q with
  | claimJob job machine leaseSecs =>
    refine s.updateJob_moves fun row hid h => ?_
    subst hid
    exact .claimed machine leaseSecs (of_decide_eq_true h)
  | renewLease attempt leaseSecs => exact s.updateJob_moves fun row => .renewed leaseSecs
  | failExpiredExhausted =>
    refine s.updateJobs_moves fun row h => ?_
    simp only [Bool.and_eq_true, decide_eq_true_eq] at h
    exact .exhausted h.1.1 h.1.2 h.2
  | requeueExpired =>
    refine s.updateJobs_moves fun row h => ?_
    simp only [Bool.and_eq_true, decide_eq_true_eq] at h
    exact .requeued h.1 h.2
  | failOverdue limitSecs =>
    refine s.updateJobs_moves fun row h => ?_
    simp only [Bool.and_eq_true, decide_eq_true_eq] at h
    exact .overdue limitSecs h.1
  | completeSuccess attempt result => exact s.updateJob_moves fun row => .succeeded result
  | completeFailure attempt error => exact s.updateJob_moves fun row => .failed error
  | completeTerminalFailure attempt error => exact s.updateJob_moves fun row => .ended error
  | retryJob job =>
    refine s.updateJob_moves fun row hid h => ?_
    subst hid
    simp only [Bool.or_eq_true, decide_eq_true_eq] at h
    exact .retried h
  | killJob job =>
    refine s.updateJob_moves fun row hid h => ?_
    subst hid
    simp only [Bool.or_eq_true, decide_eq_true_eq] at h
    exact .killed h
  | resetBootFailures =>
    simp only [exec]
    split <;> exact hsame
  | _ => exact hsame

/-- Each row after a statement was one before. -/
theorem exec_back {row' : JobRow} (h : row' ∈ (s.exec q).1.jobs) :
    ∃ row ∈ s.jobs, JobMove s q row row' := by
  obtain ⟨f, hjobs, hmove⟩ := s.exec_jobs q
  rw [hjobs] at h
  obtain ⟨row, hrow, rfl⟩ := List.mem_map.mp h
  exact ⟨row, hrow, hmove row⟩

theorem exec_ids (q : Statement) : (s.exec q).1.jobs.map (·.id) = s.jobs.map (·.id) := by
  obtain ⟨f, hjobs, hmove⟩ := s.exec_jobs q
  rw [hjobs, List.map_map]
  exact List.map_congr_left fun row _ => (hmove row).id_eq

theorem exec_nextJob (q : Statement) : (s.exec q).1.nextJob = s.nextJob := by
  cases q with
  | resetBootFailures =>
    simp only [exec]
    split <;> rfl
  | _ => rfl

/-! ## What is noted of a statement -/

theorem complete_held {a : Attempt}
    (h : (s.complete a change).2 = true) :
    ∃ row ∈ s.jobs, row.id = a.job ∧ row.heldBy a = true := by
  obtain ⟨row, hrow, hguard⟩ := List.any_eq_true.mp h
  obtain ⟨hid, hheld⟩ := Bool.and_eq_true_iff.mp hguard
  exact ⟨row, hrow, of_decide_eq_true hid, hheld⟩

/-- The claims a statement makes. -/
def newClaims (s : Db) : Statement → List Attempt
  | .claimJob job machine _ => (s.jobs.filter fun row => row.id = job && row.status = .pending).map
      fun row => ⟨job, row.leaseEpoch + 1, machine⟩
  | _ => []

theorem exec_claimed (q : Statement) : (s.exec q).1.claimed = s.newClaims q ++ s.claimed := by
  cases q with
  | resetBootFailures =>
    simp only [exec]
    split <;> rfl
  | _ => rfl

theorem mem_newClaims {a : Attempt} (h : a ∈ s.newClaims q) :
    ∃ leaseSecs, q = .claimJob a.job a.machine leaseSecs ∧
      ∃ row ∈ s.jobs, row.id = a.job ∧ row.status = .pending ∧ a.epoch = row.leaseEpoch + 1 := by
  cases q with
  | claimJob job machine leaseSecs =>
    obtain ⟨row, hrow, rfl⟩ := List.mem_map.mp h
    obtain ⟨hmem, hguard⟩ := List.mem_filter.mp hrow
    simp only [Bool.and_eq_true, decide_eq_true_eq] at hguard
    exact ⟨leaseSecs, rfl, row, hmem, hguard.1, hguard.2, rfl⟩
  | _ => exact absurd h List.not_mem_nil

/-- What a statement notes as accepted: nothing, or the attempt it names, which holds its job. -/
theorem exec_accepted (q : Statement) :
    (s.exec q).1.accepted = s.accepted ∨
      ∃ a, q.finishes = some a ∧ (∃ row ∈ s.jobs, row.id = a.job ∧ row.heldBy a = true) ∧
        (s.exec q).1.accepted = a :: s.accepted := by
  have hcomplete : ∀ (a : Attempt) (change : JobRow → JobRow),
      (s.complete a change).1.accepted = s.accepted ∨
        (∃ row ∈ s.jobs, row.id = a.job ∧ row.heldBy a = true) ∧
          (s.complete a change).1.accepted = a :: s.accepted := by
    intro a change
    cases hmatched : (s.complete a change).2 with
    | false => exact .inl (if_neg (Bool.eq_false_iff.mp hmatched))
    | true => exact .inr ⟨s.complete_held hmatched, if_pos hmatched⟩
  cases q with
  | completeSuccess a result
  | completeFailure a error
  | completeTerminalFailure a error => exact (hcomplete a _).imp_right fun h => ⟨a, rfl, h⟩
  | resetBootFailures =>
    simp only [exec]
    split <;> exact .inl rfl
  | _ => exact .inl rfl

theorem mem_createJob {maxRetries timeout : Option Int} {delay : Option Nat} {row : JobRow}
    (hrow : row ∈ (s.event (.createJob maxRetries timeout delay)).jobs) :
    row ∈ s.jobs ∨ row.id = s.nextJob ∧ row.status = .pending := by
  rcases List.mem_append.mp hrow with hrow | hrow
  · exact .inl hrow
  · rw [List.mem_singleton.mp hrow]
    exact .inr ⟨rfl, rfl⟩

/-- After a result is written, or not, its attempt holds nothing. -/
theorem exec_finishes {a : Attempt} {row : JobRow} (hq : q.finishes = some a)
    (hrow : row ∈ (s.exec q).1.jobs) (hid : row.id = a.job) : row.heldBy a = false := by
  have hcomplete : ∀ change : JobRow → JobRow, (∀ row, (change row).status ≠ .processing) →
      row ∈ (s.complete a change).1.jobs → row.heldBy a = false := by
    intro change hends hrow
    obtain ⟨old, _, rfl⟩ := List.mem_map.mp hrow
    by_cases hguard : (old.id = a.job && old.heldBy a) = true
    · rw [if_pos hguard]
      exact Bool.eq_false_iff.mpr fun h => hends old (JobRow.processing_of_heldBy h)
    · rw [if_neg hguard] at hid ⊢
      simpa [hid] using hguard
  cases q with
  | completeSuccess b result =>
    obtain rfl := Option.some.inj hq
    exact hcomplete (fun row => { s.endJob .success none row with result := result.or row.result })
      (fun _ => nofun) hrow
  | completeFailure b error =>
    obtain rfl := Option.some.inj hq
    refine hcomplete (s.failAttempt error) (fun row => ?_) hrow
    simp only [failAttempt, endJob]
    split <;> exact nofun
  | completeTerminalFailure b error =>
    obtain rfl := Option.some.inj hq
    exact hcomplete (s.endJob .failed (some error)) (fun _ => nofun) hrow
  | _ => cases hq

end Db

end Sp00ky.Pool
