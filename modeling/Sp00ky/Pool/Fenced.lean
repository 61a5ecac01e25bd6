/-
  Attempts of the pool are fenced.

  A claim is the only way into `processing`, and it raises the epoch of the row. So an epoch of a
  job belongs to one machine, and whatever an older attempt still writes finds another epoch or a
  row that is no longer processing. Every write states this guard itself: the theorem needs nothing
  of the order in which sweeps, agents and operators come, nor of the answers they get.
-/
import Sp00ky.Pool.JobMoves

namespace Sp00ky.Pool

open Lib

/-! ## What moves a row -/

namespace JobMove

variable {s : Db} {q : Statement} {row row' : JobRow}

/-- The lease of a claim is renewed only for the attempt that holds it. -/
theorem of_leaseUntil (h : JobMove s q row row') (hrow : row.status = .processing)
    (hrow' : row'.status = .processing) (hne : row'.leaseUntil ≠ row.leaseUntil) :
    ∃ attempt leaseSecs, q = .renewLease attempt leaseSecs ∧ row.id = attempt.job ∧
      row.heldBy attempt = true := by
  cases h with
  | same => exact absurd rfl hne
  | claimed machine leaseSecs h => simp [h] at hrow
  | @renewed _ attempt leaseSecs hid hheld => exact ⟨attempt, leaseSecs, rfl, hid, hheld⟩
  | failed error hid hheld =>
    simp only [Db.failAttempt, Db.endJob] at hrow'
    split at hrow' <;> cases hrow'
  | exhausted | requeued | overdue | succeeded | ended | retried | killed => cases hrow'

/-- A final row moves only by a retry. -/
theorem of_final (h : JobMove s q row row') (hrow : row.status = .success ∨ row.status = .failed)
    (hne : row'.status ≠ row.status) : q = .retryJob row.id := by
  have hnot : row.status ≠ .processing ∧ row.status ≠ .pending := by
    rcases hrow with hrow | hrow <;> simp [hrow]
  cases h with
  | same => exact absurd rfl hne
  | claimed machine leaseSecs h => exact absurd h hnot.2
  | exhausted h | requeued h | overdue limitSecs h => exact absurd h hnot.1
  | retried => rfl
  | killed h => exact (h.elim hnot.2 hnot.1).elim
  | renewed _ _ h | succeeded _ _ h | failed _ _ h | ended _ _ h =>
    exact absurd (JobRow.processing_of_heldBy h) hnot.1

end JobMove

/-! ## The invariant -/

/-- The claims and the accepted results against the rows. -/
structure Fenced (s : Db) : Prop where
  ids : (s.jobs.map (·.id)).Nodup
  fresh : ∀ row ∈ s.jobs, row.id < s.nextJob
  claimed_fresh : ∀ a ∈ s.claimed, a.job < s.nextJob
  claimed_le : ∀ a ∈ s.claimed, ∀ row ∈ s.jobs, row.id = a.job → a.epoch ≤ row.leaseEpoch
  one : ∀ a ∈ s.claimed, ∀ b ∈ s.claimed, a.job = b.job → a.epoch = b.epoch →
    a.machine = b.machine
  held : ∀ row ∈ s.jobs, row.status = .processing →
    ∃ machine, row.assignee = some machine ∧ ⟨row.id, row.leaseEpoch, machine⟩ ∈ s.claimed
  accepted_claimed : ∀ a ∈ s.accepted, a ∈ s.claimed
  accepted_over : ∀ a ∈ s.accepted, ∀ row ∈ s.jobs, row.id = a.job → row.status = .processing →
    a.epoch < row.leaseEpoch
  once : s.accepted.Pairwise fun a b => a.job = b.job → a.epoch ≠ b.epoch

namespace Fenced

variable {s : Db} {q : Statement}

theorem empty (pool : PoolRow) : Fenced (Db.empty pool) := by
  constructor <;> simp [Db.empty]

variable {row row' : JobRow}

theorem eq_of_id (h : Fenced s) (hrow : row ∈ s.jobs) (hrow' : row' ∈ s.jobs)
    (hid : row.id = row'.id) : row = row' :=
  List.inj_on_of_nodup_map h.ids hrow hrow' hid

variable {a b : Attempt}

/-- A claim that is new differs from every older one. -/
theorem lt_of_new (h : Fenced s) (ha : a ∈ s.newClaims q) (hb : b ∈ s.claimed)
    (hjob : a.job = b.job) : b.epoch < a.epoch := by
  obtain ⟨_, _, row, hrow, hid, _, hepoch⟩ := Db.mem_newClaims s ha
  have hle : b.epoch ≤ row.leaseEpoch := h.claimed_le b hb row hrow (hid.trans hjob)
  omega

/-- A new claim is the epoch its row then has. -/
theorem new_claimed_le (h : Fenced s) (ha : a ∈ s.newClaims q)
    (hrow : row ∈ (s.exec q).1.jobs) (hid : row.id = a.job) : a.epoch ≤ row.leaseEpoch := by
  obtain ⟨leaseSecs, rfl, old, hold, hid', hpending, hepoch⟩ := Db.mem_newClaims s ha
  obtain ⟨old', hold', rfl⟩ := List.mem_map.mp hrow
  have hsame : old'.id = old.id := by
    refine Eq.trans ?_ (hid.trans hid'.symm)
    split <;> rfl
  obtain rfl := h.eq_of_id hold' hold hsame
  rw [if_pos (by simp [hid', hpending])]
  exact hepoch.le

/-- The attempt that holds a row has had no result accepted. -/
theorem fresh_result (h : Fenced s) (hrow : row ∈ s.jobs)
    (hid : row.id = a.job) (hheld : row.heldBy a = true) (hb : b ∈ s.accepted)
    (hjob : a.job = b.job) : a.epoch ≠ b.epoch := by
  obtain ⟨hprocessing, _, hepoch⟩ := JobRow.heldBy_iff.mp hheld
  have hlt : b.epoch < row.leaseEpoch :=
    h.accepted_over b hb row hrow (hid.trans hjob) hprocessing
  omega

theorem claimed_of_held (h : Fenced s) (hrow : row ∈ s.jobs)
    (hid : row.id = a.job) (hheld : row.heldBy a = true) : a ∈ s.claimed := by
  obtain ⟨hprocessing, hassignee, hepoch⟩ := JobRow.heldBy_iff.mp hheld
  obtain ⟨machine, hmachine, hclaim⟩ := h.held row hrow hprocessing
  rw [hassignee] at hmachine
  rw [hid, hepoch, ← Option.some.inj hmachine] at hclaim
  exact hclaim

theorem mem_exec_claimed (ha : a ∈ (s.exec q).1.claimed) :
    a ∈ s.newClaims q ∨ a ∈ s.claimed := by
  rw [s.exec_claimed] at ha
  exact List.mem_append.mp ha

theorem claimed_mono (ha : a ∈ s.claimed) : a ∈ (s.exec q).1.claimed := by
  rw [s.exec_claimed]
  exact List.mem_append_right _ ha

/-! ## What a statement keeps -/

theorem exec_claimed_le (h : Fenced s)
    (ha : a ∈ (s.exec q).1.claimed) (hrow : row ∈ (s.exec q).1.jobs) (hid : row.id = a.job) :
    a.epoch ≤ row.leaseEpoch := by
  rcases mem_exec_claimed ha with hnew | hold
  · exact h.new_claimed_le hnew hrow hid
  · obtain ⟨old, hmem, hmove⟩ := s.exec_back hrow
    exact (h.claimed_le a hold old hmem (hmove.id_eq.symm.trans hid)).trans hmove.epoch_le

/-- A new claim has an epoch of its own; those of one statement are for one machine. -/
theorem exec_one (h : Fenced s) (ha : a ∈ (s.exec q).1.claimed)
    (hb : b ∈ (s.exec q).1.claimed) (hjob : a.job = b.job) (hepoch : a.epoch = b.epoch) :
    a.machine = b.machine := by
  rcases mem_exec_claimed ha with ha | ha <;> rcases mem_exec_claimed hb with hb | hb
  · obtain ⟨_, hqa, _⟩ := Db.mem_newClaims s ha
    obtain ⟨_, hqb, _⟩ := Db.mem_newClaims s hb
    rw [hqa] at hqb
    injection hqb
  · exact absurd hepoch.symm (Nat.ne_of_lt (h.lt_of_new ha hb hjob))
  · exact absurd hepoch (Nat.ne_of_lt (h.lt_of_new hb ha hjob.symm))
  · exact h.one a ha b hb hjob hepoch

theorem exec_held (h : Fenced s) (hrow : row ∈ (s.exec q).1.jobs)
    (hprocessing : row.status = .processing) :
    ∃ machine, row.assignee = some machine ∧
      ⟨row.id, row.leaseEpoch, machine⟩ ∈ (s.exec q).1.claimed := by
  obtain ⟨old, hold, hmove⟩ := s.exec_back hrow
  rcases hmove.of_processing hprocessing with ⟨hwas, hassignee, hepoch⟩ |
    ⟨hwas, machine, leaseSecs, rfl, hassignee, hepoch⟩
  · obtain ⟨machine, hmachine, hclaim⟩ := h.held old hold hwas
    rw [hassignee, hepoch, hmove.id_eq]
    exact ⟨machine, hmachine, claimed_mono hclaim⟩
  · rw [hassignee, hepoch, hmove.id_eq, s.exec_claimed]
    refine ⟨machine, rfl, List.mem_append_left _ (List.mem_map.mpr ⟨old, ?_, rfl⟩)⟩
    exact List.mem_filter.mpr ⟨hold, by simp [hwas]⟩

/-- What was accepted stays below every claim that comes after. -/
theorem exec_over (h : Fenced s) (ha : a ∈ s.accepted)
    (hrow : row ∈ (s.exec q).1.jobs) (hid : row.id = a.job)
    (hprocessing : row.status = .processing) : a.epoch < row.leaseEpoch := by
  obtain ⟨old, hold, hmove⟩ := s.exec_back hrow
  have hid' : old.id = a.job := hmove.id_eq.symm.trans hid
  rcases hmove.of_processing hprocessing with ⟨hwas, _, hepoch⟩ | ⟨_, _, _, _, _, hepoch⟩
  · rw [hepoch]
    exact h.accepted_over a ha old hold hid' hwas
  · rw [hepoch]
    exact Nat.lt_succ_of_le (h.claimed_le a (h.accepted_claimed a ha) old hold hid')

/-- A result that is written ends its claim. -/
theorem ends_claim (h : Fenced s) (hq : q.finishes = some a)
    (hrow : row ∈ s.jobs) (hid : row.id = a.job) (hheld : row.heldBy a = true)
    (hrow' : row' ∈ (s.exec q).1.jobs) (hid' : row'.id = a.job) : row'.status ≠ .processing := by
  intro hprocessing
  have hloose : row'.heldBy a = false := s.exec_finishes hq hrow' hid'
  obtain ⟨old, hold, hmove⟩ := s.exec_back hrow'
  obtain rfl := h.eq_of_id hold hrow (hmove.id_eq.symm.trans (hid'.trans hid.symm))
  obtain ⟨hwas, hassignee, hepoch⟩ := JobRow.heldBy_iff.mp hheld
  rcases hmove.of_processing hprocessing with ⟨_, hassignee', hepoch'⟩ | ⟨hpending, _⟩
  · have hstill : row'.heldBy a = true :=
      JobRow.heldBy_iff.mpr ⟨hprocessing, hassignee'.trans hassignee, hepoch'.trans hepoch⟩
    rw [hstill] at hloose
    cases hloose
  · rw [hwas] at hpending
    cases hpending

/-- Every statement keeps the claims and the results fenced. -/
theorem exec (h : Fenced s) (q : Statement) : Fenced (s.exec q).1 where
  ids := s.exec_ids q ▸ h.ids
  fresh row hrow := by
    obtain ⟨old, hold, hmove⟩ := s.exec_back hrow
    rw [hmove.id_eq, s.exec_nextJob]
    exact h.fresh old hold
  claimed_fresh a ha := by
    rw [s.exec_nextJob]
    rcases mem_exec_claimed ha with ha | ha
    · obtain ⟨_, _, row, hrow, hid, _⟩ := Db.mem_newClaims s ha
      exact hid ▸ h.fresh row hrow
    · exact h.claimed_fresh a ha
  claimed_le _ ha _ hrow hid := h.exec_claimed_le ha hrow hid
  one _ ha _ hb := h.exec_one ha hb
  held _ hrow := h.exec_held hrow
  accepted_claimed a ha := by
    rcases s.exec_accepted q with hsame | ⟨b, _, ⟨row, hrow, hid, hheld⟩, hcons⟩
    · rw [hsame] at ha
      exact claimed_mono (h.accepted_claimed a ha)
    · rw [hcons] at ha
      rcases List.mem_cons.mp ha with rfl | ha
      · exact claimed_mono (h.claimed_of_held hrow hid hheld)
      · exact claimed_mono (h.accepted_claimed a ha)
  accepted_over a ha row hrow hid hprocessing := by
    rcases s.exec_accepted q with hsame | ⟨b, hq, ⟨held, hmem, hid', hheld⟩, hcons⟩
    · rw [hsame] at ha
      exact h.exec_over ha hrow hid hprocessing
    · rw [hcons] at ha
      rcases List.mem_cons.mp ha with rfl | ha
      · exact absurd hprocessing (h.ends_claim hq hmem hid' hheld hrow hid)
      · exact h.exec_over ha hrow hid hprocessing
  once := by
    rcases s.exec_accepted q with hsame | ⟨b, _, ⟨row, hrow, hid, hheld⟩, hcons⟩
    · rw [hsame]
      exact h.once
    · rw [hcons]
      exact List.pairwise_cons.mpr ⟨fun a ha => h.fresh_result hrow hid hheld ha, h.once⟩

/-- Time passes, or a job is created. -/
theorem event (h : Fenced s) (e : Db.Event) : Fenced (s.event e) := by
  cases e with
  | tick ms => exact ⟨h.ids, h.fresh, h.claimed_fresh, h.claimed_le, h.one, h.held,
      h.accepted_claimed, h.accepted_over, h.once⟩
  | createJob maxRetries timeout delay =>
    refine
      { ids := ?_, fresh := ?_, claimed_fresh := ?_, claimed_le := ?_, one := h.one, held := ?_,
        accepted_claimed := h.accepted_claimed, accepted_over := ?_, once := h.once }
    · simp only [Db.event, List.map_append, List.map_cons, List.map_nil]
      refine List.Nodup.append h.ids (List.nodup_singleton _) ?_
      refine List.disjoint_singleton.mpr fun hid => ?_
      obtain ⟨row, hrow, hid⟩ := List.mem_map.mp hid
      exact absurd hid (Nat.ne_of_lt (h.fresh row hrow))
    · intro row hrow
      rcases s.mem_createJob hrow with hrow | ⟨hid, _⟩
      · exact Nat.lt_succ_of_lt (h.fresh row hrow)
      · exact hid ▸ Nat.lt_succ_self _
    · exact fun a ha => Nat.lt_succ_of_lt (h.claimed_fresh a ha)
    · intro a ha row hrow hid
      rcases s.mem_createJob hrow with hrow | ⟨hnew, _⟩
      · exact h.claimed_le a ha row hrow hid
      · exact absurd (hid.symm.trans hnew) (Nat.ne_of_lt (h.claimed_fresh a ha))
    · intro row hrow hprocessing
      rcases s.mem_createJob hrow with hrow | ⟨_, hpending⟩
      · exact h.held row hrow hprocessing
      · rw [hpending] at hprocessing
        cases hprocessing
    · intro a ha row hrow hid hprocessing
      rcases s.mem_createJob hrow with hrow | ⟨_, hpending⟩
      · exact h.accepted_over a ha row hrow hid hprocessing
      · rw [hpending] at hprocessing
        cases hprocessing

/-- Every step of a call, an agent or an operator keeps them fenced. -/
theorem step {e e' : Engines} {a : EngineEvent} (h : Fenced e.state.db)
    (hstep : engineStep e a = some e') : Fenced e'.state.db := by
  rcases Engines.step_db hstep with hdb | ⟨q, _, hdb⟩ | ⟨event, hdb⟩ <;> rw [hdb]
  · exact h
  · exact h.exec q
  · exact h.event event

/-- A row that a step changes is moved by the statement it asks. -/
theorem moved {e e' : Engines} {a : EngineEvent} (h : Fenced e.state.db)
    (hstep : engineStep e a = some e') (hrow : row ∈ e.state.db.jobs)
    (hrow' : row' ∈ e'.state.db.jobs) (hid : row'.id = row.id) (hne : row' ≠ row) :
    ∃ q, e.asked a = some q ∧ JobMove e.state.db q row row' := by
  rcases Engines.step_db hstep with hdb | ⟨q, hq, hdb⟩ | ⟨event, hdb⟩ <;> rw [hdb] at hrow'
  · exact absurd (h.eq_of_id hrow' hrow hid) hne
  · obtain ⟨old, hold, hmove⟩ := e.state.db.exec_back hrow'
    obtain rfl := h.eq_of_id hold hrow (hmove.id_eq.symm.trans hid)
    exact ⟨q, hq, hmove⟩
  · cases event with
    | tick ms => exact absurd (h.eq_of_id hrow' hrow hid) hne
    | createJob maxRetries timeout delay =>
      rcases List.mem_append.mp hrow' with hrow' | hrow'
      · exact absurd (h.eq_of_id hrow' hrow hid) hne
      · rw [List.mem_singleton.mp hrow'] at hid
        exact absurd hid.symm (Nat.ne_of_lt (h.fresh row hrow))

end Fenced

/-! ## Whole runs -/

/-- A result was taken. -/
def isAccepted : Except Fault Bool → Bool
  | .ok accepted => accepted
  | .error _ => false

/-- The attempt whose result a reply says was accepted. -/
def acceptedBy : (q : Statement) → Reply q → Option Attempt
  | .completeSuccess attempt _, reply => if isAccepted reply then some attempt else none
  | .completeFailure attempt _, reply => if isAccepted reply then some attempt else none
  | .completeTerminalFailure attempt _, reply => if isAccepted reply then some attempt else none
  | _, _ => none

/-- The attempt whose result is accepted in a step. -/
def Engines.accepts (e : Engines) : EngineEvent → Option Attempt
  | .next i =>
    match e.calls[i]? with
    | some (.ask q _) => acceptedBy q (e.state.exec q).2
    | _ => none
  | _ => none

/-- What a step may do to claims. -/
structure FencedStep (e : Engines) (a : EngineEvent) (e' : Engines) : Prop where
  /-- An accepted result is the first of its claim, and the row is processing under it. -/
  accepted : ∀ attempt, e.accepts a = some attempt →
    (∃ row ∈ e.state.db.jobs, row.id = attempt.job ∧ row.heldBy attempt = true) ∧
      (∀ b ∈ e.state.db.accepted, attempt.job = b.job → attempt.epoch ≠ b.epoch) ∧
      attempt ∈ e'.state.db.accepted
  /-- The lease of a claim changes only where the attempt that holds it is renewed. -/
  renewed : ∀ row ∈ e.state.db.jobs, ∀ row' ∈ e'.state.db.jobs, row'.id = row.id →
    row.status = .processing → row'.status = .processing → row'.leaseUntil ≠ row.leaseUntil →
      ∃ attempt leaseSecs, e.asked a = some (.renewLease attempt leaseSecs) ∧
        row.id = attempt.job ∧ row.heldBy attempt = true
  /-- A final row is only taken up again by a retry. -/
  final : ∀ row ∈ e.state.db.jobs, ∀ row' ∈ e'.state.db.jobs, row'.id = row.id →
    (row.status = .success ∨ row.status = .failed) → row'.status ≠ row.status →
      e.asked a = some (.retryJob row.id)

/-- A reply that says so comes from a result that was written. -/
theorem acceptedBy_exec {w : World} {q : Statement} {a : Attempt}
    (h : acceptedBy q (w.exec q).2 = some a) :
    (∃ row ∈ w.db.jobs, row.id = a.job ∧ row.heldBy a = true) ∧ a ∈ (w.exec q).1.db.accepted := by
  have hcomplete : ∀ (b : Attempt) (change : JobRow → JobRow),
      (w.db.complete b change).2 = true →
        (∃ row ∈ w.db.jobs, row.id = b.job ∧ row.heldBy b = true) ∧
          b ∈ (w.db.complete b change).1.accepted := by
    intro b change hmatched
    refine ⟨w.db.complete_held hmatched, ?_⟩
    have hcons : (w.db.complete b change).1.accepted = b :: w.db.accepted := if_pos hmatched
    rw [hcons]
    exact List.mem_cons_self
  unfold World.exec at h ⊢
  split at h
  next hfault =>
    cases q with
    | completeSuccess b result | completeFailure b error | completeTerminalFailure b error =>
      obtain ⟨hmatched, hb⟩ := Option.ite_none_right_eq_some.mp h
      obtain rfl := Option.some.inj hb
      exact hcomplete b _ hmatched
    | _ => cases h
  next hfault =>
    exfalso
    cases q <;> cases h

theorem fencedStep {e e' : Engines} {a : EngineEvent} (h : Fenced e.state.db)
    (hstep : engineStep e a = some e') : FencedStep e a e' where
  accepted attempt haccepts := by
    cases a with
    | next i =>
      simp only [Engines.accepts] at haccepts
      split at haccepts
      next q k hi =>
        obtain ⟨⟨row, hrow, hid, hheld⟩, hmem⟩ := acceptedBy_exec haccepts
        simp only [engineStep, Calls.step, hi] at hstep
        obtain rfl := Option.some.inj hstep
        exact ⟨⟨row, hrow, hid, hheld⟩, fun b hb => h.fresh_result hrow hid hheld hb, hmem⟩
      next => cases haccepts
    | _ => cases haccepts
  renewed row hrow row' hrow' hid hprocessing hprocessing' hne := by
    obtain ⟨q, hq, hmove⟩ := h.moved hstep hrow hrow' hid fun heq => hne (congrArg _ heq)
    obtain ⟨attempt, leaseSecs, rfl, hheld⟩ := hmove.of_leaseUntil hprocessing hprocessing' hne
    exact ⟨attempt, leaseSecs, hq, hheld⟩
  final row hrow row' hrow' hid hfinal hne := by
    obtain ⟨q, hq, hmove⟩ := h.moved hstep hrow hrow' hid fun heq => hne (congrArg _ heq)
    obtain rfl := hmove.of_final hfinal hne
    exact hq

theorem isAccepted_iff {reply : Except Fault Bool} : isAccepted reply = true ↔ reply = .ok true := by
  cases reply <;> simp [isAccepted]

theorem returns_attempt {q : Statement} {answered : List ((q : Statement) × Reply q)}
    {result : Option (Answer q)} (h : (attempt q).Returns answered result) :
    ∃ reply : Reply q, answered = [⟨q, reply⟩] ∧ ∀ a, result = some a ↔ reply = .ok a := by
  cases h with
  | @ask _ _ reply _ _ h =>
    cases reply with
    | ok a =>
      cases h
      exact ⟨.ok a, rfl, fun b => ⟨fun h => congrArg Except.ok (Option.some.inj h),
        fun h => congrArg some (Except.ok.inj h)⟩⟩
    | error fault =>
      cases h
      exact ⟨.error fault, rfl, fun b => ⟨nofun, nofun⟩⟩

theorem exists_acceptedBy_iff {q : Statement} {reply : Reply q} {attempt_ : Attempt} {b : Bool}
    (h : acceptedBy q reply = if b then some attempt_ else none) :
    (∃ p ∈ [(⟨q, reply⟩ : (q : Statement) × Reply q)], acceptedBy p.1 p.2 = some attempt_) ↔
      b = true := by
  constructor
  · rintro ⟨p, hp, hacc⟩
    obtain rfl := List.mem_singleton.mp hp
    rw [h] at hacc
    cases b with
    | true => rfl
    | false => cases hacc
  · intro hb
    exact ⟨_, List.mem_singleton_self _, by rw [h, if_pos hb]⟩

/-- `on_result` answers that it accepted a result if one of its statements was answered so. -/
theorem onResult_accepted {cfg : PoolEngineConfig} {attempt_ : Attempt} {outcome : Outcome}
    {answered : List ((q : Statement) × Reply q)} {result : Option Bool}
    (h : (onResult cfg attempt_ outcome).Returns answered result) :
    result = some true ↔ ∃ p ∈ answered, acceptedBy p.1 p.2 = some attempt_ := by
  cases outcome with
  | success body =>
    cases h with
    | @ask _ _ reply _ _ h =>
      cases reply with
      | ok a =>
        cases h
        refine Iff.trans ?_ (isAccepted_iff.symm.trans (exists_acceptedBy_iff rfl).symm)
        exact ⟨fun h => congrArg Except.ok (Option.some.inj h),
          fun h => congrArg some (Except.ok.inj h)⟩
      | error fault =>
        obtain ⟨unknownField, effect⟩ := fault
        cases unknownField with
        | true =>
          obtain ⟨reply, rfl, hreply⟩ := returns_attempt h
          refine (hreply true).trans (isAccepted_iff.symm.trans ?_)
          rw [List.exists_mem_cons_iff, or_iff_right nofun]
          exact (exists_acceptedBy_iff rfl).symm
        | false =>
          cases h
          refine ⟨nofun, fun hacc => ?_⟩
          have hfalse : isAccepted (.error ⟨false, effect⟩) = true :=
            (exists_acceptedBy_iff rfl).mp hacc
          cases hfalse
  | failed code =>
    obtain ⟨reply, rfl, hreply⟩ := returns_attempt h
    exact (hreply true).trans (isAccepted_iff.symm.trans (exists_acceptedBy_iff rfl).symm)
  | cancelled | deadlineExceeded =>
    obtain ⟨reply, rfl, hreply⟩ := returns_attempt h
    exact (hreply true).trans (isAccepted_iff.symm.trans (exists_acceptedBy_iff rfl).symm)

/-- Whatever sweeps, agents and operators do in whatever order: an epoch of a job belongs to one
machine, and it is what the row carries while it is processing; at most one result of a claim is
accepted, while the row is processing under it; a lease is renewed for the attempt that holds it;
and a final row is taken up again by a retry alone. -/
theorem attempts_fenced (pool : PoolRow) {e : Engines}
    (h : Run engineStep (fun _ _ => True) (Engines.start pool) e) :
    (∀ a ∈ e.state.db.claimed, ∀ b ∈ e.state.db.claimed, a.job = b.job → a.epoch = b.epoch →
      a.machine = b.machine) ∧
    (∀ row ∈ e.state.db.jobs, row.status = .processing → ∃ machine, row.assignee = some machine ∧
      ⟨row.id, row.leaseEpoch, machine⟩ ∈ e.state.db.claimed) ∧
    (e.state.db.accepted.Pairwise fun a b => a.job = b.job → a.epoch ≠ b.epoch) ∧
    (∀ a e', engineStep e a = some e' → FencedStep e a e') ∧
    ∀ cfg attempt_ outcome answered result,
      (onResult cfg attempt_ outcome).Returns answered result →
        (result = some true ↔ ∃ p ∈ answered, acceptedBy p.1 p.2 = some attempt_) := by
  have hfenced : Fenced e.state.db :=
    h.invariant (P := fun e => Fenced e.state.db) (Fenced.empty pool)
      fun _ _ _ hfenced _ hstep => hfenced.step hstep
  exact ⟨hfenced.one, hfenced.held, hfenced.once, fun _ _ hstep => fencedStep hfenced hstep,
    fun _ _ _ _ _ hreturns => onResult_accepted hreturns⟩

/-- A pool of one machine with one slot. -/
def smallPool : PoolRow :=
  ⟨some 1, some 1, none, none, none, none, none, none, none, none, "v1", none, none, none, none⟩

/-- A call that runs so many statements, alone. -/
def alone (c : Invocation) (statements : Nat) : List EngineEvent :=
  .call c :: List.replicate (statements + 1) (.next 0)

/-- A machine is created and becomes ready, and its job is claimed. -/
def firstClaim : List EngineEvent :=
  .env (.db (.createJob none none none)) :: alone (.tickPass defaultConfig false) 10 ++
    alone (.onReady 0) 2 ++ alone (.tickPass defaultConfig false) 10

theorem attempts_fenced_accepted : ∃ e, Run engineStep (fun _ _ => True) (Engines.start smallPool) e ∧
    e.state.db.accepted = [⟨0, 1, 0⟩] ∧
    e.state.db.accepted.Pairwise fun a b => a.job = b.job → a.epoch ≠ b.epoch := by
  have hrun : (runAll engineStep (fun _ _ => true) (Engines.start smallPool)
      (firstClaim ++ alone (.onResult defaultConfig ⟨0, 1, 0⟩ (.success "done")) 1)).any
        (fun e => e.state.db.accepted = [⟨0, 1, 0⟩]) = true := by
    decide +kernel
  obtain ⟨e, he, haccepted⟩ := exists_freeRun hrun
  have hreach := he
  exact ⟨e, hreach, of_decide_eq_true haccepted, (attempts_fenced smallPool hreach).2.2.1⟩

end Sp00ky.Pool
