/-
  What the statements of the pool engine do to a machine, and to the jobs bound to it.

  A statement adds a row, drops rows that have ended, or changes each row on its own; what a change
  may be to the state of a machine is `StateStep`. Where the moves go forward (`Statement.forward`),
  nothing but a new row adds to the machines the pool pays for, and nothing but a claim to the jobs
  of a machine.
-/
import Sp00ky.Pool.JobMoves

namespace Sp00ky.Pool

/-! ## States -/

/-- How a statement changes the state of a machine. -/
inductive StateStep : Statement → MachineId → MachineState → MachineState → Prop
  | moved (id : MachineId) {source : List MachineState} {state : MachineState}
      (target : MachineState) (h : state ∈ source) :
      StateStep (.moveMachine id source target) id state target
  | leaving (id : MachineId) {source : List MachineState} {state : MachineState} (reason : String)
      (failure : Bool) (h : state ∈ source) :
      StateStep (.beginTerminate id source reason failure) id state .terminating
  | ended (id : MachineId) {target : MachineState} (h : target = .gone ∨ target = .failed) :
      StateStep (.finishTerminate id) id .terminating target
  | ready (id : MachineId) {state : MachineState} (h : state = .requested ∨ state = .booting) :
      StateStep (.markReady id) id state .ready

/-- What a statement does to a row: its state may change, and what is noted beside it. -/
structure MachineMove (q : Statement) (row row' : MachineRow) : Prop where
  id_eq : row'.id = row.id
  slots_eq : row'.slots = row.slots
  spec_eq : row'.specHash = row.specHash
  state : row'.state = row.state ∨ StateStep q row.id row.state row'.state

/-- The moves that a pass makes: towards its end, and out of what the pool pays for. -/
def Statement.forward : Statement → Prop
  | .moveMachine _ source target =>
    source = [.ready] ∧ target = .draining ∨ source = [.requested] ∧ target = .booting
  | .beginTerminate _ source _ _ => ∀ state ∈ source, state.isLive = true
  | _ => True

namespace StateStep

variable {q : Statement} {id : MachineId} {state target : MachineState}

theorem isLive (h : StateStep q id state target) (hq : q.forward) : state.isLive = true := by
  cases h with
  | moved _ _ hsource =>
    rcases hq with ⟨rfl, _⟩ | ⟨rfl, _⟩ <;> rw [List.mem_singleton.mp hsource] <;> rfl
  | leaving _ _ _ hsource => exact hq _ hsource
  | ended => rfl
  | ready _ hstate => rcases hstate with rfl | rfl <;> rfl

theorem isSupply (h : StateStep q id state target) (hq : q.forward)
    (hsupply : target.isSupply = true) : state.isSupply = true := by
  cases h with
  | moved _ _ hsource =>
    rcases hq with ⟨rfl, rfl⟩ | ⟨rfl, rfl⟩
    · cases hsupply
    · rw [List.mem_singleton.mp hsource]
      rfl
  | leaving => cases hsupply
  | ended _ htarget => rcases htarget with rfl | rfl <;> cases hsupply
  | ready _ hstate => rcases hstate with rfl | rfl <;> rfl

end StateStep

namespace MachineMove

variable {q : Statement} {row row' : MachineRow}

theorem refl (q : Statement) (row : MachineRow) : MachineMove q row row := ⟨rfl, rfl, rfl, .inl rfl⟩

theorem isLive (h : MachineMove q row row') (hq : q.forward) (hlive : row'.state.isLive = true) :
    row.state.isLive = true := by
  rcases h.state with hstate | hstep
  · exact hstate ▸ hlive
  · exact hstep.isLive hq

theorem isSupply (h : MachineMove q row row') (hq : q.forward)
    (hsupply : row'.state.isSupply = true) : row.state.isSupply = true := by
  rcases h.state with hstate | hstep
  · exact hstate ▸ hsupply
  · exact hstep.isSupply hq hsupply

end MachineMove

/-! ## Rows -/

theorem countP_or_le {α : Type} (p p' : α → Bool) (l : List α) :
    (l.countP fun a => p a || p' a) ≤ l.countP p + l.countP p' := by
  induction l with
  | nil => exact Nat.zero_le _
  | cons a l ih =>
    simp only [List.countP_cons]
    cases p a <;> cases p' a <;> simp <;> omega

namespace Db

variable (s : Db) {q : Statement}

/-- The row that is added for a new machine. -/
def newMachine (slots : Nat) (specHash : String) : MachineRow :=
  ⟨s.nextMachine, .requested, none, slots, 0, specHash, none, s.now, none, none, none, false, none⟩

theorem updateMachine_moves {id : MachineId} {guard : MachineRow → Bool}
    {change : MachineRow → MachineRow}
    (h : ∀ row, row.id = id → guard row = true → MachineMove q row (change row)) :
    ∃ f, (s.updateMachine id guard change).1.machines = s.machines.map f ∧
      ∀ row, MachineMove q row (f row) := by
  refine ⟨fun row => if row.id = id ∧ guard row = true then change row else row, rfl, fun row => ?_⟩
  dsimp only
  split
  next hguard => exact h row hguard.1 hguard.2
  next => exact .refl q row

/-- Every statement changes each row on its own, drops rows that have ended, or adds one. -/
theorem exec_machines (q : Statement) :
    (∃ f, (s.exec q).1.machines = s.machines.map f ∧ ∀ row, MachineMove q row (f row)) ∨
      (∃ keep : MachineRow → Bool, (s.exec q).1.machines = s.machines.filter keep ∧
        ∀ row, row.state.isLive = true → keep row = true) ∨
      ∃ slots specHash, q = .createMachine slots specHash ∧
        (s.exec q).1.machines = s.machines ++ [s.newMachine slots specHash] := by
  have hsame : ∃ f, s.machines = s.machines.map f ∧ ∀ row, MachineMove q row (f row) :=
    ⟨fun row => row, s.machines.map_id'.symm, MachineMove.refl q⟩
  cases q with
  | createMachine slots specHash => exact .inr (.inr ⟨slots, specHash, rfl, rfl⟩)
  | pruneMachines keepSecs =>
    exact .inr (.inl ⟨_, rfl, fun row hlive => Bool.or_eq_true_iff.mpr (.inl hlive)⟩)
  | setProviderId | touchMachine | setOccupancyIdle | setOccupancyBusy =>
    exact .inl (s.updateMachine_moves fun row _ _ => ⟨rfl, rfl, rfl, .inl rfl⟩)
  | moveMachine id source target =>
    refine .inl (s.updateMachine_moves fun row hid h => ⟨rfl, rfl, rfl, .inr ?_⟩)
    subst hid
    exact .moved _ target (of_decide_eq_true h)
  | beginTerminate id source reason failure =>
    refine .inl (s.updateMachine_moves fun row hid h => ⟨rfl, rfl, rfl, .inr ?_⟩)
    subst hid
    exact .leaving _ reason failure (of_decide_eq_true h)
  | finishTerminate id =>
    refine .inl (s.updateMachine_moves fun row hid h => ⟨rfl, rfl, rfl, .inr ?_⟩)
    subst hid
    rw [of_decide_eq_true h]
    refine .ended _ ?_
    dsimp only
    split
    · exact .inr rfl
    · exact .inl rfl
  | markReady id =>
    refine .inl (s.updateMachine_moves fun row hid h => ⟨rfl, rfl, rfl, .inr ?_⟩)
    subst hid
    simp only [Bool.or_eq_true, decide_eq_true_eq] at h
    exact .ready _ h
  | resetBootFailures =>
    simp only [exec]
    split <;> exact .inl hsame
  | _ => exact .inl hsame

/-- A row after a statement was one before, or it is new. -/
theorem exec_machine_back {row' : MachineRow} (h : row' ∈ (s.exec q).1.machines) :
    (∃ row ∈ s.machines, MachineMove q row row') ∨
      ∃ slots specHash, q = .createMachine slots specHash ∧ row' = s.newMachine slots specHash := by
  rcases s.exec_machines q with ⟨f, hf, hmove⟩ | ⟨keep, hkeep, _⟩ | ⟨slots, specHash, hq, hnew⟩
  · rw [hf] at h
    obtain ⟨row, hrow, rfl⟩ := List.mem_map.mp h
    exact .inl ⟨row, hrow, hmove row⟩
  · rw [hkeep] at h
    exact .inl ⟨row', (List.mem_filter.mp h).1, .refl q row'⟩
  · rw [hnew] at h
    rcases List.mem_append.mp h with h | h
    · exact .inl ⟨row', h, .refl q row'⟩
    · exact .inr ⟨slots, specHash, hq, List.mem_singleton.mp h⟩

/-- A row of a live machine stays. -/
theorem exec_machine_forth {row : MachineRow} (h : row ∈ s.machines)
    (hlive : row.state.isLive = true) (q : Statement) :
    ∃ row' ∈ (s.exec q).1.machines, MachineMove q row row' := by
  rcases s.exec_machines q with ⟨f, hf, hmove⟩ | ⟨keep, hkeep, hkept⟩ | ⟨_, _, _, hnew⟩
  · rw [hf]
    exact ⟨f row, List.mem_map_of_mem h, hmove row⟩
  · rw [hkeep]
    exact ⟨row, List.mem_filter.mpr ⟨h, hkept row hlive⟩, .refl q row⟩
  · rw [hnew]
    exact ⟨row, List.mem_append_left _ h, .refl q row⟩

theorem exec_nextMachine (q : Statement) : s.nextMachine ≤ (s.exec q).1.nextMachine := by
  cases q with
  | createMachine slots specHash => exact Nat.le_succ _
  | resetBootFailures =>
    simp only [exec]
    split <;> exact Nat.le_refl _
  | _ => exact Nat.le_refl _

/-- The rows keep their ids, and a new one has the next. -/
theorem exec_machine_ids (h : (s.machines.map (·.id)).Nodup)
    (hfresh : ∀ m ∈ s.machines, m.id < s.nextMachine) :
    ((s.exec q).1.machines.map (·.id)).Nodup := by
  rcases s.exec_machines q with ⟨f, hf, hmove⟩ | ⟨keep, hkeep, _⟩ | ⟨slots, specHash, _, hnew⟩
  · have hids : (s.machines.map f).map (·.id) = s.machines.map (·.id) := by
      rw [List.map_map]
      exact List.map_congr_left fun row _ => (hmove row).id_eq
    rw [hf, hids]
    exact h
  · rw [hkeep]
    exact h.sublist (List.filter_sublist.map _)
  · rw [hnew, List.map_append]
    refine List.Nodup.append h (List.nodup_singleton _) (List.disjoint_singleton.mpr fun hid => ?_)
    obtain ⟨m, hm, hid⟩ := List.mem_map.mp hid
    exact absurd hid (Nat.ne_of_lt (hfresh m hm))

/-! ## What the pool pays for -/

/-- The machines that serve jobs or are about to. -/
def supply : Nat := s.machines.countP (·.state.isSupply)

/-- The machines that may still exist at the provider. -/
def live : Nat := s.machines.countP (·.state.isLive)

variable {s}

/-- Rows that a statement leaves are counted no higher, where it cannot bring one into the count. -/
theorem countP_exec_le {p : MachineState → Bool}
    (hmove : ∀ row row', MachineMove q row row' → p row'.state = true → p row.state = true)
    (hq : ∀ slots specHash, q ≠ .createMachine slots specHash) :
    (s.exec q).1.machines.countP (fun m => p m.state) ≤ s.machines.countP fun m => p m.state := by
  rcases s.exec_machines q with ⟨f, hf, hmoves⟩ | ⟨keep, hkeep, _⟩ | ⟨slots, specHash, hnew, _⟩
  · rw [hf, List.countP_map]
    exact List.countP_mono_left fun row _ => hmove row (f row) (hmoves row)
  · rw [hkeep]
    exact List.filter_sublist.countP_le
  · exact absurd hnew (hq slots specHash)

theorem supply_exec_le (hforward : q.forward) (hq : ∀ slots specHash, q ≠ .createMachine slots specHash) :
    (s.exec q).1.supply ≤ s.supply :=
  countP_exec_le (fun _ _ hmove => hmove.isSupply hforward) hq

theorem live_exec_le (hforward : q.forward) (hq : ∀ slots specHash, q ≠ .createMachine slots specHash) :
    (s.exec q).1.live ≤ s.live :=
  countP_exec_le (fun _ _ hmove => hmove.isLive hforward) hq

theorem supply_create (slots : Nat) (specHash : String) :
    (s.exec (.createMachine slots specHash)).1.supply = s.supply + 1 := by
  simp [supply, exec, MachineState.isSupply]

theorem live_create (slots : Nat) (specHash : String) :
    (s.exec (.createMachine slots specHash)).1.live = s.live + 1 := by
  simp [live, exec, MachineState.isLive]

/-! ## A machine that is matched -/

/-- A guard that no row meets changes nothing. -/
theorem updateMachine_unmatched {id : MachineId} {guard : MachineRow → Bool}
    {change : MachineRow → MachineRow} (h : (s.updateMachine id guard change).2 = false) :
    (s.updateMachine id guard change).1 = s := by
  have hmap : (s.updateMachine id guard change).1.machines = s.machines := by
    refine (List.map_congr_left fun m hm => if_neg fun hguard => ?_).trans s.machines.map_id'
    have hany := List.any_eq_false.mp h m hm
    exact hany (by simp [hguard.1, hguard.2])
  calc (s.updateMachine id guard change).1
      = { s with machines := (s.updateMachine id guard change).1.machines } := rfl
    _ = s := by rw [hmap]

/-- The row of a guard that was met is the changed one. -/
theorem updateMachine_matched {id : MachineId} {guard : MachineRow → Bool}
    (change : MachineRow → MachineRow) (hids : (s.machines.map (·.id)).Nodup)
    (hchange : ∀ m, (change m).id = m.id) (h : (s.updateMachine id guard change).2 = true)
    {row' : MachineRow} (hrow' : row' ∈ (s.updateMachine id guard change).1.machines)
    (hid : row'.id = id) : ∃ row ∈ s.machines, row' = change row := by
  obtain ⟨row, hrow, hguard⟩ := List.any_eq_true.mp h
  obtain ⟨hrowid, hguard⟩ := Bool.and_eq_true_iff.mp hguard
  obtain ⟨old, hold, rfl⟩ := List.mem_map.mp hrow'
  have holdid : old.id = id := by
    refine Eq.trans ?_ hid
    split
    · exact (hchange old).symm
    · rfl
  obtain rfl := List.inj_on_of_nodup_map hids hold hrow (holdid.trans (of_decide_eq_true hrowid).symm)
  exact ⟨old, hold, if_pos ⟨holdid, hguard⟩⟩

/-! ## The jobs of a machine -/

/-- How many jobs are bound to a machine. -/
def held (s : Db) (machine : MachineId) : Nat := (s.boundTo machine).length

theorem held_eq (s : Db) (machine : MachineId) : s.held machine =
    s.jobs.countP fun row => row.status = .processing && row.assignee = some machine :=
  List.countP_eq_length_filter.symm

/-- Nothing but a claim adds to the jobs of a machine. -/
theorem held_exec_le (hq : ∀ job machine leaseSecs, q ≠ .claimJob job machine leaseSecs)
    (machine : MachineId) : (s.exec q).1.held machine ≤ s.held machine := by
  obtain ⟨f, hjobs, hmove⟩ := s.exec_jobs q
  rw [held_eq, held_eq, hjobs, List.countP_map]
  refine List.countP_mono_left fun row _ hrow => ?_
  simp only [Function.comp_apply, Bool.and_eq_true, decide_eq_true_eq] at hrow ⊢
  rcases (hmove row).of_processing hrow.1 with ⟨hwas, hassignee, _⟩ | ⟨_, claimed, leaseSecs, hq', _⟩
  · exact ⟨hwas, hassignee.symm.trans hrow.2⟩
  · exact absurd hq' (hq row.id claimed leaseSecs)

/-- A claim adds one job, to its machine. -/
theorem held_claim_le (hids : (s.jobs.map (·.id)).Nodup) (job : JobId) (claimed : MachineId)
    (leaseSecs : Nat) (machine : MachineId) :
    (s.exec (.claimJob job claimed leaseSecs)).1.held machine ≤
      s.held machine + if machine = claimed then 1 else 0 := by
  obtain ⟨f, hjobs, hmove⟩ := s.exec_jobs (.claimJob job claimed leaseSecs)
  -- A row of the machine was one before, or it is the row that is claimed.
  have hrow : ∀ row, ((f row).status = .processing && (f row).assignee = some machine) = true →
      (row.status = .processing && row.assignee = some machine) = true ∨
        row.id = job ∧ machine = claimed := by
    intro row h
    simp only [Bool.and_eq_true, decide_eq_true_eq] at h ⊢
    rcases (hmove row).of_processing h.1 with ⟨hwas, hassignee, _⟩ | ⟨_, _, _, hq, hassignee, _⟩
    · exact .inl ⟨hwas, hassignee.symm.trans h.2⟩
    · injection hq with hid hclaimed
      rw [hassignee, ← hclaimed] at h
      exact .inr ⟨hid.symm, (Option.some.inj h.2).symm⟩
  rw [held_eq, held_eq, hjobs, List.countP_map]
  split
  next hmachine =>
    have hone : s.jobs.countP (fun row => row.id = job) ≤ 1 := by
      have hcount := List.nodup_iff_count_le_one.mp hids job
      rw [List.count_eq_countP, List.countP_map] at hcount
      exact (List.countP_mono_left fun row _ h => by simpa using h).trans hcount
    refine le_trans ?_ (Nat.add_le_add_left hone _)
    refine le_trans (List.countP_mono_left fun row _ h => ?_) (countP_or_le _ _ s.jobs)
    exact Bool.or_eq_true_iff.mpr ((hrow row h).imp_right fun h => decide_eq_true h.1)
  next hmachine =>
    refine List.countP_mono_left fun row _ h => ?_
    exact (hrow row h).resolve_right fun h => hmachine h.2

/-- A claim that is lost changes nothing. -/
theorem claim_unmatched {job : JobId} {claimed : MachineId} {leaseSecs : Nat}
    (h : (s.exec (.claimJob job claimed leaseSecs)).2 = false) :
    (s.exec (.claimJob job claimed leaseSecs)).1.jobs = s.jobs := by
  refine (List.map_congr_left fun row hrow => if_neg fun hguard => ?_).trans s.jobs.map_id'
  exact List.any_eq_false.mp h row hrow hguard

end Db

end Sp00ky.Pool
