/-
  One engine whose passes run one after another.

  A pass works from a copy of the machines and of what they hold. In between, agents and operators
  only make machines ready and end jobs (`Calm`), so a machine that is ready in the copy is ready,
  no machine is in supply that the copy does not have, and none holds more than the copy says. A pass
  may die at any statement and the next one start; a deploy changes the pool between two passes.
-/
import Sp00ky.Pool.MachineMoves
import Sp00ky.Lib.Solo

namespace Sp00ky.Pool

open Lib

/-! ## The system -/

/-- What agents and operators call. -/
inductive AgentCall where
  | onReady (machine : MachineId)
  | onPoll (req : PollRequest)
  | onResult (cfg : PoolEngineConfig) (attempt_ : Attempt) (outcome : Outcome)
  | retryJob (job : JobId)
  | killJob (job : JobId)

def AgentCall.invocation : AgentCall → Invocation
  | .onReady machine => .onReady machine
  | .onPoll req => .onPoll req
  | .onResult cfg attempt_ outcome => .onResult cfg attempt_ outcome
  | .retryJob job => .retryJob job
  | .killJob job => .killJob job

/-- A deploy writes what it knows of the pool, and leaves what the engine notes there. -/
def World.deploy (w : World) (row : PoolRow) : World :=
  { w with db := { w.db with
      pool := { row with
        bootFailures := w.db.pool.bootFailures
        breakerUntil := w.db.pool.breakerUntil
        lastError := w.db.pool.lastError } } }

/-- The pool, with the pass of its engine. -/
abbrev PoolRun := Solo World Statement Reply

abbrev PoolEvent := SoloEvent (PoolEngineConfig × Bool) AgentCall World.Event PoolRow

/-- One step of the pass, of an agent or an operator, of a deploy, or of what happens by itself. -/
def poolStep (e : PoolRun) (a : PoolEvent) : Option PoolRun :=
  e.step World.exec (fun pass => tickPass pass.1 pass.2) (fun c => c.invocation.program)
    (fun w event => some (w.event event)) World.deploy a

/-- Nothing has happened in the pool yet. -/
def PoolRun.start (pool : PoolRow) : PoolRun := ⟨⟨⟨Db.empty pool, none⟩, []⟩, none⟩

/-! ## The pool -/

namespace PoolRow

/-- The most machines the pool may have in supply. -/
def ceiling (row : PoolRow) : Nat := (PoolSpec.fromRow row false).ceiling

/-- Where creating stops, whatever is in supply. -/
def hardStop (row : PoolRow) : Nat := (PoolSpec.fromRow row false).hardStop

variable {row row' : PoolRow}

theorem ceiling_eq (h : row'.deployed = row.deployed) : row'.ceiling = row.ceiling := by
  have hself : ∀ r : PoolRow, r.ceiling = r.deployed.ceiling := fun _ => rfl
  rw [hself row', hself row, h]

theorem hardStop_eq (h : row'.deployed = row.deployed) : row'.hardStop = row.hardStop := by
  have hself : ∀ r : PoolRow, r.hardStop = r.deployed.hardStop := fun _ => rfl
  rw [hself row', hself row, h]

theorem specHash_eq (h : row'.deployed = row.deployed) : row'.specHash = row.specHash := by
  have hself : ∀ r : PoolRow, r.specHash = r.deployed.specHash := fun _ => rfl
  rw [hself row', hself row, h]

theorem clampU32_le (v : Int) : clampU32 v ≤ u32Max := Nat.min_le_right _ _

theorem ceiling_le (row : PoolRow) : row.ceiling ≤ u32Max := by
  have hmin : uintField row.min 0 ≤ u32Max := clampU32_le _
  unfold ceiling PoolSpec.ceiling PoolSpec.fromRow
  dsimp only
  split
  · refine Nat.max_le.mpr ⟨?_, hmin⟩
    cases row.max with
    | none => exact hmin
    | some v => exact clampU32_le v
  · exact hmin

theorem hardStop_le_u32 (row : PoolRow) : row.hardStop ≤ u32Max := Nat.min_le_right _ _

end PoolRow

/-- Statements change of the pool only what the engine notes there. -/
theorem Db.exec_deployed (s : Db) (q : Statement) :
    (s.exec q).1.pool.deployed = s.pool.deployed := by
  cases q with
  | resetBootFailures =>
    simp only [exec]
    split <;> rfl
  | _ => rfl

/-! ## What holds of the pool -/

/-- The machines and the jobs against each other; with a pool that is never deployed again, the
machines against its limits. -/
structure Pooled (fixed : Prop) (s : Db) : Prop where
  ids : (s.machines.map (·.id)).Nodup
  fresh : ∀ m ∈ s.machines, m.id < s.nextMachine
  jobIds : (s.jobs.map (·.id)).Nodup
  jobFresh : ∀ row ∈ s.jobs, row.id < s.nextJob
  assigned : ∀ row ∈ s.jobs, row.status = .processing → ∀ machine, row.assignee = some machine →
    machine < s.nextMachine
  slots : ∀ m ∈ s.machines, 0 < m.slots ∧ m.slots ≤ u32Max
  room : ∀ m ∈ s.machines, s.held m.id ≤ m.slots
  heldLe : ∀ machine, s.held machine ≤ u32Max
  within : fixed → s.supply ≤ s.pool.ceiling ∧ s.live ≤ s.pool.hardStop

/-- What may have happened to a state: jobs ended, machines left the supply or became ready. Those
of some ids may no longer be. -/
structure Calm (left : MachineId → Prop) (s t : Db) : Prop where
  pool : t.pool.deployed = s.pool.deployed
  back : ∀ m' ∈ t.machines, ∃ m ∈ s.machines, m.id = m'.id ∧
    (m'.state.isLive = true → m.state.isLive = true) ∧
    (m'.state.isSupply = true → m.state.isSupply = true)
  ready : ∀ m ∈ s.machines, m.state = .ready → ¬ left m.id →
    ∃ m' ∈ t.machines, m'.id = m.id ∧ m'.state = .ready ∧ m'.slots = m.slots ∧
      m'.specHash = m.specHash
  held : ∀ machine, t.held machine ≤ s.held machine
  supply : t.supply ≤ s.supply
  live : t.live ≤ s.live

/-- No machine. -/
def noMachine (_ : MachineId) : Prop := False

theorem Calm.refl (s : Db) : Calm noMachine s s where
  pool := rfl
  back m hm := ⟨m, hm, rfl, id, id⟩
  ready m hm h _ := ⟨m, hm, rfl, h, rfl, rfl⟩
  held _ := Nat.le_refl _
  supply := Nat.le_refl _
  live := Nat.le_refl _

theorem Calm.trans {s t u : Db} (h : Calm noMachine s t) (h' : Calm noMachine t u) :
    Calm noMachine s u where
  pool := h'.pool.trans h.pool
  back m hm := by
    obtain ⟨m', hm', hid, hlive, hsupply⟩ := h'.back m hm
    obtain ⟨m'', hm'', hid', hlive', hsupply'⟩ := h.back m' hm'
    exact ⟨m'', hm'', hid'.trans hid, hlive' ∘ hlive, hsupply' ∘ hsupply⟩
  ready m hm hready hleft := by
    obtain ⟨m', hm', hid, hready', hslots, hspec⟩ := h.ready m hm hready hleft
    obtain ⟨m'', hm'', hid', hready'', hslots', hspec'⟩ := h'.ready m' hm' hready' (fun h => h)
    exact ⟨m'', hm'', hid'.trans hid, hready'', hslots'.trans hslots, hspec'.trans hspec⟩
  held machine := (h'.held machine).trans (h.held machine)
  supply := h'.supply.trans h.supply
  live := h'.live.trans h.live

/-- The machines a statement takes out of `ready`. -/
def Statement.leaves : Statement → MachineId → Prop
  | .moveMachine id source _, machine => machine = id ∧ .ready ∈ source
  | .beginTerminate id source _ _, machine => machine = id ∧ .ready ∈ source
  | _, _ => False

/-- It neither adds a machine nor claims a job, and moves machines forward. -/
def Statement.calm : Statement → Prop
  | .createMachine .. | .claimJob .. => False
  | q => q.forward

theorem StateStep.leaves {q : Statement} {id : MachineId} {target : MachineState}
    (h : StateStep q id .ready target) : q.leaves id := by
  generalize hstate : MachineState.ready = state at h
  cases h with
  | moved _ _ hsource | leaving _ _ _ hsource => exact ⟨rfl, hstate ▸ hsource⟩
  | ended => cases hstate
  | ready _ h => rcases h with rfl | rfl <;> cases hstate

/-- A calm statement leaves the rest as it is known. -/
theorem Calm.exec (s : Db) {q : Statement} (hq : q.calm) : Calm q.leaves s (s.exec q).1 := by
  have hforward : q.forward := by
    cases q <;> first | exact hq | exact hq.elim
  have hcreate : ∀ slots specHash, q ≠ .createMachine slots specHash := by
    rintro slots specHash rfl
    exact hq
  have hclaim : ∀ job machine leaseSecs, q ≠ .claimJob job machine leaseSecs := by
    rintro job machine leaseSecs rfl
    exact hq
  exact
    { pool := s.exec_deployed q
      back := fun m' hm' => by
        rcases s.exec_machine_back hm' with ⟨m, hm, hmove⟩ | ⟨slots, specHash, hnew, _⟩
        · exact ⟨m, hm, hmove.id_eq.symm, hmove.isLive hforward, hmove.isSupply hforward⟩
        · exact absurd hnew (hcreate slots specHash)
      ready := fun m hm hready hleft => by
        have hlive : m.state.isLive = true := by
          rw [hready]
          rfl
        obtain ⟨m', hm', hmove⟩ := s.exec_machine_forth hm hlive q
        refine ⟨m', hm', hmove.id_eq, ?_, hmove.slots_eq, hmove.spec_eq⟩
        rcases hmove.state with hstate | hstep
        · exact hstate.trans hready
        · rw [hready] at hstep
          exact absurd hstep.leaves hleft
      held := Db.held_exec_le hclaim
      supply := Db.supply_exec_le hforward hcreate
      live := Db.live_exec_le hforward hcreate }

namespace Pooled

variable {fixed : Prop} {s : Db} {q : Statement}

theorem empty (pool : PoolRow) : Pooled fixed (Db.empty pool) where
  ids := List.nodup_nil
  fresh := List.forall_mem_nil _
  jobIds := List.nodup_nil
  jobFresh := List.forall_mem_nil _
  assigned := List.forall_mem_nil _
  slots := List.forall_mem_nil _
  room := List.forall_mem_nil _
  heldLe _ := Nat.zero_le _
  within _ := ⟨Nat.zero_le _, Nat.zero_le _⟩

theorem held_next (h : Pooled fixed s) : s.held s.nextMachine = 0 := by
  rw [Db.held_eq]
  refine List.countP_eq_zero.mpr fun row hrow hheld => ?_
  obtain ⟨hprocessing, hassignee⟩ := Bool.and_eq_true_iff.mp hheld
  exact absurd (h.assigned row hrow (of_decide_eq_true hprocessing) _ (of_decide_eq_true hassignee))
    (Nat.lt_irrefl _)

/-- A statement keeps what holds of the pool, if it claims only for machines with room, and adds
machines only within the limits. -/
theorem exec (h : Pooled fixed s) (hheld : ∀ m ∈ s.machines, (s.exec q).1.held m.id ≤ m.slots)
    (hle : ∀ machine, (s.exec q).1.held machine ≤ u32Max)
    (hclaim : ∀ job machine leaseSecs, q = .claimJob job machine leaseSecs →
      machine < s.nextMachine)
    (hnew : ∀ slots specHash, q = .createMachine slots specHash → 0 < slots ∧ slots ≤ u32Max)
    (hwithin : fixed → (s.exec q).1.supply ≤ s.pool.ceiling ∧ (s.exec q).1.live ≤ s.pool.hardStop) :
    Pooled fixed (s.exec q).1 where
  ids := s.exec_machine_ids h.ids h.fresh
  fresh m hm := by
    rcases s.exec_machine_back hm with ⟨old, hold, hmove⟩ | ⟨slots, specHash, rfl, rfl⟩
    · rw [hmove.id_eq]
      exact (h.fresh old hold).trans_le (s.exec_nextMachine q)
    · exact Nat.lt_succ_self _
  jobIds := s.exec_ids q ▸ h.jobIds
  jobFresh row hrow := by
    obtain ⟨old, hold, hmove⟩ := s.exec_back hrow
    rw [hmove.id_eq, s.exec_nextJob]
    exact h.jobFresh old hold
  assigned row hrow hprocessing machine hassignee := by
    obtain ⟨old, hold, hmove⟩ := s.exec_back hrow
    refine Nat.lt_of_lt_of_le ?_ (s.exec_nextMachine q)
    rcases hmove.of_processing hprocessing with ⟨hwas, hsame, _⟩ | ⟨_, claimed, _, hq, hsame, _⟩
    · exact h.assigned old hold hwas machine (hsame.symm.trans hassignee)
    · rw [hsame] at hassignee
      exact Option.some.inj hassignee ▸ hclaim _ _ _ hq
  slots m hm := by
    rcases s.exec_machine_back hm with ⟨old, hold, hmove⟩ | ⟨slots, specHash, hq, rfl⟩
    · rw [hmove.slots_eq]
      exact h.slots old hold
    · exact hnew slots specHash hq
  room m hm := by
    rcases s.exec_machine_back hm with ⟨old, hold, hmove⟩ | ⟨slots, specHash, rfl, rfl⟩
    · rw [hmove.slots_eq, hmove.id_eq]
      exact hheld old hold
    · have hle : (s.exec (.createMachine slots specHash)).1.held s.nextMachine ≤
          s.held s.nextMachine := by
        refine Db.held_exec_le (fun job machine leaseSecs => ?_) _
        exact nofun
      rw [h.held_next] at hle
      exact hle.trans (Nat.zero_le _)
  heldLe := hle
  within hfixed := by
    rw [PoolRow.ceiling_eq (s.exec_deployed q), PoolRow.hardStop_eq (s.exec_deployed q)]
    exact hwithin hfixed

/-- A calm statement keeps it. -/
theorem calm_exec (h : Pooled fixed s) (hq : q.calm) : Pooled fixed (s.exec q).1 := by
  have hcalm := Calm.exec s hq
  refine h.exec (fun m hm => (hcalm.held m.id).trans (h.room m hm))
    (fun machine => (hcalm.held machine).trans (h.heldLe machine)) ?_ ?_ fun hfixed => ?_
  · rintro job machine leaseSecs rfl
    exact hq.elim
  · rintro slots specHash rfl
    exact hq.elim
  · exact ⟨hcalm.supply.trans (h.within hfixed).1, hcalm.live.trans (h.within hfixed).2⟩

/-- What happens by itself keeps it, and is calm. -/
theorem event (h : Pooled fixed s) (e : Db.Event) :
    Pooled fixed (s.event e) ∧ Calm noMachine s (s.event e) := by
  cases e with
  | tick ms =>
    refine ⟨⟨h.ids, h.fresh, h.jobIds, h.jobFresh, h.assigned, h.slots, h.room, h.heldLe,
      h.within⟩, ?_⟩
    exact ⟨rfl, (Calm.refl s).back, (Calm.refl s).ready, fun _ => Nat.le_refl _, Nat.le_refl _,
      Nat.le_refl _⟩
  | createJob maxRetries timeout delay =>
    have hheld : ∀ machine, (s.event (.createJob maxRetries timeout delay)).held machine =
        s.held machine := by
      intro machine
      simp [Db.held, Db.boundTo, Db.event]
    refine ⟨⟨h.ids, h.fresh, ?_, ?_, ?_, h.slots, ?_, ?_, h.within⟩, ⟨rfl, (Calm.refl s).back,
      (Calm.refl s).ready, fun machine => (hheld machine).le, Nat.le_refl _, Nat.le_refl _⟩⟩
    · simp only [Db.event, List.map_append, List.map_cons, List.map_nil]
      refine List.Nodup.append h.jobIds (List.nodup_singleton _) ?_
      refine List.disjoint_singleton.mpr fun hid => ?_
      obtain ⟨row, hrow, hid⟩ := List.mem_map.mp hid
      exact absurd hid (Nat.ne_of_lt (h.jobFresh row hrow))
    · intro row hrow
      rcases s.mem_createJob hrow with hrow | ⟨hid, _⟩
      · exact Nat.lt_succ_of_lt (h.jobFresh row hrow)
      · exact hid ▸ Nat.lt_succ_self _
    · intro row hrow hprocessing
      rcases s.mem_createJob hrow with hrow | ⟨_, hpending⟩
      · exact h.assigned row hrow hprocessing
      · rw [hpending] at hprocessing
        cases hprocessing
    · intro m hm
      rw [hheld]
      exact h.room m hm
    · intro machine
      rw [hheld]
      exact h.heldLe machine

end Pooled

/-! ## What may be asked -/

/-- A job is claimed for a machine that is ready and of the current deploy, and a machine that has
drained is terminated while no job is bound to it. -/
def SafeStatement (s : Db) : Statement → Prop
  | .claimJob _ machine _ =>
    ∃ m ∈ s.machines, m.id = machine ∧ m.state = .ready ∧ m.specHash = s.pool.specHash
  | .beginTerminate id _ reason _ => reason = "drained" → s.held id = 0
  | _ => True

/-- It takes no machine out of `ready`, and none is said to have drained. -/
def Statement.gentle : Statement → Prop
  | .createMachine .. | .claimJob .. => False
  | .moveMachine _ source target => source = [.requested] ∧ target = .booting
  | .beginTerminate _ source reason _ =>
    (∀ state ∈ source, state = .requested ∨ state = .booting) ∧ reason ≠ "drained"
  | _ => True

theorem Statement.gentle.calm {q : Statement} (h : q.gentle) : q.calm := by
  cases q with
  | createMachine | claimJob => exact h
  | moveMachine => exact .inr h
  | beginTerminate =>
    intro state hstate
    rcases h.1 state hstate with rfl | rfl <;> rfl
  | _ => trivial

theorem Statement.gentle.not_leaves {q : Statement} (h : q.gentle) (machine : MachineId) :
    ¬ q.leaves machine := by
  cases q with
  | moveMachine =>
    rintro ⟨_, hready⟩
    rw [h.1] at hready
    cases List.mem_singleton.mp hready
  | beginTerminate =>
    rintro ⟨_, hready⟩
    rcases h.1 _ hready with hstate | hstate <;> cases hstate
  | _ => exact fun h => h

theorem Statement.gentle.safe {q : Statement} (h : q.gentle) (s : Db) : SafeStatement s q := by
  cases q with
  | claimJob => exact h.elim
  | beginTerminate => exact fun hreason => absurd hreason h.2
  | _ => trivial

/-- Those that leave no machine. -/
theorem Calm.none {s t : Db} {left : MachineId → Prop} (h : Calm left s t)
    (hleft : ∀ machine, ¬ left machine) : Calm noMachine s t :=
  ⟨h.pool, h.back, fun m hm hready _ => h.ready m hm hready (hleft m.id), h.held, h.supply, h.live⟩

/-- The discipline of a pool with one engine. -/
def onePass (fixed : Prop) :
    SoloDiscipline World.exec (fun w (event : World.Event) => some (w.event event)) where
  inv w := Pooled fixed w.db
  rely w w' := Calm noMachine w.db w'.db
  refl w := Calm.refl w.db
  trans := Calm.trans
  safe w q := SafeStatement w.db q
  gentle := Statement.gentle
  gentle_ok {w q} h hq := by
    refine ⟨hq.safe w.db, ?_⟩
    rcases w.exec_db q with hdb | hdb <;> rw [hdb]
    · exact ⟨h.calm_exec hq.calm, (Calm.exec w.db hq.calm).none hq.not_leaves⟩
    · exact ⟨h, Calm.refl w.db⟩
  env_ok {w w' event} h hw := by
    obtain rfl := Option.some.inj hw
    cases event with
    | db event => exact h.event event
    | fault fault => exact ⟨h, Calm.refl w.db⟩

end Sp00ky.Pool
