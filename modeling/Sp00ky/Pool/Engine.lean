/-
  The pool engine (`packages/pool-core/src/engine.rs`).

  A pass reads its pool and its machines once, and works from that copy: it reclaims attempts whose
  lease ran out, takes away machines that never booted or stopped polling, reads the occupancy,
  drains machines of an older deploy, assigns queued jobs to free slots, scales, and terminates what
  has drained. A statement or a provider call may fail; what the source passes on with `?` ends the
  pass. Agents report, poll and finish in between.
-/
import Sp00ky.Pool.Statements
import Sp00ky.Lib.Succession

namespace Sp00ky.Pool

open Lib

/-! ## Programs -/

/-- A call of the engine. -/
abbrev Call (α : Type) := Prog Statement Reply α

def ask (q : Statement) : Call (Reply q) := Prog.stmt q

/-- A statement whose failure is passed on. -/
def attempt (q : Statement) : Call (Option (Answer q)) :=
  (ask q).bind fun reply => .done (match reply with
    | .ok a => some a
    | .error _ => none)

/-- What follows, unless it failed. -/
def andThen {α β : Type} (p : Call (Option α)) (f : α → Call (Option β)) : Call (Option β) :=
  p.bind fun a => match a with
    | none => .done none
    | some a => f a

/-- Each entry of a list in turn, with something carried along. -/
def mapAccum {α β γ : Type} (f : γ → α → Call (Option (β × γ))) :
    List α → γ → Call (Option (List β × γ))
  | [], c => .done (some ([], c))
  | a :: l, c => andThen (f c a) fun p => andThen (mapAccum f l p.2) fun rest =>
      .done (some (p.1 :: rest.1, rest.2))

/-- Each entry of a list in turn. -/
def forEach {α β : Type} (f : α → Call (Option β)) : List α → Call (Option (List β))
  | [] => .done (some [])
  | a :: l => andThen (f a) fun b => andThen (forEach f l) fun bs => .done (some (b :: bs))

/-- `as u32`. -/
def toU32 (n : Nat) : Nat := n % 2 ^ 32

/-- `PoolEngineConfig`, and whether the host has the pool's provider. -/
structure PoolEngineConfig where
  createCapPerTick : Nat
  breakerThreshold : Int
  breakerBaseSecs : Int
  breakerMaxSecs : Int
  deadlineGraceSecs : Nat
  machineRetentionSecs : Nat
  resultMaxBytes : Nat
  provider : Bool
deriving DecidableEq

/-- `PoolEngineConfig::default`. -/
def defaultConfig : PoolEngineConfig := ⟨5, 3, 60, 900, 120, 86400, 64 * 1024, true⟩

/-! ## The boot breaker -/

/-- The streak of failed boots a pass carries, and whether the breaker is open. -/
structure Breaker where
  failures : Int
  isOpen : Bool
deriving DecidableEq, Repr

/-- The pause after so many failures; 0 while the breaker stays closed. -/
def PoolEngineConfig.untilSecs (cfg : PoolEngineConfig) (failures : Int) : Nat :=
  let excess := failures - cfg.breakerThreshold
  if 0 ≤ excess then
    let doubled := min (cfg.breakerBaseSecs * 2 ^ Nat.min excess.toNat 16) (2 ^ 63 - 1)
    (max (min doubled cfg.breakerMaxSecs) 1).toNat
  else 0

/-- `record_boot_failure`, with the count it is called with. -/
def recordBootFailure (cfg : PoolEngineConfig) (b : Breaker) (detail : String) : Call Breaker :=
  let untilSecs := cfg.untilSecs (b.failures + 1)
  (ask (.recordBootFailure (b.failures + 1) detail untilSecs)).bind fun _ =>
    .done ⟨b.failures + 1, b.isOpen || decide (0 < untilSecs)⟩

/-! ## Liveness -/

/-- The states a machine is taken away from, and why: it never booted, or stopped polling. -/
def MachineView.lostFrom (m : MachineView) : Option (List MachineState × String) :=
  match m.state with
  | .requested | .booting =>
    if m.bootOverdue then
      some ([.requested, .booting], "never became ready within the boot timeout")
    else none
  | .ready | .draining =>
    if m.heartbeatLost then
      some ([.ready, .draining], "stopped polling for a whole lease")
    else none
  | .terminating | .gone | .failed => none

/-- A machine that is lost is taken away; one that never booted counts as a failed boot. -/
def checkMachine (cfg : PoolEngineConfig) (b : Breaker) (m : MachineView) :
    Call (Option (MachineView × Breaker)) :=
  match m.lostFrom with
  | none => .done (some (m, b))
  | some (source, reason) =>
    andThen (attempt (.beginTerminate m.id source reason true)) fun (moved : Bool) =>
      if moved then
        if m.state = .requested ∨ m.state = .booting then
          (recordBootFailure cfg b reason).bind fun b' =>
            .done (some ({ m with state := .terminating }, b'))
        else .done (some ({ m with state := .terminating }, b))
      else .done (some (m, b))

/-! ## Occupancy -/

/-- The jobs of each machine. -/
abbrev Occupancy := List (MachineId × Nat)

namespace Occupancy

def busy (occ : Occupancy) (id : MachineId) : Nat := (occ.lookup id).getD 0

/-- One job more. -/
def bump (occ : Occupancy) (id : MachineId) : Occupancy :=
  (id, toU32 (occ.busy id + 1)) :: occ.filter fun p => p.1 ≠ id

end Occupancy

/-- The occupancy is cached on the row. -/
def cacheOccupancy (occ : Occupancy) (m : MachineView) : Call (Option Unit) :=
  let busy := occ.busy m.id
  if busy = 0 ∧ (m.busySlots ≠ 0 ∨ m.hasIdleSince = false) then attempt (.setOccupancyIdle m.id)
  else if 0 < busy ∧ (m.busySlots ≠ busy ∨ m.hasIdleSince = true) then
    attempt (.setOccupancyBusy m.id busy)
  else .done (some ())

def isReady (m : MachineView) : Bool := m.state = .ready

/-- The machines that may hold jobs, and what they hold. -/
def readOccupancy (machines : List MachineView) : Call (Option Occupancy) :=
  let ids := (machines.filter fun m => m.state = .ready || m.state = .draining).map (·.id)
  if ids.isEmpty then .done (some [])
  else andThen (attempt (.selectOccupancy ids)) fun found =>
    .done (some ((found : List (MachineId × Nat)).map fun p => (p.1, toU32 p.2)))

/-! ## Roll -/

/-- A ready machine of an older deploy, or past its lifetime, takes no more jobs. -/
def rollMachine (spec : PoolSpec) (m : MachineView) : Call (Option MachineView) :=
  if isReady m ∧ (m.specHash ≠ spec.specHash ∨ m.lifetimeOver = true) then
    andThen (attempt (.moveMachine m.id [.ready] .draining)) fun (moved : Bool) =>
      .done (some (if moved then { m with state := .draining } else m))
  else .done (some m)

/-! ## Assignment -/

/-- The machines with free slots, fullest first. -/
def freeMachines (spec : PoolSpec) (machines : List MachineView) (occ : Occupancy) :
    List (MachineView × Nat) :=
  ((machines.filter fun m => isReady m && m.fresh && m.specHash = spec.specHash).filterMap fun m =>
    if occ.busy m.id < m.slots then some (m, m.slots - occ.busy m.id) else none).insertionSort
      fun p q => p.2 < q.2 ∨ p.2 = q.2 ∧ p.1.id ≤ q.1.id

/-- The free slots, each under its machine. -/
def freeSlots (free : List (MachineView × Nat)) : List MachineId :=
  free.flatMap fun p => List.replicate p.2 p.1.id

/-- Each job is claimed for the next slot; a lost claim leaves the slot for the job after. -/
def claimJobs (leaseSecs : Nat) :
    List JobId → List MachineId → Occupancy → Nat → Call (Option (Occupancy × Nat))
  | [], _, occ, assigned => .done (some (occ, assigned))
  | _ :: _, [], occ, assigned => .done (some (occ, assigned))
  | job :: jobs, machine :: slots, occ, assigned =>
    andThen (attempt (.claimJob job machine leaseSecs)) fun (claimed : Bool) =>
      if claimed then claimJobs leaseSecs jobs slots (occ.bump machine) (assigned + 1)
      else claimJobs leaseSecs jobs (machine :: slots) occ assigned

/-- `assign`. -/
def assign (spec : PoolSpec) (machines : List MachineView) (occ : Occupancy) :
    Call (Option (Occupancy × Nat)) :=
  let slots := freeSlots (freeMachines spec machines occ)
  if slots.isEmpty then .done (some (occ, 0))
  else andThen (attempt (.selectQueued slots.length)) fun jobs =>
    andThen (claimJobs spec.leaseSecs jobs slots occ 0) fun p =>
      if 0 < p.2 then
        (Prog.each (fun entry : MachineId × Nat =>
          (ask (.setOccupancyBusy entry.1 entry.2)).bind fun _ => .done ()) p.1).bind fun _ =>
            .done (some p)
      else .done (some p)

/-! ## Scaling -/

/-- `ensure_created`: idempotent on the row's id. -/
def ensureCreated (id : MachineId) : Call (Option Unit) :=
  andThen (attempt (.providerCreate id)) fun _ =>
    andThen (attempt (.setProviderId id id)) fun _ =>
      andThen (attempt (.moveMachine id [.requested] .booting)) fun _ => .done (some ())

/-- `create_machine`: the row first, then the machine. -/
def createMachine (spec : PoolSpec) : Call (Option Unit) :=
  andThen (attempt (.createMachine spec.slots spec.specHash)) fun id =>
    (ensureCreated id).bind fun made =>
      match made with
      | some () => .done (some ())
      | none => (ask (.beginTerminate id [.requested] "create failed" true)).bind fun _ => .done none

/-- So many machines are created, until the breaker opens. -/
def createMachines (cfg : PoolEngineConfig) (spec : PoolSpec) : Nat → Breaker → Call Breaker
  | 0, b => .done b
  | n + 1, b =>
    (createMachine spec).bind fun made =>
      match made with
      | some () => createMachines cfg spec n b
      | none =>
        (recordBootFailure cfg b "create failed").bind fun b' =>
          if b'.isOpen then .done b' else createMachines cfg spec n b'

/-- The machines of a list that count as supply. -/
def supplyOf (machines : List MachineView) : Nat := machines.countP (·.state.isSupply)

/-- The slots in use on the ready machines. -/
def busySlots (machines : List MachineView) (occ : Occupancy) : Nat :=
  toU32 (((machines.filter isReady).map fun m => occ.busy m.id).sum)

/-- How many machines a pass creates that holds so many. -/
def wanted (cfg : PoolEngineConfig) (spec : PoolSpec) (desired supply live : Nat) : Nat :=
  Nat.min (Nat.min (desired - supply) cfg.createCapPerTick) (spec.hardStop - live)

/-- An idle machine beyond what is desired is drained. -/
def drainIdle (occ : Occupancy) (surplus : Nat) (m : MachineView) :
    Call (Option (MachineView × Nat)) :=
  if 0 < surplus ∧ isReady m ∧ occ.busy m.id = 0 ∧ m.idleExpired = true then
    andThen (attempt (.moveMachine m.id [.ready] .draining)) fun (moved : Bool) =>
      .done (some (if moved then ({ m with state := .draining }, surplus - 1) else (m, surplus)))
  else .done (some (m, surplus))

/-- The scaling of a pass: machines are created, or drained. -/
def scale (cfg : PoolEngineConfig) (spec : PoolSpec) (machines : List MachineView)
    (occ : Occupancy) (queued : Nat) (b : Breaker) : Call (Option (List MachineView × Breaker)) :=
  let supply := toU32 (supplyOf machines)
  let desired := spec.desiredMachines (busySlots machines occ) queued
  if supply < desired ∧ spec.paused = false ∧ b.isOpen = false then
    let want := wanted cfg spec desired supply (toU32 machines.length)
    if cfg.provider then (createMachines cfg spec want b).bind fun b' => .done (some (machines, b'))
    else if 0 < want then .done none
    else .done (some (machines, b))
  else if desired < supply then
    andThen (mapAccum (drainIdle occ) machines (supply - desired)) fun p => .done (some (p.1, b))
  else .done (some (machines, b))

/-! ## Termination -/

/-- A drained machine that holds nothing is terminated. -/
def terminateDrained (occ : Occupancy) (m : MachineView) : Call (Option MachineView) :=
  if m.state = .draining ∧ occ.busy m.id = 0 then
    andThen (attempt (.beginTerminate m.id [.draining] "drained" false)) fun (moved : Bool) =>
      .done (some (if moved then { m with state := .terminating } else m))
  else .done (some m)

/-- The provider destroys a machine that is to go; the next pass asks again if it fails. -/
def destroyMachine (m : MachineView) : Call (Option Unit) :=
  if m.state = .terminating then
    (ask (.providerDestroy m.id)).bind fun reply =>
      match reply with
      | .ok _ => attempt (.finishTerminate m.id)
      | .error _ => .done (some ())
  else .done (some ())

/-- A requested machine that nobody finished creating is asked for again. -/
def recreate (m : MachineView) : Call (Option Unit) :=
  if m.state = .requested ∧ m.settled = true then (ensureCreated m.id).bind fun _ => .done (some ())
  else .done (some ())

/-- With the host's provider. -/
def ifProvider (cfg : PoolEngineConfig) (p : Call (Option Unit)) : Call (Option Unit) :=
  if cfg.provider then p else .done (some ())

/-! ## A pass -/

/-- Attempts whose lease ran out are failed or requeued, and overdue ones failed. -/
def reclaim (cfg : PoolEngineConfig) (spec : PoolSpec) : Call (Option Unit) :=
  andThen (attempt .failExpiredExhausted) fun _ =>
    andThen (attempt .requeueExpired) fun _ =>
      attempt (.failOverdue (spec.maxJobDurationSecs + cfg.deadlineGraceSecs))

/-- The queue is counted, and jobs assigned unless the pool is paused: what is queued still. -/
def assignQueued (spec : PoolSpec) (machines : List MachineView) (occ : Occupancy) :
    Call (Option (Occupancy × Nat)) :=
  andThen (attempt .countQueued) fun count =>
    let queued := toU32 count
    if spec.paused = false ∧ 0 < queued then
      andThen (assign spec machines occ) fun p => .done (some (p.1, queued - toU32 p.2))
    else .done (some (occ, queued))

/-- The end of a pass: what has drained is terminated, and what is to go destroyed. -/
def finishPass (cfg : PoolEngineConfig) (machines : List MachineView) (occ : Occupancy) :
    Call (Option Unit) :=
  andThen (ifProvider cfg (andThen (forEach recreate machines) fun _ => .done (some ()))) fun _ =>
    andThen (forEach (terminateDrained occ) machines) fun left =>
      ifProvider cfg (andThen (forEach destroyMachine left) fun _ => .done (some ()))

/-- The pass from its occupancy on. -/
def placeAndScale (cfg : PoolEngineConfig) (spec : PoolSpec) (machines : List MachineView)
    (b : Breaker) (occ : Occupancy) : Call (Option Unit) :=
  andThen (forEach (cacheOccupancy occ) (machines.filter isReady)) fun _ =>
    andThen (forEach (rollMachine spec) machines) fun rolled =>
      andThen (assignQueued spec rolled occ) fun p =>
        andThen (scale cfg spec rolled p.1 p.2 b) fun left => finishPass cfg left.1 p.1

/-- `tick_pool`. -/
def tickPool (cfg : PoolEngineConfig) (spec : PoolSpec) : Call (Option Unit) :=
  andThen (reclaim cfg spec) fun _ =>
    andThen (attempt (.selectLiveMachines spec)) fun machines =>
      andThen (mapAccum (checkMachine cfg) machines ⟨spec.bootFailures, spec.breakerOpen⟩) fun p =>
        andThen (readOccupancy p.1) fun occ => placeAndScale cfg spec p.1 p.2 occ

/-- A pass that failed is noted on its pool. -/
def noteFailure : Option Unit → Call Unit
  | some () => .done ()
  | none => (ask (.recordPoolError "pool pass failed")).bind fun _ => .done ()

/-- `tick_pass`, of one pool; every so often ended machines are pruned. -/
def tickPass (cfg : PoolEngineConfig) (prune : Bool) : Call Unit :=
  (attempt .selectPool).bind fun spec =>
    match spec with
    | none => .done ()
    | some spec =>
      (tickPool cfg spec).bind fun result =>
        (noteFailure result).bind fun _ =>
          if prune then (ask (.pruneMachines cfg.machineRetentionSecs)).bind fun _ => .done ()
          else .done ()

/-! ## Agents and operators -/

/-- `pool_of_machine`. -/
def poolOfMachine (id : MachineId) : Call (Option (Option (MachineState × PoolSpec))) :=
  andThen (attempt (.selectMachine id)) fun state =>
    match (state : Option MachineState) with
    | none => .done (some none)
    | some state => andThen (attempt .selectPool) fun spec => .done (some (some (state, spec)))

/-- `on_ready`: whether the machine is still wanted. -/
def onReady (id : MachineId) : Call (Option Bool) :=
  andThen (attempt (.markReady id)) fun (moved : Bool) =>
    if moved then (ask .resetBootFailures).bind fun _ => .done (some true)
    else andThen (poolOfMachine id) fun found =>
      .done (some (found.any fun p => p.1 = .ready || p.1 = .draining))

/-- A command for an agent. -/
inductive Command where
  | cancel (job : JobId) (epoch : Nat)
  | assign (job : JobId) (epoch : Nat) (deadlineSecs : Nat)
  | shutdown
deriving DecidableEq, Repr

/-- The heartbeat of a machine, with the attempts it is running. -/
structure PollRequest where
  machine : MachineId
  running : List (JobId × Nat)

/-- The deadline an agent is given. -/
def deadlineSecs (spec : PoolSpec) (row : JobRow) : Nat :=
  let own := match row.timeout with
    | some t => if 0 < t then t.toNat else spec.maxJobDurationSecs
    | none => spec.maxJobDurationSecs
  Nat.max (Nat.min own spec.maxJobDurationSecs) 1

/-- An attempt that is bound to the machine has its lease renewed; another is cancelled. -/
def renewRunning (spec : PoolSpec) (machine : MachineId) (bound : List JobRow)
    (running : JobId × Nat) : Call (Option (List Command)) :=
  if bound.any fun row => row.id = running.1 && row.leaseEpoch = running.2 then
    andThen (attempt (.renewLease ⟨running.1, running.2, machine⟩ spec.leaseSecs)) fun _ =>
      .done (some [])
  else .done (some [.cancel running.1 running.2])

/-- `on_poll`. -/
def onPoll (req : PollRequest) : Call (Option (List Command)) :=
  andThen (attempt (.touchMachine req.machine)) fun touched =>
    match (touched : Option MachineState) with
    | none => .done (some [.shutdown])
    | some state =>
      andThen (attempt .selectPool) fun spec =>
        andThen (attempt (.selectBound req.machine)) fun bound =>
          andThen (forEach (renewRunning spec req.machine bound) req.running) fun renewed =>
            let assigned := (bound : List JobRow).filterMap fun row =>
              if (row.id, row.leaseEpoch) ∈ req.running then none
              else some (Command.assign row.id row.leaseEpoch (deadlineSecs spec row))
            let leaving := state = .terminating ||
              (state = .draining && (bound : List JobRow).isEmpty)
            .done (some (renewed.flatten ++ assigned ++
              if leaving then [Command.shutdown] else []))

/-- How an attempt ended on its machine. -/
inductive Outcome where
  | success (body : String)
  | failed (code : String)
  | cancelled
  | deadlineExceeded

/-- `encode_result`: a body over the limit is replaced by a marker. -/
def encodeResult (cfg : PoolEngineConfig) (body : String) : String :=
  if cfg.resultMaxBytes < body.utf8ByteSize then "truncated" else body

/-- `on_result`: whether the result was accepted. -/
def onResult (cfg : PoolEngineConfig) (attempt_ : Attempt) : Outcome → Call (Option Bool)
  | .success body =>
    (ask (.completeSuccess attempt_ (some (encodeResult cfg body)))).bind fun reply =>
      match reply with
      | .ok accepted => .done (some accepted)
      -- The table predates the `result` field: the job is finished without it.
      | .error fault =>
        if fault.unknownField then attempt (.completeSuccess attempt_ none) else .done none
  | .failed code => attempt (.completeFailure attempt_ code)
  | .cancelled => attempt (.completeTerminalFailure attempt_ "cancelled")
  | .deadlineExceeded => attempt (.completeTerminalFailure attempt_ "deadline")

/-- A call on the pool. -/
inductive Invocation where
  | tickPass (cfg : PoolEngineConfig) (prune : Bool)
  | onReady (machine : MachineId)
  | onPoll (req : PollRequest)
  | onResult (cfg : PoolEngineConfig) (attempt_ : Attempt) (outcome : Outcome)
  | retryJob (job : JobId)
  | killJob (job : JobId)

/-- What each call does. -/
def Invocation.program : Invocation → Call Unit
  | .tickPass cfg prune => Pool.tickPass cfg prune
  | .onReady machine => (Pool.onReady machine).bind fun _ => .done ()
  | .onPoll req => (Pool.onPoll req).bind fun _ => .done ()
  | .onResult cfg attempt_ outcome => (Pool.onResult cfg attempt_ outcome).bind fun _ => .done ()
  | .retryJob job => (attempt (.retryJob job)).bind fun _ => .done ()
  | .killJob job => (attempt (.killJob job)).bind fun _ => .done ()

/-- The pool with its calls. -/
abbrev Engines := Calls World Statement Reply

abbrev EngineEvent := CallEvent Invocation World.Event

/-- One step of a call, or of what happens by itself. -/
def engineStep (e : Engines) (a : EngineEvent) : Option Engines :=
  Calls.step World.exec Invocation.program (fun w event => some (w.event event)) e a

namespace Engines

/-- Nothing has happened in the pool yet. -/
def start (pool : PoolRow) : Engines := ⟨⟨Db.empty pool, none⟩, []⟩

/-- The statement that is asked in a step. -/
def asked (e : Engines) : EngineEvent → Option Statement
  | .next i => e.calls[i]?.bind Prog.head?
  | _ => none

/-- What a step does to the database: nothing, the statement it asks, or what happens by itself. -/
theorem step_db {e e' : Engines} {a : EngineEvent} (h : engineStep e a = some e') :
    e'.state.db = e.state.db ∨
      (∃ q, e.asked a = some q ∧ e'.state.db = (e.state.db.exec q).1) ∨
      ∃ event, e'.state.db = e.state.db.event event := by
  rcases Calls.step_cases h with ⟨hstate, _⟩ | ⟨_, _, hstate, _⟩ | ⟨i, q, k, rfl, hi, hstate, _⟩ |
    ⟨event, _, hstate, _⟩
  · exact .inl (congrArg World.db hstate)
  · exact .inl (congrArg World.db hstate)
  · rcases e.state.exec_db q with hdb | hdb
    · refine .inr (.inl ⟨q, ?_, (congrArg World.db hstate).trans hdb⟩)
      simp [asked, hi, Prog.head?]
    · exact .inl ((congrArg World.db hstate).trans hdb)
  · have hstate' : e.state.event event = e'.state := Option.some.inj hstate
    cases event with
    | db event => exact .inr (.inr ⟨event, congrArg World.db hstate'.symm⟩)
    | fault fault =>
      rw [← hstate']
      exact .inl rfl

/-- The statement that is asked is what a step does. -/
theorem step_asked {e e' : Engines} {a : EngineEvent} {q : Statement} (hq : e.asked a = some q)
    (h : engineStep e a = some e') : e'.state = (e.state.exec q).1 := by
  cases a with
  | next i =>
    obtain ⟨k, hp⟩ := Prog.ask_of_head? hq
    simp only [engineStep, Calls.step, hp] at h
    rw [← Option.some.inj h]
  | _ => cases hq

/-- What is allowed in a step is allowed of the statement it asks. -/
theorem allows_asked {ok : World → Statement → Prop} {e : Engines} {a : EngineEvent} {q : Statement}
    (h : Calls.Allows ok e a) (hq : e.asked a = some q) : ok e.state q := by
  cases a with
  | next i =>
    obtain ⟨k, hp⟩ := Prog.ask_of_head? hq
    exact h q k hp
  | _ => cases hq

end Engines

/-! ## What a program asks -/

section

variable {P : Statement → Prop} {α β γ : Type}

theorem only_ask {q : Statement} (h : P q) : (ask q).Only P := ⟨h, fun _ => trivial⟩

theorem only_attempt {q : Statement} (h : P q) : (attempt q).Only P :=
  (only_ask h).bind fun _ => trivial

theorem only_ite {c : Prop} [Decidable c] {p p' : Call α} (h : p.Only P) (h' : p'.Only P) :
    (if c then p else p').Only P := by
  split
  · exact h
  · exact h'

theorem only_andThen {p : Call (Option α)} {f : α → Call (Option β)} (h : p.Only P)
    (hf : ∀ a, (f a).Only P) : (andThen p f).Only P :=
  h.bind fun a => match a with
    | none => trivial
    | some a => hf a

theorem only_forEach {f : α → Call (Option β)} (h : ∀ a, (f a).Only P) (l : List α) :
    (forEach f l).Only P := by
  induction l with
  | nil => trivial
  | cons a l ih => exact only_andThen (h a) fun _ => only_andThen ih fun _ => trivial

theorem only_mapAccum {f : γ → α → Call (Option (β × γ))} (h : ∀ c a, (f c a).Only P) (l : List α)
    (c : γ) : (mapAccum f l c).Only P := by
  induction l generalizing c with
  | nil => trivial
  | cons a l ih => exact only_andThen (h c a) fun p => only_andThen (ih p.2) fun _ => trivial

end

/-- What agents and operators ask, besides making a machine ready. -/
def Statement.ofAgent : Statement → Prop
  | .selectPool | .touchMachine _ | .selectMachine _ | .selectBound _ | .renewLease ..
  | .completeSuccess .. | .completeFailure .. | .completeTerminalFailure .. | .retryJob _
  | .killJob _ => True
  | _ => False

theorem only_poolOfMachine (id : MachineId) : (poolOfMachine id).Only Statement.ofAgent := by
  refine only_andThen (only_attempt trivial) fun state => ?_
  cases (show Option MachineState from state) with
  | none => trivial
  | some state => exact only_andThen (only_attempt trivial) fun _ => trivial

theorem only_onPoll (req : PollRequest) : (onPoll req).Only Statement.ofAgent := by
  refine only_andThen (only_attempt trivial) fun touched => ?_
  cases (show Option MachineState from touched) with
  | none => trivial
  | some state =>
    refine only_andThen (only_attempt trivial) fun spec => only_andThen (only_attempt trivial)
      fun bound => only_andThen (only_forEach (fun running => ?_) _) fun _ => trivial
    exact only_ite (only_andThen (only_attempt trivial) fun _ => trivial) trivial

theorem only_onResult (cfg : PoolEngineConfig) (attempt_ : Attempt) (outcome : Outcome) :
    (onResult cfg attempt_ outcome).Only Statement.ofAgent := by
  cases outcome with
  | success body =>
    refine (only_ask trivial).bind fun reply => ?_
    cases reply with
    | ok => trivial
    | error => exact only_ite (only_attempt trivial) trivial
  | failed | cancelled | deadlineExceeded => exact only_attempt trivial

end Sp00ky.Pool
