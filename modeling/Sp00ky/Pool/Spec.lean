/-
  A machine pool and its size (`packages/pool-core/src/spec.rs`, `sizing.rs`).

  A pool row is read with the defaults and the clamps of `PoolSpec::from_row`. How many machines the
  pool should have is computed from its demand; an autoscaled pool without a `max` is fixed.
-/
import Mathlib.Algebra.Order.Ring.Int
import Mathlib.Data.List.Sort

namespace Sp00ky.Pool

/-- `u32::MAX`. -/
def u32Max : Nat := 2 ^ 32 - 1

/-! ## Machines -/

inductive MachineState where
  | requested | booting | ready | draining | terminating | gone | failed
deriving DecidableEq, Repr

namespace MachineState

/-- Counts toward the pool's capacity: it serves jobs now or is about to. -/
def isSupply : MachineState → Bool
  | .requested | .booting | .ready => true
  | .draining | .terminating | .gone | .failed => false

/-- Still exists at the provider, or may. -/
def isLive : MachineState → Bool
  | .gone | .failed => false
  | .requested | .booting | .ready | .draining | .terminating => true

theorem isLive_of_isSupply {m : MachineState} (h : m.isSupply = true) : m.isLive = true := by
  cases m <;> first | rfl | cases h

end MachineState

/-! ## Pools -/

/-- A row of `_00_pool`: what was deployed, and the fields of the engine. -/
structure PoolRow where
  slots : Option Int
  min : Option Int
  autoscale : Option Bool
  max : Option Int
  buffer : Option Int
  idleTimeoutSecs : Option Int
  maxJobDurationSecs : Option Int
  maxLifetimeSecs : Option Int
  leaseSecs : Option Int
  bootTimeoutSecs : Option Int
  specHash : String
  paused : Option Bool
  bootFailures : Option Int
  breakerUntil : Option Nat
  lastError : Option String
deriving DecidableEq, Repr

/-- A pool as it was deployed: nothing has failed yet. -/
def PoolRow.deployed (row : PoolRow) : PoolRow :=
  { row with bootFailures := none, breakerUntil := none, lastError := none }

/-- `PoolSpec`. -/
structure PoolSpec where
  slots : Nat
  min : Nat
  autoscale : Bool
  max : Option Nat
  buffer : Nat
  idleTimeoutSecs : Nat
  maxJobDurationSecs : Nat
  maxLifetimeSecs : Nat
  leaseSecs : Nat
  bootTimeoutSecs : Nat
  specHash : String
  paused : Bool
  bootFailures : Int
  breakerOpen : Bool
  lastError : Option String

/-- A number into the range of `u32`. -/
def clampU32 (v : Int) : Nat := Nat.min v.toNat u32Max

def uintField (v : Option Int) (default : Nat) : Nat := clampU32 (v.getD default)

def secsField (v : Option Int) (default least : Nat) : Nat := Nat.max (v.getD default).toNat least

/-- `PoolSpec::from_row`, of a row with its breaker evaluated by the database. -/
def PoolSpec.fromRow (row : PoolRow) (breakerOpen : Bool) : PoolSpec where
  slots := Nat.max (uintField row.slots 1) 1
  min := uintField row.min 0
  autoscale := row.autoscale.getD false
  max := row.max.map clampU32
  buffer := uintField row.buffer 0
  idleTimeoutSecs := secsField row.idleTimeoutSecs 600 0
  maxJobDurationSecs := secsField row.maxJobDurationSecs 28800 1
  maxLifetimeSecs := secsField row.maxLifetimeSecs 86400 1
  leaseSecs := secsField row.leaseSecs 90 1
  bootTimeoutSecs := secsField row.bootTimeoutSecs 300 1
  specHash := row.specHash
  paused := row.paused.getD false
  bootFailures := row.bootFailures.getD 0
  breakerOpen := breakerOpen
  lastError := row.lastError

namespace PoolSpec

variable (spec : PoolSpec)

/-- The most machines the pool may have in supply. -/
def ceiling : Nat :=
  if spec.autoscale then Nat.max (spec.max.getD spec.min) spec.min else spec.min

/-- `desired_machines`. -/
def desiredMachines (busySlots queuedJobs : Nat) : Nat :=
  if spec.autoscale then
    let slots := Nat.max spec.slots 1
    let capacity := busySlots + queuedJobs + spec.buffer * slots
    let needed := Nat.min ((capacity + slots - 1) / slots) u32Max
    Nat.min (Nat.max needed spec.min) spec.ceiling
  else spec.min

theorem desiredMachines_le_ceiling (busySlots queuedJobs : Nat) :
    spec.desiredMachines busySlots queuedJobs ≤ spec.ceiling := by
  unfold desiredMachines
  split
  next => exact Nat.min_le_right _ _
  next h =>
    unfold ceiling
    rw [if_neg h]

/-- Where destroys that fail pile up, creating stops at twice the ceiling. -/
def hardStop : Nat := Nat.min (Nat.min (spec.ceiling * 2) u32Max + 1) u32Max

theorem hardStop_le : spec.hardStop ≤ 2 * spec.ceiling + 1 :=
  calc spec.hardStop ≤ Nat.min (spec.ceiling * 2) u32Max + 1 := Nat.min_le_left _ _
    _ ≤ spec.ceiling * 2 + 1 := Nat.succ_le_succ (Nat.min_le_left _ _)
    _ = 2 * spec.ceiling + 1 := by rw [Nat.mul_comm]

end PoolSpec

end Sp00ky.Pool
