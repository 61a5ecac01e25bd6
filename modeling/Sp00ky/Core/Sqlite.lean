/-
  The transaction blocks of the client on its SQLite store (`services/database/surql-translate.ts`,
  `services/database/sqlite-cache-engine.ts`, `mutation/rows.ts`, `query/sql.ts` of
  `packages/core/src`).

  A block of upserts and deletes is one message to the worker, and one transaction there. A block
  with `SET`, `LET` or `RETURN` is sent statement by statement, and its `SET` reads the row in one
  message and writes it in the next: two such updates of a row may both count up from what was there
  before (`concurrent_updates_lose_one`). As long as no message touches a row that the messages of a
  later block have touched, and the worker does not die in between the writes of a block, the tables
  are what the blocks leave one after the other (`blocks_serialize`).
-/
import Sp00ky.Lib.EntryMap
import Sp00ky.Lib.Serial
import Sp00ky.Lib.Transition
import Mathlib.Data.List.Permutation

namespace Sp00ky.Core.Sqlite

open Lib

/-! ## Rows -/

/-- The values of a row's JSON text. -/
inductive Json where
  | null
  | bool (b : Bool)
  | num (n : Int)
  | str (s : String)
  | arr (items : List Json)
  | obj (members : List (String × Json))

abbrev Row := List (String × Json)

/-- A row as it is written: a key may hold `undefined`. -/
abbrev Data := List (String × Option Json)

mutual

/-- `json_patch` on one member. -/
def jsonPatch : Json → Option Json → Json
  | .obj members, target => .obj (patchMembers members (match target with
      | some (.obj row) => row
      | _ => []))
  | value, _ => value

/-- `json_patch`: a null member removes the key. -/
def patchMembers : List (String × Json) → Row → Row
  | [], row => row
  | (key, .null) :: rest, row => patchMembers rest (EntryMap.delete row key)
  | (key, value) :: rest, row =>
    patchMembers rest (EntryMap.set row key (jsonPatch value (EntryMap.get row key)))

end

def serializeRow (data : Data) : Row := data.filterMap fun m => m.2.map (m.1, ·)

/-- The row to insert, and the patch, which names what was cleared. -/
def serializeMergeRow (data : Data) : Row × Row :=
  let insert := serializeRow data
  (insert, insert ++ (data.filter fun m => m.2.isNone).map fun m => (m.1, .null))

/-- `Number(value ?? 0) + 1`; what is not a number is stored as null. -/
def plusOne : Option Json → Json
  | none | some .null => .num 1
  | some (.num n) => .num (n + 1)
  | some (.bool b) => .num (if b then 2 else 1)
  | some _ => .null

/-- `_00_rv += 1` on the row that was read. -/
def bumpRv (id : String) (existing : Option Row) : Row :=
  let row := existing.getD [("id", .str id)]
  EntryMap.set (EntryMap.set row "_00_rv" (plusOne (EntryMap.get row "_00_rv"))) "id" (.str id)

/-! ## Statements -/

inductive Mode where
  | replace | merge
deriving DecidableEq, Repr

/-- A translated statement. -/
inductive SqlOp where
  | upsert (id : String) (data : Data) (mode : Mode)
  /-- `UPDATE $id SET _00_rv += 1` -/
  | updateSet (id : String)
  | delete (id : String)
  /-- `LET $updated = (UPDATE ONLY $id MERGE $data)` -/
  | letMerge (id : String) (data : Data)
  | returnTarget

def SqlOp.pureWrite : SqlOp → Bool
  | .upsert .. | .delete _ => true
  | .updateSet _ | .letMerge .. | .returnTarget => false

/-- A statement the worker runs, on one row. -/
inductive Access where
  | getById (id : String)
  | replace (id : String) (row : Row)
  | merge (id : String) (insert patch : Row)
  /-- the write of an `updateSet`, of the row read before -/
  | replaceRead (id : String)
  | delete (id : String)

def Access.row : Access → String
  | .getById id | .replace id _ | .merge id _ _ | .replaceRead id | .delete id => id

def Access.writes : Access → Bool
  | .getById _ => false
  | .replace .. | .merge .. | .replaceRead _ | .delete _ => true

/-- What it does to the row that was read and to the row in the table. -/
def Access.run : Access → Option Row → Option Row → Option Row × Option Row
  | .getById _, _, stored => (stored, stored)
  | .replace _ row, read, _ => (read, some row)
  | .merge _ insert patch, read, stored => (read, some (stored.elim insert (patchMembers patch)))
  | .replaceRead id, read, _ => (read, some (bumpRv id read))
  | .delete _, read, _ => (read, none)

theorem Access.run_of_reads (a : Access) (h : a.writes = false) (read stored : Option Row) :
    (a.run read stored).2 = stored := by
  cases a with
  | getById => rfl
  | replace | merge | replaceRead | delete => cases h

/-- The row with its key. -/
def withId (id : String) (data : Data) : Data := EntryMap.set data "id" (some (.str id))

def upsert (id : String) (data : Data) : Mode → Access
  | .replace => .replace id (serializeRow (withId id data))
  | .merge =>
    let rows := serializeMergeRow (withId id data)
    .merge id rows.1 rows.2

/-- `execOp`. -/
def execOp : SqlOp → List Access
  | .upsert id data mode => [upsert id data mode]
  | .updateSet id => [.getById id, .replaceRead id]
  | .delete id => [.delete id]
  | .letMerge id data => [upsert id data .merge, .getById id]
  | .returnTarget => []

/-- The messages of a block: one `batch`, or one message for each step. -/
def query (ops : List SqlOp) : List (List Access) :=
  if ops.all SqlOp.pureWrite then
    if ops = [] then [] else [ops.flatMap execOp]
  else (ops.flatMap execOp).map fun a => [a]

/-! ## The blocks of the client -/

structure WritePlanInput where
  recordId : String
  mutationId : String
  table : String
  data : Data
  before : Option Row
  now : Nat

def pendingRowVersion : Int := 2

/-- `CREATE ONLY $mid SET ...`. -/
def pendingInsert (type : String) (withData withBefore : Bool) (input : WritePlanInput) : SqlOp :=
  let fields : Data := [("mutationType", some (.str type)), ("recordId", some (.str input.recordId)),
    ("tableName", some (.str input.table)), ("createdAt", some (.num input.now)),
    ("v", some (.num pendingRowVersion))]
  let data : Data := if withData then [("data", some (.obj (serializeRow input.data)))] else []
  let before : Data :=
    if withBefore then [("beforeRecord", some (input.before.elim .null .obj))] else []
  .upsert input.mutationId (fields ++ data ++ before) .replace

/-- Without a field to set the first statement is not understood, and nothing is sent. -/
def planCreateTx (input : WritePlanInput) : List SqlOp :=
  if input.data = [] then []
  else [.upsert input.recordId input.data .replace, pendingInsert "create" true false input]

def planUpdateTx (input : WritePlanInput) : List SqlOp :=
  [.updateSet input.recordId, .letMerge input.recordId input.data,
    pendingInsert "update" true true input, .returnTarget]

def planDeleteTx (input : WritePlanInput) : List SqlOp :=
  [.delete input.recordId, pendingInsert "delete" false true input]

def planLocalOnlyUpdateTx (recordId : String) (data : Data) (mirror : Option (String × Data)) :
    List SqlOp :=
  [SqlOp.updateSet recordId, .letMerge recordId data] ++
    mirror.toList.map (fun m => SqlOp.upsert m.1 m.2 .replace) ++ [SqlOp.returnTarget]

def planDeferredOutboxRowTx (input : WritePlanInput) (mirrorId : Option String) : List SqlOp :=
  pendingInsert "update" true true input :: mirrorId.toList.map .delete

def moveToFailedTx (failedId mutationId : String) (failed : Data) : List SqlOp :=
  [.upsert failedId failed .replace, .delete mutationId]

def upsertBodiesTx (records : List (String × Data)) : List SqlOp :=
  records.map fun r => .upsert r.1 r.2 .merge

/-- A block of the client's vocabulary. -/
inductive Tx where
  | create (input : WritePlanInput)
  | update (input : WritePlanInput)
  | delete (input : WritePlanInput)
  | localOnlyUpdate (recordId : String) (data : Data) (mirror : Option (String × Data))
  | deferredOutboxRow (input : WritePlanInput) (mirrorId : Option String)
  | moveToFailed (failedId mutationId : String) (failed : Data)
  | upsertBodies (records : List (String × Data))

def Tx.ops : Tx → List SqlOp
  | .create input => planCreateTx input
  | .update input => planUpdateTx input
  | .delete input => planDeleteTx input
  | .localOnlyUpdate recordId data mirror => planLocalOnlyUpdateTx recordId data mirror
  | .deferredOutboxRow input mirrorId => planDeferredOutboxRowTx input mirrorId
  | .moveToFailed failedId mutationId failed => moveToFailedTx failedId mutationId failed
  | .upsertBodies records => upsertBodiesTx records

/-! ## The engine -/

/-- The rows of all tables, by their ids; an id begins with the name of its table. -/
abbrev Tables := String → Option Row

/-- A block that runs alone. -/
def transact (tables : Tables) (tx : Tx) : Tables :=
  Serial.after Access.row Access.run none tables (query tx.ops).flatten

/-- Calls of `query` that run at a time, each with what it has run and the messages it has still to
send. -/
structure Engine where
  memory : Memory String (Option Row) Nat (Option Row)
  ran : Nat → List Access
  left : Nat → List (List Access)
  /-- the calls whose message is at the worker -/
  queue : List Nat
  /-- calls a death has ended -/
  ended : Nat → Bool

inductive Event where
  /-- a call sends its next message -/
  | send (call : Nat)
  /-- the worker runs a message -/
  | work
  /-- the worker dies, or the page -/
  | die

namespace Engine

/-- The messages of each call. -/
def program (txs : List Tx) (call : Nat) : List (List Access) :=
  txs[call]?.elim [] fun tx => query tx.ops

def start (txs : List Tx) (tables : Tables) : Engine where
  memory := ⟨tables, fun _ => none⟩
  ran _ := []
  left := program txs
  queue := []
  ended _ := false

def tables (e : Engine) : Tables := e.memory.cells

/-- A call sends one message at a time, and the worker takes them in the order they were sent. A
death ends every call that has begun. -/
def step (e : Engine) : Event → Option Engine
  | .send call =>
    if call ∈ e.queue ∨ e.ended call = true ∨ (e.left call).isEmpty then none
    else some { e with queue := e.queue ++ [call] }
  | .work =>
    match e.queue with
    | [] => none
    | call :: queue =>
      match e.left call with
      | [] => none
      | message :: left => some { e with
          memory := Serial.execAll Access.row Access.run call e.memory message
          ran := Function.update e.ran call (e.ran call ++ message)
          left := Function.update e.left call left
          queue }
  | .die => some { e with
      queue := []
      ended := fun call => e.ended call || decide (call ∈ e.queue) || !(e.ran call).isEmpty }

/-- The call has written. -/
def wrote (e : Engine) (call : Nat) : Bool := (e.ran call).any Access.writes

/-- It has written, and has still to write. -/
def PartWritten (e : Engine) (call : Nat) : Prop :=
  e.wrote call = true ∧ (e.left call).flatten.any Access.writes = true

instance (e : Engine) (call : Nat) : Decidable (e.PartWritten call) :=
  inferInstanceAs (Decidable (_ ∧ _))

/-- A message touches no row that a later call has touched, and a death finds no call in between
its writes. -/
def Orderly (order : List Nat) (e : Engine) : Event → Prop
  | .send _ => True
  | .work => ∀ call ∈ e.queue.head?, ∀ message ∈ (e.left call).head?,
      Serial.InOrder Access.row order e.ran call message
  | .die => ∀ call ∈ order, ¬ e.PartWritten call

instance (order : List Nat) (e : Engine) : (event : Event) → Decidable (e.Orderly order event)
  | .send _ => isTrue trivial
  | .work => inferInstanceAs (Decidable (∀ _ ∈ e.queue.head?, ∀ _ ∈ (e.left _).head?, _))
  | .die => inferInstanceAs (Decidable (∀ _ ∈ _, _))

/-- No call is in progress. -/
def Idle (e : Engine) (call : Nat) : Prop :=
  e.left call = [] ∨ e.ended call = true ∨ e.ran call = []

/-! ## Blocks one after the other -/

/-- What has been done of the calls is what they leave one after the other. -/
structure Serialized (txs : List Tx) (tables : Tables) (order : List Nat) (e : Engine) : Prop where
  memory : e.memory = Serial.serial Access.row Access.run e.ran ⟨tables, fun _ => none⟩ order
  program : ∀ call, e.ran call ++ (e.left call).flatten = (program txs call).flatten
  whole : ∀ call ∈ order, e.ended call = true → ¬ e.PartWritten call
  waiting : ∀ call ∈ e.queue, e.ended call = false
  known : ∀ call, e.ran call ≠ [] → call ∈ order

section

variable {txs : List Tx} {tables : Tables} {order : List Nat} {e e' : Engine}

theorem serialized_start (txs : List Tx) (tables : Tables) (order : List Nat) :
    Serialized txs tables order (start txs tables) := by
  refine ⟨?_, fun _ => rfl, fun _ _ h => ?_, fun _ h => ?_, fun _ h => absurd rfl h⟩
  · unfold Serial.serial
    induction order with
    | nil => rfl
    | cons call order ih => exact ih
  · cases h
  · cases h

theorem Serialized.send (h : Serialized txs tables order e) {call : Nat}
    (hstep : e.step (.send call) = some e') : Serialized txs tables order e' := by
  simp only [step] at hstep
  split at hstep
  next => cases hstep
  next hfree =>
    cases hstep
    rw [not_or, not_or, Bool.not_eq_true] at hfree
    refine ⟨h.memory, h.program, h.whole, fun c hc => ?_, h.known⟩
    rcases List.mem_append.mp hc with hc | hc
    · exact h.waiting c hc
    · exact List.mem_singleton.mp hc ▸ hfree.2.1

/-- The worker runs the message at the end of what its call has done, before the later calls. -/
theorem Serialized.work (hnodup : order.Nodup) (h : Serialized txs tables order e)
    (hok : e.Orderly order .work) (hstep : e.step .work = some e') :
    Serialized txs tables order e' := by
  simp only [step] at hstep
  split at hstep
  next => cases hstep
  next call queue hqueue =>
    split at hstep
    next => cases hstep
    next message left hleft =>
      cases hstep
      have hin : Serial.InOrder Access.row order e.ran call message :=
        hok call (by rw [hqueue]; rfl) message (by rw [hleft]; rfl)
      have hcall : e.ended call = false := h.waiting call (by rw [hqueue]; exact List.mem_cons_self)
      refine ⟨?_, fun c => ?_, fun c hc hended => ?_, fun c hc => ?_, fun c hc => ?_⟩
      · rw [h.memory]
        exact Serial.execAll_serial hnodup hin _
      · by_cases hne : c = call
        · subst hne
          have hprogram := h.program c
          rw [hleft, List.flatten_cons, ← List.append_assoc] at hprogram
          simpa only [Function.update_self] using hprogram
        · simpa only [Function.update_of_ne hne] using h.program c
      · have hne : c ≠ call := by
          rintro rfl
          rw [hcall] at hended
          cases hended
        unfold PartWritten wrote
        simp only [Function.update_of_ne hne]
        exact h.whole c hc hended
      · exact h.waiting c (by rw [hqueue]; exact List.mem_cons_of_mem _ hc)
      · by_cases hne : c = call
        · exact hne ▸ hin.1
        · refine h.known c ?_
          simpa only [Function.update_of_ne hne] using hc

theorem Serialized.die (h : Serialized txs tables order e) (hok : e.Orderly order .die)
    (hstep : e.step .die = some e') : Serialized txs tables order e' := by
  cases hstep
  exact ⟨h.memory, h.program, fun call hcall _ => hok call hcall, fun _ hc => (by cases hc),
    h.known⟩

theorem Serialized.step (hnodup : order.Nodup) (h : Serialized txs tables order e) {event : Event}
    (hok : e.Orderly order event) (hstep : e.step event = some e') :
    Serialized txs tables order e' := by
  cases event with
  | send call => exact h.send hstep
  | work => exact h.work hnodup hok hstep
  | die => exact h.die hok hstep

/-- A call that is not in progress has done all of its writes or none. -/
theorem Serialized.not_partWritten (h : Serialized txs tables order e) {call : Nat}
    (hcall : call ∈ order) (hidle : e.Idle call) : ¬ e.PartWritten call := by
  rintro ⟨hwrote, hmore⟩
  rcases hidle with hleft | hended | hran
  · rw [hleft] at hmore
    cases hmore
  · exact h.whole call hcall hended ⟨hwrote, hmore⟩
  · unfold wrote at hwrote
    rw [hran] at hwrote
    cases hwrote

theorem Serialized.tables_eq (hnodup : order.Nodup) (h : Serialized txs tables order e)
    (hidle : ∀ call ∈ order, e.Idle call) :
    e.tables = (order.filter e.wrote).foldl
      (fun tables call => txs[call]?.elim tables (transact tables)) tables := by
  unfold Engine.tables
  rw [h.memory, Serial.serial_cells none hnodup fun _ _ => rfl,
    Serial.serialCells_whole Access.run_of_reads fun call => (e.left call).flatten]
  · refine List.foldl_ext _ _ _ fun cells call _ => ?_
    rw [h.program call]
    unfold Engine.program transact
    cases txs[call]? <;> rfl
  · intro call hcall
    by_cases hmore : (e.left call).flatten.any Access.writes = true
    · refine .inr ((Bool.not_eq_true _).mp fun hwrote => ?_)
      exact h.not_partWritten hcall (hidle call hcall) ⟨hwrote, hmore⟩
    · exact .inl ((Bool.not_eq_true _).mp hmore)

end

/-- As long as no message touches a row that a later call has touched, and no death falls in between
the writes of a call, the tables are what the blocks that have written leave one after the other,
once no call is in progress; and those are all that were not cut off before they wrote. -/
theorem blocks_serialize (txs : List Tx) (tables : Tables) (order : List Nat)
    (hnodup : order.Nodup) (e : Engine)
    (hrun : Run step (Orderly order) (start txs tables) e)
    (hidle : ∀ call ∈ order, e.Idle call) :
    e.tables = (order.filter e.wrote).foldl
        (fun tables call => txs[call]?.elim tables (transact tables)) tables ∧
      ∀ call tx, txs[call]? = some tx → e.left call = [] →
        (query tx.ops).flatten.any Access.writes = true → call ∈ order.filter e.wrote := by
  have h : Serialized txs tables order e :=
    hrun.invariant (serialized_start txs tables order) fun _ _ _ h hok hstep =>
      h.step hnodup hok hstep
  refine ⟨h.tables_eq hnodup hidle, fun call tx htx hleft hwrites => ?_⟩
  have hran : e.ran call = (query tx.ops).flatten := by
    have hprogram := h.program call
    rw [hleft, List.flatten_nil, List.append_nil] at hprogram
    rw [hprogram, Engine.program, htx]
    rfl
  have hwrote : e.wrote call = true := by
    unfold wrote
    rw [hran]
    exact hwrites
  refine List.mem_filter.mpr ⟨h.known call fun hnone => ?_, hwrote⟩
  unfold wrote at hwrote
  rw [hnone] at hwrote
  cases hwrote

/-! ## Two updates at a time -/

/-- An update of a title. -/
def retitle (recordId mutationId title : String) : Tx :=
  .update ⟨recordId, mutationId, "task", [("title", some (.str title))], none, 0⟩

/-- Two stored tasks at their first version. -/
def twoTasks : Tables := fun id =>
  if id = "task:1" ∨ id = "task:2" then some [("id", .str id), ("_00_rv", .num 1)] else none

/-- Two calls take turns, message by message. -/
def takeTurns : List Event :=
  [(.send 0 : Event), .send 1] ++
    (List.replicate 4 [(.work : Event), .send 0, .work, .send 1]).flatten ++ [(.work : Event), .work]

/-- The version a table has for a row. -/
def versionOf (tables : Tables) (id : String) : Option Int :=
  ((tables id).bind fun row => EntryMap.get row "_00_rv").bind fun v =>
    match v with
    | .num n => some n
    | _ => none

/-- Updates of two rows. -/
def apart : List Tx := [retitle "task:1" "m:1" "a", retitle "task:2" "m:2" "b"]

/-- Updates of one row. -/
def together : List Tx := [retitle "task:1" "m:1" "a", retitle "task:1" "m:2" "b"]

theorem blocks_serialize_apart : ∃ e, Run step (Orderly [0, 1]) (start apart twoTasks) e ∧
    e.tables = transact (transact twoTasks (retitle "task:1" "m:1" "a"))
      (retitle "task:2" "m:2" "b") := by
  have hrun : (runAll step (fun e event => decide (e.Orderly [0, 1] event)) (start apart twoTasks)
      takeTurns).any (fun e => (e.left 0).isEmpty ∧ (e.left 1).isEmpty ∧ e.wrote 0 ∧ e.wrote 1) =
        true := by decide +kernel
  obtain ⟨e, he, hall⟩ := exists_run hrun
  obtain ⟨hleft, hleft', hwrote, hwrote'⟩ := of_decide_eq_true hall
  have hin : Run step (Orderly [0, 1]) (start apart twoTasks) e :=
    he.mono fun _ _ => of_decide_eq_true
  refine ⟨e, hin, ?_⟩
  have htables := (blocks_serialize apart twoTasks [0, 1] (by decide) e hin fun call hcall => ?_).1
  · rw [List.filter_cons_of_pos hwrote, List.filter_cons_of_pos hwrote'] at htables
    exact htables
  · rcases List.mem_cons.mp hcall with rfl | hcall
    · exact .inl (List.isEmpty_iff.mp hleft)
    · exact .inl (List.mem_singleton.mp hcall ▸ List.isEmpty_iff.mp hleft')

/-- Two updates of one row that run at a time count its version up once; one after the other they
count it up twice. -/
theorem concurrent_updates_lose_one : ¬ ∀ e,
    Run step (fun _ _ => True) (start together twoTasks) e →
    (∀ call < together.length, e.left call = []) →
    ∃ order : List Nat, order.Perm [0, 1] ∧ e.tables = order.foldl
      (fun tables call => together[call]?.elim tables (transact tables)) twoTasks := by
  intro h
  have hrun : (runAll step (fun _ _ => true) (start together twoTasks) takeTurns).any
      (fun e => (e.left 0).isEmpty ∧ (e.left 1).isEmpty ∧ versionOf e.tables "task:1" = some 2) =
        true := by decide +kernel
  obtain ⟨e, he, hall⟩ := exists_freeRun hrun
  obtain ⟨hleft, hleft', hversion⟩ := of_decide_eq_true hall
  have hdone : ∀ call < together.length, e.left call = [] := by
    intro call hcall
    match call, hcall with
    | 0, _ => exact List.isEmpty_iff.mp hleft
    | 1, _ => exact List.isEmpty_iff.mp hleft'
  have hserial : ∀ order ∈ List.permutations' [0, 1], versionOf (order.foldl
      (fun tables call => together[call]?.elim tables (transact tables)) twoTasks) "task:1" =
        some 3 := by decide +kernel
  obtain ⟨order, hperm, htables⟩ := h e he hdone
  have hthree := hserial order (List.mem_permutations'.mpr hperm)
  rw [← htables, hversion] at hthree
  cases hthree

end Engine

end Sp00ky.Core.Sqlite
