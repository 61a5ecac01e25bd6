/-
  Pushing the outbox (`packages/core/src/mutation/push.saga.ts`, `rows.ts`).

  The drain sends the first rows of the outbox as one request whose statements stop at the first
  that fails, and settles the answered rows one by one. An answer that does not come leaves its rows
  in doubt, and a create in doubt accepts the row it finds if its own earlier run can have left it.
  An update in doubt is simply sent again. Where the record was deleted before it and is created
  behind it in the same batch, the second update meets the new row (`update_meets_create`); as
  long as none does, every mutation takes effect once (`pushed_once`).
-/
import Sp00ky.Core.Resend
import Sp00ky.Lib.Transition

namespace Sp00ky.Core

open Std Lib

/-! ## Requests -/

/-- What the drain reads of a `PendingMutationRow`. -/
structure PendingMutationRow (V : Type) where
  recordId : String
  tableName : String
  change : Change V

/-- A pending `OutboxItem`, with the row it stands for. -/
structure OutboxItem (V : Type) where
  row : PendingMutationRow V
  inDoubt : Bool

/-- The rows of the server's tables, by record id. -/
abbrev Records (V : Type) := String → Option (Fields V)

/-- `StatementResult`: accepted, or one of the errors the drain tells apart. -/
inductive StatementResult where
  | ok | alreadyExists | network | skipped
deriving DecidableEq, Repr

/-- `isLogTable`. -/
def isLogTable (table : String) : Bool := "__crdt_log".toList.isSuffixOf table.toList

section

variable {V : Type} [DecidableEq V] (merge : Option V → V → Option V)

/-- The fields that the later rows of a record may have changed, or `none` if one of them may have
    replaced the row. -/
def changedBy {V : Type} (recordId : String) : List (OutboxItem V) → Option (List String)
  | [] => some []
  | later :: rest =>
    if later.row.recordId ≠ recordId ∨ later.inDoubt = false then changedBy recordId rest
    else
      match later.row.change with
      | .update data => (changedBy recordId rest).map (data.keys ++ ·)
      | _ => none

/-- `matchFields`, of a create of `data`. -/
def matchFields {V : Type} (item : OutboxItem V) (data : Fields V) (later : List (OutboxItem V)) :
    Option (List String) :=
  if isLogTable item.row.tableName then some []
  else if item.inDoubt = false then none
  else
    match changedBy item.row.recordId later with
    | none => some []
    | some changed => some (data.keys.filter fun key => key ∉ changed)

/-- The row of one record is replaced. -/
def Records.set {V : Type} (server : Records V) (recordId : String) (row : Option (Fields V)) :
    Records V :=
  fun record => if record = recordId then row else server record

/-- `remoteStatement` as the server runs it: `none` is a create that fails. -/
def runStatement (server : Records V) (item : OutboxItem V) (later : List (OutboxItem V)) :
    Option (Records V) :=
  match item.row.change with
  | .create data =>
    match server item.row.recordId with
    | none => some (server.set item.row.recordId (some data))
    | some row =>
      match matchFields item data later with
      | none => none
      | some fields => if fields.all fun key => row[key]? = data[key]? then some server else none
  | .update data =>
    some (server.set item.row.recordId
      ((server item.row.recordId).map fun row => mergeFields merge row data))
  | .delete => some (server.set item.row.recordId none)

/-- `remoteBatch` as the server runs it. Statement `stop` meets an error of the transport, if the
    batch gets there; what comes after a failure is skipped. -/
def runBatch : Nat → Records V → List (OutboxItem V) → Records V × List StatementResult
  | _, server, [] => (server, [])
  | 0, server, _ :: later => (server, .network :: later.map fun _ => .skipped)
  | stop + 1, server, item :: later =>
    match runStatement merge server item later with
    | none => (server, .alreadyExists :: later.map fun _ => .skipped)
    | some server' =>
      let (final, results) := runBatch stop server' later
      (final, .ok :: results)

end

/-! ## The drain -/

/-- A round of the drain that has its answer. -/
structure Round where
  /-- the rows of the batch that are not settled, the first of the store -/
  rows : Nat
  results : List StatementResult
  /-- the local row is deleted, the item not acked yet -/
  deleted : Bool

/-- The client and the server. It is noted what was queued, and what was settled. -/
structure PushState (V : Type) where
  store : List (PendingMutationRow V)
  outbox : List (OutboxItem V)
  server : Records V
  round : Option Round
  rolledBack : List (PendingMutationRow V)
  queued : List (PendingMutationRow V)
  settled : List (PendingMutationRow V)

/-- What happens. A request may stop at any statement, and none, a part or all of its answer
    arrive. -/
inductive PushAct (V : Type) where
  | enqueue (row : PendingMutationRow V)
  | send (stop : Nat) (received : Option Nat)
  | deletePendingRow
  | outboxAck
  | finish
  | endSession

/-- `outboxMarkInDoubt` of the first rows. -/
def outboxMarkInDoubt {V : Type} (n : Nat) (outbox : List (OutboxItem V)) : List (OutboxItem V) :=
  (outbox.take n).map (fun item => { item with inDoubt := true }) ++ outbox.drop n

/-- `isRepeatedLogCreate`. -/
def isRepeatedLogCreate {V : Type} (row : PendingMutationRow V) (result : StatementResult) : Bool :=
  match row.change with
  | .create _ => isLogTable row.tableName && result = .alreadyExists
  | _ => false

/-- One row after another. -/
def applied {V : Type} (merge : Option V → V → Option V) (server : Records V)
    (rows : List (PendingMutationRow V)) : Records V :=
  rows.foldl (fun server row =>
    server.set row.recordId (row.change.run merge (server row.recordId))) server

namespace PushState

variable {V : Type} [DecidableEq V] (merge : Option V → V → Option V) (outboxBatchSize : Nat)

/-- Nothing is queued yet. -/
def start {V : Type} (server : Records V) : PushState V := ⟨[], [], server, none, [], [], []⟩

/-- One step of the client, or of the server with it. -/
def step (s : PushState V) : PushAct V → Option (PushState V)
  | .enqueue row =>
    some { s with
      store := s.store ++ [row]
      outbox := s.outbox ++ [⟨row, false⟩]
      queued := s.queued ++ [row] }
  | .send stop received =>
    if s.round.isSome || s.outbox.isEmpty then none
    else
      let batch := s.outbox.take outboxBatchSize
      let (server, results) := runBatch merge stop s.server batch
      match received with
      -- the request throws
      | none => some { s with server := server, outbox := outboxMarkInDoubt batch.length s.outbox }
      | some n =>
        some { s with server := server, round := some ⟨batch.length, results.take n, false⟩ }
  | .deletePendingRow =>
    match s.round, s.store with
    | some ⟨rows + 1, result :: results, false⟩, row :: store =>
      if result = .ok ∨ isRepeatedLogCreate row result then
        some { s with
          store := store
          round := some ⟨rows, results, true⟩
          settled := s.settled ++ [row] }
      else none
    | _, _ => none
  | .outboxAck =>
    match s.round with
    | some ⟨rows, results, true⟩ =>
      some { s with outbox := s.outbox.tail, round := some ⟨rows, results, false⟩ }
    | _ => none
  | .finish =>
    match s.round with
    | some ⟨0, _, false⟩ => some { s with round := none }
    -- the answer is cut
    | some ⟨rows, [], false⟩ =>
      some { s with outbox := outboxMarkInDoubt rows s.outbox, round := none }
    | some ⟨rows + 1, .alreadyExists :: results, false⟩ =>
      match s.store with
      | [] => none
      | row :: store =>
        if isRepeatedLogCreate row .alreadyExists then none
        else
          -- `rollback`
          some { s with
            store := store
            outbox := s.outbox.tail
            round := some ⟨rows, results, false⟩
            rolledBack := s.rolledBack ++ [row] }
    | some ⟨_ + 1, .network :: _, false⟩ => some { s with round := none }
    | some ⟨_ + 1, .skipped :: _, false⟩ => some { s with round := none }
    | _ => none
  -- the next session runs `loadOutbox`
  | .endSession =>
    some { s with outbox := s.store.map fun row => ⟨row, true⟩, round := none }

end PushState

/-- The mutations of one record. -/
def changesOf {V : Type} (record : String) (rows : List (PendingMutationRow V)) :
    List (Change V) :=
  (rows.filter fun row => row.recordId = record).map PendingMutationRow.change

/-- Only an absent record's create is queued; and no statement updates a record that the server has
    and that should be absent after the settled mutations. -/
def PushState.InOrder {V : Type} (merge : Option V → V → Option V) (outboxBatchSize : Nat)
    (server : Records V) (s : PushState V) : PushAct V → Prop
  | .enqueue row => ∀ data, row.change = .create data →
      applied merge server s.queued row.recordId = none
  | .send stop _ => ∀ record,
      Startable (s.server record) (applied merge server s.settled record)
        (changesOf record (((s.outbox.take outboxBatchSize).take stop).map OutboxItem.row))
  | _ => True

/-! ## One record at a time -/

section

variable {V : Type} {merge : Option V → V → Option V} {server : Records V}
  {rows rows' : List (PendingMutationRow V)} {row : PendingMutationRow V} {record : String}

theorem changesOf_append :
    changesOf record (rows ++ rows') = changesOf record rows ++ changesOf record rows' := by
  unfold changesOf
  rw [List.filter_append, List.map_append]

theorem changesOf_cons_self :
    changesOf row.recordId (row :: rows) = row.change :: changesOf row.recordId rows := by
  unfold changesOf
  rw [List.filter_cons_of_pos (by simp), List.map_cons]

theorem changesOf_cons_of_ne (h : row.recordId ≠ record) :
    changesOf record (row :: rows) = changesOf record rows := by
  unfold changesOf
  rw [List.filter_cons_of_neg (by simpa using h)]

theorem Records.set_self (server : Records V) (recordId : String) (row : Option (Fields V)) :
    server.set recordId row recordId = row := if_pos rfl

theorem Records.set_of_ne (server : Records V) {recordId : String} (h : recordId ≠ record)
    (row : Option (Fields V)) : server.set recordId row record = server record :=
  if_neg (Ne.symm h)

/-- What a list of rows makes of one record. -/
theorem applied_eq (server : Records V) (rows : List (PendingMutationRow V)) (record : String) :
    applied merge server rows record = runs merge (server record) (changesOf record rows) := by
  unfold applied
  induction rows generalizing server with
  | nil => rfl
  | cons row rows ih =>
    rw [List.foldl_cons, ih]
    by_cases h : row.recordId = record
    · subst h
      rw [Records.set_self, changesOf_cons_self]
      rfl
    · rw [Records.set_of_ne server h, changesOf_cons_of_ne h]

theorem applied_append :
    applied merge server (rows ++ rows') = applied merge (applied merge server rows) rows' :=
  List.foldl_append

/-- A prefix of the rows is one of a record's mutations. -/
theorem changesOf_take (n : Nat) (rows : List (PendingMutationRow V)) (record : String) :
    changesOf record rows = changesOf record (rows.take n) ++ changesOf record (rows.drop n) := by
  rw [← changesOf_append, List.take_append_drop]

theorem changesOf_take_le {m n : Nat} (h : m ≤ n) (rows : List (PendingMutationRow V))
    (record : String) : changesOf record (rows.take n) =
      changesOf record (rows.take m) ++ changesOf record ((rows.take n).drop m) := by
  rw [changesOf_take m, List.take_take, Nat.min_eq_left h]

theorem startable_of_append {y c : Option (Fields V)} {p q : List (Change V)}
    (h : Startable y c (p ++ q)) : Startable y c p := by
  rintro data rest rfl
  exact h data (rest ++ q) rfl

end

/-! ## What a request does -/

section

variable {V : Type} [DecidableEq V] {merge : Option V → V → Option V}

/-- Every create that the server gets to is accepted. -/
def Accepts (merge : Option V → V → Option V) (stop : Nat) (server : Records V)
    (batch : List (OutboxItem V)) : Prop :=
  ∀ before item later data r, batch = before ++ item :: later → before.length < stop →
    item.row.change = .create data →
      reruns merge (server item.row.recordId)
        (changesOf item.row.recordId (before.map OutboxItem.row)) = some r →
        ∃ fields, matchFields item data later = some fields ∧ ∀ key ∈ fields, r[key]? = data[key]?

/-- An accepted statement runs its mutation again. -/
theorem runStatement_accepted {server : Records V} {item : OutboxItem V}
    {later : List (OutboxItem V)} (h : ∀ data r, item.row.change = .create data →
      server item.row.recordId = some r →
        ∃ fields, matchFields item data later = some fields ∧
          ∀ key ∈ fields, r[key]? = data[key]?) :
    ∃ server', runStatement merge server item later = some server' ∧ ∀ record,
      server' record = reruns merge (server record) (changesOf record [item.row]) := by
  have hset : ∀ row, row = item.row.change.rerun merge (server item.row.recordId) → ∀ record,
      server.set item.row.recordId row record =
        reruns merge (server record) (changesOf record [item.row]) := by
    rintro row rfl record
    by_cases hrecord : item.row.recordId = record
    · subst hrecord
      rw [Records.set_self, changesOf_cons_self]
      rfl
    · rw [Records.set_of_ne server hrecord, changesOf_cons_of_ne hrecord]
      rfl
  unfold runStatement
  cases hchange : item.row.change with
  | create data =>
    dsimp only
    cases hrow : server item.row.recordId with
    | none =>
      refine ⟨_, rfl, hset _ ?_⟩
      rw [hchange, hrow]
      rfl
    | some r =>
      obtain ⟨fields, hfields, hmatch⟩ := h data r hchange hrow
      dsimp only
      rw [hfields]
      dsimp only
      rw [if_pos (List.all_eq_true.mpr fun key hkey => decide_eq_true (hmatch key hkey))]
      refine ⟨server, rfl, fun record => ?_⟩
      by_cases hrecord : item.row.recordId = record
      · subst hrecord
        rw [changesOf_cons_self, hchange, hrow]
        rfl
      · rw [changesOf_cons_of_ne hrecord]
        rfl
  | update data | delete =>
    refine ⟨_, rfl, hset _ ?_⟩
    rw [hchange]
    rfl

/-- The results of a request of which some rows ran: first their answers, if they arrive, and then
    none that settles a row. -/
inductive Answered : Nat → List StatementResult → Prop where
  | cut {ran : Nat} : Answered ran []
  | ok {ran : Nat} {results : List StatementResult} (h : Answered ran results) :
      Answered (ran + 1) (.ok :: results)
  | stopped {result : StatementResult} {results : List StatementResult}
      (h : result = .network ∨ result = .skipped) : Answered 0 (result :: results)

theorem Answered.take {ran : Nat} {results : List StatementResult} (h : Answered ran results)
    (n : Nat) : Answered ran (results.take n) := by
  induction h generalizing n with
  | cut =>
    rw [List.take_nil]
    exact .cut
  | ok h ih =>
    cases n with
    | zero => exact .cut
    | succ n => exact .ok (ih n)
  | stopped h =>
    cases n with
    | zero => exact .cut
    | succ n => exact .stopped h

/-- A request whose creates are accepted runs its rows up to where it stops. -/
theorem runBatch_accepted {stop : Nat} {server : Records V} {batch : List (OutboxItem V)}
    (h : Accepts merge stop server batch) :
    (∀ record, (runBatch merge stop server batch).1 record =
      reruns merge (server record) (changesOf record ((batch.take stop).map OutboxItem.row))) ∧
    Answered (batch.take stop).length (runBatch merge stop server batch).2 := by
  induction batch generalizing stop server with
  | nil =>
    rw [List.take_nil]
    cases stop <;> exact ⟨fun _ => rfl, .cut⟩
  | cons item later ih =>
    cases stop with
    | zero => exact ⟨fun _ => rfl, .stopped (.inl rfl)⟩
    | succ stop =>
      obtain ⟨server', hserver', hrecords⟩ :=
        @runStatement_accepted V _ merge server item later fun data r hchange hr =>
          h [] item later data r rfl (Nat.succ_pos _) hchange hr
      have hlater : Accepts merge stop server' later := by
        rintro before item' later' data r rfl hstop hchange hr
        refine h (item :: before) item' later' data r rfl (Nat.succ_lt_succ hstop) hchange ?_
        rw [hrecords] at hr
        rw [List.map_cons, ← List.singleton_append, changesOf_append, reruns_append]
        exact hr
      obtain ⟨hfinal, hanswered⟩ := ih hlater
      unfold runBatch
      rw [hserver']
      dsimp only
      rw [List.take_succ_cons, List.length_cons, List.map_cons]
      refine ⟨fun record => ?_, .ok hanswered⟩
      rw [hfinal, hrecords, ← reruns_append, ← changesOf_append, List.singleton_append]

end

/-! ## Rows in doubt -/

section

variable {V : Type}

theorem changedBy_spec {record : String} {later : List (OutboxItem V)} {changed : List String}
    (h : changedBy record later = some changed) {item : OutboxItem V} (hmem : item ∈ later)
    (hrecord : item.row.recordId = record) (hdoubt : item.inDoubt = true) :
    ∃ data, item.row.change = .update data ∧ ∀ key, key ∉ changed → data[key]? = none := by
  induction later generalizing changed with
  | nil => cases hmem
  | cons first later ih =>
    rw [changedBy] at h
    split at h
    next hskip =>
      rcases List.mem_cons.mp hmem with rfl | hmem
      · rcases hskip with hskip | hskip
        · exact absurd hrecord hskip
        · rw [hdoubt] at hskip
          cases hskip
      · exact ih h hmem
    next =>
      split at h
      next data hchange =>
        obtain ⟨rest, hrest, rfl⟩ := Option.map_eq_some_iff.mp h
        rcases List.mem_cons.mp hmem with rfl | hmem
        · refine ⟨data, hchange, fun key hkey => ?_⟩
          by_contra hne
          refine hkey (List.mem_append_left _ (ExtTreeMap.mem_keys.mpr ?_))
          rw [ExtTreeMap.mem_iff_isSome_getElem?]
          exact Option.isSome_iff_ne_none.mpr hne
        · obtain ⟨data', hdata', hkeys⟩ := ih hrest hmem
          exact ⟨data', hdata', fun key hkey => hkeys key fun hmem' =>
            hkey (List.mem_append_right _ hmem')⟩
      next => cases h

/-- A list of updates. -/
theorem exists_patches {l : List (Change V)} {P : Fields V → Prop}
    (h : ∀ a ∈ l, ∃ data, a = .update data ∧ P data) :
    ∃ patches : List (Fields V), l = patches.map .update ∧ ∀ p ∈ patches, P p := by
  induction l with
  | nil => exact ⟨[], rfl, by rintro p ⟨⟩⟩
  | cons a l ih =>
    obtain ⟨data, rfl, hdata⟩ := h a List.mem_cons_self
    obtain ⟨patches, rfl, hpatches⟩ := ih (List.forall_mem_cons.mp h).2
    refine ⟨data :: patches, rfl, fun p hp => ?_⟩
    rcases List.mem_cons.mp hp with rfl | hp
    · exact hdata
    · exact hpatches p hp

/-- A create in doubt accepts the row it left, whatever of the mutations behind it ran. -/
theorem matchFields_own {merge : Option V → V → Option V} {item : OutboxItem V} {data r : Fields V}
    {later : List (OutboxItem V)} {k : Nat} {y c : Option (Fields V)} (hdoubt : item.inDoubt = true)
    (hlater : ∀ other ∈ later.take k, other.inDoubt = true)
    (hresumed : Resumed merge y c
      (.create data :: changesOf item.row.recordId ((later.take k).map OutboxItem.row)))
    (hr : y = some r) :
    ∃ fields, matchFields item data later = some fields ∧ ∀ key ∈ fields, r[key]? = data[key]? := by
  unfold matchFields
  split
  · exact ⟨[], rfl, by rintro key ⟨⟩⟩
  rw [if_neg (by rw [hdoubt]; decide)]
  split
  next => exact ⟨[], rfl, by rintro key ⟨⟩⟩
  next changed hchanged =>
    refine ⟨_, rfl, fun key hkey => ?_⟩
    obtain ⟨-, hkey⟩ := List.mem_filter.mp hkey
    obtain ⟨patches, hpatches, hnone⟩ := exists_patches
      (l := changesOf item.row.recordId ((later.take k).map OutboxItem.row))
      (P := fun patch => patch[key]? = none) fun a ha => by
        obtain ⟨row, hrow, rfl⟩ := List.mem_map.mp ha
        obtain ⟨hrow, hrecord⟩ := List.mem_filter.mp hrow
        obtain ⟨other, hother, rfl⟩ := List.mem_map.mp hrow
        obtain ⟨patch, hpatch, hfields⟩ := changedBy_spec hchanged (List.mem_of_mem_take hother)
          (of_decide_eq_true hrecord) (hlater other hother)
        exact ⟨patch, hpatch, hfields key (of_decide_eq_true hkey)⟩
    exact hresumed.created data patches r (congrArg _ hpatches) hr key hnone

theorem map_row_outboxMarkInDoubt (n : Nat) (outbox : List (OutboxItem V)) :
    (outboxMarkInDoubt n outbox).map OutboxItem.row = outbox.map OutboxItem.row := by
  unfold outboxMarkInDoubt
  rw [List.map_append, List.map_map]
  have hrow : OutboxItem.row ∘ (fun item : OutboxItem V => { item with inDoubt := true }) =
      OutboxItem.row := rfl
  rw [hrow, ← List.map_append, List.take_append_drop]

/-- The first items are in doubt. -/
def DoubtBetween (ran may : Nat) (items : List (OutboxItem V)) : Prop :=
  ∀ i item, items[i]? = some item → ran ≤ i → i < may → item.inDoubt = true

theorem DoubtBetween.of_mem {may : Nat} {items : List (OutboxItem V)}
    (h : DoubtBetween 0 may items) {item : OutboxItem V} (hmem : item ∈ items.take may) :
    item.inDoubt = true := by
  obtain ⟨i, hi⟩ := List.getElem?_of_mem hmem
  rw [List.getElem?_take] at hi
  split at hi
  next hlt => exact h i item hi (Nat.zero_le _) hlt
  next => cases hi

theorem doubtBetween_outboxMarkInDoubt {may n : Nat} (h : may ≤ n) (outbox : List (OutboxItem V)) :
    DoubtBetween 0 may (outboxMarkInDoubt n outbox) := by
  intro i item hitem _ hi
  unfold outboxMarkInDoubt at hitem
  have hlen := (List.getElem?_eq_some_iff.mp hitem).1
  by_cases hfirst : i < ((outbox.take n).map fun item : OutboxItem V =>
      { item with inDoubt := true }).length
  · rw [List.getElem?_append_left hfirst, List.getElem?_map] at hitem
    obtain ⟨item', -, rfl⟩ := Option.map_eq_some_iff.mp hitem
    rfl
  · rw [List.length_append, List.length_map, List.length_take, List.length_drop] at hlen
    rw [List.length_map, List.length_take] at hfirst
    omega

end

/-! ## Runs -/

namespace PushState

variable {V : Type} {merge : Option V → V → Option V} {outboxBatchSize : Nat}
  {server : Records V} {s s' : PushState V}

/-- The items of the rows in the store. -/
def live {V : Type} (s : PushState V) : List (OutboxItem V) :=
  match s.round with
  | some ⟨_, _, true⟩ => s.outbox.tail
  | _ => s.outbox

/-- The drain is on its way. Of the rows in the store, the server ran the first `ran` on the records
    `before`, and the first `may` at some time. -/
structure Underway (merge : Option V → V → Option V) (outboxBatchSize : Nat) (server : Records V)
    (s : PushState V) (before : Records V) (ran may : Nat) : Prop where
  ran_le : ran ≤ may
  may_le : may ≤ outboxBatchSize ∧ may ≤ s.store.length
  reached : ∀ record, s.server record = reruns merge (before record)
    (changesOf record (s.store.take ran))
  startable : ∀ record, Startable (before record) (applied merge server s.settled record)
    (changesOf record (s.store.take ran))
  resumed : ∀ record, Resumed merge (before record) (applied merge server s.settled record)
    (changesOf record (s.store.take may))
  doubt : DoubtBetween ran may s.live
  idle : s.round = none → ran = 0
  answer : ∀ rows results deleted, s.round = some ⟨rows, results, deleted⟩ →
    may ≤ rows ∧ rows ≤ outboxBatchSize ∧ Answered ran results

/-- What every step keeps. -/
structure Kept (merge : Option V → V → Option V) (outboxBatchSize : Nat) (server : Records V)
    (s : PushState V) : Prop where
  history : s.queued = s.settled ++ s.store
  valid : ∀ record, Valid merge (server record) (changesOf record s.queued)
  rolledBack : s.rolledBack = []
  rows : s.live.map OutboxItem.row = s.store
  acking : ∀ rows results, s.round = some ⟨rows, results, true⟩ → s.outbox ≠ []
  underway : ∃ before ran may, Underway merge outboxBatchSize server s before ran may

/-- The rows in the store are valid after the settled ones. -/
theorem Kept.valid_store (h : Kept merge outboxBatchSize server s) (record : String) :
    Valid merge (applied merge server s.settled record) (changesOf record s.store) := by
  have := h.valid record
  rw [h.history, changesOf_append, valid_append] at this
  rw [applied_eq]
  exact this.2

theorem Kept.valid_take (h : Kept merge outboxBatchSize server s) (n : Nat) (record : String) :
    Valid merge (applied merge server s.settled record) (changesOf record (s.store.take n)) := by
  have := h.valid_store record
  rw [changesOf_take n, valid_append] at this
  exact this.1

theorem kept_start : Kept merge outboxBatchSize server (start server) where
  history := rfl
  valid _ := trivial
  rolledBack := rfl
  rows := rfl
  acking := by rintro rows results ⟨⟩
  underway := by
    refine ⟨server, 0, 0, Nat.le_refl _, ⟨Nat.zero_le _, Nat.le_refl _⟩, fun _ => rfl, ?_,
      fun record => .start _, ?_, fun _ => rfl, ?_⟩
    · rintro record data rest ⟨⟩
    · intro i item _ _ hi
      omega
    · rintro rows results deleted ⟨⟩

/-- A round is given up: what the server ran becomes what it starts from. -/
theorem Underway.abandon (habsorbs : ∀ v, Absorbs merge v v) {before : Records V} {ran may : Nat}
    (h : Underway merge outboxBatchSize server s before ran may)
    (hvalid : ∀ record, Valid merge (applied merge server s.settled record)
      (changesOf record (s.store.take may))) (record : String) :
    Resumed merge (s.server record) (applied merge server s.settled record)
      (changesOf record (s.store.take may)) := by
  have hresumed := h.resumed record
  have hmay := hvalid record
  rw [changesOf_take_le h.ran_le] at hresumed hmay ⊢
  rw [h.reached]
  exact hresumed.abandon habsorbs hmay (h.startable record)

/-- Between the rounds, with the rows that may have run in doubt. -/
theorem Underway.rest {before : Records V} {ran may : Nat} {t : PushState V}
    (h : Underway merge outboxBatchSize server s before ran may) (hstore : t.store = s.store)
    (hsettled : t.settled = s.settled) (hround : t.round = none)
    (hresumed : ∀ record, Resumed merge (t.server record) (applied merge server s.settled record)
      (changesOf record (s.store.take may)))
    (hdoubt : DoubtBetween 0 may t.live) :
    Underway merge outboxBatchSize server t t.server 0 may where
  ran_le := Nat.zero_le _
  may_le := by
    rw [hstore]
    exact h.may_le
  reached _ := rfl
  startable := by rintro record data rest ⟨⟩
  resumed := by
    rw [hstore, hsettled]
    exact hresumed
  doubt := hdoubt
  idle _ := rfl
  answer := by
    rw [hround]
    rintro rows results deleted ⟨⟩

theorem live_of_idle (h : s.round = none) : s.live = s.outbox := by
  unfold live
  rw [h]

theorem live_of_round {rows : Nat} {results : List StatementResult}
    (h : s.round = some ⟨rows, results, false⟩) : s.live = s.outbox := by
  unfold live
  rw [h]

/-- The outbox is empty: the server has run everything. -/
theorem Kept.server_eq (h : Kept merge outboxBatchSize server s) (hsent : s.outbox = []) :
    s.server = applied merge server s.queued := by
  obtain ⟨before, ran, may, hunder⟩ := h.underway
  have hlive : s.live = [] := by
    unfold live
    split <;> rw [hsent]
    rfl
  have hstore := h.rows
  rw [hlive] at hstore
  funext record
  have hreached := hunder.reached record
  have hresumed := hunder.resumed record
  rw [← hstore, List.map_nil, List.take_nil] at hreached hresumed
  rw [h.history, ← hstore, List.map_nil, List.append_nil]
  exact hreached.trans hresumed.eq_of_nil

variable [DecidableEq V]

/-- A round ends, and what its rows are in doubt is known. -/
theorem Kept.finished (habsorbs : ∀ v, Absorbs merge v v) (h : Kept merge outboxBatchSize server s)
    {outbox : List (OutboxItem V)} (hrows : outbox.map OutboxItem.row = s.store)
    (hdoubt : ∀ before ran may, Underway merge outboxBatchSize server s before ran may →
      DoubtBetween 0 may outbox) :
    Kept merge outboxBatchSize server { s with outbox := outbox, round := none } := by
  obtain ⟨before, ran, may, hunder⟩ := h.underway
  refine ⟨h.history, h.valid, h.rolledBack, hrows, by rintro rows results ⟨⟩, s.server, 0, may, ?_⟩
  exact hunder.rest rfl rfl rfl (hunder.abandon habsorbs (h.valid_take may))
    (hdoubt before ran may hunder)

/-- A session ends, and the next one takes every row to be in doubt. -/
theorem kept_endSession (habsorbs : ∀ v, Absorbs merge v v)
    (h : Kept merge outboxBatchSize server s)
    (hstep : s.step merge outboxBatchSize .endSession = some s') :
    Kept merge outboxBatchSize server s' := by
  cases hstep
  refine h.finished habsorbs ?_ fun _ _ may _ i item hitem _ _ => ?_
  · rw [List.map_map]
    exact List.map_id _
  · rw [List.getElem?_map] at hitem
    obtain ⟨row, -, rfl⟩ := Option.map_eq_some_iff.mp hitem
    rfl

/-- The end of a round. -/
theorem kept_finish (habsorbs : ∀ v, Absorbs merge v v) (h : Kept merge outboxBatchSize server s)
    (hstep : s.step merge outboxBatchSize .finish = some s') :
    Kept merge outboxBatchSize server s' := by
  have hrows : ∀ rows results, s.round = some ⟨rows, results, false⟩ →
      s.outbox.map OutboxItem.row = s.store := by
    intro rows results hround
    rw [← h.rows, live_of_round hround]
  -- a statement that failed or was skipped is the first that did not run
  have hstopped : ∀ rows result results, s.round = some ⟨rows, result :: results, false⟩ →
      result ≠ .ok → ∀ before ran may, Underway merge outboxBatchSize server s before ran may →
        DoubtBetween 0 may s.outbox := by
    intro rows result results hround hne before ran may hunder
    obtain ⟨-, -, hanswered⟩ := hunder.answer _ _ _ hround
    have hdoubt := hunder.doubt
    rw [live_of_round hround] at hdoubt
    cases hanswered with
    | ok _ => exact absurd rfl hne
    | stopped _ => exact hdoubt
  rw [step] at hstep
  split at hstep
  next results hround =>
    cases hstep
    refine h.finished habsorbs (hrows _ _ hround) fun _ _ may hunder i item _ _ hi => ?_
    have := (hunder.answer _ _ _ hround).1
    omega
  next rows hround =>
    cases hstep
    refine h.finished habsorbs ?_ fun _ _ may hunder =>
      doubtBetween_outboxMarkInDoubt (hunder.answer _ _ _ hround).1 _
    rw [map_row_outboxMarkInDoubt]
    exact hrows _ _ hround
  next rows results hround =>
    -- no create is refused
    obtain ⟨before, ran, may, hunder⟩ := h.underway
    obtain ⟨-, -, hanswered⟩ := hunder.answer _ _ _ hround
    cases hanswered with
    | stopped h => rcases h with h | h <;> cases h
  next rows results hround =>
    cases hstep
    exact h.finished habsorbs (hrows _ _ hround) (hstopped _ _ _ hround (by decide))
  next rows results hround =>
    cases hstep
    exact h.finished habsorbs (hrows _ _ hround) (hstopped _ _ _ hround (by decide))
  next => cases hstep

/-- The item of a settled row is acked. -/
theorem kept_outboxAck (h : Kept merge outboxBatchSize server s)
    (hstep : s.step merge outboxBatchSize .outboxAck = some s') :
    Kept merge outboxBatchSize server s' := by
  rw [step] at hstep
  split at hstep
  next rows results hround =>
    cases hstep
    have hlive : s.live = s.outbox.tail := by
      unfold live
      rw [hround]
    obtain ⟨before, ran, may, hunder⟩ := h.underway
    refine ⟨h.history, h.valid, h.rolledBack, ?_, by rintro rows results ⟨⟩, before, ran, may,
      hunder.ran_le, hunder.may_le, hunder.reached, hunder.startable, hunder.resumed, ?_,
      by rintro ⟨⟩, ?_⟩
    · rw [← h.rows, hlive]
      rfl
    · have hdoubt := hunder.doubt
      rw [hlive] at hdoubt
      exact hdoubt
    · rintro rows' results' deleted hround'
      cases hround'
      exact hunder.answer _ _ _ hround
  next => cases hstep

/-- The first row has run and is settled. -/
theorem Underway.settle {before : Records V} {ran may : Nat} {row : PendingMutationRow V}
    {store : List (PendingMutationRow V)}
    (h : Underway merge outboxBatchSize server s before (ran + 1) (may + 1))
    (hstore : s.store = row :: store)
    (hvalid : ∀ record, Valid merge (applied merge server s.settled record)
      (changesOf record (s.store.take (may + 1)))) (record : String) :
    ∃ y, s.server record = reruns merge y (changesOf record (store.take ran)) ∧
      Startable y (applied merge server (s.settled ++ [row]) record)
        (changesOf record (store.take ran)) ∧
      Resumed merge y (applied merge server (s.settled ++ [row]) record)
        (changesOf record (store.take may)) := by
  have hreached := h.reached record
  have hstartable := h.startable record
  have hresumed := h.resumed record
  have hfirst := hvalid record
  rw [hstore, List.take_succ_cons] at hreached hstartable hresumed hfirst
  rw [applied_append, applied_eq (applied merge server s.settled)]
  by_cases hrecord : row.recordId = record
  · subst hrecord
    rw [changesOf_cons_self] at hreached hstartable hresumed hfirst
    have hstart : Startable (before row.recordId) (applied merge server s.settled row.recordId)
        (row.change :: changesOf row.recordId (store.take may)) := by
      intro data rest hl
      obtain ⟨hchange, -⟩ := List.cons.inj hl
      exact hstartable data _ (by rw [hchange])
    rw [changesOf_cons_self]
    exact ⟨row.change.rerun merge (before row.recordId), hreached,
      Resumed.startable_settle hstartable, hresumed.settle hfirst hstart⟩
  · rw [changesOf_cons_of_ne hrecord] at hreached hstartable hresumed ⊢
    exact ⟨before record, hreached, hstartable, hresumed⟩

/-- The local row of an accepted mutation is deleted. -/
theorem kept_deletePendingRow (h : Kept merge outboxBatchSize server s)
    (hstep : s.step merge outboxBatchSize .deletePendingRow = some s') :
    Kept merge outboxBatchSize server s' := by
  obtain ⟨before, ran, may, hunder⟩ := h.underway
  rw [step] at hstep
  split at hstep
  next rows result results row store hround hstore =>
    split at hstep
    next hok =>
      cases hstep
      obtain ⟨hmay, hrows, hanswered⟩ := hunder.answer _ _ _ hround
      obtain ⟨ran, rfl, hrest⟩ : ∃ r, ran = r + 1 ∧ Answered r results := by
        cases hanswered with
        | @ok r _ hrest => exact ⟨r, rfl, hrest⟩
        | stopped hstopped =>
          exfalso
          unfold isRepeatedLogCreate at hok
          rcases hstopped with rfl | rfl <;> revert hok <;> cases row.change <;> simp
      obtain ⟨may, rfl⟩ : ∃ m, may = m + 1 := ⟨may - 1, by have := hunder.ran_le; omega⟩
      have hlive := live_of_round hround
      have hmap := h.rows
      rw [hlive, hstore] at hmap
      obtain ⟨item, outbox, houtbox, rfl, rfl⟩ := List.map_eq_cons_iff.mp hmap
      choose before' hbefore using hunder.settle hstore (h.valid_take _)
      have hlength := hunder.may_le
      rw [hstore, List.length_cons] at hlength
      refine ⟨?_, h.valid, h.rolledBack, ?_, ?_, before', ran, may, ?_⟩
      · rw [h.history, hstore, List.append_assoc]
        rfl
      · change s.outbox.tail.map OutboxItem.row = _
        rw [houtbox]
        rfl
      · intro _ _ _
        rw [houtbox]
        exact List.cons_ne_nil _ _
      · refine ⟨Nat.le_of_succ_le_succ hunder.ran_le,
          ⟨by omega, Nat.le_of_succ_le_succ hlength.2⟩,
          fun record => (hbefore record).1, fun record => (hbefore record).2.1,
          fun record => (hbefore record).2.2, ?_, by rintro ⟨⟩, ?_⟩
        · intro i item' hitem hran hi
          have hdoubt := hunder.doubt
          rw [hlive, houtbox] at hdoubt
          change s.outbox.tail[i]? = some item' at hitem
          rw [houtbox] at hitem
          exact hdoubt (i + 1) item' hitem (by omega) (by omega)
        · rintro rows' results' deleted hround'
          cases hround'
          exact ⟨by omega, by omega, hrest⟩
    next => cases hstep
  next => cases hstep

/-- A mutation is queued. -/
theorem kept_enqueue {row : PendingMutationRow V} (h : Kept merge outboxBatchSize server s)
    (hok : InOrder merge outboxBatchSize server s (.enqueue row))
    (hstep : s.step merge outboxBatchSize (.enqueue row) = some s') :
    Kept merge outboxBatchSize server s' := by
  cases hstep
  obtain ⟨before, ran, may, hunder⟩ := h.underway
  have hlive : live { s with
      store := s.store ++ [row]
      outbox := s.outbox ++ [⟨row, false⟩]
      queued := s.queued ++ [row] } = s.live ++ [⟨row, false⟩] := by
    unfold live
    dsimp only
    split
    next rows results hr => exact List.tail_append_of_ne_nil (h.acking _ _ hr)
    next => rfl
  have htake : ∀ n ≤ may, (s.store ++ [row]).take n = s.store.take n := fun n hn =>
    List.take_append_of_le_length (Nat.le_trans hn hunder.may_le.2)
  refine ⟨?_, fun record => ?_, h.rolledBack, ?_, ?_, before, ran, may, hunder.ran_le, ?_, ?_, ?_, ?_,
    ?_, hunder.idle, hunder.answer⟩
  · dsimp only
    rw [h.history, List.append_assoc]
  · dsimp only
    rw [changesOf_append, valid_append]
    refine ⟨h.valid record, ?_⟩
    by_cases hrecord : row.recordId = record
    · subst hrecord
      rw [changesOf_cons_self]
      refine ⟨fun data hdata => ?_, trivial⟩
      rw [← applied_eq]
      exact hok data hdata
    · rw [changesOf_cons_of_ne hrecord]
      trivial
  · refine (congrArg (List.map OutboxItem.row) hlive).trans ?_
    rw [List.map_append, h.rows]
    rfl
  · intro _ _ _
    exact List.append_ne_nil_of_right_ne_nil _ (List.cons_ne_nil _ _)
  · refine ⟨hunder.may_le.1, ?_⟩
    dsimp only
    rw [List.length_append]
    exact Nat.le_trans hunder.may_le.2 (Nat.le_add_right _ _)
  · intro record
    dsimp only
    rw [htake ran hunder.ran_le]
    exact hunder.reached record
  · intro record
    dsimp only
    rw [htake ran hunder.ran_le]
    exact hunder.startable record
  · intro record
    dsimp only
    rw [htake may (Nat.le_refl _)]
    exact hunder.resumed record
  · intro i item hitem hran hi
    have hitem := (congrArg (·[i]?) hlive).symm.trans hitem
    rw [List.getElem?_append_left] at hitem
    · exact hunder.doubt i item hitem hran hi
    · have hlen := congrArg List.length h.rows
      rw [List.length_map] at hlen
      rw [hlen]
      exact Nat.lt_of_lt_of_le hi hunder.may_le.2

/-- A create that finds a row is in doubt, and accepts the row. -/
theorem Kept.accepts (h : Kept merge outboxBatchSize server s) (hround : s.round = none)
    {stop : Nat} {received : Option Nat}
    (hok : InOrder merge outboxBatchSize server s (.send stop received)) :
    Accepts merge stop s.server (s.outbox.take outboxBatchSize) := by
  intro before item later data r hbatch hstop hchange hr
  obtain ⟨start, ran, may, hunder⟩ := h.underway
  obtain rfl := hunder.idle hround
  obtain rfl : s.server = start := funext hunder.reached
  have hrows := h.rows
  have hdoubt := hunder.doubt
  rw [live_of_idle hround] at hrows hdoubt
  have hvalid := h.valid_store item.row.recordId
  rw [changesOf_take outboxBatchSize, ← hrows, ← List.map_take, hbatch, List.map_append,
    List.map_cons, changesOf_append, changesOf_cons_self, hchange, List.append_assoc,
    List.cons_append, ← List.singleton_append, ← List.append_assoc, valid_append] at hvalid
  -- it comes first of its record
  have hfirst : changesOf item.row.recordId (before.map OutboxItem.row) = [] := by
    refine Resumed.create_first hvalid.1 ?_ hr
    have hstart := hok item.row.recordId
    rw [hbatch, List.take_append, List.take_of_length_le (Nat.le_of_lt hstop), List.map_append,
      changesOf_append] at hstart
    exact startable_of_append hstart
  rw [hfirst] at hr hvalid
  have hresumed := hunder.resumed item.row.recordId
  have hmay : (s.outbox.take may).map OutboxItem.row = s.store.take may := by
    rw [List.map_take, hrows]
  have hwindow : s.outbox.take may = (before ++ item :: later).take may := by
    rw [← hbatch, List.take_take, Nat.min_eq_left hunder.may_le.1]
  have hlt : before.length < may := by
    by_contra hge
    rw [← hmay, hwindow, List.take_append_of_le_length (Nat.le_of_not_lt hge)] at hresumed
    rw [← List.take_append_drop may before, List.map_append, changesOf_append] at hfirst
    rw [(List.append_eq_nil_iff.mp hfirst).1] at hresumed
    have hnone := hresumed.eq_of_nil.symm.trans hr
    rw [hvalid.1.1 data rfl] at hnone
    cases hnone
  obtain ⟨k, rfl⟩ : ∃ k, may = before.length + (k + 1) := ⟨may - before.length - 1, by omega⟩
  rw [List.take_length_add_append, List.take_succ_cons] at hwindow
  rw [← hmay, hwindow, List.map_append, List.map_cons, changesOf_append, hfirst, List.nil_append,
    changesOf_cons_self, hchange] at hresumed
  have hmem : ∀ other, other = item ∨ other ∈ later.take k → other.inDoubt = true := by
    intro other hother
    refine hdoubt.of_mem ?_
    rw [hwindow]
    exact List.mem_append_right _ (List.mem_cons.mpr hother)
  exact matchFields_own (hmem item (.inl rfl)) (fun other hother => hmem other (.inr hother)) hresumed
    hr

/-- A request has run, and all, a part or none of its answer is there. -/
theorem Kept.sent (h : Kept merge outboxBatchSize server s) (hround : s.round = none)
    {stop : Nat} {received : Option Nat}
    (hok : InOrder merge outboxBatchSize server s (.send stop received)) {final : Records V}
    {results : List StatementResult}
    (hfinal : ∀ record, final record = reruns merge (s.server record)
      (changesOf record (((s.outbox.take outboxBatchSize).take stop).map OutboxItem.row)))
    (hanswered : Answered ((s.outbox.take outboxBatchSize).take stop).length results) :
    Kept merge outboxBatchSize server { s with
      server := final
      round := some ⟨(s.outbox.take outboxBatchSize).length, results, false⟩ } := by
  obtain ⟨before, ran, may, hunder⟩ := h.underway
  obtain rfl := hunder.idle hround
  obtain rfl : s.server = before := funext hunder.reached
  have hrows := h.rows
  have hdoubt := hunder.doubt
  rw [live_of_idle hround] at hrows hdoubt
  have hlength := congrArg List.length hrows
  have hmay := hunder.may_le
  have hran : ((s.outbox.take outboxBatchSize).take stop).map OutboxItem.row =
      s.store.take ((s.outbox.take outboxBatchSize).take stop).length := by
    rw [← hrows, ← List.map_take, List.take_take]
    refine congrArg _ ?_
    rw [List.length_take, List.take_eq_take_iff]
    omega
  have hlen : ((s.outbox.take outboxBatchSize).take stop).length ≤
      (s.outbox.take outboxBatchSize).length := List.length_take_le' _ _
  have hbatch : (s.outbox.take outboxBatchSize).length = min outboxBatchSize s.outbox.length :=
    List.length_take
  have hstart : ∀ record, Startable (s.server record) (applied merge server s.settled record)
      (changesOf record (((s.outbox.take outboxBatchSize).take stop).map OutboxItem.row)) := hok
  rw [List.length_map] at hlength
  rw [hran] at hfinal hstart
  generalize ((s.outbox.take outboxBatchSize).take stop).length = ran at *
  refine ⟨h.history, h.valid, h.rolledBack, hrows, by rintro rows results ⟨⟩, s.server, ran,
    max may ran, Nat.le_max_right _ _, ⟨?_, ?_⟩, hfinal, hstart, fun record => ?_, ?_, by rintro ⟨⟩,
    ?_⟩
  · exact Nat.max_le.mpr ⟨hmay.1, by omega⟩
  · dsimp only
    exact Nat.max_le.mpr ⟨hmay.2, by omega⟩
  · have hvalid := h.valid_take (max may ran) record
    rw [changesOf_take_le (Nat.le_max_left may ran)] at hvalid ⊢
    exact (hunder.resumed record).grow hvalid
  · intro i item hitem hi hlt
    exact hdoubt i item hitem (Nat.zero_le _) (by omega)
  · rintro rows results' deleted hround'
    cases hround'
    exact ⟨Nat.max_le.mpr ⟨by omega, hlen⟩, by omega, hanswered⟩

/-- A request is sent. -/
theorem kept_send (habsorbs : ∀ v, Absorbs merge v v) {stop : Nat} {received : Option Nat}
    (h : Kept merge outboxBatchSize server s)
    (hok : InOrder merge outboxBatchSize server s (.send stop received))
    (hstep : s.step merge outboxBatchSize (.send stop received) = some s') :
    Kept merge outboxBatchSize server s' := by
  rw [step] at hstep
  split at hstep
  · cases hstep
  next hidle =>
    have hround : s.round = none := by
      cases hr : s.round with
      | none => rfl
      | some r =>
        rw [hr] at hidle
        exact absurd rfl hidle
    obtain ⟨hfinal, hanswered⟩ := runBatch_accepted (h.accepts hround hok)
    cases received with
    | some n =>
      cases hstep
      exact h.sent hround hok hfinal (hanswered.take n)
    | none =>
      -- as if the answer were cut before its first result
      cases hstep
      have hsent := h.sent hround hok hfinal .cut
      have hrows := h.rows
      rw [live_of_idle hround] at hrows
      have hfinished := hsent.finished habsorbs
        ((map_row_outboxMarkInDoubt (s.outbox.take outboxBatchSize).length s.outbox).trans hrows)
        fun _ _ may hunder => doubtBetween_outboxMarkInDoubt (hunder.answer _ _ _ rfl).1 _
      rw [← hround] at hfinished
      exact hfinished

/-- What one step keeps. -/
theorem kept_step (habsorbs : ∀ v, Absorbs merge v v) {a : PushAct V}
    (h : Kept merge outboxBatchSize server s) (hok : InOrder merge outboxBatchSize server s a)
    (hstep : s.step merge outboxBatchSize a = some s') : Kept merge outboxBatchSize server s' := by
  cases a with
  | enqueue row => exact kept_enqueue h hok hstep
  | send stop received => exact kept_send habsorbs h hok hstep
  | deletePendingRow => exact kept_deletePendingRow h hstep
  | outboxAck => exact kept_outboxAck h hstep
  | finish => exact kept_finish habsorbs h hstep
  | endSession => exact kept_endSession habsorbs h hstep

end PushState

/-- As long as only absent records are created, and no statement updates a record the server has and
    that should be absent: nothing is rolled back, and once the outbox is empty every mutation has
    taken effect once, in order. -/
theorem pushed_once {V : Type} [DecidableEq V] (merge : Option V → V → Option V)
    (habsorbs : ∀ v, Absorbs merge v v) (outboxBatchSize : Nat) (server : Records V)
    (s : PushState V)
    (h : Run (PushState.step merge outboxBatchSize)
      (PushState.InOrder merge outboxBatchSize server) (PushState.start server) s) :
    s.rolledBack = [] ∧ (s.outbox = [] → s.server = applied merge server s.queued) := by
  have hkept := h.invariant (P := PushState.Kept merge outboxBatchSize server)
    PushState.kept_start fun _ _ _ hkept hok hstep => PushState.kept_step habsorbs hkept hok hstep
  exact ⟨hkept.rolledBack, hkept.server_eq⟩

/-! ## A document that is deleted and created again -/

section

/-- A queued mutation creates no record that is there. -/
def PushState.Queueable {V : Type} (merge : Option V → V → Option V) (server : Records V)
    (s : PushState V) : PushAct V → Prop
  | .enqueue row => ∀ data, row.change = .create data →
      applied merge server s.queued row.recordId = none
  | _ => True

/-- `Queueable`. -/
def PushState.queueable {V : Type} (merge : Option V → V → Option V) (server : Records V)
    (s : PushState V) : PushAct V → Bool
  | .enqueue row =>
    match row.change with
    | .create _ => (applied merge server s.queued row.recordId).isNone
    | _ => true
  | _ => true

/-- `InOrder`. -/
def PushState.inOrder {V : Type} (merge : Option V → V → Option V) (outboxBatchSize : Nat)
    (server : Records V) (s : PushState V) : PushAct V → Bool
  | .send stop _ =>
    let rows := ((s.outbox.take outboxBatchSize).take stop).map OutboxItem.row
    rows.all fun row =>
      match changesOf row.recordId rows with
      | .update _ :: _ =>
        (applied merge server s.settled row.recordId).isSome || (s.server row.recordId).isNone
      | _ => true
  | a => s.queueable merge server a

variable {V : Type} {merge : Option V → V → Option V} {outboxBatchSize : Nat} {server : Records V}
  {s : PushState V} {a : PushAct V}

theorem PushState.queueable_spec (h : s.queueable merge server a = true) :
    s.Queueable merge server a := by
  cases a with
  | enqueue row =>
    intro data hchange
    dsimp only [queueable] at h
    rw [hchange] at h
    exact Option.isNone_iff_eq_none.mp h
  | _ => trivial

theorem PushState.inOrder_spec (h : s.inOrder merge outboxBatchSize server a = true) :
    s.InOrder merge outboxBatchSize server a := by
  cases a with
  | enqueue row => exact PushState.queueable_spec (a := .enqueue row) h
  | send stop received =>
    intro record data rest hchanges hnone
    have hmem : Change.update data ∈ changesOf record
        (((s.outbox.take outboxBatchSize).take stop).map OutboxItem.row) := by
      rw [hchanges]
      exact List.mem_cons_self
    obtain ⟨row, hrow, -⟩ := List.mem_map.mp hmem
    obtain ⟨hsent, hrecord⟩ := List.mem_filter.mp hrow
    obtain rfl := of_decide_eq_true hrecord
    dsimp only [inOrder] at h
    have hall := List.all_eq_true.mp h row hsent
    rw [hchanges, hnone] at hall
    exact Option.isNone_iff_eq_none.mp hall
  | _ => trivial

end

/-- A document, by its change. -/
def document (change : Change Nat) : PendingMutationRow Nat := ⟨"doc:1", "doc", change⟩

/-- No documents. -/
def noDocument : Records Nat := fun _ => none

/-- One document. -/
def oneDocument : Records Nat := noDocument.set "doc:1" (some (title 0))

/-- A document that is created and updated, and pushed again because the answer is lost. -/
def createdTwice : List (PushAct Nat) :=
  [.enqueue (document (.create (title 1))), .enqueue (document (.update (title 2))), .send 2 none,
    .send 2 (some 2), .deletePendingRow, .outboxAck, .deletePendingRow, .outboxAck, .finish]

/-- The state after it. -/
def pushedAgain : PushState Nat :=
  (runAll (PushState.step overwrite 10) (PushState.inOrder overwrite 10 noDocument)
    (.start noDocument) createdTwice).getD (.start noDocument)

theorem pushed_once_again : pushedAgain.rolledBack = [] ∧ (pushedAgain.outbox = [] →
    pushedAgain.server = applied overwrite noDocument pushedAgain.queued) := by
  have hsome : (runAll (PushState.step overwrite 10) (PushState.inOrder overwrite 10 noDocument)
      (.start noDocument) createdTwice).isSome = true := by decide +kernel
  obtain ⟨s, hs⟩ := Option.isSome_iff_exists.mp hsome
  have hrun : Run (PushState.step overwrite 10) (PushState.InOrder overwrite 10 noDocument)
      (.start noDocument) pushedAgain := by
    unfold pushedAgain
    rw [hs]
    exact (run_of_runAll hs).mono fun _ _ => PushState.inOrder_spec
  exact pushed_once overwrite (fun v => overwrite_absorbs v v) 10 noDocument pushedAgain hrun

/-- A document is deleted; a debounced update of it is flushed and it is created again, in one batch
    whose answer is lost. -/
def recreated : List (PushAct Nat) :=
  [.enqueue (document .delete), .send 1 (some 1), .deletePendingRow, .outboxAck, .finish,
    .enqueue (document (.update (title 1))), .enqueue (document (.create (title 2))),
    .send 2 none, .send 2 (some 2), .deletePendingRow, .outboxAck, .finish, .finish]

/-- The update meets the row of the create, which then finds another row than its own and is
    rolled back. -/
theorem update_meets_create : ¬ ∀ (merge : Option Nat → Nat → Option Nat) (outboxBatchSize : Nat)
    (server : Records Nat) (s : PushState Nat), (∀ v, Absorbs merge v v) →
      Run (PushState.step merge outboxBatchSize) (PushState.Queueable merge server)
        (PushState.start server) s →
      s.outbox = [] → s.rolledBack = [] ∧ s.server = applied merge server s.queued := by
  intro hall
  have hend : (runAll (PushState.step overwrite 10) (PushState.queueable overwrite oneDocument)
      (.start oneDocument) recreated).map (fun s => (s.outbox.isEmpty, s.rolledBack.isEmpty)) =
        some (true, false) := by decide +kernel
  obtain ⟨s, hs, hends⟩ := Option.map_eq_some_iff.mp hend
  obtain ⟨hsent, hrolled⟩ := Prod.mk.inj hends
  have hrun : Run (PushState.step overwrite 10) (PushState.Queueable overwrite oneDocument)
      (.start oneDocument) s := (run_of_runAll hs).mono fun _ _ => PushState.queueable_spec
  have hnone := (hall overwrite 10 oneDocument s (fun v => overwrite_absorbs v v) hrun
    (List.isEmpty_iff.mp hsent)).1
  rw [hnone] at hrolled
  cases hrolled

end Sp00ky.Core
