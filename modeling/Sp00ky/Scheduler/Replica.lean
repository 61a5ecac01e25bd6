/-
  The replica of the scheduler (`apps/scheduler/src/replica.rs`).

  The database is read as a map from ids to bodies: `CREATE` fails on a record that exists,
  `UPSERT .. MERGE` merges into what there is, `DELETE` removes, and a statement that fails
  changes nothing. Beside the rows the replica keeps a hash per table, which `apply` folds
  every event into, the same by id ranges, and a build of ranges that reads one window at a
  time. A table whose event could not be folded is flagged dirty and hashed from its rows by
  the next drain. What is only kept to be persisted is left out.
-/
import Sp00ky.Scheduler.Ingest
import Sp00ky.Scheduler.RangeHash

namespace Sp00ky.Scheduler

open Std Lib Ssp

/-! ## The database -/

/-- The fields of a record, its id apart. -/
abbrev Fields := List (String × Json)

/-- The records of a table by raw id. -/
abbrev Rows := ExtTreeMap String Fields

/-- What the replica rests on: the hash function, the spelling of numbers, the raw id the database
    gives the record of an id, its merge, where it scans keys that are no plain strings, and the
    opaque fields of each table, which are never the id. -/
structure ReplicaEnv where
  blake3 : List Char → Digest
  num : JsonNumber → List Char
  recordKey : String → String → String
  merge : Fields → Fields → Fields
  other : List String → String → Nat
  opaqueFields : String → List String
  id_kept : ∀ table, "id" ∉ opaqueFields table

/-- A record as a statement returns it. -/
def rowJson (table rawId : String) (fields : Fields) : Json :=
  .object (("id", .str (table ++ ":" ++ rawId)) :: fields)

/-- The value of an object without some of its fields. -/
def omitFields (names : List String) : Json → Json
  | .object fields => .object (fields.filter fun kv => !names.contains kv.1)
  | other => other

/-- `strip_prefix` of the table, or the id itself. -/
def stripTable (table id : String) : String :=
  if (table ++ ":").toList.isPrefixOf id.toList then
    String.ofList (id.toList.drop (table ++ ":").toList.length)
  else id

/-- `build_thing_id`. -/
def buildThingId (table id : String) : String :=
  if (table ++ ":").toList.isPrefixOf id.toList then id else table ++ ":" ++ id

/-- `Value::as_i64`. -/
def jsonAsI64 : Json → Option Int
  | .int i => if -2 ^ 63 ≤ i ∧ i < 2 ^ 63 then some i else none
  | _ => none

/-- `_00_rv` of a record. -/
def recordRv (record : Option Json) : Option Int :=
  (record.bind fun r => r.get "_00_rv").bind jsonAsI64

/-- `Replica::stored_rv`. -/
def storedRv (key : String) (rows : Rows) : Option Int := recordRv (rows[key]?.map .object)

namespace ReplicaEnv

variable (env : ReplicaEnv)

/-- `Replica::hash_pair_for`. -/
def hashPairFor (table : String) (row : Json) : Option (String × Json) :=
  match omitFields (env.opaqueFields table) row with
  | .object fields =>
    match fields.lookup "id" with
    | some (.str id) => some (stripTable table id, .object fields)
    | _ => none
  | _ => none

/-- A record as `SELECT * OMIT` returns it. -/
def selectRow (table rawId : String) (fields : Fields) : Json :=
  omitFields (env.opaqueFields table) (rowJson table rawId fields)

/-- `Replica::read_row_for_hash`. -/
def readRowForHash (table key : String) (rows : Rows) : Option (String × Json) :=
  (rows[key]?.map (env.selectRow table key)).bind (env.hashPairFor table)

/-- The digest a pair enters a hash with. -/
def pairDigest (pair : String × Json) : String × Digest :=
  (pair.1, jsonRecordDigest env.blake3 env.num pair.1 pair.2)

/-- The digest of a row as a scan reads it. -/
def rowDigest (table rawId : String) (fields : Fields) : Digest :=
  jsonRecordDigest env.blake3 env.num rawId (env.selectRow table rawId fields)

/-- The statement of an operation: the rows after it, whether one was sent at all, and the row it
    returns. Nothing when it fails. -/
def execute (op : RecordOp) (key : String) (record : Option Json) (rows : Rows) :
    Option (Rows × Bool × Option Fields) :=
  match op, record with
  | .delete, _ => some (rows.erase key, true, rows[key]?)
  | _, none => some (rows, false, none)
  | .create, some (.object data) =>
    let content := data.filter fun kv => kv.1 != "id"
    if rows.contains key then none else some (rows.insert key content, true, some content)
  | .update, some (.object data) =>
    let content := env.merge (rows[key]?.getD []) (data.filter fun kv => kv.1 != "id")
    some (rows.insert key content, true, some content)
  | _, some _ => none

end ReplicaEnv

/-! ## The replica -/

/-- The text of a table hash: an accumulator, or another format. -/
inductive TableHash where
  | x3 (acc : Digest)
  | foreign (text : String)
deriving DecidableEq

/-- `RangeBuild`. -/
structure RangeBuild where
  table : String
  ranges : RangeHashes
  scanned : Nat

/-- `Replica`. -/
structure Replica where
  rows : String → Rows
  snapshotSeq : Nat
  applying : Bool
  snapshotHashes : ExtTreeMap String TableHash
  knownTables : ExtTreeSet String
  dirtyHashes : ExtTreeSet String
  ranges : ExtTreeMap String RangeHashes
  rangesUnsupported : ExtTreeSet String
  rangeBuild : Option RangeBuild

/-- `ContentHash`. -/
structure ContentHash where
  hash : TableHash
  ranges : Option RangeHashes

/-- Which of the reads and writes of an `apply` fail. -/
structure Faults where
  storedRv : Bool
  before : Bool
  write : Bool
  image : Bool
deriving Repr

namespace Replica

/-- A new replica. -/
def new : Replica := ⟨fun _ => ∅, 0, false, ∅, ∅, ∅, ∅, ∅, none⟩

/-- `Replica::drop_range_build`. -/
def dropRangeBuild (r : Replica) (table : String) : Replica :=
  { r with rangeBuild := r.rangeBuild.filter fun b => b.table != table }

/-- `Replica::mark_ranges_unsupported`. -/
def markRangesUnsupported (r : Replica) (table : String) : Replica :=
  { r with
      rangesUnsupported := r.rangesUnsupported.insert table
      ranges := r.ranges.erase table }.dropRangeBuild table

/-- The flag for a hash from content. -/
def markDirty (r : Replica) (table : String) : Replica :=
  { r with dirtyHashes := r.dirtyHashes.insert table }

/-- The windows a build has read take a change as well. -/
def foldBuild (r : Replica) (table : String) (before after : Option (String × Digest)) : Replica :=
  match r.rangeBuild with
  | none => r
  | some b =>
    if b.table = table then
      match b.ranges.foldInto before after (some b.scanned) with
      | some ranges => { r with rangeBuild := some { b with ranges := ranges } }
      | none => r.markRangesUnsupported table
    else r

/-- `Replica::fold_hash_delta`. -/
def foldHashDelta (env : ReplicaEnv) (r : Replica) (table : String)
    (before after : Option (String × Json)) : Replica :=
  match r.snapshotHashes[table]? with
  | none => r
  | some (.foreign _) => (r.markDirty table).dropRangeBuild table
  | some (.x3 acc) =>
    let before := before.map env.pairDigest
    let after := after.map env.pairDigest
    let acc := (before.toList ++ after.toList).foldl (fun acc p => acc ^^^ p.2) acc
    let r := { r with snapshotHashes := r.snapshotHashes.insert table (.x3 acc) }
    match r.ranges[table]? with
    | none => r.foldBuild table before after
    | some ranges =>
      match ranges.foldInto before after none with
      | none => r.markRangesUnsupported table
      | some ranges =>
        { r with ranges := r.ranges.insert table ranges }.foldBuild table before after

/-- An event is folded into the table's hash. -/
def tracking (r : Replica) (table : String) : Bool :=
  !tableExcludedFromSync table && r.snapshotHashes.contains table && !r.dirtyHashes.contains table

/-- The tables the replica has seen an event of, and the flag for one that has no hash. -/
def touch (r : Replica) (table : String) : Replica :=
  { r with
    knownTables := if !tableExcludedFromSync table then r.knownTables.insert table else r.knownTables
    dirtyHashes :=
      if !tableExcludedFromSync table && !r.snapshotHashes.contains table then
        r.dirtyHashes.insert table
      else r.dirtyHashes }

/-- The rows of a table replaced. -/
def withRows (r : Replica) (table : String) (rows : Rows) : Replica :=
  { r with rows := Function.update r.rows table rows }

/-- `Replica::apply`; the answer is whether it returns `Ok`. -/
def apply (env : ReplicaEnv) (r : Replica) (table : String) (op : RecordOp) (id : String)
    (record : Option Json) (faults : Faults) : Replica × Bool :=
  let synced := !tableExcludedFromSync table
  let key := env.recordKey table (buildThingId table id)
  let rows := r.rows table
  let tracking := r.tracking table
  let r := r.touch table
  -- a row that is not older than the incoming one has nothing to learn from it
  if op ≠ .delete ∧ ((recordRv record).any fun incoming =>
      !faults.storedRv && (storedRv key rows).any fun stored => incoming ≤ stored) then (r, true)
  else
    -- a read or an image that is missing because it failed is `none`
    let read : Option (Option (String × Json)) :=
      if tracking && op = .update then
        if faults.before then none else some (env.readRowForHash table key rows)
      else some none
    let result := (env.execute op key record rows).filter fun result =>
      !(faults.write && result.2.1)
    match result with
    | none => (r, false)
    | some (rows, sent, returned) =>
      let r := r.withRows table rows
      let image : Option (Option (String × Json)) :=
        if sent then
          if faults.image then none
          else some (returned.bind fun fields => env.hashPairFor table (rowJson table key fields))
        else some none
      if tracking then
        match read, image with
        | some read, some image =>
          (if op = .delete then r.foldHashDelta env table image none
            else r.foldHashDelta env table read image, true)
        | _, _ => ((r.markDirty table).dropRangeBuild table, true)
      else (if synced then r.dropRangeBuild table else r, true)

/-! ## Hashes from content -/

/-- `Replica::scan_window`. -/
def scanWindow (env : ReplicaEnv) (r : Replica) (table : String) (ranges : RangeHashes) (i : Nat) :
    Option RangeHashes :=
  ranges.scanInto i (ranges.windowRows env.other (env.rowDigest table) (r.rows table) i)

/-- `Replica::hash_one_table_paged`. -/
def hashOneTablePaged (env : ReplicaEnv) (r : Replica) (table : String) : Digest :=
  tally (· ^^^ ·) 0 (env.rowDigest table) (r.rows table)

/-- `Replica::hash_one_table`, with the boundary keys the database returned. -/
def hashOneTable (env : ReplicaEnv) (r : Replica) (table : String)
    (boundaries : Option (List String)) : ContentHash :=
  let scanned := (boundaries.bind RangeHashes.fromBoundaries).bind fun ranges =>
    (List.range ranges.len).foldlM (r.scanWindow env table) ranges
  match scanned with
  | some ranges => ⟨.x3 ranges.total, some ranges⟩
  | none => ⟨.x3 (r.hashOneTablePaged env table), none⟩

/-- `Replica::compute_hashes_for`. The database answers with the boundary keys of a table, or
    fails. -/
def computeHashesFor (env : ReplicaEnv) (r : Replica) (touched : Option (List String))
    (database : String → Option (Option (List String))) :
    List (String × ContentHash) × List String :=
  let toHash := (r.dirtyHashes.insertMany (touched.getD r.knownTables.toList)).toList
  (toHash.filterMap fun table =>
    (database table).map fun boundaries => (table, r.hashOneTable env table boundaries),
    toHash.filter fun table => (database table).isNone)

/-- `Replica::install_ranges`. -/
def installRanges (r : Replica) (table : String) (ranges : Option RangeHashes) : Replica :=
  let r : Replica :=
    match ranges with
    | some ranges =>
      { r with
        ranges := r.ranges.insert table ranges
        rangesUnsupported := r.rangesUnsupported.erase table }
    | none =>
      { r with
        ranges := r.ranges.erase table
        rangesUnsupported := r.rangesUnsupported.insert table }
  r.dropRangeBuild table

/-- A table's hash and ranges from its content. -/
def commitHash (r : Replica) (hashed : String × ContentHash) : Replica :=
  let r := { r with dirtyHashes := r.dirtyHashes.erase hashed.1 }.installRanges hashed.1
    hashed.2.ranges
  { r with snapshotHashes := r.snapshotHashes.insert hashed.1 hashed.2.hash }

/-- `Replica::commit_snapshot_state`; only the marker depends on whether the state is persisted. -/
def commitSnapshotState (r : Replica) (seq : Nat) (hashed : List (String × ContentHash))
    (failed : List String) (persisted : Bool) : Replica :=
  let r := failed.foldl markDirty (hashed.foldl commitHash { r with snapshotSeq := seq })
  { r with applying := r.applying && !persisted }

/-- `Replica::mark_tables_dirty`. -/
def markTablesDirty (r : Replica) (tables : List String) : Replica :=
  (tables.filter fun table => !tableExcludedFromSync table).foldl markDirty r

/-! ## Range builds -/

/-- `Replica::range_build_start`, over boundary keys the database returned. -/
def rangeBuildStart (r : Replica) (table : String) (boundaries : Option (List String)) : Replica :=
  match boundaries.bind RangeHashes.fromBoundaries with
  | none => r
  | some ranges =>
    if r.snapshotHashes.contains table && !r.dirtyHashes.contains table then
      { r with rangeBuild := some ⟨table, ranges, 0⟩ }
    else r

/-- `Replica::range_build_step`. -/
def rangeBuildStep (env : ReplicaEnv) (r : Replica) : Replica :=
  match r.rangeBuild with
  | none => r
  | some b =>
    if b.scanned = b.ranges.len then r
    else
      { r with
        rangeBuild := (r.scanWindow env b.table b.ranges b.scanned).map fun ranges =>
          ⟨b.table, ranges, b.scanned + 1⟩ }

/-- `Replica::range_build_abandon`. -/
def rangeBuildAbandon (r : Replica) : Replica := { r with rangeBuild := none }

/-- `Replica::range_build_finish`. -/
def rangeBuildFinish (r : Replica) : Replica :=
  match r.rangeBuild with
  | none => r
  | some b =>
    let r := r.rangeBuildAbandon
    if b.scanned < b.ranges.len then r
    else if r.dirtyHashes.contains b.table ||
        r.snapshotHashes[b.table]? != some (.x3 b.ranges.total) then r
    else { r with ranges := r.ranges.insert b.table b.ranges }

end Replica

/-! ## Runs -/

/-- The replica, and what a hash from content computed and its caller has not committed. -/
structure ReplicaSystem where
  replica : Replica
  computed : Option (List (String × ContentHash) × List String)

/-- What can happen next. -/
inductive ReplicaAction where
  | apply (table : String) (op : RecordOp) (id : String) (record : Option Json) (faults : Faults)
  | beginApply (persisted : Bool)
  | computeHashes (touched : Option (List String))
      (database : String → Option (Option (List String)))
  | commit (seq : Nat) (persisted : Bool)
  | markTablesDirty (tables : List String)
  | rangeBuildStart (table : String) (boundaries : Option (List String))
  | rangeBuildStep
  | rangeBuildAbandon
  | rangeBuildFinish
  | markRangesUnsupported (table : String)

/-- One step. An event is applied and a hash computed under `drain_lock`, which is held until the
    hash is committed. -/
def ReplicaSystem.step (env : ReplicaEnv) (s : ReplicaSystem) : ReplicaAction → Option ReplicaSystem
  | .apply table op id record faults =>
    if s.computed.isSome then none
    else some { s with replica := (s.replica.apply env table op id record faults).1 }
  | .beginApply persisted =>
    some { s with replica := { s.replica with applying := s.replica.applying || persisted } }
  | .computeHashes touched database =>
    if s.computed.isSome then none
    else some { s with computed := some (s.replica.computeHashesFor env touched database) }
  | .commit seq persisted => s.computed.map fun computed =>
    ⟨s.replica.commitSnapshotState seq computed.1 computed.2 persisted, none⟩
  | .markTablesDirty tables => some { s with replica := s.replica.markTablesDirty tables }
  | .rangeBuildStart table boundaries =>
    some { s with replica := s.replica.rangeBuildStart table boundaries }
  | .rangeBuildStep => some { s with replica := s.replica.rangeBuildStep env }
  | .rangeBuildAbandon => some { s with replica := s.replica.rangeBuildAbandon }
  | .rangeBuildFinish => some { s with replica := s.replica.rangeBuildFinish }
  | .markRangesUnsupported table =>
    some { s with replica := s.replica.markRangesUnsupported table }

end Sp00ky.Scheduler
