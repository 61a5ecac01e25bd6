/-
  Base collections (`algebra/zset.rs`, `circuit/store.rs`).

  A Z-set is a map from row keys to weights. A collection holds its rows by raw
  id, each with the digest of its record header. `Collection.apply` is driven by
  presence, not by the verb: `+1` for a row that appears, `-1` for one that goes,
  `0` for one that stays, and nothing at all for a write whose digest matches.

  `Store.named` says that a collection sits under its own name, so that the keys
  a collection hands out start with the name it is looked up by. The membership
  Z-set and the secondary indexes are functions of the rows and are computed from
  them here; the caches that keep them in step are not modelled.
-/
import Sp00ky.Lib.Maps
import Sp00ky.Ssp.Plan

namespace Sp00ky.Ssp

open Std Lib

/-! ## Z-sets -/

/-- `ZSet`: row keys to integer weights. -/
abbrev ZSet := ExtTreeMap String Int

namespace ZSet

/-- The weight of a key, zero when absent. -/
def weight (z : ZSet) (k : String) : Int := z[k]?.getD 0

/-- `ZSetOps::add`: pointwise sum, zero entries removed. -/
def add (a b : ZSet) : ZSet :=
  foldAlter (fun _ old w => if old.getD 0 + w = 0 then none else some (old.getD 0 + w)) a b

theorem getElem?_add (a b : ZSet) (k : String) :
    (add a b)[k]? =
      match b[k]? with
      | none => a[k]?
      | some w => if a.weight k + w = 0 then none else some (a.weight k + w) := by
  rw [add, getElem?_foldAlter]
  cases b[k]? <;> rfl

theorem weight_add (a b : ZSet) (k : String) : (add a b).weight k = a.weight k + b.weight k := by
  simp only [weight, getElem?_add]
  cases b[k]? with
  | none => simp
  | some w =>
    by_cases h : a[k]?.getD 0 + w = 0
    · simp [h]
    · simp [h]

/-- No entry has weight zero. -/
def NoZero (z : ZSet) : Prop := ∀ k : String, z[k]? ≠ some 0

end ZSet

/-! ## Rows and collections -/

/-- A stored row: its body and the digest in its header. -/
structure Row where
  value : Sp00kyValue
  digest : BitVec 256
deriving Repr

/-- `rv_of`: the `_00_rv` the encoder lifts out of the body, integers only. -/
def Row.rv (r : Row) : Option Int :=
  match r.value.get "_00_rv" with
  | some (.int v) => some v
  | _ => none

/-- `Operation`. -/
inductive Operation where
  | create | update | merge | delete
deriving DecidableEq, Repr

/-- `Applied`: what one mutation did to its collection. -/
structure Applied where
  key : String
  weight : Int
  contentChanged : Bool
deriving DecidableEq, Repr

/-- `ALWAYS_RETAINED`. -/
def alwaysRetained : List String := ["id", "_00_rv"]

/-- `Collection`. -/
structure Collection where
  name : String
  rows : ExtTreeMap String Row
  catchupXor : BitVec 256
  retained : Option (ExtTreeSet String)
  writes : Nat

namespace Collection

/-- `Collection::new`. -/
def new (name : String) : Collection := ⟨name, ∅, 0, none, 0⟩

/-- The Z-set key of the row stored under `id`. -/
def keyOf (c : Collection) (id : String) : String := c.name ++ ":" ++ id

/-- `RowTable::get`. -/
def get (c : Collection) (id : String) : ValueRef := c.rows[id]?.map Row.value

/-- `Collection::membership`: `{table:id -> 1}` over every row. -/
def membership (c : Collection) : ZSet :=
  c.rows.foldl (fun z id _ => z.insert (c.keyOf id) 1) ∅

/-- `Collection::has_key`: the raw id alone decides. -/
def hasKey (c : Collection) (key : String) : Bool := c.rows.contains (rawId key)

/-- `Collection::project`. -/
def project (c : Collection) (value : Sp00kyValue) : Sp00kyValue :=
  match c.retained, value with
  | some keep, .object fields =>
    .object (fields.filter fun kv => keep.contains kv.1 || alwaysRetained.contains kv.1)
  | _, v => v

/-- The body that a `Create`, `Update` or `Merge` stores: `Merge` overlays the incoming
    fields on a present object row, then the projection applies. -/
def incoming (c : Collection) (op : Operation) (id : String) (data : Sp00kyValue) : Sp00kyValue :=
  c.project <|
    if op = .merge then
      match c.get id, data with
      | some (.object base), .object fields => .object (fieldsExtend base fields)
      | _, d => d
    else data

/-- `Collection::apply`. -/
def apply (env : Env) (c : Collection) (op : Operation) (id : String) (data : Sp00kyValue) :
    Collection × Applied :=
  let normalized := rawId id
  let key := makeKey c.name id
  if op = .delete then
    match c.rows[normalized]? with
    | none => (c, ⟨key, 0, false⟩)
    | some old =>
      ({ c with
          rows := c.rows.erase normalized
          catchupXor := c.catchupXor ^^^ old.digest
          writes := c.writes + 1 },
        ⟨key, -1, true⟩)
  else
    let stored := c.rows[normalized]?
    let body := c.incoming op normalized data
    let digest := env.digest normalized body
    if stored.any (·.digest == digest) then (c, ⟨key, 0, false⟩)
    else
      ({ c with
          rows := c.rows.insert normalized ⟨body, digest⟩
          catchupXor := c.catchupXor ^^^ (stored.map Row.digest).getD 0 ^^^ digest
          writes := c.writes + 1 },
        ⟨key, if stored.isSome then 0 else 1, true⟩)

theorem apply_name (env : Env) (c : Collection) (op : Operation) (id : String)
    (data : Sp00kyValue) : (c.apply env op id data).1.name = c.name := by
  unfold apply
  dsimp only
  split
  · split <;> rfl
  · split <;> rfl

theorem apply_key (env : Env) (c : Collection) (op : Operation) (id : String)
    (data : Sp00kyValue) : (c.apply env op id data).2.key = makeKey c.name id := by
  unfold apply
  dsimp only
  split
  · split <;> rfl
  · split <;> rfl

end Collection

/-! ## The store -/

/-- `Store`, with every collection under its own name. -/
structure Store where
  collections : ExtTreeMap String Collection
  pendingDeletedRows : ExtTreeMap String Sp00kyValue
  named : ∀ (t : String) (c : Collection), collections[t]? = some c → c.name = t

/-- `Change`. -/
structure Change where
  table : String
  op : Operation
  id : String
  data : Sp00kyValue
deriving Repr

/-- `Record`: one row of a bulk load. -/
structure Record where
  table : String
  id : String
  data : Sp00kyValue
deriving Repr

namespace Store

/-- `Store::new`. -/
def new : Store := ⟨∅, ∅, by simp⟩

/-- `Store::get_collection`. -/
def getCollection (s : Store) (name : String) : Option Collection := s.collections[name]?

/-- The collection `ensure_collection` hands out. -/
def collectionOrNew (s : Store) (name : String) : Collection :=
  s.collections[name]?.getD (Collection.new name)

theorem collectionOrNew_name (s : Store) (name : String) : (s.collectionOrNew name).name = name := by
  unfold collectionOrNew
  cases h : s.collections[name]? with
  | none => rfl
  | some c => exact s.named name c h

/-- Put a collection back under its name. -/
def setCollection (s : Store) (c : Collection) : Store where
  collections := s.collections.insert c.name c
  pendingDeletedRows := s.pendingDeletedRows
  named := by
    intro t c' h
    rw [ExtTreeMap.getElem?_insert] at h
    split at h
    · next heq =>
      cases h
      exact LawfulEqCmp.compare_eq_iff_eq.mp heq
    · exact s.named t c' h

/-- `Store::apply_owned`. -/
def applyOwned (env : Env) (s : Store) (table : String) (op : Operation) (id : String)
    (data : Sp00kyValue) : Store × Applied :=
  let r := (s.collectionOrNew table).apply env op id data
  (s.setCollection r.1, r.2)

/-- `Store::set_retained_fields`. -/
def setRetainedFields (s : Store) (table : String) (fields : Option (ExtTreeSet String)) : Store :=
  s.setCollection { s.collectionOrNew table with retained := fields }

/-- `Store::get_row_by_key`: the raw id first, then the whole key as an id. -/
def getRowByKey (s : Store) (key : String) : ValueRef :=
  match parseKey key with
  | none => none
  | some (table, id) =>
    match s.collections[table]? with
    | none => none
    | some c =>
      match c.get id with
      | none => c.get key
      | some v => some v

/-- `Store::get_row_by_key_or_deleted`. -/
def getRowByKeyOrDeleted (s : Store) (key : String) : ValueRef :=
  match s.getRowByKey key with
  | none => s.pendingDeletedRows[key]?
  | some v => some v

/-- `Store::stage_deleted_row`. -/
def stageDeletedRow (s : Store) (table id : String) : Store :=
  let key := makeKey table id
  match s.getRowByKey key with
  | none => s
  | some row => { s with pendingDeletedRows := s.pendingDeletedRows.insert key row }

/-- `Store::clear_pending_deleted_rows`. -/
def clearPendingDeletedRows (s : Store) : Store := { s with pendingDeletedRows := ∅ }

end Store

end Sp00ky.Ssp
