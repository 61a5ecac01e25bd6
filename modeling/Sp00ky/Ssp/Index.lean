/-
  Secondary indexes (`circuit/index.rs`, the index type) and the source operators
  that read them (`operator/index_scan.rs`).

  An index is the sorted list of `(indexed values, row key)` over a table's rows,
  built from the rows: `with_index` builds it on first use and every write keeps
  it in step, so a reader sees the index of the current rows. `rank` is the
  number of entries before the first one that is not smaller.
-/
import Sp00ky.Ssp.TopK

namespace Sp00ky.Ssp

open Lib

/-! ## Indexes -/

/-- `IndexDef`. -/
structure IndexDef where
  name : String
  fields : List String
deriving DecidableEq, Repr

/-- `IndexDef::paths`. -/
def IndexDef.paths (d : IndexDef) : List Path := d.fields.map Path.new

/-- Derived `Ord for IndexDef`: the name, then the fields. -/
def IndexDef.cmp (a b : IndexDef) : Ordering :=
  (compare a.name b.name).then (lexCmp compare a.fields b.fields)

/-- `IndexKey`: the indexed values of a row, in index field order. -/
abbrev IndexKey := List Scalar

/-- Order of index entries: values lexicographically, then the row key. -/
def indexCmp (a b : IndexKey × String) : Ordering :=
  match lexCmp Scalar.cmp a.1 b.1 with
  | .eq => compare a.2 b.2
  | o => o

/-- `OrderedIndex`: every row of the table, ordered. -/
structure OrderedIndex where
  entries : List (IndexKey × String)

/-- `OrderedIndex::key_of`. -/
def indexKeyOf (paths : List Path) (row : Sp00kyValue) : IndexKey :=
  paths.map fun p => Scalar.ofValue (resolveField (some row) p)

/-- `Collection::build_index`. -/
def Collection.buildIndex (c : Collection) (d : IndexDef) : OrderedIndex :=
  ⟨sortBy indexCmp (c.rows.toList.map fun ir => (indexKeyOf d.paths ir.2.value, c.keyOf ir.1))⟩

namespace OrderedIndex

/-- `BTreeSet::rank`. -/
def rank (ix : OrderedIndex) (e : IndexKey × String) : Nat :=
  (ix.entries.takeWhile fun x => indexCmp x e == .lt).length

/-- `prefix_range`: the positions of the entries whose leading values equal `pre`. -/
def prefixRange (ix : OrderedIndex) (pre : IndexKey) : Nat × Nat :=
  let lo := ix.rank (pre, "")
  let hi := ix.rank (pre ++ [.top], "")
  (lo, max hi lo)

/-- `row_at`. -/
def rowAt (ix : OrderedIndex) (position : Nat) : Option String :=
  ix.entries[position]?.map Prod.snd

/-- `group_of`. -/
def groupOf (ix : OrderedIndex) (position fields : Nat) : Option (Nat × Nat) :=
  ix.entries[position]?.map fun e => ix.prefixRange (e.1.take fields)

end OrderedIndex

/-! ## Bindings -/

/-- `IndexBinding`. -/
structure IndexBinding where
  table : String
  index : IndexDef
  pre : List Json
  gates : List Predicate
deriving Repr

namespace IndexBinding

/-- One operand of the prefix as an index value. -/
def operandScalar (ctx : Option Sp00kyValue) (operand : Json) : Option Scalar :=
  match resolvePredicateValue operand ctx with
  | some v => if isOrderable (some v) then some (Scalar.ofValue (some v)) else none
  | none => none

/-- `prefix_values`. -/
def prefixValues (b : IndexBinding) (store : Store) (ctx : Option Sp00kyValue) : Option IndexKey :=
  if b.gates.all (fun g => checkPredicate g "" store ctx) then
    b.pre.mapM (operandScalar ctx)
  else none

/-- `owns`: the key starts with the table and a colon. -/
def owns (b : IndexBinding) (key : String) : Bool :=
  (b.table.toList ++ [':']).isPrefixOf key.toList

/-- `IndexBinding::range_keys`. -/
def rangeKeys (b : IndexBinding) (store : Store) (ctx : Option Sp00kyValue) : ZSet :=
  match b.prefixValues store ctx, store.getCollection b.table with
  | some pre, some c =>
    let ix := c.buildIndex b.index
    let (lo, hi) := ix.prefixRange pre
    (List.range' lo (hi - lo)).foldl
      (fun (z : ZSet) p => match ix.rowAt p with
        | some row => z.insert row 1
        | none => z) ∅
  | _, _ => ∅

end IndexBinding

/-- `IndexedScan::range_keys`. -/
def indexedRangeKeys (bindings : List IndexBinding) (store : Store) (ctx : Option Sp00kyValue) :
    ZSet :=
  bindings.foldl (fun z b => (b.rangeKeys store ctx).foldl (fun z k _ => z.insert k 1) z) ∅

/-- `KeyScan::start`: the row the operand names, when the table holds it. -/
def keyScanStart (table : String) (key : Json) (store : Store) (ctx : Option Sp00kyValue) : ZSet :=
  match resolvePredicateValue key ctx with
  | some (.str k) =>
    if (table.toList ++ [':']).isPrefixOf k.toList
        && (store.getCollection table).any (fun c => c.hasKey k) then
      {(k, 1)}
    else ∅
  | _ => ∅

/-! ## Index windows -/

/-- `IndexWindow`. -/
structure IndexWindow where
  binding : IndexBinding
  limit : Nat
  offset : Nat
  descending : List Bool
  window : List String
  readAt : Option Nat
deriving Repr

namespace IndexWindow

/-- `IndexWindow::new`. -/
def new (binding : IndexBinding) (limit offset : Nat) (descending : List Bool) : IndexWindow :=
  ⟨binding, limit, offset, descending, [], none⟩

/-- The loop of `nth` over the `ORDER BY` fields from number `field` on: the search sits in
    positions `[a, b)` and wants the `k`-th of them. -/
def nthLoop (ix : OrderedIndex) (prefixLen : Nat) :
    List Bool → (field a b k : Nat) → Option Nat
  | [], _, a, b, k => if k < b - a then some (a + k) else none
  | desc :: ds, field, a, b, k =>
    if b - a ≤ k then none
    else
      let p := if desc then b - 1 - k else a + k
      match ix.groupOf p (prefixLen + field + 1) with
      | none => none
      | some (lo, hi) => nthLoop ix prefixLen ds (field + 1) lo hi (k - if desc then b - hi else lo - a)

/-- `IndexWindow::nth`. -/
def nth (w : IndexWindow) (ix : OrderedIndex) (prefixLen lo hi k : Nat) : Option Nat :=
  nthLoop ix prefixLen w.descending 0 lo hi k

/-- `IndexWindow::read`. -/
def read (w : IndexWindow) (store : Store) (ctx : Option Sp00kyValue) : List String :=
  match w.binding.prefixValues store ctx, store.getCollection w.binding.table with
  | some pre, some c =>
    let ix := c.buildIndex w.binding.index
    let (lo, hi) := ix.prefixRange pre
    let len := hi - lo
    if len ≤ w.offset then []
    else
      let take := min w.limit (len - w.offset)
      if w.descending.contains true then
        (List.range' w.offset take).filterMap fun k =>
          (w.nth ix pre.length lo hi k).bind ix.rowAt
      else (List.range' (lo + w.offset) take).filterMap ix.rowAt
  | _, _ => []

/-- `swap_in`: the membership change from the held window to the next. -/
def swapIn (w : IndexWindow) (next : List String) : IndexWindow × ZSet :=
  let entered := next.foldl (fun (z : ZSet) k => z.alter k (fun o => some (o.getD 0 + 1))) ∅
  let moved := w.window.foldl (fun (z : ZSet) k => z.alter k (fun o => some (o.getD 0 - 1))) entered
  ({ w with window := next }, moved.filter fun _ x => x != 0)

/-- `refresh`: re-read unless the table took no write since the last read. -/
def refresh (w : IndexWindow) (store : Store) (ctx : Option Sp00kyValue) : IndexWindow × ZSet :=
  let writes := (store.getCollection w.binding.table).map Collection.writes
  if w.readAt.isSome && w.readAt == writes then (w, ∅)
  else { w with readAt := writes }.swapIn (w.read store ctx)

/-- `IndexWindow::reset`. -/
def reset (w : IndexWindow) : IndexWindow := { w with window := [], readAt := none }

theorem refresh_reset (w : IndexWindow) (store : Store) (ctx : Option Sp00kyValue) :
    (w.refresh store ctx).1.reset = w.reset := by
  unfold refresh
  dsimp only
  split <;> rfl

end IndexWindow

end Sp00ky.Ssp
