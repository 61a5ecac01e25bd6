/-
  The window operator (`operator/top_k.rs`).

  `TopK` keeps the smallest input records in a sorted buffer of at most
  `capacity` entries and emits the window `[offset, offset + limit)` of it.
  `boundary` is the smallest entry ever dropped for want of room. The buffer is
  the sorted list of a B-tree set; positions past the machine word follow
  Rust: `saturating_add` for the capacity, wrapping for the window's end.
-/
import Sp00ky.Lib.OrderedSet
import Sp00ky.Ssp.Filter

namespace Sp00ky.Ssp

open Std Lib

/-! ## Sort keys -/

/-- `Scalar`: one orderable value. `top` is a range bound, never read from a row. -/
inductive Scalar where
  | null
  | bool (b : Bool)
  | int (i : Int)
  | float (f : F64)
  | str (s : String)
  | top
deriving DecidableEq, Repr

/-- `Scalar::rank`. -/
def Scalar.rank : Scalar → Nat
  | .null => 0
  | .bool _ => 1
  | .int _ | .float _ => 2
  | .str _ => 3
  | .top => 255

/-- `Ord for Scalar`. Floats compare by `total_cmp`, also against integers. -/
def Scalar.cmp (a b : Scalar) : Ordering :=
  match compare a.rank b.rank with
  | .eq =>
    match a, b with
    | .bool x, .bool y => compare x y
    | .int x, .int y => compare x y
    | .float x, .float y => F64.totalCmp x y
    | .int x, .float y => F64.totalCmp (F64.ofInt x) y
    | .float x, .int y => F64.totalCmp x (F64.ofInt y)
    | .str x, .str y => compare x y
    | _, _ => .eq
  | o => o

/-- `SortableValue`: a scalar with the direction of its `ORDER BY` field. -/
structure SortableValue where
  scalar : Scalar
  descending : Bool
deriving DecidableEq, Repr

/-- `Ord for SortableValue`. -/
def SortableValue.cmp (a b : SortableValue) : Ordering :=
  if a.descending then (a.scalar.cmp b.scalar).swap else a.scalar.cmp b.scalar

/-- The scalar of `SortableValue::from_value`: containers sort with nulls. -/
def Scalar.ofValue : ValueRef → Scalar
  | some (.bool b) => .bool b
  | some (.int i) => .int i
  | some (.float f) => .float f
  | some (.str s) => .str s
  | _ => .null

/-- `SortableValue::is_orderable`. -/
def isOrderable : ValueRef → Bool
  | some (.bool _) => true
  | some (.int _) => true
  | some (.float _) => true
  | some (.str _) => true
  | _ => false

/-- `SortKey`: one value per `ORDER BY` field. -/
abbrev SortKey := List SortableValue

/-- Lexicographic comparison of slices: a proper prefix is smaller. -/
def lexCmp {α : Type} (cmp : α → α → Ordering) : List α → List α → Ordering
  | [], [] => .eq
  | [], _ :: _ => .lt
  | _ :: _, [] => .gt
  | a :: as, b :: bs =>
    match cmp a b with
    | .eq => lexCmp cmp as bs
    | o => o

/-- A buffered record: its sort key, then its row key. -/
abbrev Entry := SortKey × String

/-- Tuple order of entries. -/
def Entry.cmp (a b : Entry) : Ordering :=
  match lexCmp SortableValue.cmp a.1 b.1 with
  | .eq => compare a.2 b.2
  | o => o

/-! ## The operator -/

/-- Largest `usize`. -/
def usizeMax : Nat := 2 ^ 64 - 1

/-- `usize::saturating_add`. -/
def saturatingAdd (a b : Nat) : Nat := min (a + b) usizeMax

/-- `MIN_SLACK`. -/
def minSlack : Nat := 16

/-- `TopK`. -/
structure TopK where
  limit : Nat
  offset : Nat
  orderBy : Option (List OrderSpec)
  buffer : List Entry
  keyIndex : ExtTreeMap String SortKey
  capacity : Nat
  boundary : Option Entry

namespace TopK

/-- `TopK::new`. -/
def new (limit offset : Nat) (orderBy : Option (List OrderSpec)) : TopK :=
  ⟨limit, offset, orderBy, [], ∅,
    saturatingAdd (saturatingAdd offset limit) (max limit minSlack), none⟩

/-- `TopK::reset`. -/
def reset (t : TopK) : TopK := { t with buffer := [], keyIndex := ∅, boundary := none }

/-- `lower_boundary`: the boundary is the smallest dropped entry. -/
def lowerBoundary (t : TopK) (e : Entry) : TopK :=
  if t.boundary.all (fun b => Entry.cmp e b == .lt) then { t with boundary := some e } else t

/-- `compute_sort_key`. -/
def computeSortKey (orderBy : Option (List OrderSpec)) (key : String) (store : Store) : SortKey :=
  match orderBy with
  | some orders =>
    orders.map fun o => ⟨Scalar.ofValue (resolveField (store.getRowByKey key) o.field), o.isDesc⟩
  | none => [⟨.str key, false⟩]

/-- `current_window`. -/
def currentWindow (t : TopK) : List String :=
  let n := t.buffer.length
  if n ≤ t.offset then []
  else
    let stop := min ((t.offset + t.limit) % (usizeMax + 1)) n
    ((t.buffer.drop t.offset).take (stop - t.offset)).map Prod.snd

/-- Drop the buffered entry of `key`, if any. -/
def evict (t : TopK) (key : String) : TopK :=
  match t.keyIndex[key]? with
  | none => t
  | some sk =>
    { t with keyIndex := t.keyIndex.erase key, buffer := removeBy Entry.cmp (sk, key) t.buffer }

/-- The insertion of one record: past the boundary, or past a full buffer, it only lowers
    the boundary; an overflowing buffer drops its last entry. -/
def insertEntry (t : TopK) (e : Entry) : TopK :=
  let fullAndLarger :=
    t.capacity ≤ t.buffer.length && t.buffer.getLast?.any (fun last => Entry.cmp e last == .gt)
  if fullAndLarger || t.boundary.any (fun b => Entry.cmp e b != .lt) then t.lowerBoundary e
  else
    let t' : TopK :=
      { t with keyIndex := t.keyIndex.insert e.2 e.1, buffer := insertBy Entry.cmp e t.buffer }
    if t'.capacity < t'.buffer.length then
      match t'.buffer.getLast? with
      | some evicted =>
        { t' with
            buffer := t'.buffer.dropLast
            keyIndex := t'.keyIndex.erase evicted.2 }.lowerBoundary evicted
      | none => t'
    else t'

/-- One entry of the input delta. -/
def stepKey (store : Store) (t : TopK) (kw : String × Int) : TopK :=
  if 0 < kw.2 then
    (t.evict kw.1).insertEntry (computeSortKey t.orderBy kw.1 store, kw.1)
  else if kw.2 < 0 then t.evict kw.1
  else t

/-- The displacement delta between two windows: `+1` for entrants, `-1` for leavers. -/
def windowDelta (old new : List String) : ZSet :=
  let entered := new.foldl
    (fun (z : ZSet) k => if old.contains k then z else z.alter k (fun w => some (w.getD 0 + 1))) ∅
  let moved := old.foldl
    (fun (z : ZSet) k => if new.contains k then z else z.alter k (fun w => some (w.getD 0 - 1)))
    entered
  moved.filter fun _ w => w != 0

/-- `TopK::step`, the delta's keys visited in hash order. -/
def step (ho : HashOrder) (store : Store) (t : TopK) (delta : ZSet) : TopK × ZSet :=
  let t' := (entriesIn delta (ho.visit delta.keys)).foldl (stepKey store) t
  (t', windowDelta t.currentWindow t'.currentWindow)

/-- `TopK::snapshot`. -/
def snapshot (t : TopK) (upstream : ZSet) (store : Store) : ZSet :=
  let items := (upstream.toList.filter (fun kw => 0 < kw.2)).map
    fun kw => (computeSortKey t.orderBy kw.1 store, kw.1)
  (((sortBy Entry.cmp items).drop t.offset).take t.limit).foldl
    (fun (z : ZSet) e => z.insert e.2 1) ∅

/-- `TopK::needs_rebuild`. -/
def needsRebuild (t : TopK) : Bool :=
  t.boundary.isSome && t.buffer.length < saturatingAdd t.offset t.limit

/-- `TopK::evaluate_key`. -/
def evaluateKey (t : TopK) (key : String) (inputEvals : List Bool) : Bool :=
  inputEvals.headD false && t.currentWindow.contains key

/-- The sum of two deltas with zero entries kept, as `reorder_key` folds them. -/
def foldDelta (out delta : ZSet) : ZSet :=
  foldAlter (fun _ old w => some (old.getD 0 + w)) out delta

/-- `TopK::reorder_key`: retract under the old sort key, insert under the new one. -/
def reorderKey (ho : HashOrder) (store : Store) (t : TopK) (key : String) (upstreamNow : Bool) :
    TopK × ZSet :=
  let r1 : TopK × ZSet :=
    if t.keyIndex.contains key then t.step ho store {(key, -1)} else (t, ∅)
  let r2 : TopK × ZSet :=
    if upstreamNow then r1.1.step ho store {(key, 1)} else (r1.1, ∅)
  (r2.1, (foldDelta (foldDelta ∅ r1.2) r2.2).filter fun _ w => w != 0)

/-! A step changes the buffer, its index and the boundary only. -/

theorem lowerBoundary_reset (t : TopK) (e : Entry) : (t.lowerBoundary e).reset = t.reset := by
  unfold lowerBoundary
  split <;> rfl

theorem evict_reset (t : TopK) (key : String) : (t.evict key).reset = t.reset := by
  unfold evict
  split <;> rfl

theorem insertEntry_reset (t : TopK) (e : Entry) : (t.insertEntry e).reset = t.reset := by
  unfold insertEntry
  dsimp only
  split
  · exact lowerBoundary_reset t e
  · split
    · split
      · exact lowerBoundary_reset _ _
      · rfl
    · rfl

theorem stepKey_reset (store : Store) (t : TopK) (kw : String × Int) :
    (stepKey store t kw).reset = t.reset := by
  unfold stepKey
  split
  · rw [insertEntry_reset, evict_reset]
  · split
    · exact evict_reset t kw.1
    · rfl

theorem foldl_stepKey_reset (store : Store) (l : List (String × Int)) (t : TopK) :
    (l.foldl (stepKey store) t).reset = t.reset := by
  induction l generalizing t with
  | nil => rfl
  | cons kw l ih => rw [List.foldl_cons, ih, stepKey_reset]

theorem step_reset (ho : HashOrder) (store : Store) (t : TopK) (delta : ZSet) :
    (t.step ho store delta).1.reset = t.reset :=
  foldl_stepKey_reset store _ t

theorem reorderKey_reset (ho : HashOrder) (store : Store) (t : TopK) (key : String)
    (upstreamNow : Bool) : (t.reorderKey ho store key upstreamNow).1.reset = t.reset := by
  unfold reorderKey
  dsimp only
  split <;> split <;> simp only [step_reset]

end TopK

end Sp00ky.Ssp
