/-
  Indexed presence joins (`operator/witness.rs`), shared by the semi- and the
  anti-join.

  Each input row is kept with its weight and the join value it had when it was
  last read. `rightByHash` counts the right rows of each exact value;
  `hasWitness` looks a value up by hash and then by `compare_values`, and
  `hasPointWitness` adds the type summaries. The loops over hash sets visit keys
  in sorted order: nothing they leave behind depends on the order. Counts are
  natural numbers; `(n as i64 + delta) as usize` is truncated at zero.
-/
import Sp00ky.Ssp.TopK

namespace Sp00ky.Ssp

open Std Lib

/-! ## Exact values -/

/-- `WitnessValue`: a join value up to its exact representation; containers by kind. -/
inductive WitnessValue where
  | null
  | bool (b : Bool)
  | int (i : Int)
  | float (f : F64)
  | str (s : String)
  | array
  | object
deriving DecidableEq, Repr

namespace WitnessValue

/-- The representation `InputRow::read` keeps of a value. -/
def ofValue : Sp00kyValue → WitnessValue
  | .null => .null
  | .bool b => .bool b
  | .int i => .int i
  | .float f => .float f
  | .str s => .str s
  | .array _ => .array
  | .object _ => .object

/-- `WitnessValue::as_ref`. -/
def toValue : WitnessValue → Sp00kyValue
  | .null => .null
  | .bool b => .bool b
  | .int i => .int i
  | .float f => .float f
  | .str s => .str s
  | .array => .array []
  | .object => .object []

/-- `WitnessValue::kind`. -/
def kind : WitnessValue → Fin 7
  | .null => 0
  | .bool _ => 1
  | .int _ => 2
  | .float _ => 3
  | .str _ => 4
  | .array => 5
  | .object => 6

/-- `WitnessValue::is_nan`. -/
def isNan : WitnessValue → Bool
  | .float f => f.isNan
  | _ => false

/-- The number inside a value, to order values of one kind by. -/
def payload : WitnessValue → Int
  | .bool b => if b then 1 else 0
  | .int i => i
  | .float f => f.bits.toNat
  | _ => 0

/-- The text inside a value. -/
def text : WitnessValue → String
  | .str s => s
  | _ => ""

theorem ext_of_parts {a b : WitnessValue} (hk : a.kind = b.kind) (hp : a.payload = b.payload)
    (ht : a.text = b.text) : a = b := by
  cases a <;> cases b <;> simp_all [kind, payload, text]
  · rename_i x y
    cases x <;> cases y <;> simp_all
  · rename_i x y
    have hb : x.bits = y.bits := BitVec.eq_of_toNat_eq (by omega)
    cases x
    cases y
    exact congrArg _ hb

/-- Any order will do: it only keys a hash map. -/
instance : Ord WitnessValue where
  compare := compareLex (compareOn fun a => a.kind.val)
    (compareLex (compareOn payload) (compareOn text))

instance : TransOrd WitnessValue :=
  inferInstanceAs (TransCmp (compareLex (compareOn fun a : WitnessValue => a.kind.val)
    (compareLex (compareOn payload) (compareOn text))))

instance : LawfulEqOrd WitnessValue where
  eq_of_compare := by
    intro a b h
    have h' : compareLex (compareOn fun a : WitnessValue => a.kind.val)
      (compareLex (compareOn payload) (compareOn text)) a b = .eq := h
    simp only [compareLex_eq_eq, compareOn, LawfulEqOrd.compare_eq_iff_eq] at h'
    exact ext_of_parts (Fin.ext h'.1) h'.2.1 h'.2.2

end WitnessValue

/-! ## Input rows -/

/-- `InputRow`. -/
structure InputRow where
  weight : Int
  present : Bool
  value : Option WitnessValue
deriving DecidableEq, Repr

/-- `InputRow::read`. -/
def InputRow.read (key : String) (weight : Int) (field : Path) (store : Store) : InputRow :=
  let row := store.getRowByKey key
  ⟨weight, row.isSome,
    if weight ≤ 0 then none else (resolveField row field).map WitnessValue.ofValue⟩

/-- `InputRow::hash`. -/
def InputRow.hash (env : Env) (r : InputRow) : Option UInt64 :=
  r.value.map fun v => hashValue env (some v.toValue)

/-! ## The join state -/

/-- `WitnessState`. -/
structure WitnessState where
  left : ExtTreeMap String InputRow
  right : ExtTreeMap String InputRow
  leftByHash : ExtTreeMap UInt64 (ExtTreeSet String)
  rightByHash : ExtTreeMap UInt64 (ExtTreeMap WitnessValue Nat)
  rightKindCounts : Fin 7 → Nat
  rightNanCount : Nat
  output : ExtTreeSet String
  contentUpdates : ExtTreeSet String

namespace WitnessState

/-- `WitnessState::default`. -/
def empty : WitnessState := ⟨∅, ∅, ∅, ∅, fun _ => 0, 0, ∅, ∅⟩

/-- `note_content_updates`. -/
def noteContentUpdates (s : WitnessState) (keys : List String) : WitnessState :=
  { s with contentUpdates := keys.foldl (fun acc k => acc.insert k) s.contentUpdates }

/-- `integrated_weight`. -/
def integratedWeight (s : WitnessState) (port : Nat) (key : String) : Int :=
  let rows := if port = 0 then s.left else s.right
  (rows[key]?.map InputRow.weight).getD 0

/-- `has_witness`: equal hash, then equal by `compare_values`. -/
def hasWitness (env : Env) (s : WitnessState) (value : ValueRef) : Bool :=
  match value with
  | none => false
  | some v =>
    (s.rightByHash[hashValue env (some v)]?).any fun bucket =>
      bucket.keys.any fun right => compareValues (some v) (some right.toValue) == .eq

/-- Right rows that are not null. -/
def scalarCount (s : WitnessState) : Nat :=
  s.rightKindCounts 1 + s.rightKindCounts 2 + s.rightKindCounts 3 + s.rightKindCounts 4
    + s.rightKindCounts 5 + s.rightKindCounts 6

/-- The numeric arm of `has_point_witness`. -/
def hasNumericWitness (env : Env) (s : WitnessState) (v : Sp00kyValue) (isNan isZero : Bool) :
    Bool :=
  let numericCount := s.rightKindCounts 2 + s.rightKindCounts 3
  numericCount < s.scalarCount
    || 0 < s.rightNanCount
    || (isNan && 0 < numericCount)
    || s.hasWitness env (some v)
    || (isZero && (s.hasWitness env (some (.float F64.zero))
        || s.hasWitness env (some (.float F64.negZero))))

/-- `has_point_witness`. -/
def hasPointWitness (env : Env) (s : WitnessState) (value : ValueRef) : Bool :=
  match value with
  | none => false
  | some .null => 0 < s.rightKindCounts 0
  | some (.bool b) => s.rightKindCounts 1 < s.scalarCount || s.hasWitness env (some (.bool b))
  | some (.str t) => s.rightKindCounts 4 < s.scalarCount || s.hasWitness env (some (.str t))
  | some (.array _) => 0 < s.scalarCount
  | some (.object _) => 0 < s.scalarCount
  | some (.int i) => s.hasNumericWitness env (.int i) false (i == 0)
  | some (.float f) =>
    s.hasNumericWitness env (.float f) f.isNan (!f.isNan && f.numKey == 0)

/-- `remove_bucket`. -/
def removeBucket (buckets : ExtTreeMap UInt64 (ExtTreeSet String)) (hash : UInt64) (key : String) :
    ExtTreeMap UInt64 (ExtTreeSet String) :=
  buckets.alter hash fun
    | none => none
    | some bucket => if (bucket.erase key).isEmpty then none else some (bucket.erase key)

/-- `entry(hash).or_default().insert(key)`. -/
def addBucket (buckets : ExtTreeMap UInt64 (ExtTreeSet String)) (hash : UInt64) (key : String) :
    ExtTreeMap UInt64 (ExtTreeSet String) :=
  buckets.alter hash fun old => some ((old.getD ∅).insert key)

/-- The row that one refresh leaves under a key: the old weight plus the delta's. -/
def refreshed (old : Option InputRow) (delta : ZSet) (field : Path) (store : Store)
    (key : String) : Option InputRow :=
  let weight := (old.map InputRow.weight).getD 0 + delta.weight key
  if weight = 0 then none else some (InputRow.read key weight field store)

/-- Refresh one left row and its hash bucket. -/
def refreshLeft (env : Env) (delta : ZSet) (field : Path) (store : Store)
    (acc : ExtTreeMap String InputRow × ExtTreeMap UInt64 (ExtTreeSet String)) (key : String) :
    ExtTreeMap String InputRow × ExtTreeMap UInt64 (ExtTreeSet String) :=
  let old := acc.1[key]?
  let new := refreshed old delta field store key
  let cleared := match old.bind (InputRow.hash env) with
    | some h => removeBucket acc.2 h key
    | none => acc.2
  (acc.1.alter key (fun _ => new),
    match new.bind (InputRow.hash env) with
    | some h => addBucket cleared h key
    | none => cleared)

/-- Count one witness of `value` up or down. -/
def bumpWitness (deltas : ExtTreeMap WitnessValue Int) (value : Option WitnessValue) (by_ : Int) :
    ExtTreeMap WitnessValue Int :=
  match value with
  | none => deltas
  | some v => deltas.alter v fun old => some (old.getD 0 + by_)

/-- Refresh one right row and the net witness changes. -/
def refreshRight (delta : ZSet) (field : Path) (store : Store)
    (acc : ExtTreeMap String InputRow × ExtTreeMap WitnessValue Int) (key : String) :
    ExtTreeMap String InputRow × ExtTreeMap WitnessValue Int :=
  let old := acc.1[key]?
  let new := refreshed old delta field store key
  (acc.1.alter key (fun _ => new),
    bumpWitness (bumpWitness acc.2 (old.bind InputRow.value) (-1)) (new.bind InputRow.value) 1)

/-- `(n as i64 + delta) as usize`. -/
def addCount (n : Nat) (delta : Int) : Nat := ((n : Int) + delta).toNat

/-- Apply the net change of one witness value to the counts and collect the hashes whose
    bucket gained or lost a value. -/
def applyWitnessDelta (env : Env) (acc : WitnessState × List UInt64) (vd : WitnessValue × Int) :
    WitnessState × List UInt64 :=
  let (s, changed) := acc
  let (value, delta) := vd
  if delta = 0 then (s, changed)
  else
    let hash := hashValue env (some value.toValue)
    let bucket := (s.rightByHash[hash]?).getD ∅
    let old := (bucket[value]?).getD 0
    let new := addCount old delta
    let bucket' := if new = 0 then bucket.erase value else bucket.insert value new
    ({ s with
        rightKindCounts := Function.update s.rightKindCounts value.kind
          (addCount (s.rightKindCounts value.kind) delta)
        rightNanCount := if value.isNan then addCount s.rightNanCount delta else s.rightNanCount
        rightByHash := if bucket'.isEmpty then s.rightByHash.erase hash
          else s.rightByHash.insert hash bucket' },
      if decide (0 < old) != decide (0 < new) then hash :: changed else changed)

/-- Whether the join emits the left row under `key` now. -/
def presentNow (env : Env) (anti : Bool) (s : WitnessState) (key : String) : Bool :=
  (s.left[key]?).any fun row =>
    decide (0 < row.weight) && row.present
      && (anti != row.value.any fun v => s.hasWitness env (some v.toValue))

/-- Recompute one affected left row against the output held. -/
def emit (env : Env) (anti : Bool) (s : WitnessState) (acc : ExtTreeSet String × ZSet)
    (key : String) : ExtTreeSet String × ZSet :=
  let now := s.presentNow env anti key
  if now = acc.1.contains key then acc
  else if now then (acc.1.insert key, acc.2.insert key 1)
  else (acc.1.erase key, acc.2.insert key (-1))

/-- The keys a step refreshes on one input: those of the delta, and the noted content
    updates the input holds. -/
def touchedKeys (rows : ExtTreeMap String InputRow) (delta : ZSet)
    (contentUpdates : ExtTreeSet String) : List String :=
  dedupFirst (delta.keys ++ contentUpdates.toList.filter rows.contains)

/-- `WitnessState::step`. -/
def step (env : Env) (s : WitnessState) (delta0 delta1 : ZSet) (store : Store)
    (condition : JoinCondition) (anti : Bool) : WitnessState × ZSet :=
  let leftKeys := touchedKeys s.left delta0 s.contentUpdates
  let rightKeys := touchedKeys s.right delta1 s.contentUpdates
  let l := leftKeys.foldl (refreshLeft env delta0 condition.leftField store) (s.left, s.leftByHash)
  let r := rightKeys.foldl (refreshRight delta1 condition.rightField store) (s.right, ∅)
  let s1 : WitnessState :=
    { s with left := l.1, leftByHash := l.2, right := r.1, contentUpdates := ∅ }
  let (s2, changed) := r.2.toList.foldl (applyWitnessDelta env) (s1, [])
  let affected := dedupFirst
    (leftKeys ++ changed.flatMap fun h => ((s2.leftByHash[h]?).map ExtTreeSet.toList).getD [])
  let o := affected.foldl (emit env anti s2) (s2.output, ∅)
  ({ s2 with output := o.1 }, o.2)

end WitnessState

end Sp00ky.Ssp
