/-
  The operators (`operator/mod.rs` and the operator files).

  One inductive type holds every operator a plan can build, with its Z⁻¹ state;
  each function below is one method of the `Operator` trait. `state_bytes` is not
  used by the circuit's steps and is left out, as is `Aggregate`, which no plan
  reaches.
-/
import Sp00ky.Ssp.Witness
import Sp00ky.Ssp.Index

namespace Sp00ky.Ssp

open Lib

/-- A `Box<dyn Operator>`. -/
inductive Operator where
  | scan (table : String)
  | filter (predicate : Predicate)
  | map (projections : List Projection)
  | join (condition : JoinCondition) (leftState rightState : ZSet)
  | semiJoin (condition : JoinCondition) (state : WitnessState)
  | antiJoin (condition : JoinCondition) (state : WitnessState)
  | union
  | distinct (integrated : ZSet)
  | topK (state : TopK)
  | indexedScan (bindings : List IndexBinding)
  | indexWindow (state : IndexWindow)
  | keyScan (table : String) (key : Json)

/-! ## Join -/

/-- The join value of a row. -/
def joinField (store : Store) (field : Path) (key : String) : ValueRef :=
  resolveField (store.getRowByKey key) field

/-- Two join values match: equal hash, then equal by `compare_values`. -/
def joinMatches (env : Env) (l r : ValueRef) : Bool :=
  l.isSome && r.isSome && hashValue env l == hashValue env r && compareValues l r == .eq

/-- `Join::hash_join`. -/
def hashJoin (env : Env) (left right : ZSet) (on : JoinCondition) (store : Store) : ZSet :=
  left.filterMap fun lk lw =>
    let l := joinField store on.leftField lk
    let total := right.toList.foldl
      (fun acc rw => if joinMatches env l (joinField store on.rightField rw.1) then acc + lw * rw.2
        else acc) 0
    if total = 0 then none else some total

/-! ## Semi- and anti-join snapshots -/

/-- A live right row matches the left value. -/
def hasMatch (env : Env) (right : ZSet) (on : JoinCondition) (store : Store) (l : ValueRef) : Bool :=
  right.toList.any fun rw =>
    decide (0 < rw.2) && joinMatches env l (joinField store on.rightField rw.1)

/-- `SemiJoin::semi_join`. -/
def semiJoinSnapshot (env : Env) (left right : ZSet) (on : JoinCondition) (store : Store) : ZSet :=
  left.filterMap fun lk lw =>
    if 0 < lw ∧ hasMatch env right on store (joinField store on.leftField lk) then some 1 else none

/-- `AntiJoin::anti_join`: no row rejects, a row without the join field admits. -/
def antiJoinSnapshot (env : Env) (left right : ZSet) (on : JoinCondition) (store : Store) : ZSet :=
  left.filterMap fun lk lw =>
    if 0 < lw ∧ (store.getRowByKey lk).isSome
        ∧ !hasMatch env right on store (joinField store on.leftField lk) then some 1
    else none

/-! ## Distinct -/

/-- `Distinct::threshold`. -/
def threshold (z : ZSet) : ZSet := z.filterMap fun _ w => if 0 < w then some 1 else none

/-- `Distinct::step`: the sign changes of the integrated weights. -/
def distinctStep (integrated delta : ZSet) : ZSet × ZSet :=
  (foldAlter (fun _ old d => if old.getD 0 + d = 0 then none else some (old.getD 0 + d))
      integrated delta,
    delta.filterMap fun k d =>
      let old := integrated.weight k
      if decide (0 < old) == decide (0 < old + d) then none
      else some (if 0 < old + d then 1 else -1))

namespace Operator

/-- `Operator::arity`. -/
def arity : Operator → Nat
  | .scan _ | .indexedScan _ | .indexWindow _ | .keyScan _ _ => 0
  | .filter _ | .map _ | .distinct _ | .topK _ => 1
  | .join _ _ _ | .semiJoin _ _ | .antiJoin _ _ | .union => 2

/-- `Operator::collections`. -/
def collections : Operator → List String
  | .scan table => [table]
  | .keyScan table _ => [table]
  | .indexWindow w => [w.binding.table]
  | .indexedScan bindings => (bindings.head?.map IndexBinding.table).toList
  | _ => []

/-- `Operator::snapshot` on the inputs of the arity. -/
def snapshot (env : Env) (op : Operator) (inputs : List ZSet) (store : Store)
    (ctx : Option Sp00kyValue) : ZSet :=
  let in0 := inputs[0]?.getD ∅
  let in1 := inputs[1]?.getD ∅
  match op with
  | .scan table => (store.getCollection table).elim ∅ Collection.membership
  | .filter p => in0.filter fun k _ => checkPredicate p k store ctx
  | .map _ => in0
  | .join on _ _ => hashJoin env in0 in1 on store
  | .semiJoin on _ => semiJoinSnapshot env in0 in1 on store
  | .antiJoin on _ => antiJoinSnapshot env in0 in1 on store
  | .union => ZSet.add (ZSet.add ∅ in0) in1
  | .distinct _ => threshold in0
  | .topK t => t.snapshot in0 store
  | .indexedScan bindings => indexedRangeKeys bindings store ctx
  | .indexWindow w => (w.read store ctx).foldl (fun (z : ZSet) k => z.insert k 1) ∅
  | .keyScan table key => keyScanStart table key store ctx

/-- `Operator::step`. -/
def step (env : Env) (ho : HashOrder) (op : Operator) (inputs : List ZSet) (store : Store)
    (ctx : Option Sp00kyValue) : Operator × ZSet :=
  let in0 := inputs[0]?.getD ∅
  let in1 := inputs[1]?.getD ∅
  match op with
  | .scan table => (.scan table, in0)
  | .filter p => (.filter p, in0.filter fun k _ => checkPredicate p k store ctx)
  | .map ps => (.map ps, in0)
  | .join on ls rs =>
    (.join on (ls.add in0) (rs.add in1),
      ((hashJoin env in0 rs on store).add (hashJoin env ls in1 on store)).add
        (hashJoin env in0 in1 on store))
  | .semiJoin on st =>
    let r := st.step env in0 in1 store on false
    (.semiJoin on r.1, r.2)
  | .antiJoin on st =>
    let r := st.step env in0 in1 store on true
    (.antiJoin on r.1, r.2)
  | .union => (.union, ZSet.add (ZSet.add ∅ in0) in1)
  | .distinct integrated =>
    let r := distinctStep integrated in0
    (.distinct r.1, r.2)
  | .topK t =>
    let r := t.step ho store in0
    (.topK r.1, r.2)
  | .indexedScan bindings => (.indexedScan bindings, in0)
  | .indexWindow w =>
    let r := w.refresh store ctx
    (.indexWindow r.1, r.2)
  | .keyScan table key => (.keyScan table key, in0)

/-- `Operator::note_content_updates`. -/
def noteContentUpdates (op : Operator) (keys : List String) : Operator :=
  match op with
  | .semiJoin on st => .semiJoin on (st.noteContentUpdates keys)
  | .antiJoin on st => .antiJoin on (st.noteContentUpdates keys)
  | op => op

/-- `Operator::integrated_input_weight`. -/
def integratedInputWeight (op : Operator) (port : Nat) (key : String) : Option Int :=
  match op with
  | .semiJoin _ st => some (st.integratedWeight port key)
  | .antiJoin _ st => some (st.integratedWeight port key)
  | _ => none

/-- `Operator::initial_input`. -/
def initialInput (op : Operator) (store : Store) (ctx : Option Sp00kyValue) : Option ZSet :=
  match op with
  | .indexedScan bindings => some (indexedRangeKeys bindings store ctx)
  | .indexWindow _ => some ∅
  | .keyScan table key => some (keyScanStart table key store ctx)
  | _ => none

/-- `Operator::reset`: the operator without its state. -/
def reset : Operator → Operator
  | .join on _ _ => .join on ∅ ∅
  | .semiJoin on _ => .semiJoin on .empty
  | .antiJoin on _ => .antiJoin on .empty
  | .distinct _ => .distinct ∅
  | .topK t => .topK t.reset
  | .indexWindow w => .indexWindow w.reset
  | op => op

/-- `Operator::needs_rebuild`. -/
def needsRebuild : Operator → Bool
  | .topK t => t.needsRebuild
  | _ => false

/-- `Operator::evaluate_key`. The semi-join on `id = id` takes its right input's answer. -/
def evaluateKey (env : Env) (op : Operator) (key : String) (evals : List Bool) (store : Store)
    (ctx : Option Sp00kyValue) : Bool :=
  match op with
  | .scan table => (store.getCollection table).any (·.hasKey key)
  | .filter p => evals.headD false && checkPredicate p key store ctx
  | .map _ => evals.headD false
  | .join _ _ _ => false
  | .semiJoin on st =>
    evals.headD false &&
      if on.leftField = Path.new "id" ∧ on.rightField = Path.new "id" then evals[1]?.getD false
      else st.hasPointWitness env (joinField store on.leftField key)
  | .antiJoin on st =>
    evals.headD false && (store.getRowByKey key).isSome
      && !st.hasPointWitness env (joinField store on.leftField key)
  | .union => evals.any id
  | .distinct _ => evals.headD false
  | .topK t => t.evaluateKey key evals
  | .indexedScan bindings =>
    (bindings.head?.bind fun b => store.getCollection b.table).any (·.hasKey key)
  | .indexWindow w => w.window.contains key
  | .keyScan table _ => (store.getCollection table).any (·.hasKey key)

/-- `Operator::reorder_key`. -/
def reorderKey (ho : HashOrder) (op : Operator) (key : String) (upstreamNow : Bool) (store : Store)
    (ctx : Option Sp00kyValue) : Option (Operator × ZSet) :=
  match op with
  | .topK t =>
    let r := t.reorderKey ho store key upstreamNow
    some (.topK r.1, r.2)
  | .indexWindow w =>
    if w.binding.owns key then
      let r := w.refresh store ctx
      some (.indexWindow r.1, r.2)
    else none
  | _ => none

theorem step_reset (env : Env) (ho : HashOrder) (op : Operator) (inputs : List ZSet)
    (store : Store) (ctx : Option Sp00kyValue) : (op.step env ho inputs store ctx).1.reset = op.reset := by
  cases op <;> simp only [step, reset, TopK.step_reset, IndexWindow.refresh_reset]

theorem noteContentUpdates_reset (op : Operator) (keys : List String) :
    (op.noteContentUpdates keys).reset = op.reset := by
  cases op <;> rfl

theorem reorderKey_reset {ho : HashOrder} {op op' : Operator} {key : String} {upstreamNow : Bool}
    {store : Store} {ctx : Option Sp00kyValue} {delta : ZSet}
    (h : op.reorderKey ho key upstreamNow store ctx = some (op', delta)) :
    op'.reset = op.reset := by
  cases op with
  | topK t =>
    simp only [reorderKey, Option.some.injEq, Prod.mk.injEq] at h
    obtain ⟨rfl, -⟩ := h
    simp only [reset, TopK.reorderKey_reset]
  | indexWindow w =>
    simp only [reorderKey] at h
    split at h
    · simp only [Option.some.injEq, Prod.mk.injEq] at h
      obtain ⟨rfl, -⟩ := h
      simp only [reset, IndexWindow.refresh_reset]
    · cases h
  | _ => simp [reorderKey] at h

end Operator

end Sp00ky.Ssp
