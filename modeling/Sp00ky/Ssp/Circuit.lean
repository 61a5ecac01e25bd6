/-
  The circuit (`circuit/circuit.rs`): registration, bulk load and the step.

  `step` applies a change set to the store, derives the per-table deltas and the
  content updates from what each write did, and steps every query that depends on
  a changed table. A `Planning` says how graphs are built: `indexPlanning` is what
  `build_graph` does, `asWritten` is `Graph::from_plan`. Timings, permissions, link
  targets and columns are not read by these functions and are left out, as are the
  fields noted as missing under projection. Shared graphs are in `Sp00ky.Ssp.Merge`.
-/
import Sp00ky.Ssp.Planner
import Sp00ky.Ssp.StepQuery

namespace Sp00ky.Ssp

open Std Lib

/-- `Subscriber`. -/
structure Subscriber where
  queryId : String
  authId : String
deriving DecidableEq, Repr

/-- `Circuit`. -/
structure Circuit where
  store : Store
  graphs : ExtTreeMap String Graph
  views : ExtTreeMap String View
  dependencyMap : ExtTreeMap String (List String)
  subscribers : ExtTreeMap String (List Subscriber)
  detachedOwners : ExtTreeSet String
  mergeIndex : ExtTreeMap String String
  monotonicRowVersions : Bool
  rvFloor : Int
  synthesizedRowVersions : Nat
  synthesizedRowVersionsMissing : Nat
  opaqueFields : ExtTreeMap String (ExtTreeSet String)
  projection : Bool
  indexDefs : ExtTreeMap String (List IndexDef)

/-! ## Row bodies on their way in -/

/-- The loop of `strip_opaque` for one dotted path. -/
def stripPath : List String → Sp00kyValue → Sp00kyValue
  | [], v => v
  | [leaf], .object fields => .object (fieldsRemove fields leaf)
  | head :: rest, .object fields =>
    .object (fields.map fun kv => if kv.1 = head then (kv.1, stripPath rest kv.2) else kv)
  | _, v => v

/-- `strip_opaque`. -/
def stripOpaque (row : Sp00kyValue) (fields : ExtTreeSet String) : Sp00kyValue :=
  fields.toList.foldl (fun v f => stripPath ((splitDots f.toList).map String.ofList) v) row

/-- `RowTable::max_rv`, then `max_row_versions().into_values().max()`. -/
def maxRowVersion (store : Store) : Int :=
  (store.collections.toList.map fun tc =>
    (tc.2.rows.toList.filterMap (fun ir => ir.2.rv)).foldl max (-1)).foldl max 0

/-- The positive integer version a body carries. -/
def incomingVersion (data : Sp00kyValue) : Option Int :=
  match data.get "_00_rv" with
  | some (.int v) => if 0 < v then some v else none
  | _ => none

/-- An incoming version is kept when it is above the stored one. -/
def versionAdvances : Option Int → Option Int → Bool
  | some v, some s => decide (s < v)
  | some _, none => true
  | none, _ => false

/-- `floor_row_version`: the circuit's counters and the stamped body. -/
def floorRowVersion (c : Circuit) (table id : String) (data : Sp00kyValue) :
    Circuit × Sp00kyValue :=
  let incoming := incomingVersion data
  let c1 := { c with rvFloor := (incoming.map (max c.rvFloor)).getD c.rvFloor }
  match (c1.store.getCollection table).bind fun coll => coll.rows[rawId id]? with
  | none => (c1, data)
  | some row =>
    if versionAdvances incoming row.rv then (c1, data)
    else
      let floor := if c1.rvFloor = 0 then max (maxRowVersion c1.store) 0 else c1.rvFloor
      let next := max floor (row.rv.getD 0) + 1
      let c2 :=
        { c1 with
            rvFloor := next
            synthesizedRowVersions := c1.synthesizedRowVersions + 1
            synthesizedRowVersionsMissing :=
              c1.synthesizedRowVersionsMissing + if incoming.isNone then 1 else 0 }
      (c2, match data with
        | .object fields => .object (fieldsInsert fields "_00_rv" (.int next))
        | v => v)

/-! ## Phase 1 of the step -/

/-- What phase 1 accumulates. -/
structure Phase1 where
  circuit : Circuit
  deltas : TableDeltas
  content : ContentUpdates
  changedTables : List String

/-- Append to a table's vector. -/
def pushContent (cu : ContentUpdates) (table key : String) : ContentUpdates :=
  cu.alter table fun old => some (old.getD [] ++ [key])

/-- One change of phase 1: stage a deleted row, strip opaque fields, stamp the version,
    write, and record the delta or the content update. -/
def applyChange (env : Env) (p : Phase1) (ch : Change) : Phase1 :=
  let c0 := p.circuit
  let c1 := if ch.op = .delete then { c0 with store := c0.store.stageDeletedRow ch.table ch.id }
    else c0
  let stripped := match c1.opaqueFields[ch.table]? with
    | some fields => stripOpaque ch.data fields
    | none => ch.data
  let (c2, data) :=
    if c1.monotonicRowVersions && (ch.op = .create || ch.op = .update) then
      floorRowVersion c1 ch.table ch.id stripped
    else (c1, stripped)
  let (store, applied) := c2.store.applyOwned env ch.table ch.op ch.id data
  let c3 := { c2 with store := store }
  if !applied.contentChanged then { p with circuit := c3 }
  else
    let p1 : Phase1 :=
      if applied.weight ≠ 0 then
        { p with
            circuit := c3
            deltas := p.deltas.alter ch.table fun old =>
              some ((old.getD ∅).alter applied.key fun w => some (w.getD 0 + applied.weight)) }
      else { p with circuit := c3, content := pushContent p.content ch.table applied.key }
    { p1 with
        changedTables :=
          if p1.changedTables.contains ch.table then p1.changedTables
          else p1.changedTables ++ [ch.table] }

/-- Clean up one table's delta: zero weights go, and a zero-weight key the collection holds
    counts as a content update. -/
def cleanTable (ho : HashOrder) (store : Store) (p : TableDeltas × ContentUpdates)
    (table : String) : TableDeltas × ContentUpdates :=
  match p.1[table]? with
  | none => p
  | some delta =>
    let held := (entriesIn delta (ho.visit delta.keys)).filter fun kw =>
      kw.2 = 0 ∧ (store.getCollection table).any (·.hasKey kw.1)
    (p.1.insert table (delta.filter fun _ w => w != 0),
      held.foldl (fun cu kw => pushContent cu table kw.1) p.2)

/-- Phase 1: every change in order, then the clean-up. -/
def phase1 (env : Env) (ho : HashOrder) (c : Circuit) (changes : List Change) : Phase1 :=
  let p := changes.foldl (applyChange env) ⟨c, ∅, ∅, []⟩
  let (deltas, content) := (ho.visit p.deltas.keys).foldl (cleanTable ho p.circuit.store)
    (p.deltas, p.content)
  { p with deltas := deltas, content := content }

namespace Circuit

/-- `Circuit::new`. -/
def new : Circuit :=
  ⟨Store.new, ∅, ∅, ∅, ∅, ∅, ∅, false, 0, 0, 0, ∅, false, ∅⟩

/-- `fan_out`: one delta per subscriber, then the owner's own unless it is detached. -/
def fanOut (c : Circuit) (d : ViewDelta) : List ViewDelta :=
  let detached := c.detachedOwners.contains d.queryId
  let subs := c.subscribers[d.queryId]?.getD []
  (subs.map fun s => { d with queryId := s.queryId, authId := s.authId })
    ++ if detached then [] else [d]

/-- `Circuit::load`. -/
def load (env : Env) (c : Circuit) (records : List Record) : Circuit :=
  { c with
      store := records.foldl (fun s r => (s.applyOwned env r.table .create r.id r.data).1) c.store }

/-- `refresh_retained_fields`. -/
def refreshRetainedFields (c : Circuit) : Circuit :=
  if !c.projection then c
  else
    let wanted : List (String × String) :=
      c.views.toList.flatMap fun qv => qv.2.plan.root.evaluatedFieldRefs
    let tables := c.store.collections.keys ++ wanted.map Prod.fst
    { c with
        store := tables.foldl
          (fun s t => s.setRetainedFields t
            (some (ExtTreeSet.ofList ((wanted.filter (·.1 = t)).map Prod.snd)))) c.store }

/-- `canonical_query_id`: what follows the last colon. -/
def canonicalQueryId (id : String) : String :=
  String.ofList (id.toList.reverse.takeWhile (· != ':')).reverse

/-- Store what a query's step or snapshot left. -/
def setQuery (c : Circuit) (queryId : String) (g : Graph) (v : View) : Circuit :=
  { c with graphs := c.graphs.insert queryId g, views := c.views.insert queryId v }

/-- `run_initial_snapshot`. -/
def runInitialSnapshot (env : Env) (ho : HashOrder) (c : Circuit) (queryId : String) :
    Circuit × Option ViewDelta :=
  match c.graphs[queryId]?, c.views[queryId]? with
  | some g, some v =>
    let (g', v', d) := initialSnapshot env ho c.store g v
    (c.setQuery queryId g' v', d)
  | _, _ => (c, none)

/-- `add_query_with_auth`. -/
def addQuery (env : Env) (planning : Planning) (ho : HashOrder) (c : Circuit) (plan : QueryPlan)
    (params : Option Json) (authId : String) : Circuit × Option ViewDelta :=
  let queryId := canonicalQueryId plan.id
  let plan' : QueryPlan := ⟨queryId, plan.root⟩
  let tables := plan.root.referencedTables
  let params' := params.map Sp00kyValue.ofJson
  let graph := Graph.fromPlanWith plan.root (planning c.indexDefs params')
  let c1 :=
    { c.setQuery queryId graph (View.new queryId plan' params' tables authId) with
        dependencyMap := tables.foldl
          (fun m t => m.alter t fun old => some (old.getD [] ++ [queryId])) c.dependencyMap }
  runInitialSnapshot env ho (refreshRetainedFields c1) queryId

/-- `remove_query`. -/
def removeQuery (c : Circuit) (queryId : String) : Circuit :=
  let id := canonicalQueryId queryId
  { c with
      graphs := c.graphs.erase id
      views := c.views.erase id
      dependencyMap := c.dependencyMap.filterMap fun _ ids =>
        let left := ids.filter (· != id)
        if left.isEmpty then none else some left }

/-- `reprime_view` for the query's view: a fresh graph and a full snapshot from the store. -/
def reprimeView (env : Env) (graph : Graph) (ho : HashOrder) (store : Store) (v : View) :
    Graph × View × ViewDelta :=
  let cleared := { v with cache := ∅, subqueryCache := ∅, lastHash := "" }
  match initialSnapshot env ho store graph cleared with
  | (g, v', some d) => (g, v', d)
  | (g, v', none) =>
    let v1 := { v' with lastHash := v'.computeHash env }
    (g, v1,
      { queryId := v1.queryId
        additions := []
        removals := ho.visit v.cache.keys
        updates := []
        rowCount := 0
        resultHash := v1.lastHash
        subqueryItems := []
        authId := v1.authId
        initial := true })

/-- The step of one affected query: step its graph, or prime it again when an operator asks
    for a rebuild. -/
def stepView (env : Env) (planner : IndexPlanner) (ho : HashOrder) (store : Store)
    (deltas : TableDeltas) (cu : ContentUpdates) (g : Graph) (v : View) :
    Graph × View × Option ViewDelta :=
  let (g', v', d) := stepQuery env ho store g v deltas cu
  if g'.needsRebuild then
    let (g2, v2, d2) := reprimeView env (Graph.fromPlanWith v'.plan.root planner) ho store v'
    (g2, v2, some d2)
  else (g', v', d)

/-- One affected query of phase 3. -/
def stepAffected (env : Env) (planning : Planning) (ho : HashOrder) (deltas : TableDeltas)
    (cu : ContentUpdates) (acc : Circuit × List ViewDelta) (queryId : String) :
    Circuit × List ViewDelta :=
  let c := acc.1
  match c.graphs[queryId]?, c.views[queryId]? with
  | some g, some v =>
    let (g', v', d) := stepView env (planning c.indexDefs v.params) ho c.store deltas cu g v
    (c.setQuery queryId g' v', acc.2 ++ (d.map c.fanOut).getD [])
  | _, _ => acc

/-- Phase 2: the queries that depend on a changed table, each once. -/
def affectedQueries (c : Circuit) (tables : List String) : List String :=
  dedupFirst (tables.flatMap fun t => c.dependencyMap[t]?.getD [])

/-- `Circuit::step`. -/
def step (env : Env) (planning : Planning) (ho : HashOrder) (c : Circuit) (changes : List Change) :
    Circuit × List ViewDelta :=
  if changes.isEmpty then (c, [])
  else
    let p := phase1 env ho c changes
    let (c1, ds) := (p.circuit.affectedQueries p.changedTables).foldl
      (stepAffected env planning ho p.deltas p.content) (p.circuit, [])
    ({ c1 with store := c1.store.clearPendingDeletedRows }, ds)

end Circuit

end Sp00ky.Ssp
