/-
  One query's step (`Circuit::prime_graph`, `Circuit::step_query`).

  A pass over the graph visits the nodes in topological order and keeps one value
  per node visited. A node's operator is read and written only at the node's own
  visit, so a pass computes all new operators from the old ones and writes them
  back at its end (`writeBack`); likewise the inputs a node reads are complete when
  it is visited, so the injection pass uses the finished evaluation of a key.
-/
import Sp00ky.Ssp.View

namespace Sp00ky.Ssp

open Std Lib

/-- Membership deltas by table. -/
abbrev TableDeltas := ExtTreeMap String ZSet

/-- Keys whose content changed and whose membership did not, by table. -/
abbrev ContentUpdates := ExtTreeMap String (List String)

/-- `content_updates.values().flatten()`, the tables in hash order. -/
def contentKeys (ho : HashOrder) (cu : ContentUpdates) : List String :=
  (ho.visit cu.keys).flatMap fun t => cu[t]?.getD []

/-! ## Stepping the nodes -/

/-- What a pass holds per visited node: the new operator and its output delta. -/
abbrev NodeResults := ExtTreeMap Nat (Operator × ZSet)

/-- The output of a node visited before. -/
def NodeResults.output (r : NodeResults) (i : Nat) : ZSet := (r[i]?.map Prod.snd).getD ∅

/-- Store the operators a pass computed. -/
def writeBack (nodes : List Node) (r : NodeResults) : List Node :=
  nodes.mapIdx fun i n => { n with operator := (r[i]?.map Prod.fst).getD n.operator }

/-- Visit the nodes in order and step each on its inputs. -/
def stepPass (env : Env) (ho : HashOrder) (store : Store) (ctx : Option Sp00kyValue)
    (nodes : List Node) (inputsOf : Nat → Node → NodeResults → List ZSet) (order : List Nat) :
    NodeResults :=
  evalInOrder
    (fun id acc => nodes[id]?.map fun node =>
      node.operator.step env ho (inputsOf id node acc) store ctx)
    order

/-- The first delta of a source node: its initial input, or the whole collection. -/
def sourceStart (op : Operator) (store : Store) (ctx : Option Sp00kyValue) : ZSet :=
  match op.initialInput store ctx with
  | some start => start
  | none => (op.collections.head?.bind store.getCollection).elim ∅ Collection.membership

/-- The inputs of a node while a graph is primed. -/
def primeInputs (store : Store) (params : Option Sp00kyValue) (_ : Nat) (node : Node)
    (acc : NodeResults) : List ZSet :=
  if node.operator.arity = 0 then [sourceStart node.operator store params]
  else node.inputs.map acc.output

/-- `Circuit::prime_graph`. -/
def primeGraph (env : Env) (ho : HashOrder) (g : Graph) (store : Store)
    (params : Option Sp00kyValue) : Graph × Option ZSet :=
  let r := stepPass env ho store params g.nodes (primeInputs store params) g.topoOrder
  ({ g with nodes := writeBack g.nodes r }, r[g.outputNode]?.map Prod.snd)

/-! ## Evaluating one key -/

/-- `evaluate_key` at every node for one key. -/
def evalPass (env : Env) (store : Store) (ctx : Option Sp00kyValue) (nodes : List Node)
    (order : List Nat) (key : String) : ExtTreeMap Nat Bool :=
  evalInOrder
    (fun id acc => nodes[id]?.map fun node =>
      node.operator.evaluateKey env key (node.inputs.map fun i => acc[i]?.getD false) store ctx)
    order

/-! ## Injected deltas -/

/-- Deltas to add to the inputs of a node, by node and port. -/
abbrev Injected := ExtTreeMap Nat (List ZSet)

/-- What one key adds to one port: the difference between the key's membership now and the
    weight the operator integrated. -/
def injectPort (id : Nat) (op : Operator) (key : String) (arity : Nat) (inj : Injected)
    (np : Bool × Nat) : Injected :=
  match op.integratedInputWeight np.2 key with
  | none => inj
  | some held =>
    if np.1 = decide (0 < held) then inj
    else
      inj.alter id fun ports =>
        some ((ports.getD (List.replicate arity ∅)).modify np.2
          (·.insert key (if np.1 then 1 else -held)))

/-- The injection pass for one key. -/
def injectKey (env : Env) (store : Store) (ctx : Option Sp00kyValue) (g : Graph) (inj : Injected)
    (key : String) : Injected :=
  let evals := evalPass env store ctx g.nodes g.topoOrder key
  g.topoOrder.foldl
    (fun inj id =>
      match g.nodes[id]? with
      | none => inj
      | some node =>
        (node.inputs.map fun i => evals[i]?.getD false).zipIdx.foldl
          (injectPort id node.operator key node.inputs.length) inj)
    inj

/-- `delta.entry(key).or_insert(weight)` for every injected entry. -/
def orInsert (delta extra : ZSet) : ZSet := foldAlter (fun _ old w => some (old.getD w)) delta extra

/-- The inputs of a node in the main pass of `step_query`. -/
def stepInputs (deltas : TableDeltas) (inj : Injected) (id : Nat) (node : Node)
    (acc : NodeResults) : List ZSet :=
  if node.operator.arity = 0 then
    [(node.operator.collections.head?.bind fun t => deltas[t]?).getD ∅]
  else
    match inj[id]? with
    | some extra => (node.inputs.zip extra).map fun ie => orInsert (acc.output ie.1) ie.2
    | none => node.inputs.map acc.output

/-! ## Re-evaluating updated keys -/

/-- The state of the re-evaluation walk for one key: nodes, evaluations, and the first
    reordering node with its delta. -/
structure ReevalState where
  nodes : List Node
  evals : ExtTreeMap Nat Bool
  reordered : Option (Nat × ZSet)

/-- One node of the re-evaluation walk. -/
def reevalNode (env : Env) (ho : HashOrder) (store : Store) (ctx : Option Sp00kyValue)
    (key : String) (st : ReevalState) (id : Nat) : ReevalState :=
  match st.nodes[id]? with
  | none => st
  | some node =>
    let inputEvals := node.inputs.map fun i => st.evals[i]?.getD false
    let attempt : Option (Operator × ZSet) :=
      if st.reordered.isNone then
        node.operator.reorderKey ho key (inputEvals.headD true) store ctx
      else none
    match attempt with
    | some (op, delta) =>
      ⟨st.nodes.set id { node with operator := op },
        st.evals.insert id (op.evaluateKey env key inputEvals store ctx), some (id, delta)⟩
    | none =>
      ⟨st.nodes, st.evals.insert id (node.operator.evaluateKey env key inputEvals store ctx),
        st.reordered⟩

/-- Push a reordering delta through the nodes downstream of it. -/
def pushDownstream (env : Env) (ho : HashOrder) (store : Store) (ctx : Option Sp00kyValue)
    (st : List Node × ExtTreeMap Nat ZSet) (id : Nat) : List Node × ExtTreeMap Nat ZSet :=
  match st.1[id]? with
  | none => st
  | some node =>
    if node.inputs.any fun i => st.2.contains i then
      let r := node.operator.step env ho (node.inputs.map fun i => st.2[i]?.getD ∅) store ctx
      (st.1.set id { node with operator := r.1 }, st.2.insert id r.2)
    else st

/-- The re-evaluation of one content-updated key: graph and view delta after it. -/
def reevalKey (env : Env) (ho : HashOrder) (store : Store) (ctx : Option Sp00kyValue)
    (cache : ZSet) (st : Graph × ZSet) (key : String) : Graph × ZSet :=
  let (g, viewDelta) := st
  let walk := g.topoOrder.foldl (reevalNode env ho store ctx key) ⟨g.nodes, ∅, none⟩
  match walk.reordered with
  | some (source, delta) =>
    let after := g.topoOrder.drop (g.topoOrder.idxOf source + 1)
    let pushed := after.foldl (pushDownstream env ho store ctx)
      (walk.nodes, (∅ : ExtTreeMap Nat ZSet).insert source delta)
    let g' := { g with nodes := pushed.1 }
    match pushed.2[g.outputNode]? with
    | some out => (g', (TopK.foldDelta viewDelta out).filter fun _ w => w != 0)
    | none => (g', viewDelta)
  | none =>
    let g' := { g with nodes := walk.nodes }
    let nowMatches := walk.evals[g.outputNode]?.getD false
    let inCache := decide (0 < cache.weight key)
    if nowMatches && !inCache && !viewDelta.contains key then (g', viewDelta.insert key 1)
    else if !nowMatches && inCache && !viewDelta.contains key then
      (g', viewDelta.insert key (-cache.weight key))
    else (g', viewDelta)

/-! ## The step -/

/-- The graph after `note_content_updates` at every node. -/
def Graph.note (g : Graph) (keys : List String) : Graph :=
  { g with nodes := g.nodes.map fun n => { n with operator := n.operator.noteContentUpdates keys } }

/-- The injection pass over all updated keys. -/
def injectAll (env : Env) (store : Store) (ctx : Option Sp00kyValue) (g : Graph)
    (keys : List String) : Injected :=
  keys.foldl (injectKey env store ctx g) ∅

/-- The main pass of `step_query`. -/
def mainPass (env : Env) (ho : HashOrder) (store : Store) (ctx : Option Sp00kyValue) (g : Graph)
    (deltas : TableDeltas) (inj : Injected) : NodeResults :=
  stepPass env ho store ctx g.nodes (stepInputs deltas inj) g.topoOrder

/-- The graph with the operators of a pass stored. -/
def Graph.commit (g : Graph) (r : NodeResults) : Graph := { g with nodes := writeBack g.nodes r }

/-- The graph part of `step_query`: note the updates, inject, step every node, re-evaluate the
    updated keys. Returns the graph and the view delta. -/
def stepGraph (env : Env) (ho : HashOrder) (store : Store) (ctx : Option Sp00kyValue)
    (cache : ZSet) (g : Graph) (deltas : TableDeltas) (cu : ContentUpdates) :
    Graph × Option ZSet :=
  let keys := contentKeys ho cu
  let g1 := g.note keys
  let r := mainPass env ho store ctx g1 deltas (injectAll env store ctx g1 keys)
  match r[g.outputNode]? with
  | none => (g1.commit r, none)
  | some out =>
    let fin := keys.foldl (reevalKey env ho store ctx cache) (g1.commit r, out.2)
    (fin.1, some fin.2)

/-- Keys whose content changed in the view, besides the membership changes. With a changed
    subquery table the parents of the changed children count as updated: all rows of the view
    unless the plan's subqueries are precise. -/
def subqueryUpdates (store : Store) (v : View) (items : List SubqueryDeltaItem)
    (changed : List String) : List String :=
  if v.plan.root.hasPreciseSubqueries then
    let byItem := items.map (·.parentKey)
    let byKey := v.plan.root.subqueryProjectionInfo.flatMap fun info =>
      match info.parentKey with
      | some key =>
        if key.childField = "id" then
          v.cache.keys.filter fun parent =>
            match (store.getRowByKey parent).bind (·.get key.parentField) with
            | some (.str fk) => changed.contains (makeKey info.table (rawId fk))
            | _ => false
        else []
      | none => []
    (byItem ++ byKey).filter v.cache.contains
  else v.cache.keys

/-- A table of a subquery changed. -/
def subqueryTouched (v : View) (deltas : TableDeltas) (cu : ContentUpdates) : Bool :=
  v.subqueryTables.any fun t => deltas.contains t || cu.contains t

/-- Recompute the subquery records of a view: the view, the published items, and the view rows
    that count as updated by them. -/
def refreshSubqueries (ho : HashOrder) (store : Store) (v : View) (touched : Bool)
    (changed : List String) : View × List SubqueryDeltaItem × List String :=
  let newSet := computeCurrentSubquerySet ho store v
  let items := diffSubquerySets ho v.subqueryCache newSet
    (if v.plan.root.hasPreciseSubqueries then some changed else none)
  ({ v with subqueryCache := newSet }, items,
    if touched then subqueryUpdates store v items changed else [])

/-- The end of `step_query`: hash the view and build the published delta, if any. -/
def announce (env : Env) (v : View) (touched membershipChanges : Bool)
    (additions removals updates : List String) (items : List SubqueryDeltaItem) :
    View × Option ViewDelta :=
  let contentUpdates := !updates.isEmpty || !items.isEmpty
  if !membershipChanges && !contentUpdates then (v, none)
  else
    let v1 := { v with contentGeneration :=
      v.contentGeneration + if touched && contentUpdates then 1 else 0 }
    let newHash := v1.computeHash env
    if newHash = v1.lastHash ∧ !contentUpdates then (v1, none)
    else
      let v2 := { v1 with lastHash := newHash }
      (v2, some
        { queryId := v2.queryId
          additions := additions
          removals := removals
          updates := updates
          rowCount := v2.cache.size
          resultHash := v2.lastHash
          subqueryItems := items
          authId := v2.authId
          initial := false })

/-- The view part of `step_query`: classify, apply the delta, refresh the subquery records and
    build the published delta. -/
def publishStep (env : Env) (ho : HashOrder) (store : Store) (v : View) (viewDelta : ZSet)
    (deltas : TableDeltas) (cu : ContentUpdates) : View × Option ViewDelta :=
  let contentChanged := contentKeys ho cu
  let updates0 := contentChanged.filter fun k => v.cache.contains k && !viewDelta.contains k
  let membershipChanges := !viewDelta.isEmpty
  let touched := subqueryTouched v deltas cu
  let changed := deltas.toList.flatMap (fun td => td.2.keys) ++ contentChanged
  let additions := (entriesIn viewDelta (ho.visit viewDelta.keys)).filterMap fun kw =>
    if 0 < kw.2 ∧ !v.cache.contains kw.1 then some kw.1 else none
  let removals := (entriesIn viewDelta (ho.visit viewDelta.keys)).filterMap fun kw =>
    if kw.2 < 0 ∧ (v.cache[kw.1]?).any (fun old => old + kw.2 ≤ 0) then some kw.1 else none
  let v1 := { v with cache := View.applyDelta v.cache viewDelta }
  let refresh := membershipChanges || touched || !updates0.isEmpty
  let (v2, items, extra) := if refresh then refreshSubqueries ho store v1 touched changed
    else (v1, [], [])
  let updates := (dedupFirst (sortBy compare (updates0 ++ extra))).filter fun k =>
    !additions.contains k && !removals.contains k
  announce env v2 touched membershipChanges additions removals updates items

/-- `Circuit::step_query` for the query's graph and view. -/
def stepQuery (env : Env) (ho : HashOrder) (store : Store) (g : Graph) (v : View)
    (deltas : TableDeltas) (cu : ContentUpdates) : Graph × View × Option ViewDelta :=
  let (g', out) := stepGraph env ho store v.params v.cache g deltas cu
  match out with
  | none => (g', v, none)
  | some viewDelta =>
    let (v', d) := publishStep env ho store v viewDelta deltas cu
    (g', v', d)

/-- `Circuit::run_initial_snapshot` for the query's graph and view. -/
def initialSnapshot (env : Env) (ho : HashOrder) (store : Store) (g : Graph) (v : View) :
    Graph × View × Option ViewDelta :=
  let (g', out) := primeGraph env ho g store v.params
  match out with
  | none => (g', v, none)
  | some output =>
    if output.isEmpty then (g', v, none)
    else
      let additions := (entriesIn output (ho.visit output.keys)).filterMap fun kw =>
        if 0 < kw.2 then some kw.1 else none
      let v1 := { v with cache := View.applyDelta v.cache output }
      let v2 := { v1 with lastHash := v1.computeHash env }
      let subquerySet := computeCurrentSubquerySet ho store v2
      let v3 := { v2 with subqueryCache := subquerySet }
      (g', v3, some
        { queryId := v3.queryId
          additions := additions
          removals := []
          updates := []
          rowCount := v3.cache.size
          resultHash := v3.lastHash
          subqueryItems := (entriesIn subquerySet (ho.visit subquerySet.keys)).map fun e =>
            ⟨e.1, e.2.1, e.2.2, .add⟩
          authId := v3.authId
          initial := true })

end Sp00ky.Ssp
