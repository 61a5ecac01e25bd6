/-
  The operator graph (`circuit/graph.rs`).

  `buildNode` appends the nodes of a plan in postorder, so a node's inputs have
  smaller ids, and lets a planner put an index-backed source in place of a filter
  chain or a window over a scan. `computeTopoOrder` is Kahn's algorithm with a
  FIFO queue (`kahnLoop`); its loop runs at most once per node, which is the fuel it
  is given.
-/
import Sp00ky.Lib.Topo
import Sp00ky.Ssp.Operator

namespace Sp00ky.Ssp

open Lib

/-- `Node`: an operator and the ids of its inputs. -/
structure Node where
  id : Nat
  operator : Operator
  inputs : List Nat

/-- `Graph`. -/
structure Graph where
  nodes : List Node
  topoOrder : List Nat
  outputNode : Nat

/-! ## Planners -/

/-- `IndexPlanner`. -/
structure IndexPlanner where
  window : String → List Predicate → Option (List OrderSpec) → (limit start : Nat) →
    Option Operator
  scan : String → List Predicate → Option Operator

/-- `NoIndexes`: every plan as written. -/
def noIndexes : IndexPlanner := ⟨fun _ _ _ _ _ => none, fun _ _ => none⟩

/-- `filter_chain`: predicates (outermost first) down to a scan. -/
def filterChain : OperatorPlan → Option (List Predicate × String)
  | .scan table => some ([], table)
  | .filter input predicate =>
    (filterChain input).map fun (ps, table) => (predicate :: ps, table)
  | _ => none

/-- `window_shape`: projections, then the filter chain, outermost first. -/
def windowShape : OperatorPlan → Option (List (List Projection) × List Predicate × String)
  | .project input projections =>
    (windowShape input).map fun (pj, ps, table) => (projections :: pj, ps, table)
  | .scan table => (filterChain (.scan table)).map fun (ps, t) => ([], ps, t)
  | .filter input predicate =>
    (filterChain (.filter input predicate)).map fun (ps, table) => ([], ps, table)
  | _ => none

/-! ## Building -/

/-- Append a node and return its id. -/
def pushNode (nodes : List Node) (operator : Operator) (inputs : List Nat) : List Node × Nat :=
  (nodes ++ [⟨nodes.length, operator, inputs⟩], nodes.length)

/-- Append a chain of one-input operators above `id`. -/
def pushChain (nodes : List Node) (id : Nat) (operators : List Operator) : List Node × Nat :=
  operators.foldl (fun acc op => pushNode acc.1 op [acc.2]) (nodes, id)

/-- `Graph::build_node`. -/
def buildNode (planner : IndexPlanner) : OperatorPlan → List Node → List Node × Nat
  | .scan table, nodes => pushNode nodes (.scan table) []
  | .filter input predicate, nodes =>
    let source : Option (Operator × List Predicate) :=
      (filterChain (.filter input predicate)).bind fun (ps, table) =>
        (planner.scan table ps).map (·, ps)
    match source with
    | some (source, ps) =>
      let (ns, id) := pushNode nodes source []
      pushChain ns id (ps.reverse.map Operator.filter)
    | none =>
      let (ns, i) := buildNode planner input nodes
      pushNode ns (.filter predicate) [i]
  | .join left right on, nodes =>
    let (ns, l) := buildNode planner left nodes
    let (ns, r) := buildNode planner right ns
    pushNode ns (.join on ∅ ∅) [l, r]
  | .semiJoin left right on, nodes =>
    let (ns, l) := buildNode planner left nodes
    let (ns, r) := buildNode planner right ns
    pushNode ns (.semiJoin on .empty) [l, r]
  | .antiJoin left right on, nodes =>
    let (ns, l) := buildNode planner left nodes
    let (ns, r) := buildNode planner right ns
    pushNode ns (.antiJoin on .empty) [l, r]
  | .union left right, nodes =>
    let (ns, l) := buildNode planner left nodes
    let (ns, r) := buildNode planner right ns
    pushNode ns .union [l, r]
  | .distinct input, nodes =>
    let (ns, i) := buildNode planner input nodes
    pushNode ns (.distinct ∅) [i]
  | .project input projections, nodes =>
    let (ns, i) := buildNode planner input nodes
    pushNode ns (.map projections) [i]
  | .limit input limit start orderBy, nodes =>
    let source : Option (Operator × List (List Projection)) :=
      (windowShape input).bind fun (pj, ps, table) =>
        (planner.window table ps orderBy limit start).map (·, pj)
    match source with
    | some (source, pj) =>
      let (ns, id) := pushNode nodes source []
      pushChain ns id (pj.reverse.map Operator.map)
    | none =>
      let (ns, i) := buildNode planner input nodes
      pushNode ns (.topK (TopK.new limit start orderBy)) [i]

/-! ## Topological order -/

/-- `adj[i]`: the nodes that take `i` as input, once per edge, in node order. -/
def consumers (nodes : List Node) (i : Nat) : List Nat :=
  nodes.flatMap fun n => (n.inputs.filter (· = i)).map fun _ => n.id

/-- `compute_topo_order`. -/
def computeTopoOrder (nodes : List Node) : List Nat :=
  let inDegree := nodes.map (·.inputs.length)
  let queue := (List.range nodes.length).filter fun i => inDegree[i]?.getD 0 = 0
  kahnLoop (consumers nodes) nodes.length inDegree queue []

namespace Graph

/-- `Graph::from_plan_with`. -/
def fromPlanWith (plan : OperatorPlan) (planner : IndexPlanner) : Graph :=
  let (nodes, out) := buildNode planner plan []
  ⟨nodes, computeTopoOrder nodes, out⟩

/-- `Graph::from_plan`. -/
def fromPlan (plan : OperatorPlan) : Graph := fromPlanWith plan noIndexes

/-- `Graph::needs_rebuild`. -/
def needsRebuild (g : Graph) : Bool := g.nodes.any (·.operator.needsRebuild)

end Graph

end Sp00ky.Ssp
