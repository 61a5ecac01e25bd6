/-
  Facts about built graphs and the passes over them.

  A node list is `Postorder` when every node carries its position as id and reads
  smaller positions only; `buildNode` keeps it. On such a list Kahn's algorithm
  gives a topological order of all positions (`computeTopoOrder_spec`), so the
  step and the evaluation pass solve one equation per node (`stepPass_eq`,
  `evalPass_eq`). `Built` says that a plan sits at a position of the graph's
  shape, which no step changes (`stepGraph_shape`).
-/
import Sp00ky.Ssp.StepQuery

namespace Sp00ky.Ssp

open Std Lib

/-! ## Postorder node lists -/

/-- Every node carries its position and reads smaller positions. -/
def Postorder (nodes : List Node) : Prop :=
  ∀ (i : Nat) (node : Node), nodes[i]? = some node → node.id = i ∧ ∀ j ∈ node.inputs, j < i

/-- The inputs of the node at a position. -/
def inputsAt (nodes : List Node) (i : Nat) : List Nat := (nodes[i]?.map Node.inputs).getD []

/-- A build result: a postorder list that starts with the nodes it was given, and a position
    of it. -/
structure Extends (nodes : List Node) (res : List Node × Nat) : Prop where
  postorder : Postorder res.1
  starts : nodes <+: res.1
  lt : res.2 < res.1.length

theorem postorder_nil : Postorder [] := by
  intro i node h
  simp at h

theorem extends_pushNode {nodes : List Node} (h : Postorder nodes) (op : Operator)
    (inputs : List Nat) (hin : ∀ j ∈ inputs, j < nodes.length) :
    Extends nodes (pushNode nodes op inputs) where
  postorder := by
    intro i node hi
    simp only [pushNode] at hi
    rcases Nat.lt_trichotomy i nodes.length with hlt | heq | hgt
    · rw [List.getElem?_append_left hlt] at hi
      exact h i node hi
    · subst heq
      simp only [List.getElem?_concat_length, Option.some.injEq] at hi
      subst hi
      exact ⟨rfl, hin⟩
    · rw [List.getElem?_eq_none (by simp; omega)] at hi
      cases hi
  starts := List.prefix_append _ _
  lt := by simp [pushNode]

theorem Extends.trans {nodes : List Node} {r s : List Node × Nat} (h : Extends nodes r)
    (h' : Extends r.1 s) : Extends nodes s :=
  ⟨h'.postorder, h.starts.trans h'.starts, h'.lt⟩

theorem Extends.pushNode {nodes : List Node} {r : List Node × Nat} (h : Extends nodes r)
    (op : Operator) {inputs : List Nat} (hin : ∀ j ∈ inputs, j < r.1.length) :
    Extends nodes (pushNode r.1 op inputs) :=
  h.trans (extends_pushNode h.postorder op _ hin)

theorem Extends.pushChain {nodes : List Node} {r : List Node × Nat} (h : Extends nodes r)
    (ops : List Operator) : Extends nodes (pushChain r.1 r.2 ops) := by
  unfold Ssp.pushChain
  induction ops generalizing r with
  | nil => exact h
  | cons op ops ih =>
    rw [List.foldl_cons]
    exact ih (h.pushNode op (by simpa using h.lt))

/-- Two plans built one after the other: both positions are inside the result. -/
theorem Extends.and_then {nodes : List Node} {r s : List Node × Nat} (h : Extends nodes r)
    (h' : Extends r.1 s) (op : Operator) : Extends nodes (Ssp.pushNode s.1 op [r.2, s.2]) := by
  refine (h.trans h').pushNode op ?_
  intro j hj
  rcases List.mem_cons.mp hj with rfl | hj
  · exact h.lt.trans_le h'.starts.length_le
  · obtain rfl : j = s.2 := by simpa using hj
    exact h'.lt

/-- Building a plan extends the node list in postorder. -/
theorem buildNode_extends (planner : IndexPlanner) (plan : OperatorPlan) (nodes : List Node)
    (h : Postorder nodes) : Extends nodes (buildNode planner plan nodes) := by
  induction plan using OperatorPlan.inputInduction generalizing nodes with
  | scan table =>
    rw [buildNode]
    exact extends_pushNode h _ [] (by simp)
  | filter input predicate ih =>
    rw [buildNode]
    split
    · next source ps _ =>
      exact (extends_pushNode h source [] (by simp)).pushChain _
    · exact (ih nodes h).pushNode _ (by simpa using (ih nodes h).lt)
  | join left right on ihl ihr | semiJoin left right on ihl ihr | antiJoin left right on ihl ihr
  | union left right ihl ihr =>
    rw [buildNode]
    exact (ihl nodes h).and_then (ihr _ (ihl nodes h).postorder) _
  | distinct input ih | project input projections ih =>
    rw [buildNode]
    exact (ih nodes h).pushNode _ (by simpa using (ih nodes h).lt)
  | limit input lim start orderBy ih =>
    rw [buildNode]
    split
    · next source pj _ =>
      exact (extends_pushNode h source [] (by simp)).pushChain _
    · exact (ih nodes h).pushNode _ (by simpa using (ih nodes h).lt)

/-! ## Topological order -/

theorem consumers_snoc (nodes : List Node) (node : Node) (i : Nat) :
    consumers (nodes ++ [node]) i =
      consumers nodes i ++ (node.inputs.filter (· = i)).map fun _ => node.id := by
  simp [consumers]

theorem mem_consumers_lt {nodes : List Node} (h : Postorder nodes) {i v : Nat}
    (hv : v ∈ consumers nodes i) : v < nodes.length := by
  simp only [consumers, List.mem_flatMap, List.mem_map] at hv
  obtain ⟨node, hnode, j, -, rfl⟩ := hv
  obtain ⟨k, hk⟩ := List.mem_iff_getElem?.mp hnode
  rw [(h k node hk).1]
  exact (List.getElem?_eq_some_iff.mp hk).1

theorem Postorder.init {nodes : List Node} {node : Node} (h : Postorder (nodes ++ [node])) :
    Postorder nodes := by
  intro i n hi
  refine h i n ?_
  rw [List.getElem?_append_left (List.getElem?_eq_some_iff.mp hi).1]
  exact hi

/-- A node lists `v` as consumer once per edge into `v`. -/
theorem count_consumers {nodes : List Node} (h : Postorder nodes) (i : Nat) {v : Nat}
    (hv : v < nodes.length) : (consumers nodes i).count v = (inputsAt nodes v).count i := by
  induction nodes using List.reverseRecOn with
  | nil => simp at hv
  | append_singleton nodes node ih =>
    have hid : node.id = nodes.length := (h nodes.length node (by simp)).1
    have hconst : ((node.inputs.filter (· = i)).map fun _ => node.id).count v =
        if node.id = v then node.inputs.count i else 0 := by
      induction node.inputs with
      | nil => simp
      | cons j l ihl =>
        by_cases hj : j = i
        · by_cases hv' : node.id = v <;> simp_all
        · simp_all
    rw [consumers_snoc, List.count_append, hconst]
    by_cases hlt : v < nodes.length
    · rw [ih h.init hlt, if_neg (by omega), inputsAt, inputsAt, List.getElem?_append_left hlt]
      rfl
    · have hveq : v = nodes.length := by
        simp only [List.length_append, List.length_singleton] at hv
        omega
      have hz : (consumers nodes i).count v = 0 := by
        rw [List.count_eq_zero]
        intro hm
        exact hlt (mem_consumers_lt h.init hm)
      subst hveq
      rw [hz, if_pos hid, inputsAt]
      simp

/-- Kahn's algorithm lists every position once, after its inputs. -/
theorem computeTopoOrder_spec {nodes : List Node} (h : Postorder nodes) :
    Topological (inputsAt nodes) (computeTopoOrder nodes) ∧
      ∀ i, i ∈ computeTopoOrder nodes ↔ i < nodes.length := by
  have hlen : ∀ i < nodes.length,
      (nodes.map (·.inputs.length))[i]?.getD 0 = (inputsAt nodes i).length := by
    intro i hi
    simp [inputsAt, hi]
  have hopen : ∀ i, openInputs (inputsAt nodes) [] i = (inputsAt nodes i).length := by
    intro i
    simp [openInputs]
  refine kahnLoop_spec (fun i hi v hv => count_consumers h i hv) (fun i hi v => mem_consumers_lt h)
    ?_ _ _ _ _ (by simp) ?_ ⟨List.nodup_nil, by simp⟩
  · intro i hi j hj
    simp only [inputsAt, List.getElem?_eq_getElem hi, Option.map_some, Option.getD_some] at hj
    exact (h i _ (List.getElem?_eq_getElem hi)).2 j hj
  · refine ⟨by simp, ?_, ?_, ?_, ?_⟩
    · exact List.nodup_range.filter _
    · intro i hi
      simpa using (List.mem_filter.mp hi).1
    · intro i hi
      rw [hlen i hi, hopen, List.count_nil, Nat.add_zero]
    · intro i hi
      simp [hi]

/-! ## Node equations -/

section Passes

variable {env : Env} {ho : HashOrder} {store : Store} {ctx : Option Sp00kyValue}
  {nodes : List Node} {order : List Nat}

/-- The step pass solves the step equation of every node, for inputs that read the outputs of
    the node's own inputs. -/
theorem stepPass_eq (ht : Topological (inputsAt nodes) order)
    {inputsOf : Nat → Node → NodeResults → List ZSet}
    (hin : ∀ i node R R', (∀ j ∈ node.inputs, R[j]? = R'[j]?) →
      inputsOf i node R = inputsOf i node R') {i : Nat} {node : Node} (hi : i ∈ order)
    (hnode : nodes[i]? = some node) :
    (stepPass env ho store ctx nodes inputsOf order)[i]? =
      some (node.operator.step env ho
        (inputsOf i node (stepPass env ho store ctx nodes inputsOf order)) store ctx) := by
  unfold stepPass
  rw [evalInOrder_eq ht ?_ hi, hnode]
  · rfl
  · intro k R R' hR
    cases hk : nodes[k]? with
    | none => rfl
    | some n =>
      simp only [Option.map_some, Option.some.injEq]
      rw [hin k n R R' (by simpa [inputsAt, hk] using hR)]

/-- The evaluation pass solves the evaluation equation of every node. -/
theorem evalPass_eq (ht : Topological (inputsAt nodes) order) (key : String) {i : Nat}
    {node : Node} (hi : i ∈ order) (hnode : nodes[i]? = some node) :
    (evalPass env store ctx nodes order key)[i]? =
      some (node.operator.evaluateKey env key
        (node.inputs.map fun j => (evalPass env store ctx nodes order key)[j]?.getD false)
        store ctx) := by
  unfold evalPass
  rw [evalInOrder_eq ht ?_ hi, hnode]
  · rfl
  · intro k R R' hR
    cases hk : nodes[k]? with
    | none => rfl
    | some n =>
      have hR' : ∀ j ∈ n.inputs, R[j]? = R'[j]? := by simpa [inputsAt, hk] using hR
      simp only [Option.map_some, Option.some.injEq]
      congr 1
      exact List.map_congr_left fun j hj => by rw [hR' j hj]

theorem stepInputs_congr (deltas : TableDeltas) (inj : Injected) (i : Nat) (node : Node)
    (R R' : NodeResults) (h : ∀ j ∈ node.inputs, R[j]? = R'[j]?) :
    stepInputs deltas inj i node R = stepInputs deltas inj i node R' := by
  have hout : ∀ j ∈ node.inputs, R.output j = R'.output j := by
    intro j hj
    simp only [NodeResults.output, h j hj]
  unfold stepInputs
  split
  · rfl
  · split
    · next extra _ =>
      refine List.map_congr_left ?_
      rintro ⟨j, ex⟩ hj
      rw [hout j (List.of_mem_zip hj).1]
    · exact List.map_congr_left hout

end Passes

/-! ## Shapes -/

/-- What a step leaves alone: each node's operator without its state, and its inputs. -/
def shape (nodes : List Node) : List (Operator × List Nat) :=
  nodes.map fun n => (n.operator.reset, n.inputs)

theorem shape_getElem? (nodes : List Node) (i : Nat) :
    (shape nodes)[i]? = nodes[i]?.map fun n => (n.operator.reset, n.inputs) := by
  simp [shape]

/-- The plan sits at a position of the shape. -/
inductive Built (sh : List (Operator × List Nat)) : OperatorPlan → Nat → Prop
  | scan {t i} : sh[i]? = some (.scan t, []) → Built sh (.scan t) i
  | filter {input p i j} : Built sh input j → sh[i]? = some (.filter p, [j]) →
      Built sh (.filter input p) i
  | join {l r on i a b} : Built sh l a → Built sh r b → sh[i]? = some (.join on ∅ ∅, [a, b]) →
      Built sh (.join l r on) i
  | semiJoin {l r on i a b} : Built sh l a → Built sh r b →
      sh[i]? = some (.semiJoin on .empty, [a, b]) → Built sh (.semiJoin l r on) i
  | antiJoin {l r on i a b} : Built sh l a → Built sh r b →
      sh[i]? = some (.antiJoin on .empty, [a, b]) → Built sh (.antiJoin l r on) i
  | union {l r i a b} : Built sh l a → Built sh r b → sh[i]? = some (.union, [a, b]) →
      Built sh (.union l r) i
  | distinct {input i j} : Built sh input j → sh[i]? = some (.distinct ∅, [j]) →
      Built sh (.distinct input) i
  | project {input ps i j} : Built sh input j → sh[i]? = some (.map ps, [j]) →
      Built sh (.project input ps) i
  | limit {input lim start ob i j} : Built sh input j →
      sh[i]? = some (.topK (TopK.new lim start ob), [j]) → Built sh (.limit input lim start ob) i

theorem Built.mono {sh sh' : List (Operator × List Nat)} (hp : sh <+: sh') {plan : OperatorPlan}
    {i : Nat} (h : Built sh plan i) : Built sh' plan i := by
  have hget : ∀ {k : Nat} {x}, sh[k]? = some x → sh'[k]? = some x := by
    intro k x hk
    obtain ⟨t, rfl⟩ := hp
    rw [List.getElem?_append_left (List.getElem?_eq_some_iff.mp hk).1]
    exact hk
  induction h with
  | scan h => exact .scan (hget h)
  | filter _ h ih => exact .filter ih (hget h)
  | join _ _ h ihl ihr => exact .join ihl ihr (hget h)
  | semiJoin _ _ h ihl ihr => exact .semiJoin ihl ihr (hget h)
  | antiJoin _ _ h ihl ihr => exact .antiJoin ihl ihr (hget h)
  | union _ _ h ihl ihr => exact .union ihl ihr (hget h)
  | distinct _ h ih => exact .distinct ih (hget h)
  | project _ h ih => exact .project ih (hget h)
  | limit _ h ih => exact .limit ih (hget h)

theorem shape_starts {nodes nodes' : List Node} (h : nodes <+: nodes') :
    shape nodes <+: shape nodes' := by
  obtain ⟨t, rfl⟩ := h
  exact ⟨shape t, by simp [shape]⟩

theorem shape_pushNode (nodes : List Node) (op : Operator) (inputs : List Nat) :
    (shape (pushNode nodes op inputs).1)[(pushNode nodes op inputs).2]? =
      some (op.reset, inputs) := by
  simp [shape, pushNode]

/-- Without indexes a plan is built as written. -/
theorem buildNode_filter (input : OperatorPlan) (p : Predicate) (nodes : List Node) :
    buildNode noIndexes (.filter input p) nodes =
      pushNode (buildNode noIndexes input nodes).1 (.filter p)
        [(buildNode noIndexes input nodes).2] := by
  have hnone : ((filterChain (.filter input p)).bind fun x =>
      (noIndexes.scan x.2 x.1).map (·, x.1)) = none := by
    cases filterChain (.filter input p) <;> rfl
  rw [buildNode]
  simp only [hnone]

theorem buildNode_project (input : OperatorPlan) (ps : List Projection) (nodes : List Node) :
    buildNode noIndexes (.project input ps) nodes =
      pushNode (buildNode noIndexes input nodes).1 (.map ps)
        [(buildNode noIndexes input nodes).2] := by
  rw [buildNode]

theorem buildNode_limit (input : OperatorPlan) (lim start : Nat)
    (orderBy : Option (List OrderSpec)) (nodes : List Node) :
    buildNode noIndexes (.limit input lim start orderBy) nodes =
      pushNode (buildNode noIndexes input nodes).1 (.topK (TopK.new lim start orderBy))
        [(buildNode noIndexes input nodes).2] := by
  have hnone : ((windowShape input).bind fun x =>
      (noIndexes.window x.2.2 x.2.1 orderBy lim start).map (·, x.1)) = none := by
    cases windowShape input <;> rfl
  rw [buildNode]
  simp only [hnone]

theorem buildNode_built (plan : OperatorPlan) (nodes : List Node) (h : Postorder nodes) :
    Built (shape (buildNode noIndexes plan nodes).1) plan (buildNode noIndexes plan nodes).2 := by
  have hone : ∀ {input : OperatorPlan} {nodes : List Node} (op : Operator), Postorder nodes →
      Built (shape (buildNode noIndexes input nodes).1) input (buildNode noIndexes input nodes).2 →
      Built (shape (pushNode (buildNode noIndexes input nodes).1 op
        [(buildNode noIndexes input nodes).2]).1) input (buildNode noIndexes input nodes).2 := by
    intro input nodes op hn hb
    exact hb.mono (shape_starts (List.prefix_append _ _))
  have htwo : ∀ {l r : OperatorPlan} {nodes : List Node} (op : Operator) (ins : List Nat),
      Postorder nodes →
      Built (shape (buildNode noIndexes l nodes).1) l (buildNode noIndexes l nodes).2 →
      Built (shape (pushNode (buildNode noIndexes r (buildNode noIndexes l nodes).1).1 op ins).1) l
        (buildNode noIndexes l nodes).2 := by
    intro l r nodes op ins hn hb
    have hl := (buildNode_extends noIndexes l nodes hn).postorder
    exact hb.mono ((shape_starts (buildNode_extends noIndexes r _ hl).starts).trans
      (shape_starts (List.prefix_append _ _)))
  induction plan using OperatorPlan.inputInduction generalizing nodes with
  | scan table =>
    rw [buildNode]
    exact .scan (shape_pushNode _ _ _)
  | filter input predicate ih =>
    rw [buildNode_filter]
    exact .filter (hone _ h (ih nodes h)) (shape_pushNode _ _ _)
  | join left right on ihl ihr =>
    have hl := (buildNode_extends noIndexes left nodes h).postorder
    rw [buildNode]
    exact .join (htwo _ _ h (ihl nodes h)) ((ihr _ hl).mono (shape_starts (List.prefix_append _ _)))
      (shape_pushNode _ _ _)
  | semiJoin left right on ihl ihr =>
    have hl := (buildNode_extends noIndexes left nodes h).postorder
    rw [buildNode]
    exact .semiJoin (htwo _ _ h (ihl nodes h))
      ((ihr _ hl).mono (shape_starts (List.prefix_append _ _))) (shape_pushNode _ _ _)
  | antiJoin left right on ihl ihr =>
    have hl := (buildNode_extends noIndexes left nodes h).postorder
    rw [buildNode]
    exact .antiJoin (htwo _ _ h (ihl nodes h))
      ((ihr _ hl).mono (shape_starts (List.prefix_append _ _))) (shape_pushNode _ _ _)
  | union left right ihl ihr =>
    have hl := (buildNode_extends noIndexes left nodes h).postorder
    rw [buildNode]
    exact .union (htwo _ _ h (ihl nodes h))
      ((ihr _ hl).mono (shape_starts (List.prefix_append _ _))) (shape_pushNode _ _ _)
  | distinct input ih =>
    rw [buildNode]
    exact .distinct (hone _ h (ih nodes h)) (shape_pushNode _ _ _)
  | project input projections ih =>
    rw [buildNode]
    exact .project (hone _ h (ih nodes h)) (shape_pushNode _ _ _)
  | limit input lim start orderBy ih =>
    rw [buildNode_limit]
    exact .limit (hone _ h (ih nodes h)) (shape_pushNode _ _ _)

/-- Operators without state. -/
def Fresh (nodes : List Node) : Prop := ∀ node ∈ nodes, node.operator.reset = node.operator

theorem forall_pushNode {Q : Operator → Prop} {nodes : List Node}
    (h : ∀ node ∈ nodes, Q node.operator) {op : Operator} (hop : Q op) (inputs : List Nat) :
    ∀ node ∈ (pushNode nodes op inputs).1, Q node.operator := by
  intro node hn
  rcases List.mem_append.mp hn with hn | hn
  · exact h node hn
  · obtain rfl : node = _ := by simpa using hn
    exact hop

/-- No window among the operators of a plan. -/
def OperatorPlan.unlimited : OperatorPlan → Bool
  | .scan _ => true
  | .filter input _ => input.unlimited
  | .join l r _ => l.unlimited && r.unlimited
  | .semiJoin l r _ => l.unlimited && r.unlimited
  | .antiJoin l r _ => l.unlimited && r.unlimited
  | .union l r => l.unlimited && r.unlimited
  | .distinct input => input.unlimited
  | .project input _ => input.unlimited
  | .limit .. => false

/-- An operator as a plan taken as written builds it. -/
inductive Operator.AsBuilt (unlimited : Bool) : Operator → Prop
  | scan (table : String) : AsBuilt unlimited (.scan table)
  | filter (p : Predicate) : AsBuilt unlimited (.filter p)
  | join (on : JoinCondition) : AsBuilt unlimited (.join on ∅ ∅)
  | semiJoin (on : JoinCondition) : AsBuilt unlimited (.semiJoin on .empty)
  | antiJoin (on : JoinCondition) : AsBuilt unlimited (.antiJoin on .empty)
  | union : AsBuilt unlimited .union
  | distinct : AsBuilt unlimited (.distinct ∅)
  | map (ps : List Projection) : AsBuilt unlimited (.map ps)
  | topK (limit start : Nat) (orderBy : Option (List OrderSpec)) : unlimited = false →
      AsBuilt unlimited (.topK (TopK.new limit start orderBy))

/-- The rule for what a plan taken as written builds. -/
theorem buildNode_asBuilt {Q : Operator → Prop} (plan : OperatorPlan) (unlimited : Bool)
    (hQ : ∀ op, op.AsBuilt unlimited → Q op) (hu : unlimited = true → plan.unlimited = true)
    (nodes : List Node) (h : ∀ node ∈ nodes, Q node.operator) :
    ∀ node ∈ (buildNode noIndexes plan nodes).1, Q node.operator := by
  have htwo : ∀ {l r : OperatorPlan}, (unlimited = true → (l.unlimited && r.unlimited) = true) →
      (unlimited = true → l.unlimited = true) ∧ (unlimited = true → r.unlimited = true) :=
    fun h => ⟨fun hu => (Bool.and_eq_true_iff.mp (h hu)).1,
      fun hu => (Bool.and_eq_true_iff.mp (h hu)).2⟩
  induction plan using OperatorPlan.inputInduction generalizing nodes with
  | scan table =>
    rw [buildNode]
    exact forall_pushNode h (hQ _ (.scan table)) _
  | filter input predicate ih =>
    rw [buildNode_filter]
    exact forall_pushNode (ih hu nodes h) (hQ _ (.filter predicate)) _
  | join l r on ihl ihr =>
    rw [buildNode]
    exact forall_pushNode (ihr (htwo hu).2 _ (ihl (htwo hu).1 nodes h)) (hQ _ (.join on)) _
  | semiJoin l r on ihl ihr =>
    rw [buildNode]
    exact forall_pushNode (ihr (htwo hu).2 _ (ihl (htwo hu).1 nodes h)) (hQ _ (.semiJoin on)) _
  | antiJoin l r on ihl ihr =>
    rw [buildNode]
    exact forall_pushNode (ihr (htwo hu).2 _ (ihl (htwo hu).1 nodes h)) (hQ _ (.antiJoin on)) _
  | union l r ihl ihr =>
    rw [buildNode]
    exact forall_pushNode (ihr (htwo hu).2 _ (ihl (htwo hu).1 nodes h)) (hQ _ .union) _
  | distinct input ih =>
    rw [buildNode]
    exact forall_pushNode (ih hu nodes h) (hQ _ .distinct) _
  | project input projections ih =>
    rw [buildNode_project]
    exact forall_pushNode (ih hu nodes h) (hQ _ (.map projections)) _
  | limit input lim start orderBy ih =>
    have hlimited : unlimited = false := by
      cases unlimited with
      | false => rfl
      | true => cases hu rfl
    subst hlimited
    rw [buildNode_limit]
    exact forall_pushNode (ih nofun nodes h) (hQ _ (.topK lim start orderBy rfl)) _

/-- A plan builds operators without state. -/
theorem buildNode_fresh (plan : OperatorPlan) (nodes : List Node) (h : Fresh nodes) :
    Fresh (buildNode noIndexes plan nodes).1 :=
  buildNode_asBuilt (Q := fun op => op.reset = op) plan false
    (fun op hop => by cases hop <;> rfl) nofun nodes h

/-! ## Valid graphs -/

/-- The order of a graph is a topological order of all its nodes. -/
structure Graph.Valid (g : Graph) : Prop where
  topo : Topological (inputsAt g.nodes) g.topoOrder
  mem : ∀ i, i ∈ g.topoOrder ↔ i < g.nodes.length
  out : g.outputNode < g.nodes.length

/-- Two graphs that differ in operator states only. -/
structure Graph.SameShape (g g' : Graph) : Prop where
  shape : Ssp.shape g'.nodes = Ssp.shape g.nodes
  order : g'.topoOrder = g.topoOrder
  out : g'.outputNode = g.outputNode

theorem Graph.SameShape.trans {g g' g'' : Graph} (h : g.SameShape g') (h' : g'.SameShape g'') :
    g.SameShape g'' :=
  ⟨h'.shape.trans h.shape, h'.order.trans h.order, h'.out.trans h.out⟩

theorem inputsAt_eq_shape (nodes : List Node) (i : Nat) :
    inputsAt nodes i = ((shape nodes)[i]?.map Prod.snd).getD [] := by
  rw [shape_getElem?, inputsAt]
  cases nodes[i]? <;> rfl

theorem length_shape (nodes : List Node) : (shape nodes).length = nodes.length := by
  simp [shape]

theorem Graph.SameShape.valid {g g' : Graph} (h : g.SameShape g') (hv : g.Valid) : g'.Valid := by
  have hlen : g'.nodes.length = g.nodes.length := by
    rw [← length_shape, h.shape, length_shape]
  have hin : inputsAt g'.nodes = inputsAt g.nodes := by
    funext i
    rw [inputsAt_eq_shape, inputsAt_eq_shape, h.shape]
  exact ⟨by rw [hin, h.order]; exact hv.topo, by rw [h.order, hlen]; exact hv.mem,
    by rw [h.out, hlen]; exact hv.out⟩

theorem Graph.fromPlanWith_valid (plan : OperatorPlan) (planner : IndexPlanner) :
    (Graph.fromPlanWith plan planner).Valid := by
  have he := buildNode_extends planner plan [] postorder_nil
  obtain ⟨ht, hm⟩ := computeTopoOrder_spec he.postorder
  exact ⟨ht, hm, he.lt⟩

theorem Graph.fromPlan_built (plan : OperatorPlan) :
    Built (shape (Graph.fromPlan plan).nodes) plan (Graph.fromPlan plan).outputNode :=
  buildNode_built plan [] postorder_nil

theorem node_of_shape {nodes : List Node} {i : Nat} {op : Operator} {ins : List Nat}
    (h : (shape nodes)[i]? = some (op, ins)) :
    ∃ node, nodes[i]? = some node ∧ node.operator.reset = op ∧ node.inputs = ins := by
  rw [shape_getElem?, Option.map_eq_some_iff] at h
  obtain ⟨node, hn, he⟩ := h
  exact ⟨node, hn, by simpa using congrArg Prod.fst he, by simpa using congrArg Prod.snd he⟩

section Steps

variable (env : Env) (ho : HashOrder) (store : Store) (ctx : Option Sp00kyValue) {g : Graph}

/-- After a step pass each node holds its stepped operator, and its output is the step's. -/
theorem stepPass_node (hv : g.Valid) {inputsOf : Nat → Node → NodeResults → List ZSet}
    (hin : ∀ i node R R', (∀ j ∈ node.inputs, R[j]? = R'[j]?) →
      inputsOf i node R = inputsOf i node R') {i : Nat} {node : Node}
    (hnode : g.nodes[i]? = some node) {r : NodeResults}
    (hr : r = stepPass env ho store ctx g.nodes inputsOf g.topoOrder) :
    (writeBack g.nodes r)[i]? =
        some { node with
          operator := (node.operator.step env ho (inputsOf i node r) store ctx).1 } ∧
      r[i]? = some (node.operator.step env ho (inputsOf i node r) store ctx) := by
  have hi : i ∈ g.topoOrder := (hv.mem i).mpr (List.getElem?_eq_some_iff.mp hnode).1
  have heq : r[i]? = some (node.operator.step env ho (inputsOf i node r) store ctx) := by
    rw [hr]
    exact stepPass_eq hv.topo hin hi hnode
  exact ⟨by simp [writeBack, hnode, heq], heq⟩

theorem writeBack_shape (hv : g.Valid) {inputsOf : Nat → Node → NodeResults → List ZSet}
    (hin : ∀ i node R R', (∀ j ∈ node.inputs, R[j]? = R'[j]?) →
      inputsOf i node R = inputsOf i node R') :
    shape (writeBack g.nodes (stepPass env ho store ctx g.nodes inputsOf g.topoOrder)) =
      shape g.nodes := by
  refine List.ext_getElem? fun i => ?_
  rw [shape_getElem?, shape_getElem?]
  cases hn : g.nodes[i]? with
  | none => simp [writeBack, hn]
  | some node =>
    rw [(stepPass_node env ho store ctx hv hin hn rfl).1]
    simp [Operator.step_reset]

theorem primeInputs_congr (i : Nat) (node : Node) (R R' : NodeResults)
    (h : ∀ j ∈ node.inputs, R[j]? = R'[j]?) :
    primeInputs store ctx i node R = primeInputs store ctx i node R' := by
  unfold primeInputs
  split
  · rfl
  · exact List.map_congr_left fun j hj => by simp only [NodeResults.output, h j hj]

theorem primeGraph_sameShape (hv : g.Valid) :
    g.SameShape (primeGraph env ho g store ctx).1 :=
  ⟨writeBack_shape env ho store ctx hv (primeInputs_congr store ctx), rfl, rfl⟩

theorem set_shape {nodes : List Node} {i : Nat} {node : Node} (hn : nodes[i]? = some node)
    {op : Operator} (hop : op.reset = node.operator.reset) :
    shape (nodes.set i { node with operator := op }) = shape nodes := by
  refine List.ext_getElem? fun k => ?_
  rw [shape_getElem?, shape_getElem?]
  by_cases hik : i = k
  · subst hik
    rw [List.getElem?_set_self (List.getElem?_eq_some_iff.mp hn).1, hn]
    simp [hop]
  · rw [List.getElem?_set_ne hik]

theorem reevalNode_shape (key : String) (st : ReevalState) (i : Nat) :
    shape (reevalNode env ho store ctx key st i).nodes = shape st.nodes := by
  unfold reevalNode
  split
  · rfl
  · next node hn =>
    dsimp only
    split
    · next op delta hat =>
      refine set_shape hn ?_
      split at hat
      · exact Operator.reorderKey_reset hat
      · cases hat
    · rfl

theorem foldl_reevalNode_shape (key : String) (order : List Nat) (st : ReevalState) :
    shape (order.foldl (reevalNode env ho store ctx key) st).nodes = shape st.nodes := by
  induction order generalizing st with
  | nil => rfl
  | cons i order ih => rw [List.foldl_cons, ih, reevalNode_shape]

theorem foldl_pushDownstream_shape (order : List Nat) (st : List Node × ExtTreeMap Nat ZSet) :
    shape (order.foldl (pushDownstream env ho store ctx) st).1 = shape st.1 := by
  induction order generalizing st with
  | nil => rfl
  | cons i order ih =>
    rw [List.foldl_cons, ih]
    unfold pushDownstream
    split
    · rfl
    · next node hn =>
      split
      · exact set_shape hn (Operator.step_reset _ _ _ _ _ _)
      · rfl

theorem reevalKey_sameShape (cache : ZSet) (st : Graph × ZSet) (key : String) :
    st.1.SameShape (reevalKey env ho store ctx cache st key).1 := by
  have hwalk := foldl_reevalNode_shape env ho store ctx key st.1.topoOrder ⟨st.1.nodes, ∅, none⟩
  unfold reevalKey
  dsimp only
  split
  · next source delta _ =>
    have hpush := foldl_pushDownstream_shape env ho store ctx
      (st.1.topoOrder.drop (st.1.topoOrder.idxOf source + 1))
      ((st.1.topoOrder.foldl (reevalNode env ho store ctx key) ⟨st.1.nodes, ∅, none⟩).nodes,
        (∅ : ExtTreeMap Nat ZSet).insert source delta)
    split
    · exact ⟨hpush.trans hwalk, rfl, rfl⟩
    · exact ⟨hpush.trans hwalk, rfl, rfl⟩
  · split
    · exact ⟨hwalk, rfl, rfl⟩
    · split
      · exact ⟨hwalk, rfl, rfl⟩
      · exact ⟨hwalk, rfl, rfl⟩

theorem foldl_reevalKey_sameShape (cache : ZSet) (keys : List String) (st : Graph × ZSet) :
    st.1.SameShape (keys.foldl (reevalKey env ho store ctx cache) st).1 := by
  induction keys generalizing st with
  | nil => exact ⟨rfl, rfl, rfl⟩
  | cons key keys ih =>
    rw [List.foldl_cons]
    exact (reevalKey_sameShape env ho store ctx cache st key).trans (ih _)

theorem note_sameShape (g : Graph) (keys : List String) : g.SameShape (g.note keys) := by
  refine ⟨?_, rfl, rfl⟩
  simp [Graph.note, shape, Operator.noteContentUpdates_reset]

theorem commit_sameShape (hv : g.Valid) (deltas : TableDeltas) (inj : Injected) :
    g.SameShape (g.commit (mainPass env ho store ctx g deltas inj)) :=
  ⟨writeBack_shape env ho store ctx hv (stepInputs_congr deltas inj), rfl, rfl⟩

/-- A step changes operator states only. -/
theorem stepGraph_sameShape (hv : g.Valid) (cache : ZSet) (deltas : TableDeltas)
    (cu : ContentUpdates) : g.SameShape (stepGraph env ho store ctx cache g deltas cu).1 := by
  have hn := note_sameShape g (contentKeys ho cu)
  have hw := hn.trans (commit_sameShape env ho store ctx (hn.valid hv) deltas
    (injectAll env store ctx (g.note (contentKeys ho cu)) (contentKeys ho cu)))
  unfold stepGraph
  dsimp only
  split
  · exact hw
  · exact hw.trans (foldl_reevalKey_sameShape env ho store ctx cache _ (_, _))

end Steps

end Sp00ky.Ssp
