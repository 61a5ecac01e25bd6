/-
  Views over one table, windows included.

  A plan `Project*(Limit?(chain))` builds a linear graph: the nodes of the chain, a
  window over it, and the projections above. A step moves the window by its
  membership delta, still under the sort keys of the store before for the records it
  only updates; then each updated record is reordered under its current sort key, and
  the deltas of consecutive windows add up to the view delta
  (`WindowAt.foldl_reevalKey`). A window that asks for a rebuild is primed from the
  store. Either way the cache is the snapshot of the plan (`windowView_step`).
-/
import Sp00ky.Ssp.Batch
import Sp00ky.Ssp.TopKFacts

namespace Sp00ky.Ssp

open Std Lib

/-! ## Plans and their graphs -/

/-- Projections over a window over a chain. -/
inductive WindowPlan (t : String) (input : OperatorPlan) (limit offset : Nat)
    (orderBy : Option (List OrderSpec)) : OperatorPlan → Prop
  | limit : RowChain t input →
      WindowPlan t input limit offset orderBy (.limit input limit offset orderBy)
  | project {plan ps} : WindowPlan t input limit offset orderBy plan →
      WindowPlan t input limit offset orderBy (.project plan ps)

/-- Node `i` takes node `i - 1` as its only input. -/
def Linear (nodes : List Node) : Prop :=
  ∀ (i : Nat) (node : Node), nodes[i]? = some node → node.inputs = if i = 0 then [] else [i - 1]

theorem linear_pushNode {nodes : List Node} (h : Linear nodes) (op : Operator) {i : Nat}
    (hi : i + 1 = nodes.length) : Linear (pushNode nodes op [i]).1 := by
  intro k node hk
  rw [pushNode, List.getElem?_append] at hk
  split at hk
  · exact h k node hk
  · next hge =>
    have hk0 : k - nodes.length = 0 := by
      by_contra hne
      rw [List.getElem?_singleton, if_neg hne] at hk
      cases hk
    rw [hk0] at hk
    cases hk
    dsimp only
    rw [if_neg (by omega)]
    congr 1
    omega

theorem length_pushNode (nodes : List Node) (op : Operator) (inputs : List Nat) :
    (pushNode nodes op inputs).1.length = nodes.length + 1 := by
  simp [pushNode]

theorem pushNode_last (nodes : List Node) (op : Operator) (inputs : List Nat) :
    (pushNode nodes op inputs).2 + 1 = (pushNode nodes op inputs).1.length := by
  rw [length_pushNode]
  rfl

theorem RowChain.linear {t : String} {plan : OperatorPlan} (hc : RowChain t plan) :
    Linear (buildNode noIndexes plan []).1 ∧
      (buildNode noIndexes plan []).2 + 1 = (buildNode noIndexes plan []).1.length := by
  induction hc with
  | scan =>
    rw [buildNode]
    refine ⟨?_, rfl⟩
    intro i node hi
    cases i with
    | zero =>
      cases hi
      rfl
    | succ i => simp [pushNode] at hi
  | filter _ ih =>
    rw [buildNode_filter]
    exact ⟨linear_pushNode ih.1 _ ih.2, pushNode_last _ _ _⟩
  | project _ ih =>
    rw [buildNode_project]
    exact ⟨linear_pushNode ih.1 _ ih.2, pushNode_last _ _ _⟩

/-- A graph of a chain up to node `j`, a window over it, and projections to the output. -/
structure WindowAt (g : Graph) (t : String) (input : OperatorPlan) (limit offset : Nat)
    (orderBy : Option (List OrderSpec)) (j : Nat) : Prop where
  valid : g.Valid
  order : g.topoOrder = List.range g.nodes.length
  out : g.outputNode + 1 = g.nodes.length
  chain : ChainAt (shape g.nodes) t input j
  below : ∀ i, i ≤ j → ∀ x, (shape g.nodes)[i]? = some x → x.1.reorders = false
  window : (shape g.nodes)[j + 1]? = some (.topK (TopK.new limit offset orderBy), [j])
  above : ∀ i, j + 1 < i → i < g.nodes.length →
    ∃ ps, (shape g.nodes)[i]? = some (.map ps, [i - 1])

theorem WindowAt.sameShape {g g' : Graph} {t : String} {input : OperatorPlan}
    {limit offset : Nat} {orderBy : Option (List OrderSpec)} {j : Nat}
    (h : WindowAt g t input limit offset orderBy j) (hs : g.SameShape g') :
    WindowAt g' t input limit offset orderBy j := by
  have hlen : g'.nodes.length = g.nodes.length := by
    rw [← length_shape, hs.shape, length_shape]
  refine ⟨hs.valid h.valid, ?_, ?_, ?_, ?_, ?_, ?_⟩
  · rw [hs.order, hlen]
    exact h.order
  · rw [hs.out, hlen]
    exact h.out
  all_goals rw [hs.shape]
  · exact h.chain
  · exact h.below
  · exact h.window
  · rw [hlen]
    exact h.above

theorem shape_pushNode_lt {nodes : List Node} (op : Operator) (inputs : List Nat) {i : Nat}
    (hi : i < nodes.length) :
    (shape (pushNode nodes op inputs).1)[i]? = (shape nodes)[i]? := by
  rw [shape_getElem?, shape_getElem?, pushNode, List.getElem?_append_left hi]

theorem shape_pushNode_self (nodes : List Node) (op : Operator) (inputs : List Nat) :
    (shape (pushNode nodes op inputs).1)[nodes.length]? = some (op.reset, inputs) :=
  shape_pushNode nodes op inputs

/-- The nodes of a window plan: linear, with the window right above the chain. -/
theorem WindowPlan.build {t : String} {input plan : OperatorPlan} {limit offset : Nat}
    {orderBy : Option (List OrderSpec)} (h : WindowPlan t input limit offset orderBy plan) :
    let r := buildNode noIndexes plan []
    let j := (buildNode noIndexes input []).2
    Linear r.1 ∧ r.2 + 1 = r.1.length ∧ j + 1 < r.1.length ∧ Built (shape r.1) input j ∧
      (∀ i, i ≤ j → ∀ x, (shape r.1)[i]? = some x → x.1.reorders = false) ∧
      (shape r.1)[j + 1]? = some (.topK (TopK.new limit offset orderBy), [j]) ∧
      ∀ i, j + 1 < i → i < r.1.length → ∃ ps, (shape r.1)[i]? = some (.map ps, [i - 1]) := by
  induction h with
  | limit hc =>
    intro r j
    obtain ⟨hlin, hlen⟩ := hc.linear
    have hr : r = pushNode (buildNode noIndexes input []).1 (.topK (TopK.new limit offset orderBy))
        [j] := buildNode_limit ..
    have hplain := buildNode_plain input hc.unlimited [] (by intro node hn; cases hn)
    have hpre : shape (buildNode noIndexes input []).1 <+: shape r.1 := by
      rw [hr]
      exact shape_starts (List.prefix_append _ _)
    rw [hr]
    refine ⟨linear_pushNode hlin _ hlen, pushNode_last _ _ _, ?_, ?_, ?_, ?_, ?_⟩
    · rw [length_pushNode]
      omega
    · rw [← hr]
      exact (buildNode_built input [] postorder_nil).mono hpre
    · intro i hi x hx
      rw [shape_pushNode_lt _ _ (by omega)] at hx
      exact (plain_iff_shape _).mp hplain x (List.mem_of_getElem? hx)
    · rw [hlen, shape_pushNode_self]
      rfl
    · intro i hi hi'
      rw [length_pushNode] at hi'
      omega
  | @project plan ps hw ih =>
    intro r j
    obtain ⟨h1, h2, h3, h4, h5, h6, h7⟩ := ih
    have hr : r = pushNode (buildNode noIndexes plan []).1 (.map ps)
        [(buildNode noIndexes plan []).2] := buildNode_project ..
    rw [hr]
    refine ⟨linear_pushNode h1 _ h2, pushNode_last _ _ _, ?_, ?_, ?_, ?_, ?_⟩
    · rw [length_pushNode]
      omega
    · exact h4.mono (shape_starts (List.prefix_append _ _))
    · intro i hi x hx
      rw [shape_pushNode_lt _ _ (by omega)] at hx
      exact h5 i hi x hx
    · rw [shape_pushNode_lt _ _ h3]
      exact h6
    · intro i hi hi'
      rw [length_pushNode] at hi'
      by_cases hlast : i = (buildNode noIndexes plan []).1.length
      · rw [hlast, shape_pushNode_self]
        refine ⟨ps, ?_⟩
        congr 3
        omega
      · rw [shape_pushNode_lt _ _ (by omega)]
        exact h7 i hi (by omega)

theorem WindowPlan.rowChain {t : String} {input plan : OperatorPlan} {limit offset : Nat}
    {orderBy : Option (List OrderSpec)} (h : WindowPlan t input limit offset orderBy plan) :
    RowChain t input := by
  induction h with
  | limit hc => exact hc
  | project _ ih => exact ih

theorem WindowPlan.windowAt {t : String} {input plan : OperatorPlan} {limit offset : Nat}
    {orderBy : Option (List OrderSpec)} (h : WindowPlan t input limit offset orderBy plan) :
    WindowAt (Graph.fromPlan plan) t input limit offset orderBy
      (buildNode noIndexes input []).2 := by
  obtain ⟨h1, h2, -, h4, h5, h6, h7⟩ := h.build
  have hv : (Graph.fromPlan plan).Valid := Graph.fromPlanWith_valid plan noIndexes
  refine ⟨hv, ?_, h2, h.rowChain.chainAt h4, h5, h6, h7⟩
  refine hv.topo.eq_range hv.mem ?_
  intro i hi
  obtain ⟨node, hn⟩ : ∃ node, (Graph.fromPlan plan).nodes[i + 1]? = some node :=
    ⟨_, List.getElem?_eq_getElem hi⟩
  have hin := h1 (i + 1) node hn
  rw [inputsAt, hn, Option.map_some, Option.getD_some, hin]
  simp

/-! ## The re-evaluation walk -/

theorem Operator.of_reset_topK {op : Operator} {t₀ : TopK} (h : op.reset = .topK t₀) :
    ∃ t, op = .topK t ∧ t.reset = t₀ := by
  cases op <;> simp only [Operator.reset] at h <;> cases h
  exact ⟨_, rfl, rfl⟩

section Walk

variable (env : Env) (ho : HashOrder) (store : Store) (ctx : Option Sp00kyValue)

theorem foldl_evalVisit_other (nodes : List Node) (key : String) (order : List Nat)
    (evals : ExtTreeMap Nat Bool) {j : Nat} (hj : j ∉ order) :
    (order.foldl (evalVisit env store ctx nodes key) evals)[j]? = evals[j]? := by
  induction order generalizing evals with
  | nil => rfl
  | cons i order ih =>
    simp only [List.mem_cons, not_or] at hj
    rw [List.foldl_cons, ih _ hj.2]
    unfold evalVisit
    split
    · rfl
    · rw [ExtTreeMap.getElem?_insert, if_neg]
      simpa using Ne.symm hj.1

/-- Once a node has reordered, the rest of the walk only evaluates. -/
theorem foldl_reevalNode_done (key : String) (order : List Nat) (st : ReevalState)
    {x : Nat × ZSet} (hx : st.reordered = some x) :
    (order.foldl (reevalNode env ho store ctx key) st).nodes = st.nodes ∧
      (order.foldl (reevalNode env ho store ctx key) st).reordered = some x := by
  induction order generalizing st with
  | nil => exact ⟨rfl, hx⟩
  | cons i order ih =>
    have hstep : (reevalNode env ho store ctx key st i).nodes = st.nodes ∧
        (reevalNode env ho store ctx key st i).reordered = some x := by
      unfold reevalNode
      split
      · exact ⟨rfl, hx⟩
      · simp [hx]
    rw [List.foldl_cons]
    obtain ⟨h1, h2⟩ := ih _ hstep.2
    exact ⟨h1.trans hstep.1, h2⟩

/-- A delta passes through a run of projections unchanged. -/
theorem foldl_pushDownstream_maps {nodes : List Node} (delta : ZSet) (m a : Nat)
    (pushed : ExtTreeMap Nat ZSet)
    (hmap : ∀ i, a < i → i ≤ a + m → ∃ node ps, nodes[i]? = some node ∧
      node.operator = .map ps ∧ node.inputs = [i - 1])
    (ha : pushed[a]? = some delta) :
    ((List.range' (a + 1) m).foldl (pushDownstream env ho store ctx) (nodes, pushed)).1 = nodes ∧
      ((List.range' (a + 1) m).foldl (pushDownstream env ho store ctx) (nodes, pushed)).2[a + m]? =
        some delta := by
  induction m generalizing a pushed with
  | zero => exact ⟨rfl, ha⟩
  | succ m ih =>
    obtain ⟨node, ps, hn, hop, hin⟩ := hmap (a + 1) (by omega) (by omega)
    have hset : nodes.set (a + 1) { node with operator := .map ps } = nodes := by
      obtain ⟨hlt, hget⟩ := List.getElem?_eq_some_iff.mp hn
      have : ({ node with operator := .map ps } : Node) = nodes[a + 1] := by
        rw [hget, ← hop]
      rw [this, List.set_getElem_self]
    have hstep : pushDownstream env ho store ctx (nodes, pushed) (a + 1) =
        (nodes, pushed.insert (a + 1) delta) := by
      have hc : pushed.contains a = true := by
        rw [ExtTreeMap.contains_eq_isSome_getElem?, ha]
        rfl
      unfold pushDownstream
      simp only [hn, hin, Nat.add_sub_cancel, List.any_cons, List.any_nil, hc, Bool.true_or,
        if_true, List.map_cons, List.map_nil, ha, Option.getD_some]
      rw [hop]
      rw [hin, Nat.add_sub_cancel] at hset
      simp only [Operator.step]
      rw [hset]
      rfl
    rw [List.range'_succ, List.foldl_cons, hstep, show a + (m + 1) = a + 1 + m by omega]
    refine ih (a + 1) _ ?_ ExtTreeMap.getElem?_insert_self
    intro i hi hi'
    exact hmap i (by omega) (by omega)

variable {g : Graph} {t : String} {input : OperatorPlan} {limit offset : Nat}
  {orderBy : Option (List OrderSpec)} {j : Nat}

/-- The window of a graph and the operator in it. -/
def Graph.WindowIs (g : Graph) (j : Nat) (tk : TopK) : Prop :=
  ∃ node, g.nodes[j + 1]? = some node ∧ node.operator = .topK tk ∧ node.inputs = [j]

theorem WindowAt.lt (h : WindowAt g t input limit offset orderBy j) : j + 1 < g.nodes.length := by
  obtain ⟨node, hn, -⟩ := node_of_shape h.window
  exact (List.getElem?_eq_some_iff.mp hn).1

theorem WindowAt.windowIs (h : WindowAt g t input limit offset orderBy j) :
    ∃ tk, g.WindowIs j tk ∧ tk.reset = TopK.new limit offset orderBy := by
  obtain ⟨node, hn, hop, hin⟩ := node_of_shape h.window
  obtain ⟨tk, htk, hr⟩ := Operator.of_reset_topK hop
  exact ⟨tk, ⟨node, hn, htk, hin⟩, hr⟩

variable {tk : TopK}

theorem WindowAt.reset_eq (h : WindowAt g t input limit offset orderBy j)
    (hw : g.WindowIs j tk) : tk.reset = TopK.new limit offset orderBy := by
  obtain ⟨tk', ⟨node', hn', hop', -⟩, hr⟩ := h.windowIs
  obtain ⟨node, hn, hop, -⟩ := hw
  rw [hn] at hn'
  cases hn'
  rw [hop] at hop'
  cases hop'
  exact hr

/-- The projections above the window. -/
theorem WindowAt.map_node (h : WindowAt g t input limit offset orderBy j) {i : Nat}
    (hi : j + 1 < i) (hi' : i < g.nodes.length) :
    ∃ node ps, g.nodes[i]? = some node ∧ node.operator = .map ps ∧ node.inputs = [i - 1] := by
  obtain ⟨ps, hps⟩ := h.above i hi hi'
  obtain ⟨node, hn, hop, hin⟩ := node_of_shape hps
  exact ⟨node, ps, hn, Operator.of_reset_map hop, hin⟩

/-- Re-evaluating a key of a window graph reorders the key in the window; the difference of the
    windows reaches the view delta. -/
theorem WindowAt.reevalKey_eq (h : WindowAt g t input limit offset orderBy j)
    (hw : g.WindowIs j tk) (cache viewDelta : ZSet) (key : String) :
    ∃ g', reevalKey env ho store ctx cache (g, viewDelta) key =
        (g', (TopK.foldDelta viewDelta
          (tk.reorderKey ho store key (g.evalAt env store ctx key j)).2).filter
            fun _ w => w != 0) ∧
      g'.WindowIs j (tk.reorderKey ho store key (g.evalAt env store ctx key j)).1 := by
  obtain ⟨node, hn, hop, hin⟩ := hw
  have hlt := h.lt
  -- the order: the chain, the window, the projections
  obtain ⟨m, hm⟩ : ∃ m, g.nodes.length = j + 2 + m := ⟨g.nodes.length - (j + 2), by omega⟩
  have horder : g.topoOrder = List.range (j + 1) ++ (j + 1) :: List.range' (j + 2) m := by
    have hsplit := List.range'_append_1 (s := 0) (m := j + 1) (n := m + 1)
    have hhead : List.range' (j + 1) (m + 1) = (j + 1) :: List.range' (j + 2) m := List.range'_succ
    rw [Nat.zero_add, hhead] at hsplit
    rw [h.order, hm, List.range_eq_range', List.range_eq_range', hsplit]
    congr 1
    omega
  have hchain : ∀ i ∈ List.range (j + 1), ∀ node, g.nodes[i]? = some node →
      node.operator.reorders = false := by
    intro i hi node hn
    rw [List.mem_range] at hi
    have := h.below i (by omega) (node.operator.reset, node.inputs) (by simp [shape_getElem?, hn])
    rwa [Operator.reorders_reset] at this
  -- the chain is evaluated as in a full pass
  have heval : ((List.range (j + 1)).foldl (evalVisit env store ctx g.nodes key) ∅)[j]?.getD false =
      g.evalAt env store ctx key j := by
    rw [Graph.evalAt, evalPass_eq_foldl, horder, List.foldl_append,
      foldl_evalVisit_other env store ctx g.nodes key ((j + 1) :: List.range' (j + 2) m)]
    simp
  have hwalk1 : (List.range (j + 1)).foldl (reevalNode env ho store ctx key) ⟨g.nodes, ∅, none⟩ =
      ⟨g.nodes, (List.range (j + 1)).foldl (evalVisit env store ctx g.nodes key) ∅, none⟩ :=
    walk_plain env ho store ctx key _ hchain ∅
  generalize (List.range (j + 1)).foldl (evalVisit env store ctx g.nodes key) ∅ = evals at *
  rcases hr : tk.reorderKey ho store key (g.evalAt env store ctx key j) with ⟨tk', delta⟩
  -- the window reorders
  obtain ⟨evals', hwalk2⟩ : ∃ evals', reevalNode env ho store ctx key ⟨g.nodes, evals, none⟩
      (j + 1) = ⟨g.nodes.set (j + 1) { node with operator := .topK tk' }, evals',
        some (j + 1, delta)⟩ := by
    unfold reevalNode
    simp only [hn, hin, hop, List.map_cons, List.map_nil, List.headD_cons, heval,
      Operator.reorderKey, hr, Option.isNone_none, if_true]
    exact ⟨_, rfl⟩
  have hwalk : g.topoOrder.foldl (reevalNode env ho store ctx key) ⟨g.nodes, ∅, none⟩ =
      (List.range' (j + 2) m).foldl (reevalNode env ho store ctx key)
        ⟨g.nodes.set (j + 1) { node with operator := .topK tk' }, evals', some (j + 1, delta)⟩ := by
    rw [horder, List.foldl_append, hwalk1, List.foldl_cons, hwalk2]
  obtain ⟨hnodes, hre⟩ := foldl_reevalNode_done env ho store ctx key (List.range' (j + 2) m)
    ⟨g.nodes.set (j + 1) { node with operator := .topK tk' }, evals', some (j + 1, delta)⟩ rfl
  rw [← hwalk] at hnodes hre
  -- the delta is pushed through the projections
  have hafter : g.topoOrder.drop (g.topoOrder.idxOf (j + 1) + 1) = List.range' (j + 2) m := by
    have hidx : g.topoOrder.idxOf (j + 1) = j + 1 := by
      rw [horder, List.idxOf_append_of_notMem (by simp), List.idxOf_cons_self, List.length_range]
    rw [hidx, horder, List.drop_append]
    simp
  have hget : ∀ i, i ≠ j + 1 →
      (g.nodes.set (j + 1) { node with operator := .topK tk' })[i]? = g.nodes[i]? := fun i hi =>
    List.getElem?_set_ne (Ne.symm hi)
  obtain ⟨hpush1, hpush2⟩ := foldl_pushDownstream_maps env ho store ctx delta m (j + 1)
    ((∅ : ExtTreeMap Nat ZSet).insert (j + 1) delta)
    (by
      intro i hi hi'
      rw [hget i (by omega)]
      exact h.map_node hi (by omega))
    ExtTreeMap.getElem?_insert_self
  have hout : j + 1 + m = g.outputNode := by
    have := h.out
    omega
  rw [hout] at hpush2
  refine ⟨{ g with nodes := g.nodes.set (j + 1) { node with operator := .topK tk' } }, ?_, ?_⟩
  · unfold reevalKey
    dsimp only
    rw [hre]
    dsimp only
    rw [hafter, hnodes, hpush1, hpush2]
  · refine ⟨{ node with operator := .topK tk' }, ?_, rfl, hin⟩
    dsimp only
    rw [List.getElem?_set_self hlt]

/-- The store holds the record of a key and the chain admits it. -/
def chainNow (t : String) (input : OperatorPlan) (key : String) : Bool :=
  (store.getCollection t).any (·.hasKey key) && input.admitsKey store ctx key

/-- The updated keys in turn: each takes its current sort key, and the view delta stays the
    difference between the window before the step and the current one. -/
theorem WindowAt.foldl_reevalKey (h : WindowAt g t input limit offset orderBy j)
    (hw : g.WindowIs j tk) {flags : List Bool} {f : String → Option SortKey}
    (hH : tk.Holds flags f) (cache : ZSet) {old : List String} (hold : old.Nodup)
    (keys : List String) (hok : ∀ k ∈ keys, chainNow store ctx t input k = true →
      OkKey flags (TopK.computeSortKey orderBy k store)) :
    ∃ g' tk', keys.foldl (reevalKey env ho store ctx cache)
          (g, TopK.windowDelta old tk.currentWindow) =
        (g', TopK.windowDelta old tk'.currentWindow) ∧
      WindowAt g' t input limit offset orderBy j ∧ g'.WindowIs j tk' ∧
      tk'.Holds flags fun k =>
        if k ∈ keys then
          if chainNow store ctx t input k then some (TopK.computeSortKey orderBy k store) else none
        else f k := by
  induction keys generalizing g tk f with
  | nil => exact ⟨g, tk, rfl, h, hw, hH.congr fun k => by simp⟩
  | cons k keys ih =>
    have hnow : g.evalAt env store ctx k j = chainNow store ctx t input k :=
      h.chain.evalAt_eq env store ctx h.valid k
    have hob : tk.orderBy = orderBy := congrArg TopK.orderBy (h.reset_eq hw)
    obtain ⟨g1, hg1, hw1⟩ := h.reevalKey_eq env ho store ctx hw cache
      (TopK.windowDelta old tk.currentWindow) k
    have hshape := reevalKey_sameShape env ho store ctx cache
      (g, TopK.windowDelta old tk.currentWindow) k
    rw [hg1] at hshape
    rw [hnow] at hg1 hw1
    obtain ⟨hH1, hd1⟩ := hH.reorderKey ho store k (chainNow store ctx t input k) (by
      rw [hob]
      exact hok k List.mem_cons_self)
    obtain ⟨g', tk', hg', h', hw', hH'⟩ := ih (h.sameShape hshape) hw1 hH1
      (List.forall_mem_cons.mp hok).2
    refine ⟨g', tk', ?_, h', hw', hH'.congr fun k' => ?_⟩
    · rw [List.foldl_cons, hg1, hd1, TopK.windowDelta_trans hold hH.nodup_window hH1.nodup_window]
      exact hg'
    · by_cases hk' : k' ∈ keys
      · simp [hk']
      · by_cases hkk : k' = k
        · subst hkk
          simp [hk', hob]
        · simp [hk', hkk]

/-! ## The passes over the nodes -/

/-- What every projection passes on reaches the output. -/
theorem WindowAt.out_eq (h : WindowAt g t input limit offset orderBy j) {F : Nat → ZSet}
    (hF : ∀ i, j + 1 < i → i < g.nodes.length → F i = F (i - 1)) :
    F g.outputNode = F (j + 1) := by
  have hmap : ∀ m, j + 1 + m < g.nodes.length → F (j + 1 + m) = F (j + 1) := by
    intro m
    induction m with
    | zero => intro _; rfl
    | succ m ih =>
      intro hm
      rw [hF (j + 1 + (m + 1)) (by omega) hm, ← ih (by omega)]
      rfl
  have hout := h.out
  have hlt := h.lt
  have := hmap (g.outputNode - (j + 1)) (by omega)
  rwa [show j + 1 + (g.outputNode - (j + 1)) = g.outputNode by omega] at this

theorem WindowAt.steppedOut_eq (h : WindowAt g t input limit offset orderBy j)
    (deltas : TableDeltas) (keys : List String) :
    g.steppedOut env ho store ctx deltas keys g.outputNode =
      g.steppedOut env ho store ctx deltas keys (j + 1) := by
  refine h.out_eq fun i hi hi' => ?_
  obtain ⟨node, ps, hn, hop, hin⟩ := h.map_node hi hi'
  obtain ⟨ins, -, hout, hins⟩ := stepped_node_plain env ho store ctx h.valid deltas keys hn
    (by simp [hop, Operator.arity]) (by simp [hop, Operator.integratedInputWeight])
    (by simp [hop, Operator.noteContentUpdates])
  rw [hout, hop]
  exact hins 0 (i - 1) (by simp [hin])

/-- The main pass steps the window on the admitted part of the table's delta. -/
theorem WindowAt.stepped_window (h : WindowAt g t input limit offset orderBy j)
    (hw : g.WindowIs j tk) (deltas : TableDeltas) (keys : List String) :
    let delta := (deltas.of t).filter fun k _ => input.admitsKey store ctx k
    (g.stepped env ho store ctx deltas keys).WindowIs j (tk.step ho store delta).1 ∧
      g.steppedOut env ho store ctx deltas keys g.outputNode =
        TopK.windowDelta tk.currentWindow (tk.step ho store delta).1.currentWindow := by
  intro delta
  obtain ⟨node, hn, hop, hin⟩ := hw
  obtain ⟨ins, hnode, hout, hins⟩ := stepped_node_plain env ho store ctx h.valid deltas keys hn
    (by simp [hop, Operator.arity]) (by simp [hop, Operator.integratedInputWeight])
    (by simp [hop, Operator.noteContentUpdates])
  have h0 := hins 0 j (by simp [hin])
  rw [h.chain.steppedOut_eq env ho store ctx h.valid] at h0
  rw [h.steppedOut_eq env ho store ctx]
  rw [hop] at hnode hout
  simp only [Operator.step, h0] at hnode hout
  exact ⟨⟨_, hnode, rfl, hin⟩, hout⟩

/-- Priming steps the fresh window on the snapshot of the chain. -/
theorem WindowAt.primed_window (h : WindowAt g t input limit offset orderBy j)
    (hb : Built (shape g.nodes) input j) (hc : RowChain t input)
    (hw : g.WindowIs j tk) :
    (primeGraph env ho g store ctx).1.WindowIs j
        (tk.step ho store (input.snapshot env store ctx)).1 ∧
      (primeGraph env ho g store ctx).2 = some (TopK.windowDelta tk.currentWindow
        (tk.step ho store (input.snapshot env store ctx)).1.currentWindow) := by
  have hlast : g.primedOut env ho store ctx g.outputNode = g.primedOut env ho store ctx (j + 1) := by
    refine h.out_eq fun i hi hi' => ?_
    obtain ⟨node, ps, hn, hop, hin⟩ := h.map_node hi hi'
    obtain ⟨ins, -, hout, -, hins⟩ := primed_node env ho store ctx h.valid hn
    rw [hout, hop]
    exact hins (by simp [hop, Operator.arity]) 0 (i - 1) (by simp [hin])
  obtain ⟨node, hn, hop, hin⟩ := hw
  obtain ⟨ins, hnode, hout, -, hins⟩ := primed_node env ho store ctx h.valid hn
  have h0 := hins (by simp [hop, Operator.arity]) 0 j (by simp [hin])
  rw [hc.primedOut_eq env ho store ctx hb h.valid] at h0
  rw [primed_out env ho store ctx h.valid, hlast]
  rw [hop] at hnode hout
  simp only [Operator.step, h0] at hnode hout
  exact ⟨⟨_, hnode, rfl, hin⟩, by rw [hout]; rfl⟩

end Walk

/-! ## Window views -/

/-- The `ORDER BY` fields of the rows of a table hold no floats. -/
def NoFloats (t : String) (orderBy : Option (List OrderSpec)) (s : Store) : Prop :=
  ∀ id r, s.row t id = some r → ∀ o ∈ orderBy.getD [], ∀ x,
    resolveField (some r.value) o.field ≠ some (.float x)

/-- The input set of a window: the keys of the chain's snapshot with their sort keys. -/
def windowInput (env : Env) (s : Store) (params : Option Sp00kyValue) (input : OperatorPlan)
    (orderBy : Option (List OrderSpec)) (k : String) : Option SortKey :=
  (input.snapshot env s params)[k]?.map fun _ => TopK.computeSortKey orderBy k s

/-- A view over a window graph: the operator holds the chain's snapshot, asks for no rebuild,
    and the cache is its window. -/
structure WindowView (env : Env) (t : String) (input : OperatorPlan) (limit offset : Nat)
    (orderBy : Option (List OrderSpec)) (params : Option Sp00kyValue) (s : Store) (g : Graph)
    (cache : ZSet) (j : Nat) (tk : TopK) : Prop where
  graph : WindowAt g t input limit offset orderBy j
  window : g.WindowIs j tk
  holds : tk.Holds (orderFlags orderBy) (windowInput env s params input orderBy)
  settled : tk.needsRebuild = false
  cache : cache = TopK.keySet tk.currentWindow

section Views

variable {env : Env} {t : String} {input plan : OperatorPlan} {limit offset : Nat}
  {orderBy : Option (List OrderSpec)} {params : Option Sp00kyValue}

theorem WindowPlan.snapshot_eq (h : WindowPlan t input limit offset orderBy plan) (s : Store) :
    plan.snapshot env s params =
      (TopK.new limit offset orderBy).snapshot (input.snapshot env s params) s := by
  induction h with
  | limit _ => rfl
  | project _ ih => exact ih

variable {s s' : Store}

theorem sortKey_ok (ht : ColonFree t) (hf : NoFloats t orderBy s) {id : String}
    (hr : (s.row t id).isSome) :
    OkKey (orderFlags orderBy) (TopK.computeSortKey orderBy (t ++ ":" ++ id) s) := by
  obtain ⟨r, hr⟩ := Option.isSome_iff_exists.mp hr
  refine computeSortKey_ok ?_
  rw [getRowByKey_join ht, hr]
  exact hf id r hr

theorem computeSortKey_congr {k : String} (h : s'.getRowByKey k = s.getRowByKey k) :
    TopK.computeSortKey orderBy k s' = TopK.computeSortKey orderBy k s := by
  unfold TopK.computeSortKey
  rw [h]

/-- The window of a settled operator is the snapshot of the plan. -/
theorem WindowView.cache_eq {g : Graph} {cache : ZSet} {j : Nat} {tk : TopK}
    (h : WindowView env t input limit offset orderBy params s g cache j tk)
    (hfit : offset + limit < 2 ^ 64) (hp : WindowPlan t input limit offset orderBy plan) :
    cache = plan.snapshot env s params := by
  have hbin : (input.snapshot env s params).Binary := hp.rowChain.snapshot_binary
  have hreset := h.graph.reset_eq h.window
  have hoff : tk.offset = offset := congrArg TopK.offset hreset
  have hlim : tk.limit = limit := congrArg TopK.limit hreset
  let items : List Entry := ((input.snapshot env s params).toList.filter (fun kw => 0 < kw.2)).map
    fun kw => (TopK.computeSortKey orderBy kw.1 s, kw.1)
  have hitems : TopK.Lists (windowInput env s params input orderBy) items := by
    refine ⟨?_, ?_⟩
    · have hnd : ((input.snapshot env s params).toList.map Prod.fst).Nodup := by
        rw [ExtTreeMap.map_fst_toList_eq_keys]
        exact nodup_keys _
      refine List.Nodup.of_map Prod.snd ?_
      rw [List.map_map]
      exact hnd.sublist (List.filter_sublist.map Prod.fst)
    · intro e
      simp only [items, List.mem_map, List.mem_filter, windowInput, Option.map_eq_some_iff]
      constructor
      · rintro ⟨⟨k, w⟩, ⟨hk, -⟩, rfl⟩
        exact ⟨w, ExtTreeMap.mem_toList_iff_getElem?_eq_some.mp hk, rfl⟩
      · rintro ⟨w, hw, he⟩
        have hw1 : w = 1 := by
          rcases hbin e.2 with h0 | h1
          · rw [h0] at hw
            cases hw
          · rw [h1] at hw
            exact (Option.some.inj hw).symm
        exact ⟨(e.2, w), ⟨ExtTreeMap.mem_toList_iff_getElem?_eq_some.mpr hw, by simp [hw1]⟩,
          Prod.ext he rfl⟩
  have hwin := h.holds.currentWindow_eq hitems (by rw [hoff, hlim]; exact hfit) h.settled
  rw [h.cache, hp.snapshot_eq, hwin, hoff, hlim, TopK.keySet, List.foldl_map]
  rfl

/-- A primed window view. -/
theorem WindowPlan.primed (env : Env) (params : Option Sp00kyValue)
    (hp : WindowPlan t input limit offset orderBy plan) (ht : ColonFree t)
    (ho : HashOrder) (hf : NoFloats t orderBy s) :
    let r := primeGraph env ho (Graph.fromPlan plan) s params
    ∃ j tk, WindowView env t input limit offset orderBy params s r.1
      (View.applyDelta ∅ (r.2.getD ∅)) j tk := by
  intro r
  have hc := hp.rowChain
  have hw := hp.windowAt
  obtain ⟨tk, his, hreset⟩ := hw.windowIs
  obtain rfl : tk = TopK.new limit offset orderBy := by
    obtain ⟨node, hn, hop, -⟩ := his
    have hfresh := buildNode_fresh plan [] (by intro node hn; cases hn) node
      (List.mem_of_getElem? hn)
    rw [hop, Operator.reset, Operator.topK.injEq, hreset] at hfresh
    exact hfresh.symm
  obtain ⟨h1, h2⟩ := hw.primed_window env ho s params hp.build.2.2.2.1 hc his
  have hbin : (input.snapshot env s params).Binary := hc.snapshot_binary
  have hone : ∀ (k : String) (w : Int), (input.snapshot env s params)[k]? = some w → w = 1 := by
    intro k w hk
    rcases hbin k with h0 | h1
    · rw [h0] at hk
      cases hk
    · rw [h1] at hk
      exact (Option.some.inj hk).symm
  have hok : ∀ (k : String) (w : Int), (input.snapshot env s params)[k]? = some w →
      OkKey (orderFlags orderBy) (TopK.computeSortKey orderBy k s) := by
    intro k w hk
    by_cases hid : ∃ id, k = t ++ ":" ++ id
    · obtain ⟨id, rfl⟩ := hid
      rw [hc.snapshot_join ht] at hk
      refine sortKey_ok ht hf ?_
      cases hr : s.row t id with
      | none => simp [hr, OperatorPlan.holdsRow] at hk
      | some r => rfl
    · rw [hc.snapshot_other (fun id he => hid ⟨id, he⟩)] at hk
      cases hk
  have hH := (TopK.new_holds limit offset orderBy (orderFlags orderBy)).step ho s
    (input.snapshot env s params) fun k w hk _ => hok k w hk
  refine ⟨_, _, hw.sameShape (primeGraph_sameShape env ho s params hw.valid), h1,
    hH.congr ?_, ?_, ?_⟩
  · intro k
    unfold windowInput
    cases hk : (input.snapshot env s params)[k]? with
    | none => rfl
    | some w =>
      rw [hone k w hk]
      simp [TopK.entryAfter, TopK.new]
  · exact TopK.new_step_needsRebuild limit offset orderBy ho s
      (fun k w hk => by rw [hone k w hk]; decide) hok
  · rw [h2, Option.getD_some]
    have hempty : (TopK.new limit offset orderBy).currentWindow = [] := by
      unfold TopK.currentWindow
      simp [TopK.new]
    rw [hempty]
    exact TopK.applyDelta_windowDelta List.nodup_nil hH.nodup_window

theorem WindowView.frame (ht : ColonFree t) {g : Graph} {cache : ZSet} {j : Nat}
    {tk : TopK} (h : WindowView env t input limit offset orderBy params s g cache j tk)
    (hrow : ∀ id, s'.row t id = s.row t id) :
    WindowView env t input limit offset orderBy params s' g cache j tk := by
  have hc := h.graph.chain.rowChain
  refine ⟨h.graph, h.window, h.holds.congr fun k => ?_, h.settled, h.cache⟩
  unfold windowInput
  rw [hc.snapshot_congr ht hrow]
  by_cases hid : ∃ id, k = t ++ ":" ++ id
  · obtain ⟨id, rfl⟩ := hid
    rw [computeSortKey_congr]
    rw [getRowByKey_join ht, getRowByKey_join ht, hrow, hrow]
  · rw [hc.snapshot_other fun id he => hid ⟨id, he⟩]
    rfl

/-- What a step leaves in the window before any rebuild: the membership delta under the rows
    of the step, then the updated keys under their current sort keys. -/
theorem windowInput_step (ht : ColonFree t) (hc : RowChain t input) {delta : ZSet}
    {content : List String} (hin : StepInput t s s' delta content)
    (honce : StepOnce t s s' content) (hp' : PlainIds s' t) (k : String) :
    windowInput env s' params input orderBy k =
      if k ∈ content then
        if chainNow s' params t input k then some (TopK.computeSortKey orderBy k s') else none
      else
        match (delta.filter fun k _ => input.admitsKey s' params k)[k]? with
        | none => windowInput env s params input orderBy k
        | some w =>
          if 0 < w then some (TopK.computeSortKey orderBy k s')
          else if w < 0 then none
          else windowInput env s params input orderBy k := by
  unfold windowInput
  by_cases hid : ∃ id, k = t ++ ":" ++ id
  · obtain ⟨id, rfl⟩ := hid
    have hnow : chainNow s' params t input (t ++ ":" ++ id) =
        input.holdsRow params (t ++ ":" ++ id) (s'.row t id) := by
      unfold chainNow
      rw [any_hasKey ht]
      cases hr : s'.row t id with
      | none => simp [OperatorPlan.holdsRow]
      | some r =>
        rw [OperatorPlan.admitsKey, getRowByKeyOrDeleted_of_row ht hr]
        simp [OperatorPlan.holdsRow]
    rw [hc.snapshot_join ht, hc.snapshot_join ht, hnow, ExtTreeMap.getElem?_filter', hin.delta]
    cases hs' : s'.row t id with
    | none =>
      cases hs : s.row t id with
      | none =>
        have hnot : t ++ ":" ++ id ∉ content := by
          intro hin'
          have := (honce.held id hin').1
          rw [hs] at this
          cases this
        simp [OperatorPlan.holdsRow, hnot]
      | some row =>
        -- the staged row is the old one
        have hnot : t ++ ":" ++ id ∉ content := by
          intro hin'
          have := (honce.held id hin').2
          rw [hs'] at this
          cases this
        have hadm : input.admitsKey s' params (t ++ ":" ++ id) =
            input.admits (t ++ ":" ++ id) (some row.value) params :=
          admitsKey_deleted ht hp' hs' (honce.staged id row hs hs')
        by_cases had : input.admits (t ++ ":" ++ id) (some row.value) params = true <;>
          simp [OperatorPlan.holdsRow, hnot, hadm, had, Option.filter]
    | some row' =>
      have hadm : input.admitsKey s' params (t ++ ":" ++ id) =
          input.admits (t ++ ":" ++ id) (some row'.value) params := by
        rw [OperatorPlan.admitsKey, getRowByKeyOrDeleted_of_row ht hs']
      by_cases hcu : t ++ ":" ++ id ∈ content
      · by_cases had : input.admits (t ++ ":" ++ id) (some row'.value) params = true <;>
          simp [OperatorPlan.holdsRow, hcu, had]
      · cases hs : s.row t id with
        | none =>
          by_cases had : input.admits (t ++ ":" ++ id) (some row'.value) params = true <;>
            simp [OperatorPlan.holdsRow, hcu, hadm, had, Option.filter]
        | some row =>
          have hsame : s'.row t id = s.row t id := hin.same id hcu (by simp [hs]) (by simp [hs'])
          have hkey : TopK.computeSortKey orderBy (t ++ ":" ++ id) s' =
              TopK.computeSortKey orderBy (t ++ ":" ++ id) s := by
            refine computeSortKey_congr ?_
            rw [getRowByKey_join ht, getRowByKey_join ht, hsame, hs]
          rw [hs', hs] at hsame
          cases hsame
          simp [hcu, hkey]
  · have hother : ∀ id, k ≠ t ++ ":" ++ id := fun id he => hid ⟨id, he⟩
    have hnot : k ∉ content := fun hk => hid (hin.contentKey k hk)
    have hnone : delta[k]? = none := ExtTreeMap.getElem?_eq_none fun hk => hid (hin.deltaKey k hk)
    rw [hc.snapshot_other hother, hc.snapshot_other hother, ExtTreeMap.getElem?_filter', hnone]
    simp [hnot]

/-- A step of a window view: the window settles on the new snapshot, or the view is primed
    again. -/
theorem WindowView.step (ht : ColonFree t) (ho : HashOrder) {g : Graph} {v : View}
    {j : Nat} {tk : TopK} (h : WindowView env t input limit offset orderBy params s g v.cache j tk)
    (hplan : WindowPlan t input limit offset orderBy plan) (hroot : v.plan.root = plan)
    (hctx : v.params = params) {deltas : TableDeltas} {cu : ContentUpdates}
    (hin : StepInput t s s' (deltas.of t) (cu.of t)) (honce : StepOnce t s s' (cu.of t))
    (hkeys : ∀ u, u ≠ t → cu.of u = []) (hp' : PlainIds s' t) (hf' : NoFloats t orderBy s') :
    let r := Circuit.stepView env noIndexes ho s' deltas cu g v
    ∃ j' tk', WindowView env t input limit offset orderBy params s' r.1 r.2.1.cache j' tk' := by
  intro r
  subst hctx hroot
  have hc := hplan.rowChain
  obtain ⟨-, -, hstay, hagain⟩ := stepView_view env noIndexes ho s' deltas cu g v
  have hmem : ∀ k, k ∈ contentKeys ho cu ↔ k ∈ cu.of t := mem_contentKeys_single hkeys
  have hob : tk.orderBy = orderBy := congrArg TopK.orderBy (h.graph.reset_eq h.window)
  -- the main pass
  obtain ⟨hw1, hout1⟩ := h.graph.stepped_window env ho s' v.params h.window deltas
    (contentKeys ho cu)
  have hH1 := h.holds.step ho s' ((deltas.of t).filter fun k _ => input.admitsKey s' v.params k)
    (by
      intro k w hk hw
      rw [ExtTreeMap.getElem?_filter'] at hk
      obtain ⟨id, rfl⟩ := hin.deltaKey k (by
        cases hd : (deltas.of t)[k]? with
        | none => simp [hd] at hk
        | some w' => exact mem_of_getElem? hd)
      rw [hob]
      refine sortKey_ok ht hf' ?_
      rw [hin.delta] at hk
      cases hs' : s'.row t id with
      | some row => rfl
      | none =>
        rw [hs'] at hk
        cases hs : s.row t id with
        | none => simp [hs] at hk
        | some row =>
          have hw1 : w = -1 := by
            simp only [hs, Option.isSome_none, Option.isSome_some, Bool.false_eq_true, if_false,
              Option.filter] at hk
            split at hk
            · exact (Option.some.inj hk).symm
            · cases hk
          omega)
  -- the updated keys
  have hshape := stepped_sameShape env ho s' v.params h.graph.valid deltas (contentKeys ho cu)
  obtain ⟨g', tk', hg', hat', hw', hH'⟩ := (h.graph.sameShape hshape).foldl_reevalKey env ho s'
    v.params hw1 hH1 v.cache h.holds.nodup_window (contentKeys ho cu) (by
      intro k hk hnow
      obtain ⟨id, rfl⟩ := hin.contentKey k ((hmem k).mp hk)
      refine sortKey_ok ht hf' ?_
      unfold chainNow at hnow
      rw [any_hasKey ht, Bool.and_eq_true] at hnow
      exact hnow.1)
  have hgraph : stepGraph env ho s' v.params v.cache g deltas cu =
      (g', some (TopK.windowDelta tk.currentWindow tk'.currentWindow)) := by
    rw [stepGraph_eq env ho s' v.params h.graph.valid, hout1, hg']
  rw [hgraph] at hstay hagain
  have hHs : tk'.Holds (orderFlags orderBy) (windowInput env s' v.params input orderBy) := by
    refine hH'.congr fun k => ?_
    rw [windowInput_step ht hc hin honce hp' k]
    simp only [hmem, TopK.entryAfter, hob] <;> rfl
  cases hr : g'.needsRebuild with
  | false =>
    obtain ⟨h1, h2⟩ := hstay hr
    refine ⟨j, tk', ?_, ?_, hHs, ?_, ?_⟩
    · rw [show r.1 = g' from h1]
      exact hat'
    · rw [show r.1 = g' from h1]
      exact hw'
    · obtain ⟨node, hn, hop, -⟩ := hw'
      have hnode : node.operator.needsRebuild = false := by
        rw [Graph.needsRebuild, List.any_eq_false] at hr
        simpa using hr node (List.mem_of_getElem? hn)
      rwa [hop] at hnode
    · rw [show r.2.1.cache = _ from h2, Option.getD_some, h.cache]
      exact TopK.applyDelta_windowDelta h.holds.nodup_window hHs.nodup_window
  | true =>
    obtain ⟨h1, h2⟩ := hagain hr
    obtain ⟨j', tk'', hprimed⟩ := hplan.primed env v.params ht ho hf'
    refine ⟨j', tk'', ?_⟩
    rw [show r.1 = _ from h1, show r.2.1.cache = _ from h2]
    exact hprimed

end Views

/-! ## Runs over one table -/

/-- `Project*(Limit?(chain))`: the plans over one table with at most one window. -/
inductive SingleTable (t : String) : OperatorPlan → Prop
  | chain {plan} : RowChain t plan → SingleTable t plan
  | limit {input limit offset orderBy} : RowChain t input →
      SingleTable t (.limit input limit offset orderBy)
  | project {input ps} : SingleTable t input → SingleTable t (.project input ps)

theorem SingleTable.cases {t : String} {plan : OperatorPlan} (h : SingleTable t plan) :
    RowChain t plan ∨
      ∃ input limit offset orderBy, WindowPlan t input limit offset orderBy plan := by
  induction h with
  | chain hc => exact .inl hc
  | limit hc => exact .inr ⟨_, _, _, _, .limit hc⟩
  | project _ ih =>
    rcases ih with hc | ⟨input, limit, offset, orderBy, hw⟩
    · exact .inl (.project hc)
    · exact .inr ⟨input, limit, offset, orderBy, .project hw⟩

/-- The window of a plan below its projections: limit, offset and `ORDER BY`. -/
def OperatorPlan.window : OperatorPlan → Option (Nat × Nat × Option (List OrderSpec))
  | .limit _ lim start orderBy => some (lim, start, orderBy)
  | .project input _ => input.window
  | _ => none

/-- The window ends below the largest machine word. -/
def OperatorPlan.WindowFits (plan : OperatorPlan) : Prop :=
  ∀ limit offset orderBy, plan.window = some (limit, offset, orderBy) → offset + limit < 2 ^ 64

/-- The rows of a table hold no floats in the `ORDER BY` fields of a plan. -/
def Sortable (plan : OperatorPlan) (t : String) (s : Store) : Prop :=
  ∀ limit offset orderBy, plan.window = some (limit, offset, orderBy) → NoFloats t orderBy s

/-- A change set on `t` alone that names a record once and leaves sortable rows. -/
structure SoloStep (env : Env) (t : String) (plan : OperatorPlan) (c : Circuit)
    (changes : List Change) : Prop where
  plain : PlainOn t changes
  once : NoRepeat changes
  sortable : Sortable plan t (changes.foldl (applyChange env) ⟨c, ∅, ∅, []⟩).circuit.store

section SingleRuns

variable {env : Env} {t : String} {plan : OperatorPlan} {params : Option Sp00kyValue} {q : String}

theorem SoloStep.stepOnce (ht : ColonFree t) (ho : HashOrder) {c : Circuit}
    {changes : List Change} (h : SoloStep env t plan c changes) :
    StepOnce t c.store (phase1 env ho c changes).circuit.store
      ((phase1 env ho c changes).content.of t) :=
  phase1_stepOnce env ho c changes (fun ch hch => (h.plain ch hch).1 ▸ ht) h.once ht

theorem SoloStep.plainIds (ho : HashOrder) {c : Circuit} (hp : PlainIds c.store t)
    {changes : List Change} (h : SoloStep env t plan c changes) :
    PlainIds (phase1 env ho c changes).circuit.store t :=
  plainIds_foldl env hp changes fun ch hch _ => (h.plain ch hch).2

/-- A chain view stays exact: a record deleted once is staged with the row the view had. -/
theorem chainView_solo_run (ht : ColonFree t) (planning : Planning) {c c' : Circuit} {g : Graph}
    {v : View} (hreg : Registered c q plan params g v)
    (h : ChainView env t plan params c.store g v) (hp : PlainIds c.store t)
    (hr : Reaches env planning q (SoloStep env t plan) c c') :
    ∃ g' v', Registered c' q plan params g' v' ∧ PlainIds c'.store t ∧
      ChainView env t plan params c'.store g' v' := by
  have hmem := h.chain.rowChain.mem_collectTables
  refine hr.holds (P := fun s g v => PlainIds s t ∧ ChainView env t plan params s g v) ?_ ?_ hreg
    ⟨hp, h⟩
  · rintro s s' g v hagree ⟨hp, h⟩
    exact ⟨fun x => by rw [hagree t hmem]; exact hp x, h.frame ht (hagree t hmem)⟩
  · rintro c g v ho changes - hreg hok ⟨hp, h⟩
    intro p r _
    have hp' : PlainIds p.circuit.store t := hok.plainIds ho hp
    obtain ⟨h1, h2, h3, h4⟩ := h.step_cache ht ho (planning c.indexDefs params) hreg.ctx
      (phase1_stepInput env ho c changes ht)
      (fun u hu => content_of_other (fun x hx => (hok.plain x hx).1) hu)
    refine ⟨hp', h1, h2, h3, h4.mpr ?_⟩
    intro id row hs hs' _ had
    rw [admitsKey_deleted ht hp' hs' ((hok.stepOnce ht ho).staged id row hs hs')]
    exact had

/-- A window view stays exact. -/
theorem windowView_solo_run (ht : ColonFree t) {input : OperatorPlan} {limit offset : Nat}
    {orderBy : Option (List OrderSpec)} (hplan : WindowPlan t input limit offset orderBy plan)
    (hwin : plan.window = some (limit, offset, orderBy)) {c c' : Circuit} {g : Graph} {v : View}
    (hreg : Registered c q plan params g v)
    (h : ∃ j tk, WindowView env t input limit offset orderBy params c.store g v.cache j tk)
    (hp : PlainIds c.store t) (hr : Reaches env asWritten q (SoloStep env t plan) c c') :
    ∃ g' v', Registered c' q plan params g' v' ∧ PlainIds c'.store t ∧
      ∃ j tk, WindowView env t input limit offset orderBy params c'.store g' v'.cache j tk := by
  have hmem : t ∈ plan.collectTables := by
    clear h hr hreg hwin
    induction hplan with
    | limit hc => exact hc.mem_collectTables
    | project _ ih => exact List.mem_append_left _ ih
  refine hr.holds (P := fun s g v => PlainIds s t ∧
    ∃ j tk, WindowView env t input limit offset orderBy params s g v.cache j tk) ?_ ?_ hreg
    ⟨hp, h⟩
  · rintro s s' g v hagree ⟨hp, j, tk, h⟩
    exact ⟨fun x => by rw [hagree t hmem]; exact hp x, j, tk, h.frame ht (hagree t hmem)⟩
  · rintro c g v ho changes - hreg hok ⟨hp, j, tk, h⟩
    intro p r _
    have hp' : PlainIds p.circuit.store t := hok.plainIds ho hp
    exact ⟨hp', h.step ht ho hplan hreg.root hreg.ctx (phase1_stepInput env ho c changes ht)
      (hok.stepOnce ht ho) (fun u hu => content_of_other (fun x hx => (hok.plain x hx).1) hu) hp'
      (hok.sortable limit offset orderBy hwin)⟩

theorem WindowPlan.window_eq {input : OperatorPlan} {limit offset : Nat}
    {orderBy : Option (List OrderSpec)} (h : WindowPlan t input limit offset orderBy plan) :
    plan.window = some (limit, offset, orderBy) := by
  induction h with
  | limit _ => rfl
  | project _ ih => exact ih

end SingleRuns

/-- Single-table views are exact. After registration and after every run of steps on the table
    that name each record once, the cache of a plan `Project*(Limit?(chain))` is the snapshot of
    the plan on the store, rebuilt windows included. -/
theorem single_table_exact (env : Env) {t : String} (ht : ColonFree t) (ho : HashOrder)
    (c : Circuit) (plan : QueryPlan) (params : Option Json) (authId : String)
    (hplan : SingleTable t plan.root) (hfit : plan.root.WindowFits) (hids : PlainIds c.store t)
    (hsort : Sortable plan.root t c.store) {c' : Circuit}
    (hrun : Reaches env asWritten (Circuit.canonicalQueryId plan.id) (SoloStep env t plan.root)
      (c.addQuery env asWritten ho plan params authId).1 c') :
    c'.cacheOf (Circuit.canonicalQueryId plan.id) =
      some (plan.root.snapshot env c'.store (params.map Sp00kyValue.ofJson)) := by
  obtain ⟨hrows, v, hreg, hcache⟩ := addQuery_registered env asWritten ho c plan params authId
  have hids' : PlainIds (c.addQuery env asWritten ho plan params authId).1.store t := fun x => by
    rw [hrows]
    exact hids x
  rcases hplan.cases with hc | ⟨input, limit, offset, orderBy, hw⟩
  · obtain ⟨g, v, hreg, hview⟩ := addQuery_chainView env ho c plan params authId hc
    obtain ⟨g', v', hreg', -, h'⟩ := chainView_solo_run ht asWritten hreg hview hids' hrun
    rw [hreg'.cacheOf_eq, h'.cache]
  · have hwin := hw.window_eq
    have hfloats : NoFloats t orderBy (c.addQuery env asWritten ho plan params authId).1.store := by
      intro id r hr
      rw [hrows] at hr
      exact hsort limit offset orderBy hwin id r hr
    obtain ⟨j, tk, hprimed⟩ := hw.primed env (params.map Sp00kyValue.ofJson) ht ho hfloats
    have hview : ∃ j tk, WindowView env t input limit offset orderBy
        (params.map Sp00kyValue.ofJson) (c.addQuery env asWritten ho plan params authId).1.store
        (primeGraph env ho (Graph.fromPlan plan.root)
          (c.addQuery env asWritten ho plan params authId).1.store
          (params.map Sp00kyValue.ofJson)).1 v.cache j tk := by
      refine ⟨j, tk, ?_⟩
      rw [hcache]
      exact hprimed
    obtain ⟨g', v', hreg', -, j', tk', h'⟩ := windowView_solo_run ht hw hwin hreg hview hids' hrun
    rw [hreg'.cacheOf_eq, h'.cache_eq (hfit limit offset orderBy hwin) hw]

/-- The plan `T WHERE true ORDER BY a LIMIT 1`. -/
def planFirstA : QueryPlan :=
  ⟨"q", .project (.limit (.filter (.scan "T") .true) 1 0 (some [⟨Path.new "a", "ASC"⟩])) [.all]⟩

/-- Two rows of `T`, the smaller one second. -/
def createTwo : List Change := [⟨"T", .create, "1", rowA 2⟩, ⟨"T", .create, "2", rowA 1⟩]

/-- A circuit with an empty view on `planFirstA`. -/
def emptyFirstA : Circuit :=
  (Circuit.new.addQuery Env.sample asWritten .sorted planFirstA none "").1

theorem createTwo_row (c : Circuit) (hc : ∀ id, c.store.row "T" id = none) {id : String} {r : Row}
    (hr : (createTwo.foldl (applyChange Env.sample) ⟨c, ∅, ∅, []⟩).circuit.store.row "T" id =
      some r) : id = "1" ∨ id = "2" := by
  by_contra hid
  simp only [not_or] at hid
  simp only [createTwo, List.foldl_cons, List.foldl_nil] at hr
  have hraw : rawId "1" = "1" ∧ rawId "2" = "2" := by decide
  rw [applyChange_store, (written_spec _ _ _).1.other "T" id (.inr (by simp [hraw, hid])),
    applyChange_store, (written_spec _ _ _).1.other "T" id (.inr (by simp [hraw, hid])), hc] at hr
  cases hr

theorem soloStep_createTwo : SoloStep Env.sample "T" planFirstA.root emptyFirstA createTwo := by
  have hempty : ∀ id, emptyFirstA.store.row "T" id = none := by
    intro id
    have h := (addQuery_registered Env.sample asWritten .sorted Circuit.new planFirstA none
      "").1 "T" id
    rw [← emptyFirstA] at h
    rw [h]
    simp [Circuit.new, Store.new, Store.row]
  refine ⟨?_, by unfold NoRepeat; decide, ?_⟩
  · intro ch hch
    simp only [createTwo, List.mem_cons, List.not_mem_nil, or_false] at hch
    rcases hch with rfl | rfl
    · exact ⟨rfl, ColonFree.ne_join (by decide) "T"⟩
    · exact ⟨rfl, ColonFree.ne_join (by decide) "T"⟩
  · intro limit offset orderBy hw id r hr o ho x
    cases hw
    obtain rfl : o = ⟨Path.new "a", "ASC"⟩ := by simpa using ho
    have hint : ∀ id, id = "1" ∨ id = "2" →
        ((resolveField ((createTwo.foldl (applyChange Env.sample)
          ⟨emptyFirstA, ∅, ∅, []⟩).circuit.store.row "T" id |>.map Row.value) (Path.new "a")).any
            (·.ctorIdx == (Sp00kyValue.float ⟨0⟩).ctorIdx)) = false := by
      rintro id (rfl | rfl) <;> decide +kernel
    have h := hint id (createTwo_row emptyFirstA hempty hr)
    rw [hr] at h
    intro hfloat
    rw [Option.map_some, hfloat] at h
    cases h

theorem single_table_exact_createTwo :
    (emptyFirstA.step Env.sample asWritten .sorted createTwo).1.cacheOf
        (Circuit.canonicalQueryId planFirstA.id) =
      some (planFirstA.root.snapshot Env.sample
        (emptyFirstA.step Env.sample asWritten .sorted createTwo).1.store none) := by
  refine single_table_exact Env.sample (t := "T") (by decide) .sorted Circuit.new planFirstA none ""
    (.project (.limit (.filter .scan))) ?_ ?_ ?_ (.step .sorted createTwo .start soloStep_createTwo)
  · intro limit offset orderBy hw
    cases hw
    decide
  · intro id
    simp [Circuit.new, Store.new, Store.row]
  · intro limit offset orderBy _ id r hr
    simp [Circuit.new, Store.new, Store.row] at hr

end Sp00ky.Ssp
