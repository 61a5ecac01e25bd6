/-
  Stores that a query cannot tell apart.

  No operator of a plan taken as written reads a collection's accumulator or its write
  counter, so two stores that differ in these alone drive a query's step and a batch of
  writes alike.
-/
import Sp00ky.Ssp.Batch

namespace Sp00ky.Ssp

open Std Lib

/-- A collection without its accumulator and its write counter. -/
def Collection.bare (c : Collection) : Collection := { c with catchupXor := 0, writes := 0 }

theorem Collection.bare_inj {c c' : Collection} (h : c'.bare = c.bare) :
    c'.name = c.name ∧ c'.rows = c.rows ∧ c'.retained = c.retained := by
  rw [bare, bare, Collection.mk.injEq] at h
  exact ⟨h.1, h.2.1, h.2.2.2.1⟩

/-- Two stores agree but for accumulators and write counters. -/
structure Store.Alike (s s' : Store) : Prop where
  pending : s'.pendingDeletedRows = s.pendingDeletedRows
  bare : ∀ t, (s'.getCollection t).map Collection.bare = (s.getCollection t).map Collection.bare

section Reads

variable {s s' : Store}

/-- What is read off a bare collection agrees. -/
theorem Store.Alike.of_bare (h : s.Alike s') {α : Type} {f : Collection → α}
    (hf : ∀ c, f c.bare = f c) (t : String) :
    (s'.getCollection t).map f = (s.getCollection t).map f := by
  have := congrArg (Option.map f) (h.bare t)
  simpa only [Option.map_map, Function.comp_def, hf] using this

theorem Store.Alike.hasKey (h : s.Alike s') (t key : String) :
    (s'.getCollection t).any (·.hasKey key) = (s.getCollection t).any (·.hasKey key) := by
  have := h.of_bare (f := fun c => c.hasKey key) (fun _ => rfl) t
  cases hs : s.getCollection t <;> cases hs' : s'.getCollection t <;> rw [hs, hs'] at this <;>
    simp_all

theorem Store.Alike.held (h : s.Alike s') (t : String) : s'.held t = s.held t := by
  have := h.of_bare (f := Collection.membership) (fun _ => rfl) t
  unfold Store.held
  cases hs : s.getCollection t <;> cases hs' : s'.getCollection t <;> rw [hs, hs'] at this <;>
    simp_all

theorem Store.Alike.getRowByKey (h : s.Alike s') : s'.getRowByKey = s.getRowByKey := by
  funext key
  unfold Store.getRowByKey
  cases parseKey key with
  | none => rfl
  | some ti =>
    obtain ⟨t, id⟩ := ti
    have := h.of_bare (f := Collection.get) (fun _ => rfl) t
    unfold Store.getCollection at this
    dsimp only
    cases hs : s.collections[t]? <;> cases hs' : s'.collections[t]? <;> rw [hs, hs'] at this <;>
      simp_all

theorem Store.Alike.getRowByKeyOrDeleted (h : s.Alike s') :
    s'.getRowByKeyOrDeleted = s.getRowByKeyOrDeleted := by
  funext key
  unfold Store.getRowByKeyOrDeleted
  rw [h.getRowByKey, h.pending]

theorem Store.Alike.joinField (h : s.Alike s') : joinField s' = joinField s := by
  funext field key
  unfold Ssp.joinField
  rw [h.getRowByKey]

theorem Store.Alike.checkPredicate (h : s.Alike s') (p : Predicate) (key : String)
    (ctx : Option Sp00kyValue) : checkPredicate p key s' ctx = checkPredicate p key s ctx := by
  unfold Ssp.checkPredicate
  rw [h.getRowByKeyOrDeleted]

end Reads

/-! ## Operators -/

/-- The operators a plan taken as written is built of. -/
def Operator.asWritten : Operator → Bool
  | .indexedScan _ => false
  | .indexWindow _ => false
  | .keyScan _ _ => false
  | _ => true

section Operators

variable {s s' : Store} (h : s.Alike s') (env : Env) (ho : HashOrder) (ctx : Option Sp00kyValue)
include h

theorem hashJoin_alike (left right : ZSet) (on : JoinCondition) :
    hashJoin env left right on s' = hashJoin env left right on s := by
  unfold hashJoin
  rw [h.joinField]

theorem witnessStep_alike (st : WitnessState) (delta0 delta1 : ZSet) (on : JoinCondition)
    (anti : Bool) : st.step env delta0 delta1 s' on anti = st.step env delta0 delta1 s on anti := by
  have hl : ∀ field, WitnessState.refreshLeft env delta0 field s' =
      WitnessState.refreshLeft env delta0 field s := by
    intro field
    funext acc key
    simp only [WitnessState.refreshLeft, WitnessState.refreshed, InputRow.read, h.getRowByKey]
  have hr : ∀ field, WitnessState.refreshRight delta1 field s' =
      WitnessState.refreshRight delta1 field s := by
    intro field
    funext acc key
    simp only [WitnessState.refreshRight, WitnessState.refreshed, InputRow.read, h.getRowByKey]
  unfold WitnessState.step
  rw [hl, hr]

theorem topKStep_alike (t : TopK) (delta : ZSet) : t.step ho s' delta = t.step ho s delta := by
  have hk : TopK.stepKey s' = TopK.stepKey s := by
    funext t kw
    simp only [TopK.stepKey, TopK.computeSortKey, h.getRowByKey]
  unfold TopK.step
  rw [hk]

theorem step_alike {op : Operator} (hop : op.asWritten = true) (inputs : List ZSet) :
    op.step env ho inputs s' ctx = op.step env ho inputs s ctx := by
  cases op with
  | filter p => simp only [Operator.step, h.checkPredicate]
  | join on ls rs => simp only [Operator.step, hashJoin_alike h]
  | semiJoin on st | antiJoin on st => simp only [Operator.step, witnessStep_alike h]
  | topK t => simp only [Operator.step, topKStep_alike h]
  | indexedScan b | indexWindow w | keyScan t k => cases hop
  | _ => rfl

theorem evaluateKey_alike {op : Operator} (hop : op.asWritten = true) (key : String)
    (evals : List Bool) : op.evaluateKey env key evals s' ctx = op.evaluateKey env key evals s ctx := by
  cases op with
  | scan t => exact h.hasKey t key
  | filter p => simp only [Operator.evaluateKey, h.checkPredicate]
  | semiJoin on st => simp only [Operator.evaluateKey, h.joinField]
  | antiJoin on st => simp only [Operator.evaluateKey, h.joinField, h.getRowByKey]
  | indexedScan b | indexWindow w | keyScan t k => cases hop
  | _ => rfl

theorem reorderKey_alike {op : Operator} (hop : op.asWritten = true) (key : String) (now : Bool) :
    op.reorderKey ho key now s' ctx = op.reorderKey ho key now s ctx := by
  cases op with
  | topK t => simp only [Operator.reorderKey, TopK.reorderKey, topKStep_alike h]
  | indexWindow w => cases hop
  | _ => rfl

theorem sourceStart_alike {op : Operator} (hop : op.asWritten = true) :
    sourceStart op s' ctx = sourceStart op s ctx := by
  have hc : ∀ t : Option String, (t.bind s'.getCollection).elim ∅ Collection.membership =
      (t.bind s.getCollection).elim ∅ Collection.membership := by
    intro t
    cases t with
    | none => rfl
    | some t => exact h.held t
  cases op with
  | indexedScan b | indexWindow w | keyScan t k => cases hop
  | scan t => exact hc (some t)
  | _ => exact hc none

end Operators

/-! ## Graphs -/

/-- Every operator is one a plan taken as written is built of. -/
def AsWritten (nodes : List Node) : Prop := ∀ node ∈ nodes, node.operator.asWritten = true

theorem Operator.asWritten_reset (op : Operator) : op.reset.asWritten = op.asWritten := by
  cases op <;> rfl

theorem asWritten_of_shape {nodes nodes' : List Node} (hs : shape nodes' = shape nodes)
    (h : AsWritten nodes) : AsWritten nodes' := by
  have hall : ∀ nodes : List Node, AsWritten nodes ↔ ∀ x ∈ shape nodes, x.1.asWritten = true := by
    intro nodes
    simp [AsWritten, shape, Operator.asWritten_reset]
  rw [hall, hs, ← hall]
  exact h

theorem AsWritten.get {nodes : List Node} (h : AsWritten nodes) {i : Nat} {node : Node}
    (hn : nodes[i]? = some node) : node.operator.asWritten = true :=
  h node (List.mem_of_getElem? hn)

/-- A plan taken as written builds no index operator. -/
theorem buildNode_asWritten (plan : OperatorPlan) (nodes : List Node) (h : AsWritten nodes) :
    AsWritten (buildNode noIndexes plan nodes).1 :=
  buildNode_asBuilt (Q := fun op => op.asWritten = true) plan false
    (fun op hop => by cases hop <;> rfl) nofun nodes h

theorem fromPlan_asWritten (plan : OperatorPlan) : AsWritten (Graph.fromPlan plan).nodes :=
  buildNode_asWritten plan [] fun _ hn => by cases hn

section Graphs

variable {s s' : Store} (h : s.Alike s') (env : Env) (ho : HashOrder) (ctx : Option Sp00kyValue)
include h

theorem stepPass_alike {nodes : List Node} (hn : AsWritten nodes)
    {inputsOf inputsOf' : Nat → Node → NodeResults → List ZSet}
    (hin : ∀ i node acc, nodes[i]? = some node → inputsOf' i node acc = inputsOf i node acc)
    (order : List Nat) :
    stepPass env ho s' ctx nodes inputsOf' order = stepPass env ho s ctx nodes inputsOf order := by
  unfold stepPass
  congr 1
  funext id acc
  cases hnode : nodes[id]? with
  | none => rfl
  | some node =>
    rw [Option.map_some, Option.map_some, step_alike h env ho ctx (hn.get hnode),
      hin id node acc hnode]

theorem primeGraph_alike {g : Graph} (hn : AsWritten g.nodes) :
    primeGraph env ho g s' ctx = primeGraph env ho g s ctx := by
  unfold primeGraph
  rw [stepPass_alike h env ho ctx hn fun i node acc hnode => ?_]
  unfold primeInputs
  rw [sourceStart_alike h ctx (hn.get hnode)]

theorem evalPass_alike {nodes : List Node} (hn : AsWritten nodes) (order : List Nat) (key : String) :
    evalPass env s' ctx nodes order key = evalPass env s ctx nodes order key := by
  unfold evalPass
  congr 1
  funext id acc
  cases hnode : nodes[id]? with
  | none => rfl
  | some node =>
    rw [Option.map_some, Option.map_some, evaluateKey_alike h env ctx (hn.get hnode)]

theorem injectAll_alike {g : Graph} (hn : AsWritten g.nodes) (keys : List String) :
    injectAll env s' ctx g keys = injectAll env s ctx g keys := by
  have hk : injectKey env s' ctx g = injectKey env s ctx g := by
    funext inj key
    unfold injectKey
    rw [evalPass_alike h env ctx hn]
  unfold injectAll
  rw [hk]

theorem foldl_reevalNode_alike (key : String) (order : List Nat) {st : ReevalState}
    (hn : AsWritten st.nodes) :
    order.foldl (reevalNode env ho s' ctx key) st = order.foldl (reevalNode env ho s ctx key) st := by
  induction order generalizing st with
  | nil => rw [List.foldl_nil, List.foldl_nil]
  | cons i order ih =>
    have hstep : reevalNode env ho s' ctx key st i = reevalNode env ho s ctx key st i := by
      unfold reevalNode
      cases hnode : st.nodes[i]? with
      | none => rfl
      | some node =>
        have hop := hn.get hnode
        dsimp only
        rw [reorderKey_alike h ho ctx hop]
        split
        · next op delta hat =>
          have hop' : op.asWritten = true := by
            split at hat
            · rw [← Operator.asWritten_reset, Operator.reorderKey_reset hat,
                Operator.asWritten_reset, hop]
            · cases hat
          rw [evaluateKey_alike h env ctx hop']
        · rw [evaluateKey_alike h env ctx hop]
    rw [List.foldl_cons, List.foldl_cons, hstep]
    exact ih (asWritten_of_shape (reevalNode_shape env ho s ctx key st i) hn)

theorem foldl_pushDownstream_alike (order : List Nat) {st : List Node × ExtTreeMap Nat ZSet}
    (hn : AsWritten st.1) :
    order.foldl (pushDownstream env ho s' ctx) st = order.foldl (pushDownstream env ho s ctx) st := by
  induction order generalizing st with
  | nil => rw [List.foldl_nil, List.foldl_nil]
  | cons i order ih =>
    have hstep : pushDownstream env ho s' ctx st i = pushDownstream env ho s ctx st i := by
      unfold pushDownstream
      cases hnode : st.1[i]? with
      | none => rfl
      | some node =>
        dsimp only
        rw [step_alike h env ho ctx (hn.get hnode)]
    rw [List.foldl_cons, List.foldl_cons, hstep]
    exact ih (asWritten_of_shape (foldl_pushDownstream_shape env ho s ctx [i] st) hn)

theorem reevalKey_alike (cache : ZSet) {st : Graph × ZSet} (hn : AsWritten st.1.nodes)
    (key : String) :
    reevalKey env ho s' ctx cache st key = reevalKey env ho s ctx cache st key := by
  have hwalk : ∀ acc : ReevalState, acc = st.1.topoOrder.foldl (reevalNode env ho s ctx key)
      ⟨st.1.nodes, ∅, none⟩ → AsWritten acc.nodes := by
    rintro acc rfl
    exact asWritten_of_shape (foldl_reevalNode_shape env ho s ctx key _ _) hn
  unfold reevalKey
  dsimp only
  rw [foldl_reevalNode_alike h env ho ctx key st.1.topoOrder hn]
  split
  · rw [foldl_pushDownstream_alike h env ho ctx _ (hwalk _ rfl)]
  · rfl

theorem foldl_reevalKey_alike (cache : ZSet) (keys : List String) {st : Graph × ZSet}
    (hn : AsWritten st.1.nodes) :
    keys.foldl (reevalKey env ho s' ctx cache) st = keys.foldl (reevalKey env ho s ctx cache) st := by
  induction keys generalizing st with
  | nil => rw [List.foldl_nil, List.foldl_nil]
  | cons key keys ih =>
    rw [List.foldl_cons, List.foldl_cons, reevalKey_alike h env ho ctx cache hn]
    exact ih (asWritten_of_shape (reevalKey_sameShape env ho s ctx cache st key).shape hn)

theorem stepGraph_alike (cache : ZSet) {g : Graph} (hv : g.Valid) (hn : AsWritten g.nodes)
    (deltas : TableDeltas) (cu : ContentUpdates) :
    stepGraph env ho s' ctx cache g deltas cu = stepGraph env ho s ctx cache g deltas cu := by
  have hnote := note_sameShape g (contentKeys ho cu)
  have hn1 : AsWritten (g.note (contentKeys ho cu)).nodes := asWritten_of_shape hnote.shape hn
  have hmain : ∀ inj, mainPass env ho s' ctx (g.note (contentKeys ho cu)) deltas inj =
      mainPass env ho s ctx (g.note (contentKeys ho cu)) deltas inj := fun inj =>
    stepPass_alike h env ho ctx hn1 (fun _ _ _ _ => rfl) _
  unfold stepGraph
  dsimp only
  rw [injectAll_alike h env ctx hn1, hmain]
  split
  · rfl
  · rw [foldl_reevalKey_alike h env ho ctx cache _ (asWritten_of_shape
      (commit_sameShape env ho s ctx (hnote.valid hv) deltas _).shape hn1)]

end Graphs

/-! ## Views -/

section Views

variable {s s' : Store} (h : s.Alike s') (env : Env) (ho : HashOrder)
include h

/-- Two alike stores have the same collections up to what a bare one leaves out. -/
theorem Store.Alike.cases (t : String) :
    s'.getCollection t = none ∧ s.getCollection t = none ∨
      ∃ c c', s'.getCollection t = some c' ∧ s.getCollection t = some c ∧ c'.bare = c.bare := by
  have hb := h.bare t
  cases hs : s.getCollection t with
  | none =>
    rw [hs, Option.map_none, Option.map_eq_none_iff] at hb
    exact .inl ⟨hb, rfl⟩
  | some c =>
    rw [hs, Option.map_some, Option.map_eq_some_iff] at hb
    obtain ⟨c', hc', he⟩ := hb
    exact .inr ⟨c, c', hc', rfl, he⟩

theorem rootSubquery_alike (cache : ZSet) (acc : SubqueryCache) (info : SubqueryInfo) :
    rootSubquery ho s' cache acc info = rootSubquery ho s cache acc info := by
  have hr : ∀ c c' : Collection, c'.bare = c.bare → ∀ key,
      (if key.childField = "id" then reverseChildren ho s' cache info key c' acc
        else forwardChildren ho cache info key c' acc) =
      if key.childField = "id" then reverseChildren ho s cache info key c acc
        else forwardChildren ho cache info key c acc := by
    intro c c' he key
    unfold reverseChildren forwardChildren Collection.rowsIn
    rw [h.getRowByKey, (Collection.bare_inj he).2.1]
  unfold rootSubquery
  cases info.parentTable with
  | some pt => rfl
  | none =>
    cases info.parentKey with
    | none => rfl
    | some key =>
      rcases h.cases info.table with ⟨h1, h2⟩ | ⟨c, c', h1, h2, he⟩
      · rw [h1, h2]
      · rw [h1, h2]
        exact hr c c' he key

theorem nestedSubquery_alike (acc : SubqueryCache) (info : SubqueryInfo) :
    nestedSubquery ho s' acc info = nestedSubquery ho s acc info := by
  unfold nestedSubquery
  split
  · next pt key _ _ =>
    rcases h.cases info.table with ⟨h1, h2⟩ | ⟨c, c', h1, h2, he⟩
    · rw [h1, h2]
    · have hrows := (Collection.bare_inj he).2.1
      rcases h.cases pt with ⟨p1, p2⟩ | ⟨d, d', p1, p2, pe⟩
      · rw [h1, h2, p1, p2]
      · have hparents := (Collection.bare_inj pe).2.1
        rw [h1, h2, p1, p2]
        unfold parentFieldIndex Collection.rowsIn
        dsimp only
        rw [hrows, hparents]
  · rfl

theorem computeCurrentSubquerySet_alike (v : View) :
    computeCurrentSubquerySet ho s' v = computeCurrentSubquerySet ho s v := by
  unfold computeCurrentSubquerySet
  rw [show nestedSubquery ho s' = nestedSubquery ho s from
      funext fun acc => funext fun info => nestedSubquery_alike h ho acc info,
    show rootSubquery ho s' v.cache = rootSubquery ho s v.cache from
      funext fun acc => funext fun info => rootSubquery_alike h ho v.cache acc info]

theorem publishStep_alike (v : View) (viewDelta : ZSet) (deltas : TableDeltas)
    (cu : ContentUpdates) :
    publishStep env ho s' v viewDelta deltas cu = publishStep env ho s v viewDelta deltas cu := by
  have hr : refreshSubqueries ho s' = refreshSubqueries ho s := by
    funext v touched changed
    unfold refreshSubqueries subqueryUpdates
    rw [computeCurrentSubquerySet_alike h, h.getRowByKey]
  unfold publishStep
  rw [hr]

theorem initialSnapshot_alike {g : Graph} (hn : AsWritten g.nodes) (v : View) :
    initialSnapshot env ho s' g v = initialSnapshot env ho s g v := by
  unfold initialSnapshot
  rw [primeGraph_alike h env ho v.params hn]
  simp only [computeCurrentSubquerySet_alike h]

/-- A query's step on two alike stores. -/
theorem stepView_alike {g : Graph} (hv : g.Valid) (hn : AsWritten g.nodes) (v : View)
    (deltas : TableDeltas) (cu : ContentUpdates) :
    Circuit.stepView env noIndexes ho s' deltas cu g v =
      Circuit.stepView env noIndexes ho s deltas cu g v := by
  have hq : stepQuery env ho s' g v deltas cu = stepQuery env ho s g v deltas cu := by
    unfold stepQuery
    rw [stepGraph_alike h env ho v.params v.cache hv hn]
    simp only [publishStep_alike h]
  have hp : ∀ v : View, Circuit.reprimeView env (Graph.fromPlanWith v.plan.root noIndexes) ho s' v =
      Circuit.reprimeView env (Graph.fromPlanWith v.plan.root noIndexes) ho s v := by
    intro v
    have hg : AsWritten (Graph.fromPlanWith v.plan.root noIndexes).nodes :=
      fromPlan_asWritten v.plan.root
    unfold Circuit.reprimeView
    dsimp only
    rw [initialSnapshot_alike h env ho hg]
  unfold Circuit.stepView
  rw [hq]
  simp only [hp]

end Views

/-! ## Writes -/

section Writes

variable {s s' : Store}

theorem Store.Alike.stageDeletedRow (h : s.Alike s') (t id : String) :
    (s.stageDeletedRow t id).Alike (s'.stageDeletedRow t id) := by
  unfold Store.stageDeletedRow
  dsimp only
  rw [h.getRowByKey]
  split
  · exact h
  · exact ⟨by rw [h.pending], h.bare⟩

theorem apply_bare (env : Env) {c c' : Collection} (h : c'.bare = c.bare) (op : Operation)
    (id : String) (data : Sp00kyValue) :
    (c'.apply env op id data).1.bare = (c.apply env op id data).1.bare ∧
      (c'.apply env op id data).2 = (c.apply env op id data).2 := by
  obtain ⟨hname, hrows, hret⟩ := Collection.bare_inj h
  have hin : c'.incoming op (rawId id) data = c.incoming op (rawId id) data := by
    unfold Collection.incoming Collection.project Collection.get
    rw [hrows, hret]
  unfold Collection.apply
  dsimp only
  rw [hname, hrows, hin]
  split
  · split
    · exact ⟨h, rfl⟩
    · exact ⟨by simp [Collection.bare, hret], rfl⟩
  · split
    · exact ⟨h, rfl⟩
    · exact ⟨by simp [Collection.bare, hret], rfl⟩

theorem Store.Alike.applyOwned (h : s.Alike s') (env : Env) (t : String) (op : Operation)
    (id : String) (data : Sp00kyValue) :
    (s.applyOwned env t op id data).1.Alike (s'.applyOwned env t op id data).1 ∧
      (s'.applyOwned env t op id data).2 = (s.applyOwned env t op id data).2 := by
  have hc : (s'.collectionOrNew t).bare = (s.collectionOrNew t).bare := by
    rcases h.cases t with ⟨h1, h2⟩ | ⟨c, c', h1, h2, he⟩
    · unfold Store.getCollection at h1 h2
      rw [Store.collectionOrNew, Store.collectionOrNew, h1, h2]
    · unfold Store.getCollection at h1 h2
      rw [Store.collectionOrNew, Store.collectionOrNew, h1, h2]
      exact he
  obtain ⟨h1, h2⟩ := apply_bare env hc op id data
  refine ⟨⟨h.pending, fun u => ?_⟩, h2⟩
  have hname : ((s'.collectionOrNew t).apply env op id data).1.name =
      ((s.collectionOrNew t).apply env op id data).1.name := (Collection.bare_inj h1).1
  unfold Store.applyOwned Store.setCollection Store.getCollection
  dsimp only
  rw [hname, ExtTreeMap.getElem?_insert, ExtTreeMap.getElem?_insert]
  split
  · exact congrArg some h1
  · exact h.bare u

end Writes

end Sp00ky.Ssp
