/-
  Runs of a circuit as one query sees them.

  A step of the circuit changes a query's graph and view by `stepView` when the
  query depends on a changed table, and not at all otherwise (`step_registered`).
  `Reaches` is what a registered query can live through: steps, and other queries
  that come and go. `Reaches.induct` is the rule for facts about one query over a
  whole run: registration establishes them, a step of the query keeps them, and
  so does a step that touches none of its rows.
-/
import Sp00ky.Ssp.GraphFacts
import Sp00ky.Ssp.StoreFacts

namespace Sp00ky.Ssp

open Std Lib

theorem nodup_dedupFirst {α : Type} [DecidableEq α] (l : List α) : (dedupFirst l).Nodup := by
  induction l with
  | nil => exact List.nodup_nil
  | cons a l ih =>
    rw [dedupFirst, List.nodup_cons]
    exact ⟨by simp, ih.filter _⟩

/-! ## Views after a step -/

theorem applyDelta_empty (cache : ZSet) : View.applyDelta cache ∅ = cache := by
  refine ExtTreeMap.ext_getElem? fun k => ?_
  rw [View.applyDelta, getElem?_foldAlter]
  simp

theorem announce_view (env : Env) (v : View) (touched membershipChanges : Bool)
    (additions removals updates : List String) (items : List SubqueryDeltaItem) :
    let a := (announce env v touched membershipChanges additions removals updates items).1
    a.plan = v.plan ∧ a.params = v.params ∧ a.cache = v.cache ∧
      a.subqueryCache = v.subqueryCache ∧ a.subqueryTables = v.subqueryTables := by
  unfold announce
  dsimp only
  split
  · exact ⟨rfl, rfl, rfl, rfl, rfl⟩
  · generalize v.contentGeneration + _ = n
    split <;> exact ⟨rfl, rfl, rfl, rfl, rfl⟩

theorem publishStep_view (env : Env) (ho : HashOrder) (store : Store) (v : View) (viewDelta : ZSet)
    (deltas : TableDeltas) (cu : ContentUpdates) :
    (publishStep env ho store v viewDelta deltas cu).1.plan = v.plan ∧
      (publishStep env ho store v viewDelta deltas cu).1.params = v.params ∧
      (publishStep env ho store v viewDelta deltas cu).1.cache =
        View.applyDelta v.cache viewDelta := by
  unfold publishStep
  dsimp only
  generalize (!viewDelta.isEmpty || subqueryTouched v deltas cu || _) = refresh
  cases refresh with
  | true | false =>
    obtain ⟨h1, h2, h3, -⟩ := announce_view env _ _ _ _ _ _ _
    exact ⟨h1, h2, h3⟩

theorem initialSnapshot_view (env : Env) (ho : HashOrder) (store : Store) (g : Graph) (v : View) :
    (initialSnapshot env ho store g v).1 = (primeGraph env ho g store v.params).1 ∧
      (initialSnapshot env ho store g v).2.1.plan = v.plan ∧
      (initialSnapshot env ho store g v).2.1.params = v.params ∧
      (initialSnapshot env ho store g v).2.1.cache =
        View.applyDelta v.cache ((primeGraph env ho g store v.params).2.getD ∅) := by
  unfold initialSnapshot
  dsimp only
  split
  · next h =>
    rw [h]
    exact ⟨rfl, rfl, rfl, (applyDelta_empty _).symm⟩
  · next output h =>
    rw [h]
    split
    · next he =>
      rw [ExtTreeMap.isEmpty_iff.mp he]
      exact ⟨rfl, rfl, rfl, (applyDelta_empty _).symm⟩
    · exact ⟨rfl, rfl, rfl, rfl⟩

theorem stepQuery_view (env : Env) (ho : HashOrder) (store : Store) (g : Graph) (v : View)
    (deltas : TableDeltas) (cu : ContentUpdates) :
    (stepQuery env ho store g v deltas cu).1 =
        (stepGraph env ho store v.params v.cache g deltas cu).1 ∧
      (stepQuery env ho store g v deltas cu).2.1.plan = v.plan ∧
      (stepQuery env ho store g v deltas cu).2.1.params = v.params ∧
      (stepQuery env ho store g v deltas cu).2.1.cache = View.applyDelta v.cache
        ((stepGraph env ho store v.params v.cache g deltas cu).2.getD ∅) := by
  unfold stepQuery
  dsimp only
  split
  · next h =>
    rw [h]
    exact ⟨rfl, rfl, rfl, (applyDelta_empty _).symm⟩
  · next viewDelta h =>
    rw [h]
    exact ⟨rfl, publishStep_view env ho store v viewDelta deltas cu⟩

theorem reprimeView_view (env : Env) (g : Graph) (ho : HashOrder) (store : Store) (v : View) :
    (Circuit.reprimeView env g ho store v).1 = (primeGraph env ho g store v.params).1 ∧
      (Circuit.reprimeView env g ho store v).2.1.plan = v.plan ∧
      (Circuit.reprimeView env g ho store v).2.1.params = v.params ∧
      (Circuit.reprimeView env g ho store v).2.1.cache =
        View.applyDelta ∅ ((primeGraph env ho g store v.params).2.getD ∅) := by
  have h := initialSnapshot_view env ho store g
    { v with cache := ∅, subqueryCache := ∅, lastHash := "" }
  unfold Circuit.reprimeView
  dsimp only
  split
  · next g' v' d heq =>
    rw [heq] at h
    exact h
  · next g' v' heq =>
    rw [heq] at h
    exact h

/-- The graph and the cache a step of one query leaves. -/
theorem stepView_view (env : Env) (planner : IndexPlanner) (ho : HashOrder) (store : Store)
    (deltas : TableDeltas) (cu : ContentUpdates) (g : Graph) (v : View) :
    let stepped := stepGraph env ho store v.params v.cache g deltas cu
    let primed := primeGraph env ho (Graph.fromPlanWith v.plan.root planner) store v.params
    let r := Circuit.stepView env planner ho store deltas cu g v
    r.2.1.plan = v.plan ∧ r.2.1.params = v.params ∧
      (stepped.1.needsRebuild = false → r.1 = stepped.1 ∧
        r.2.1.cache = View.applyDelta v.cache (stepped.2.getD ∅)) ∧
      (stepped.1.needsRebuild = true → r.1 = primed.1 ∧
        r.2.1.cache = View.applyDelta ∅ (primed.2.getD ∅)) := by
  obtain ⟨h1, h2, h3, h4⟩ := stepQuery_view env ho store g v deltas cu
  unfold Circuit.stepView
  dsimp only
  rw [h1]
  cases hn : (stepGraph env ho store v.params v.cache g deltas cu).1.needsRebuild with
  | false =>
    rw [if_neg (by simp)]
    exact ⟨h2, h3, fun _ => ⟨rfl, h4⟩, fun h => by cases h⟩
  | true =>
    obtain ⟨r1, r2, r3, r4⟩ := reprimeView_view env
      (Graph.fromPlanWith (stepQuery env ho store g v deltas cu).2.1.plan.root planner) ho store
      (stepQuery env ho store g v deltas cu).2.1
    rw [h3] at r1 r3 r4
    rw [h2] at r1 r2 r3 r4
    rw [if_pos rfl, h2]
    exact ⟨r2, r3, fun h => (by cases h), fun _ => ⟨r1, r4⟩⟩

/-! ## Phase 3 -/

theorem setQuery_getElem? (c : Circuit) (q q' : String) (g : Graph) (v : View) :
    (c.setQuery q' g v).graphs[q]? = (if q = q' then some g else c.graphs[q]?) ∧
      (c.setQuery q' g v).views[q]? = if q = q' then some v else c.views[q]? := by
  unfold Circuit.setQuery
  dsimp only
  rw [ExtTreeMap.getElem?_insert, ExtTreeMap.getElem?_insert]
  by_cases h : q = q'
  · simp [h]
  · have hne : compare q' q ≠ .eq := by simpa using Ne.symm h
    simp [h, hne]

section Phase3

variable (env : Env) (planning : Planning) (ho : HashOrder) (deltas : TableDeltas)
  (cu : ContentUpdates)

/-- A query's step writes graphs and views only. -/
theorem stepAffected_frame (acc : Circuit × List ViewDelta) (q : String) :
    (Circuit.stepAffected env planning ho deltas cu acc q).1 =
      { acc.1 with
          graphs := (Circuit.stepAffected env planning ho deltas cu acc q).1.graphs
          views := (Circuit.stepAffected env planning ho deltas cu acc q).1.views } := by
  unfold Circuit.stepAffected
  dsimp only
  split <;> rfl

theorem stepAffected_ne (acc : Circuit × List ViewDelta) {q q' : String} (h : q ≠ q') :
    (Circuit.stepAffected env planning ho deltas cu acc q').1.graphs[q]? = acc.1.graphs[q]? ∧
      (Circuit.stepAffected env planning ho deltas cu acc q').1.views[q]? = acc.1.views[q]? := by
  unfold Circuit.stepAffected
  dsimp only
  split
  · dsimp only
    rw [(setQuery_getElem? _ _ _ _ _).1, (setQuery_getElem? _ _ _ _ _).2, if_neg h, if_neg h]
    exact ⟨rfl, rfl⟩
  · exact ⟨rfl, rfl⟩

theorem stepAffected_self (acc : Circuit × List ViewDelta) {q : String} {g : Graph} {v : View}
    (hg : acc.1.graphs[q]? = some g) (hv : acc.1.views[q]? = some v) :
    (Circuit.stepAffected env planning ho deltas cu acc q).1.graphs[q]? =
        some (Circuit.stepView env (planning acc.1.indexDefs v.params) ho acc.1.store deltas cu
          g v).1 ∧
      (Circuit.stepAffected env planning ho deltas cu acc q).1.views[q]? =
        some (Circuit.stepView env (planning acc.1.indexDefs v.params) ho acc.1.store deltas cu
          g v).2.1 := by
  unfold Circuit.stepAffected
  simp only [hg, hv]
  rw [(setQuery_getElem? _ _ _ _ _).1, (setQuery_getElem? _ _ _ _ _).2, if_pos rfl, if_pos rfl]
  exact ⟨rfl, rfl⟩

theorem foldl_stepAffected_frame (l : List String) (acc : Circuit × List ViewDelta) :
    (l.foldl (Circuit.stepAffected env planning ho deltas cu) acc).1 =
      { acc.1 with
          graphs := (l.foldl (Circuit.stepAffected env planning ho deltas cu) acc).1.graphs
          views := (l.foldl (Circuit.stepAffected env planning ho deltas cu) acc).1.views } := by
  induction l generalizing acc with
  | nil => rfl
  | cons q l ih =>
    rw [List.foldl_cons]
    refine (ih _).trans ?_
    conv_lhs => rw [stepAffected_frame]

/-- A query that is not among them, or without a graph or a view, is not stepped. -/
theorem foldl_stepAffected_other (l : List String) (acc : Circuit × List ViewDelta) {q : String}
    (h : q ∉ l ∨ acc.1.graphs[q]? = none ∨ acc.1.views[q]? = none) :
    (l.foldl (Circuit.stepAffected env planning ho deltas cu) acc).1.graphs[q]? =
        acc.1.graphs[q]? ∧
      (l.foldl (Circuit.stepAffected env planning ho deltas cu) acc).1.views[q]? =
        acc.1.views[q]? := by
  induction l generalizing acc with
  | nil => exact ⟨rfl, rfl⟩
  | cons q' l ih =>
    have hstep : (Circuit.stepAffected env planning ho deltas cu acc q').1.graphs[q]? =
          acc.1.graphs[q]? ∧
        (Circuit.stepAffected env planning ho deltas cu acc q').1.views[q]? =
          acc.1.views[q]? := by
      by_cases hq : q = q'
      · subst hq
        unfold Circuit.stepAffected
        dsimp only
        split
        next g v hg hv =>
          rw [hg, hv] at h
          simp at h
        next => exact ⟨rfl, rfl⟩
      · exact stepAffected_ne env planning ho deltas cu acc hq
    obtain ⟨h1, h2⟩ := ih (Circuit.stepAffected env planning ho deltas cu acc q') (by
      rw [hstep.1, hstep.2]
      exact h.imp_left fun h hmem => h (List.mem_cons_of_mem _ hmem))
    exact ⟨h1.trans hstep.1, h2.trans hstep.2⟩

/-- Each affected query is stepped once, on the store of phase 1. -/
theorem foldl_stepAffected_mem (l : List String) (hl : l.Nodup) (acc : Circuit × List ViewDelta)
    {q : String} {g : Graph} {v : View} (h : q ∈ l) (hg : acc.1.graphs[q]? = some g)
    (hv : acc.1.views[q]? = some v) :
    (l.foldl (Circuit.stepAffected env planning ho deltas cu) acc).1.graphs[q]? =
        some (Circuit.stepView env (planning acc.1.indexDefs v.params) ho acc.1.store deltas cu
          g v).1 ∧
      (l.foldl (Circuit.stepAffected env planning ho deltas cu) acc).1.views[q]? =
        some (Circuit.stepView env (planning acc.1.indexDefs v.params) ho acc.1.store deltas cu
          g v).2.1 := by
  induction l generalizing acc with
  | nil => cases h
  | cons q' l ih =>
    rw [List.nodup_cons] at hl
    rw [List.foldl_cons]
    by_cases hq : q = q'
    · subst hq
      obtain ⟨h1, h2⟩ := foldl_stepAffected_other env planning ho deltas cu l
        (Circuit.stepAffected env planning ho deltas cu acc q) (.inl hl.1)
      rw [h1, h2]
      exact stepAffected_self env planning ho deltas cu acc hg hv
    · obtain ⟨h1, h2⟩ := stepAffected_ne env planning ho deltas cu acc hq
      have hfr := stepAffected_frame env planning ho deltas cu acc q'
      have := ih hl.2 (Circuit.stepAffected env planning ho deltas cu acc q')
        ((List.mem_cons.mp h).resolve_left hq) (h1.trans hg) (h2.trans hv)
      rw [hfr] at this
      exact this

end Phase3

/-! ## A registered query -/

/-- The query `q` is registered for the plan, with the graph and the view given. -/
structure Registered (c : Circuit) (q : String) (plan : OperatorPlan) (params : Option Sp00kyValue)
    (g : Graph) (v : View) : Prop where
  graph : c.graphs[q]? = some g
  view : c.views[q]? = some v
  root : v.plan.root = plan
  ctx : v.params = params
  depends : ∀ t ∈ plan.collectTables, q ∈ c.dependencyMap[t]?.getD []

/-- Two stores hold the same rows of the tables. -/
def Store.Agree (tables : List String) (s s' : Store) : Prop :=
  ∀ t ∈ tables, ∀ id, s'.row t id = s.row t id

theorem foldl_applyChange_sameQueries (env : Env) (p : Phase1) (changes : List Change) :
    SameQueries p.circuit (changes.foldl (applyChange env) p).circuit := by
  induction changes generalizing p with
  | nil => exact ⟨rfl, rfl, rfl, rfl, rfl, rfl⟩
  | cons ch l ih =>
    rw [List.foldl_cons]
    refine SameQueries.trans ?_ (ih _)
    rw [(applyChange_cases env p ch).1]
    exact changed_sameQueries env p.circuit ch

theorem phase1_untouched (env : Env) (ho : HashOrder) (c : Circuit) (changes : List Change)
    {t : String} (ht : t ∉ (phase1 env ho c changes).changedTables) (id : String) :
    (phase1 env ho c changes).circuit.store.row t id = c.store.row t id := by
  have htr := foldl_applyChange_tracks env c changes
  rw [phase1_changedTables] at ht
  rw [phase1_circuit]
  obtain ⟨h1, h2⟩ := htr.touched t ht
  exact htr.same t id (by simp [ContentUpdates.of, h2]) (by simp [TableDeltas.of, h1])

/-- A step of the circuit: phase 1, the graphs and views of the affected queries, and the
    staged rows dropped. -/
theorem step_eq (env : Env) (planning : Planning) (ho : HashOrder) (c : Circuit)
    {changes : List Change} (hne : changes ≠ []) :
    (c.step env planning ho changes).1 =
      { ((phase1 env ho c changes).circuit.affectedQueries
            (phase1 env ho c changes).changedTables).foldl
          (Circuit.stepAffected env planning ho (phase1 env ho c changes).deltas
            (phase1 env ho c changes).content) ((phase1 env ho c changes).circuit, []) |>.1 with
        store := (phase1 env ho c changes).circuit.store.clearPendingDeletedRows } := by
  unfold Circuit.step
  rw [if_neg (by simpa using hne)]
  dsimp only
  congr 1
  rw [foldl_stepAffected_frame]

/-- A step of the circuit, as a registered query sees it: either none of its tables changed and
    nothing happens to it, or its graph and view are those of `stepView`. -/
theorem step_registered (env : Env) (planning : Planning) (ho : HashOrder) {c : Circuit}
    {changes : List Change} {q : String} {plan : OperatorPlan} {params : Option Sp00kyValue}
    {g : Graph} {v : View} (h : Registered c q plan params g v) (hne : changes ≠ []) :
    let p := phase1 env ho c changes
    let c' := (c.step env planning ho changes).1
    let r := Circuit.stepView env (planning c.indexDefs params) ho p.circuit.store p.deltas
      p.content g v
    c'.store = p.circuit.store.clearPendingDeletedRows ∧
      ((∀ t ∈ plan.collectTables, t ∉ p.changedTables) ∧ Registered c' q plan params g v ∨
        Registered c' q plan params r.1 r.2.1) := by
  intro p c' r
  have hsq : SameQueries c p.circuit := foldl_applyChange_sameQueries env ⟨c, ∅, ∅, []⟩ changes
  have hc' : c' = _ := step_eq env planning ho c hne
  have hdep : c'.dependencyMap = c.dependencyMap := by
    rw [hc', foldl_stepAffected_frame]
    exact hsq.dependencyMap
  have hg : p.circuit.graphs[q]? = some g := by rw [hsq.graphs]; exact h.graph
  have hv : p.circuit.views[q]? = some v := by rw [hsq.views]; exact h.view
  have hstore : c'.store = p.circuit.store.clearPendingDeletedRows := by rw [hc']
  refine ⟨hstore, ?_⟩
  by_cases hq : q ∈ p.circuit.affectedQueries p.changedTables
  · right
    obtain ⟨h1, h2⟩ := foldl_stepAffected_mem env planning ho p.deltas p.content _
      (nodup_dedupFirst _) (p.circuit, []) hq hg hv
    obtain ⟨hp, hpar, -⟩ := stepView_view env (planning c.indexDefs params) ho p.circuit.store
      p.deltas p.content g v
    rw [hsq.indexDefs, h.ctx] at h1 h2
    exact ⟨by rw [hc']; exact h1, by rw [hc']; exact h2, (congrArg QueryPlan.root hp).trans h.root,
      hpar.trans h.ctx, by rw [hdep]; exact h.depends⟩
  · left
    obtain ⟨h1, h2⟩ := foldl_stepAffected_other env planning ho p.deltas p.content _
      (p.circuit, []) (.inl hq)
    refine ⟨?_, by rw [hc']; exact h1.trans hg, by rw [hc']; exact h2.trans hv, h.root, h.ctx,
      by rw [hdep]; exact h.depends⟩
    intro t ht hch
    refine hq ?_
    rw [Circuit.affectedQueries, mem_dedupFirst, List.mem_flatMap]
    exact ⟨t, hch, by rw [hsq.dependencyMap]; exact h.depends t ht⟩

/-! ## Queries that come and go -/

/-- Two stores hold the same rows everywhere. -/
def Store.SameRows (s s' : Store) : Prop := ∀ t id, s'.row t id = s.row t id

theorem setRetainedFields_row (s : Store) (t : String) (fields : Option (ExtTreeSet String))
    (u id : String) : (s.setRetainedFields t fields).row u id = s.row u id := by
  unfold Store.setRetainedFields
  rw [setCollection_row]
  dsimp only
  split
  · next h =>
    rw [h, s.collectionOrNew_name, collectionOrNew_rows]
  · rfl

theorem foldl_setRetainedFields_row (f : String → Option (ExtTreeSet String)) (l : List String)
    (s : Store) (u id : String) :
    (l.foldl (fun s t => s.setRetainedFields t (f t)) s).row u id = s.row u id := by
  induction l generalizing s with
  | nil => rfl
  | cons t l ih => rw [List.foldl_cons, ih, setRetainedFields_row]

theorem refreshRetainedFields_frame (c : Circuit) :
    SameQueries c c.refreshRetainedFields ∧ c.store.SameRows c.refreshRetainedFields.store := by
  unfold Circuit.refreshRetainedFields
  split
  · exact ⟨⟨rfl, rfl, rfl, rfl, rfl, rfl⟩, fun _ _ => rfl⟩
  · exact ⟨⟨rfl, rfl, rfl, rfl, rfl, rfl⟩, fun t id => foldl_setRetainedFields_row _ _ _ _ _⟩

theorem runInitialSnapshot_frame (env : Env) (ho : HashOrder) (c : Circuit) (q' : String) :
    (c.runInitialSnapshot env ho q').1.store = c.store ∧
      (c.runInitialSnapshot env ho q').1.dependencyMap = c.dependencyMap ∧
      ∀ q, q ≠ q' → (c.runInitialSnapshot env ho q').1.graphs[q]? = c.graphs[q]? ∧
        (c.runInitialSnapshot env ho q').1.views[q]? = c.views[q]? := by
  unfold Circuit.runInitialSnapshot
  split
  · refine ⟨rfl, rfl, fun q hq => ?_⟩
    dsimp only
    rw [(setQuery_getElem? _ _ _ _ _).1, (setQuery_getElem? _ _ _ _ _).2, if_neg hq, if_neg hq]
    exact ⟨rfl, rfl⟩
  · exact ⟨rfl, rfl, fun q _ => ⟨rfl, rfl⟩⟩

theorem addDependency_mono (tables : List String) (q' : String)
    (m : ExtTreeMap String (List String)) (t q : String) :
    q ∈ (tables.foldl (fun m t => m.alter t fun old => some (old.getD [] ++ [q'])) m)[t]?.getD [] ↔
      q ∈ m[t]?.getD [] ∨ q = q' ∧ t ∈ tables := by
  induction tables generalizing m with
  | nil => simp
  | cons u tables ih =>
    rw [List.foldl_cons, ih, ExtTreeMap.getElem?_alter]
    by_cases h : u = t
    · subst h
      simp only [ReflCmp.compare_self, if_true, Option.getD_some, List.mem_append,
        List.mem_cons, true_or, and_true]
      tauto
    · rw [if_neg (by simpa using h)]
      simp only [List.mem_cons, Ne.symm h, false_or]

/-- The circuit of a registration before its first snapshot. -/
def enrolled (planning : Planning) (c : Circuit) (plan : QueryPlan) (params : Option Json)
    (authId : String) : Circuit :=
  let queryId := Circuit.canonicalQueryId plan.id
  let params' := params.map Sp00kyValue.ofJson
  { c.setQuery queryId (Graph.fromPlanWith plan.root (planning c.indexDefs params'))
      (View.new queryId ⟨queryId, plan.root⟩ params' plan.root.referencedTables authId) with
      dependencyMap := plan.root.referencedTables.foldl
        (fun m t => m.alter t fun old => some (old.getD [] ++ [queryId])) c.dependencyMap }

section Registration

variable (env : Env) (planning : Planning) (ho : HashOrder) (c : Circuit) (plan : QueryPlan)
  (params : Option Json) (authId : String)

theorem addQuery_eq :
    c.addQuery env planning ho plan params authId =
      (enrolled planning c plan params authId).refreshRetainedFields.runInitialSnapshot env ho
        (Circuit.canonicalQueryId plan.id) := rfl

theorem enrolled_graphs (q : String) :
    (enrolled planning c plan params authId).graphs[q]? =
      if q = Circuit.canonicalQueryId plan.id then
        some (Graph.fromPlanWith plan.root (planning c.indexDefs (params.map Sp00kyValue.ofJson)))
      else c.graphs[q]? := by
  unfold enrolled
  dsimp only
  exact (setQuery_getElem? _ _ _ _ _).1

theorem enrolled_views (q : String) :
    (enrolled planning c plan params authId).views[q]? =
      if q = Circuit.canonicalQueryId plan.id then
        some (View.new (Circuit.canonicalQueryId plan.id)
          ⟨Circuit.canonicalQueryId plan.id, plan.root⟩ (params.map Sp00kyValue.ofJson)
          plan.root.referencedTables authId)
      else c.views[q]? := by
  unfold enrolled
  dsimp only
  exact (setQuery_getElem? _ _ _ _ _).2

theorem enrolled_depends (t q : String) :
    q ∈ (enrolled planning c plan params authId).dependencyMap[t]?.getD [] ↔
      q ∈ c.dependencyMap[t]?.getD [] ∨
        q = Circuit.canonicalQueryId plan.id ∧ t ∈ plan.root.collectTables := by
  unfold enrolled
  dsimp only
  rw [addDependency_mono, OperatorPlan.referencedTables, mem_dedupFirst]

/-- A registration takes the snapshot of its plan's graph for a new view. -/
theorem addQuery_run :
    let c1 := (enrolled planning c plan params authId).refreshRetainedFields
    let r := initialSnapshot env ho c1.store
      (Graph.fromPlanWith plan.root (planning c.indexDefs (params.map Sp00kyValue.ofJson)))
      (View.new (Circuit.canonicalQueryId plan.id) ⟨Circuit.canonicalQueryId plan.id, plan.root⟩
        (params.map Sp00kyValue.ofJson) plan.root.referencedTables authId)
    c.addQuery env planning ho plan params authId =
      (c1.setQuery (Circuit.canonicalQueryId plan.id) r.1 r.2.1, r.2.2) := by
  intro c1 r
  obtain ⟨hsq, -⟩ := refreshRetainedFields_frame (enrolled planning c plan params authId)
  have hg := enrolled_graphs planning c plan params authId (Circuit.canonicalQueryId plan.id)
  have hv := enrolled_views planning c plan params authId (Circuit.canonicalQueryId plan.id)
  rw [if_pos rfl, ← hsq.graphs] at hg
  rw [if_pos rfl, ← hsq.views] at hv
  rw [addQuery_eq]
  unfold Circuit.runInitialSnapshot
  simp only [hg, hv]
  rfl

/-- A registration keeps every row and leaves the snapshot of its plan's graph and a new view. -/
theorem addQuery_snapshot :
    let c' := (c.addQuery env planning ho plan params authId).1
    let params' := params.map Sp00kyValue.ofJson
    let r := initialSnapshot env ho c'.store
      (Graph.fromPlanWith plan.root (planning c.indexDefs params'))
      (View.new (Circuit.canonicalQueryId plan.id) ⟨Circuit.canonicalQueryId plan.id, plan.root⟩
        params' plan.root.referencedTables authId)
    c.store.SameRows c'.store ∧
      Registered c' (Circuit.canonicalQueryId plan.id) plan.root params' r.1 r.2.1 := by
  intro c' params' r
  obtain ⟨hsq, hrows⟩ := refreshRetainedFields_frame (enrolled planning c plan params authId)
  have hrun : c' = _ := congrArg Prod.fst (addQuery_run env planning ho c plan params authId)
  have hstore : c'.store = (enrolled planning c plan params authId).refreshRetainedFields.store := by
    rw [hrun]
    rfl
  obtain ⟨-, i2, i3, -⟩ := initialSnapshot_view env ho c'.store
    (Graph.fromPlanWith plan.root (planning c.indexDefs params'))
    (View.new (Circuit.canonicalQueryId plan.id) ⟨Circuit.canonicalQueryId plan.id, plan.root⟩
      params' plan.root.referencedTables authId)
  dsimp only at hrun
  rw [← hstore] at hrun
  refine ⟨fun t id => by rw [hstore]; exact hrows t id, ?_, ?_, (congrArg QueryPlan.root i2).trans rfl,
    i3.trans rfl, ?_⟩
  · conv_lhs => rw [hrun, (setQuery_getElem? _ _ _ _ _).1, if_pos rfl]
  · conv_lhs => rw [hrun, (setQuery_getElem? _ _ _ _ _).2, if_pos rfl]
  · intro t ht
    have hd : c'.dependencyMap =
        (enrolled planning c plan params authId).refreshRetainedFields.dependencyMap := by
      rw [hrun]
      rfl
    rw [hd, hsq.dependencyMap, enrolled_depends]
    exact .inr ⟨rfl, ht⟩

/-- A registration keeps every row, and primes the graph of its plan on the store it leaves. -/
theorem addQuery_registered :
    let c' := (c.addQuery env planning ho plan params authId).1
    let params' := params.map Sp00kyValue.ofJson
    let primed := primeGraph env ho (Graph.fromPlanWith plan.root (planning c.indexDefs params'))
      c'.store params'
    c.store.SameRows c'.store ∧ ∃ v,
      Registered c' (Circuit.canonicalQueryId plan.id) plan.root params' primed.1 v ∧
        v.cache = View.applyDelta ∅ (primed.2.getD ∅) := by
  intro c' params' primed
  obtain ⟨hrows, hreg⟩ := addQuery_snapshot env planning ho c plan params authId
  obtain ⟨i1, -, -, i4⟩ := initialSnapshot_view env ho c'.store
    (Graph.fromPlanWith plan.root (planning c.indexDefs params'))
    (View.new (Circuit.canonicalQueryId plan.id) ⟨Circuit.canonicalQueryId plan.id, plan.root⟩
      params' plan.root.referencedTables authId)
  rw [i1] at hreg
  exact ⟨hrows, _, hreg, i4⟩

/-- Registering another query leaves a query alone. -/
theorem addQuery_other {q : String} {plan' : OperatorPlan} {params' : Option Sp00kyValue}
    {g : Graph} {v : View} (h : Registered c q plan' params' g v)
    (hq : Circuit.canonicalQueryId plan.id ≠ q) :
    Registered (c.addQuery env planning ho plan params authId).1 q plan' params' g v ∧
      c.store.SameRows (c.addQuery env planning ho plan params authId).1.store := by
  obtain ⟨hsq, hrows⟩ := refreshRetainedFields_frame (enrolled planning c plan params authId)
  obtain ⟨hst, hdep, hfr⟩ := runInitialSnapshot_frame env ho
    (enrolled planning c plan params authId).refreshRetainedFields
    (Circuit.canonicalQueryId plan.id)
  obtain ⟨hg, hv⟩ := hfr q (Ne.symm hq)
  rw [addQuery_eq]
  refine ⟨⟨?_, ?_, h.root, h.ctx, ?_⟩, fun t id => by rw [hst]; exact hrows t id⟩
  · rw [hg, hsq.graphs, enrolled_graphs, if_neg (Ne.symm hq)]
    exact h.graph
  · rw [hv, hsq.views, enrolled_views, if_neg (Ne.symm hq)]
    exact h.view
  · intro t ht
    rw [hdep, hsq.dependencyMap, enrolled_depends]
    exact .inl (h.depends t ht)

end Registration

/-- Removing another query leaves a query alone. -/
theorem removeQuery_other {c : Circuit} (other : String) {q : String} {plan : OperatorPlan}
    {params : Option Sp00kyValue} {g : Graph} {v : View} (h : Registered c q plan params g v)
    (hq : Circuit.canonicalQueryId other ≠ q) :
    Registered (c.removeQuery other) q plan params g v := by
  have hne : compare (Circuit.canonicalQueryId other) q ≠ .eq := by simpa using hq
  refine ⟨?_, ?_, h.root, h.ctx, ?_⟩
  · unfold Circuit.removeQuery
    dsimp only
    rw [ExtTreeMap.getElem?_erase, if_neg hne]
    exact h.graph
  · unfold Circuit.removeQuery
    dsimp only
    rw [ExtTreeMap.getElem?_erase, if_neg hne]
    exact h.view
  · intro t ht
    have hd := h.depends t ht
    unfold Circuit.removeQuery
    dsimp only
    rw [ExtTreeMap.getElem?_filterMap']
    cases hm : c.dependencyMap[t]? with
    | none => simp [hm] at hd
    | some ids =>
      rw [hm] at hd
      have hin : q ∈ ids.filter (· != Circuit.canonicalQueryId other) := by
        simpa using ⟨hd, Ne.symm hq⟩
      have hnil : (ids.filter (· != Circuit.canonicalQueryId other)).isEmpty = false := by
        cases hl : ids.filter (· != Circuit.canonicalQueryId other) with
        | nil => rw [hl] at hin; cases hin
        | cons a l => rfl
      rw [Option.bind_some, hnil, if_neg (by simp), Option.getD_some]
      exact hin

/-! ## Runs -/

/-- What a registered query `q` lives through from the circuit `c` on: steps, each admitted by
    `ok` in the state before it, and other queries that come and go. -/
inductive Reaches (env : Env) (planning : Planning) (q : String)
    (ok : Circuit → List Change → Prop) (c : Circuit) : Circuit → Prop
  | start : Reaches env planning q ok c c
  | step {c'} (ho : HashOrder) (changes : List Change) : Reaches env planning q ok c c' →
      ok c' changes → Reaches env planning q ok c (c'.step env planning ho changes).1
  | addQuery {c'} (ho : HashOrder) (plan : QueryPlan) (params : Option Json) (authId : String) :
      Reaches env planning q ok c c' → Circuit.canonicalQueryId plan.id ≠ q →
      Reaches env planning q ok c (c'.addQuery env planning ho plan params authId).1
  | removeQuery {c'} (id : String) : Reaches env planning q ok c c' →
      Circuit.canonicalQueryId id ≠ q → Reaches env planning q ok c (c'.removeQuery id)

/-- The run rule: a fact about a query's rows, graph and view that a step of the query keeps
    holds at the end of every run. `P` reads the rows of the plan's tables only; the step may use
    that the query is registered with what the step leaves. -/
theorem Reaches.holds {env : Env} {planning : Planning} {q : String}
    {ok : Circuit → List Change → Prop} {plan : OperatorPlan} {params : Option Sp00kyValue}
    {P : Store → Graph → View → Prop}
    (hframe : ∀ s s' g v, s.Agree plan.collectTables s' → P s g v → P s' g v)
    (hstep : ∀ c g v ho changes, changes ≠ [] → Registered c q plan params g v → ok c changes →
      P c.store g v →
      let p := phase1 env ho c changes
      let r := Circuit.stepView env (planning c.indexDefs params) ho p.circuit.store p.deltas
        p.content g v
      Registered (c.step env planning ho changes).1 q plan params r.1 r.2.1 →
      P p.circuit.store r.1 r.2.1)
    {c c' : Circuit} {g : Graph} {v : View} (h0 : Registered c q plan params g v)
    (hP : P c.store g v) (hr : Reaches env planning q ok c c') :
    ∃ g' v', Registered c' q plan params g' v' ∧ P c'.store g' v' := by
  induction hr with
  | start => exact ⟨g, v, h0, hP⟩
  | @step c' ho changes _ hok ih =>
    obtain ⟨g', v', hreg, hP'⟩ := ih
    by_cases hne : changes = []
    · subst hne
      exact ⟨g', v', hreg, hP'⟩
    · obtain ⟨hst, hcase⟩ := step_registered env planning ho hreg hne
      rcases hcase with ⟨hquiet, hreg'⟩ | hreg'
      · refine ⟨g', v', hreg', hframe c'.store _ g' v' ?_ hP'⟩
        intro t ht id
        rw [hst]
        exact phase1_untouched env ho c' changes (hquiet t ht) id
      · refine ⟨_, _, hreg', ?_⟩
        rw [hst]
        exact hframe (phase1 env ho c' changes).circuit.store _ _ _ (fun _ _ _ => rfl)
          (hstep c' g' v' ho changes hne hreg hok hP' hreg')
  | addQuery ho other params' authId _ hq ih =>
    obtain ⟨g', v', hreg, hP'⟩ := ih
    obtain ⟨h1, h2⟩ := addQuery_other env planning ho _ other params' authId hreg hq
    exact ⟨g', v', h1, hframe _ _ g' v' (fun t _ id => h2 t id) hP'⟩
  | removeQuery other _ hq ih =>
    obtain ⟨g', v', hreg, hP'⟩ := ih
    exact ⟨g', v', removeQuery_other other hreg hq, hP'⟩

end Sp00ky.Ssp
