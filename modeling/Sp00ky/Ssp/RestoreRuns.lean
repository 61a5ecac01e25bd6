/-
  What `restore` returns, and how it steps on.

  The circuit read back holds the views, the rows and freshly built graphs. Where the
  saved circuit's graphs held no state and its dependency map named the tables of the
  plans, the two are twins: they answer every step alike.
-/
import Sp00ky.Ssp.Restore

namespace Sp00ky.Ssp

open Std Lib

/-! ## Twins -/

/-- Two circuits without settings, with the same queries over alike stores. -/
structure Twin (c r : Circuit) : Prop where
  versions : r.monotonicRowVersions = false
  opaqueFields : r.opaqueFields = ∅
  store : c.store.Alike r.store
  graphs : ∀ q : String, r.graphs[q]? = c.graphs[q]?
  views : ∀ q : String, r.views[q]? = c.views[q]?
  depends : ∀ t q : String, q ∈ r.dependencyMap[t]?.getD [] ↔ q ∈ c.dependencyMap[t]?.getD []

/-- Phase 1 of two twins. -/
structure Phase1.Alike (p p' : Phase1) : Prop where
  plain : p.circuit.monotonicRowVersions = false ∧ p.circuit.opaqueFields = ∅
  plain' : p'.circuit.monotonicRowVersions = false ∧ p'.circuit.opaqueFields = ∅
  store : p.circuit.store.Alike p'.circuit.store
  deltas : p'.deltas = p.deltas
  content : p'.content = p.content
  changedTables : p'.changedTables = p.changedTables

section Steps

variable {env : Env}

theorem staged_alike {c c' : Circuit} (h : c.store.Alike c'.store) (ch : Change) :
    (staged c ch).store.Alike (staged c' ch).store := by
  unfold staged
  split
  · exact h.stageDeletedRow ch.table ch.id
  · exact h

/-- A change written to alike stores leaves alike stores and the same record of it. -/
theorem written_alike {c c' : Circuit} (hp : c.monotonicRowVersions = false ∧ c.opaqueFields = ∅)
    (hp' : c'.monotonicRowVersions = false ∧ c'.opaqueFields = ∅) (h : c.store.Alike c'.store)
    (ch : Change) :
    (written env c ch).1.Alike (written env c' ch).1 ∧
      (written env c' ch).2 = (written env c ch).2 := by
  have hb : ∀ c : Circuit, c.monotonicRowVersions = false ∧ c.opaqueFields = ∅ →
      (bodyIn (staged c ch) ch).2 = ch.data := by
    intro c hp
    obtain ⟨h1, h2, -⟩ := staged_settings c ch
    rw [bodyIn_sound (h1.trans hp.1) (h2.trans hp.2)]
  unfold written
  rw [hb c hp, hb c' hp']
  exact (staged_alike h ch).applyOwned env ch.table ch.op ch.id ch.data

theorem changed_settings {c : Circuit} (hp : c.monotonicRowVersions = false ∧ c.opaqueFields = ∅)
    (ch : Change) :
    (changed env c ch).monotonicRowVersions = false ∧ (changed env c ch).opaqueFields = ∅ := by
  obtain ⟨h1, h2, -⟩ := staged_settings c ch
  unfold changed
  rw [bodyIn_sound (h1.trans hp.1) (h2.trans hp.2)]
  exact ⟨h1.trans hp.1, h2.trans hp.2⟩

theorem Phase1.Alike.applyChange {p p' : Phase1} (h : p.Alike p') (ch : Change) :
    (applyChange env p ch).Alike (applyChange env p' ch) := by
  obtain ⟨hs, ha⟩ := written_alike h.plain h.plain' h.store ch
  have hc := (applyChange_cases env p ch).1
  have hc' := (applyChange_cases env p' ch).1
  have hrest : (Ssp.applyChange env p' ch).deltas = (Ssp.applyChange env p ch).deltas ∧
      (Ssp.applyChange env p' ch).content = (Ssp.applyChange env p ch).content ∧
      (Ssp.applyChange env p' ch).changedTables = (Ssp.applyChange env p ch).changedTables := by
    rw [applyChange_eq, applyChange_eq, ha]
    split
    · exact ⟨h.deltas, h.content, h.changedTables⟩
    · dsimp only
      split
      · dsimp only
        rw [h.deltas, h.content, h.changedTables]
        exact ⟨rfl, rfl, rfl⟩
      · dsimp only
        rw [h.deltas, h.content, h.changedTables]
        exact ⟨rfl, rfl, rfl⟩
  refine ⟨?_, ?_, ?_, hrest.1, hrest.2.1, hrest.2.2⟩
  · rw [hc]; exact changed_settings h.plain ch
  · rw [hc']; exact changed_settings h.plain' ch
  · rw [applyChange_store, applyChange_store]; exact hs

theorem cleanTable_alike {s s' : Store} (h : s.Alike s') (ho : HashOrder) :
    cleanTable ho s' = cleanTable ho s := by
  funext p t
  unfold cleanTable
  simp only [h.hasKey]

theorem phase1_alike {c r : Circuit} (hc : c.Sound env) (h : Twin c r) (ho : HashOrder)
    (changes : List Change) : (phase1 env ho c changes).Alike (phase1 env ho r changes) := by
  have hall : ∀ p p' : Phase1, p.Alike p' →
      (changes.foldl (applyChange env) p).Alike (changes.foldl (applyChange env) p') := by
    induction changes with
    | nil => exact fun _ _ hp => hp
    | cons ch changes ih => exact fun p p' hp => ih _ _ (hp.applyChange ch)
  obtain ⟨h1, h2, h3, h4, h5, h6⟩ := hall ⟨c, ∅, ∅, []⟩ ⟨r, ∅, ∅, []⟩
    ⟨⟨hc.versions, hc.opaqueFields⟩, ⟨h.versions, h.opaqueFields⟩, h.store, rfl, rfl, rfl⟩
  unfold phase1
  dsimp only
  rw [h4, h5, h6, cleanTable_alike h3]
  exact ⟨h1, h2, h3, rfl, rfl, rfl⟩

/-- Twins step to twins. -/
theorem Twin.step {c r : Circuit} (hc : c.Sound env) (h : Twin c r) (ho : HashOrder)
    (changes : List Change) :
    Twin (c.step env asWritten ho changes).1 (r.step env asWritten ho changes).1 := by
  by_cases hne : changes = []
  · subst hne
    exact h
  have hp := phase1_alike hc h ho changes
  have hsq := foldl_applyChange_sameQueries env ⟨c, ∅, ∅, []⟩ changes
  have hsq' := foldl_applyChange_sameQueries env ⟨r, ∅, ∅, []⟩ changes
  have hreach : ∀ q, q ∈ r.reaches env ho changes ↔ q ∈ c.reaches env ho changes := by
    intro q
    unfold Circuit.reaches Circuit.affectedQueries
    rw [mem_dedupFirst, mem_dedupFirst, hp.changedTables, List.mem_flatMap, List.mem_flatMap,
      phase1_circuit, phase1_circuit, hsq.dependencyMap, hsq'.dependencyMap]
    exact exists_congr fun t => and_congr_right fun _ => h.depends t q
  have hquery : ∀ q : String,
      (r.step env asWritten ho changes).1.graphs[q]? =
          (c.step env asWritten ho changes).1.graphs[q]? ∧
        (r.step env asWritten ho changes).1.views[q]? =
          (c.step env asWritten ho changes).1.views[q]? := by
    intro q
    cases hv : c.views[q]? with
    | none =>
      obtain ⟨h1, h2⟩ := step_query_absent ho hne hv
      obtain ⟨h3, h4⟩ := step_query_absent ho hne ((h.views q).trans hv)
      rw [h1, h2, h3, h4]
      exact ⟨h.graphs q, rfl⟩
    | some v =>
      obtain ⟨-, g, hg, hshape⟩ := hc.view q v hv
      have hvalid : g.Valid := hshape.valid (Graph.fromPlanWith_valid _ _)
      have hwritten : AsWritten g.nodes := asWritten_of_shape hshape.shape (fromPlan_asWritten _)
      obtain ⟨h1, h2⟩ := step_query ho hne hg hv
      obtain ⟨h3, h4⟩ := step_query ho hne ((h.graphs q).trans hg)
        ((h.views q).trans hv)
      rw [h1, h2, h3, h4, hp.deltas, hp.content, stepView_alike hp.store env ho hvalid hwritten]
      simp only [hreach]
      exact ⟨trivial, trivial⟩
  have hstep := step_eq env asWritten ho c hne
  have hstep' := step_eq env asWritten ho r hne
  rw [foldl_stepAffected_frame] at hstep hstep'
  refine ⟨?_, ?_, ?_, fun q => (hquery q).1, fun q => (hquery q).2, fun t q => ?_⟩
  · rw [hstep']; exact hp.plain'.1
  · rw [hstep']; exact hp.plain'.2
  · rw [hstep, hstep']
    exact ⟨rfl, hp.store.bare⟩
  · rw [hstep, hstep']
    show q ∈ (phase1 env ho r changes).circuit.dependencyMap[t]?.getD [] ↔
      q ∈ (phase1 env ho c changes).circuit.dependencyMap[t]?.getD []
    rw [phase1_circuit, phase1_circuit, hsq.dependencyMap, hsq'.dependencyMap]
    exact h.depends t q

/-- Twins stay twins over a run. -/
theorem Twin.stepAll {c r : Circuit} (hc : c.Sound env) (h : Twin c r)
    (steps : List (HashOrder × List Change)) :
    Twin (c.stepAll env asWritten steps) (r.stepAll env asWritten steps) := by
  induction steps generalizing c r with
  | nil => exact h
  | cons s steps ih => exact ih (hc.step s.1 s.2) (h.step hc s.1 s.2)

end Steps

/-! ## What `restore` reads back -/

section ReadBack

variable {env : Env}

theorem CircuitState.ofJson_json {s : CircuitState} (hf : s.store.Finite)
    (hq : ∀ qs ∈ s.queries, qs.plan.root.WF ∧ qs.params ≠ some .null) :
    CircuitState.ofJson env s.json = some ⟨s.store.restored env, s.queries⟩ := by
  have hlist : Json.asList QueryState.ofJson (listJson QueryState.json s.queries) =
      some s.queries := by
    have := asList_listJson (f := QueryState.json) (g := QueryState.ofJson) (h := id)
      (l := s.queries) fun qs hqs => by
        obtain ⟨hw, hn⟩ := hq qs hqs
        rw [QueryState.ofJson_json hw]
        obtain ⟨plan, params, _⟩ := qs
        cases params with
        | none => rfl
        | some j =>
          cases j with
          | null => exact absurd rfl hn
          | _ => rfl
    rwa [List.map_id] at this
  unfold CircuitState.ofJson CircuitState.json
  rw [field_of_lookup (k := "store") rfl, field_of_lookup (k := "queries") rfl, hlist,
    Store.ofJson_json env hf]
  rfl

/-- A registered view comes back as it was. -/
theorem restoredView_queryState {q : String} {v : View} (h : v.Sound q) (ho : HashOrder)
    (c : Circuit) : Circuit.restoredView (c.queryState ho v) = v := by
  have hid : Circuit.canonicalQueryId v.plan.id = q := by rw [h.planId]; exact h.canonical
  have hplan : (⟨q, v.plan.root⟩ : QueryPlan) = v.plan := by rw [← h.planId]
  have hparams : (v.params.map Sp00kyValue.norm).map Sp00kyValue.ofJson = v.params := by
    rw [Option.map_map]
    exact h.params
  unfold Circuit.restoredView Circuit.queryState View.new
  dsimp only
  rw [hid, hplan, hparams, ← h.queryId, ← h.tables, ← h.subqueryTables]

theorem queryState_readable {q : String} {v : View} (h : v.Sound q) (ho : HashOrder) (c : Circuit) :
    (c.queryState ho v).plan.root.WF ∧ (c.queryState ho v).params ≠ some .null := by
  refine ⟨h.plan, fun he => ?_⟩
  obtain ⟨p, hp, hn⟩ := Option.map_eq_some_iff.mp he
  have hback := h.params
  rw [hp, Option.map_some, hn] at hback
  exact h.given (by rw [hp, ← Option.some.inj hback]; rfl)

/-- The loop of `restore` over entries of the saved circuit. -/
theorem foldl_restoreQuery {c : Circuit} (h : c.Sound env) (ho : HashOrder)
    (l : List (String × View)) (hl : ∀ qv ∈ l, c.views[qv.1]? = some qv.2) (base : Circuit) :
    let r := (l.map fun qv => c.queryState ho qv.2).foldl Circuit.restoreQuery base
    r.store = base.store ∧ r.monotonicRowVersions = base.monotonicRowVersions ∧
      r.opaqueFields = base.opaqueFields ∧
      (∀ q : String, r.views[q]? = if q ∈ l.map Prod.fst then c.views[q]? else base.views[q]?) ∧
      (∀ q : String, r.graphs[q]? = if q ∈ l.map Prod.fst then
        c.views[q]?.map fun v => Graph.fromPlan v.plan.root else base.graphs[q]?) ∧
      ∀ t q : String, q ∈ r.dependencyMap[t]?.getD [] ↔ q ∈ base.dependencyMap[t]?.getD [] ∨
        ∃ v, (q, v) ∈ l ∧ t ∈ v.referencedTables := by
  induction l generalizing base with
  | nil => simp
  | cons qv l ih =>
    obtain ⟨q0, v0⟩ := qv
    have hv0 : c.views[q0]? = some v0 := hl _ List.mem_cons_self
    have hs := (h.view q0 v0 hv0).1
    have hid : Circuit.canonicalQueryId v0.plan.id = q0 := by rw [hs.planId]; exact hs.canonical
    have hview := restoredView_queryState hs ho c
    have hplan : (c.queryState ho v0).plan = v0.plan := rfl
    obtain ⟨h1, h2, h3, h4, h5, h6⟩ := ih (List.forall_mem_cons.mp hl).2
      (Circuit.restoreQuery base (c.queryState ho v0))
    rw [List.map_cons, List.foldl_cons]
    refine ⟨h1, h2, h3, fun q => ?_, fun q => ?_, fun t q => ?_⟩
    · rw [h4 q]
      unfold Circuit.restoreQuery
      dsimp only
      rw [(setQuery_getElem? _ _ _ _ _).2, hview, hplan, hid]
      by_cases hq : q = q0
      · subst hq
        simp [hv0]
      · rw [if_neg hq]
        exact if_congr (List.mem_cons.trans (or_iff_right hq)).symm rfl rfl
    · rw [h5 q]
      unfold Circuit.restoreQuery
      dsimp only
      rw [(setQuery_getElem? _ _ _ _ _).1, hplan, hid]
      by_cases hq : q = q0
      · subst hq
        simp [hv0]
      · rw [if_neg hq]
        exact if_congr (List.mem_cons.trans (or_iff_right hq)).symm rfl rfl
    · rw [h6 t q]
      unfold Circuit.restoreQuery
      dsimp only
      rw [hplan, hid, addDependency_mono, ← hs.tables]
      show (q ∈ base.dependencyMap[t]?.getD [] ∨ q = q0 ∧ t ∈ v0.referencedTables) ∨ _ ↔ _
      simp only [List.mem_cons, Prod.mk.injEq]
      constructor
      · rintro ((hb | ⟨rfl, ht⟩) | ⟨v, hm, ht⟩)
        · exact .inl hb
        · exact .inr ⟨v0, .inl ⟨rfl, rfl⟩, ht⟩
        · exact .inr ⟨v, .inr hm, ht⟩
      · rintro (hb | ⟨v, ⟨rfl, rfl⟩ | hm, ht⟩)
        · exact .inl (.inl hb)
        · exact .inl (.inr ⟨rfl, ht⟩)
        · exact .inr ⟨v, hm, ht⟩

/-- The rows come back with their digests; accumulators and write counters start again. -/
theorem restored_alike {s : Store} (hp : s.pendingDeletedRows = ∅)
    (h : ∀ (t : String) (coll : Collection), s.collections[t]? = some coll → coll.Plain env) :
    s.Alike (Circuit.reseedCatchupHashes (s.restored env)) := by
  refine ⟨hp.symm, fun t => ?_⟩
  unfold Store.getCollection Circuit.reseedCatchupHashes Store.restored
  dsimp only
  rw [ExtTreeMap.getElem?_map, ExtTreeMap.getElem?_map]
  cases hc : s.collections[t]? with
  | none => rfl
  | some coll =>
    obtain ⟨hret, hdig⟩ := h t coll hc
    have hrows : (coll.rows.map fun id r => (⟨r.value, env.digest id r.value⟩ : Row)) = coll.rows := by
      refine ExtTreeMap.ext_getElem? fun id => ?_
      rw [ExtTreeMap.getElem?_map]
      cases hr : coll.rows[id]? with
      | none => rfl
      | some r =>
        rw [Option.map_some, ← hdig id r hr]
    simp only [Option.map_some, Collection.restored, Collection.bare, hrows, hret]

/-- What `restore` makes of a saved circuit: its views, its rows and its plans' graphs. -/
theorem restore_save {c : Circuit} (h : c.Sound env) (hf : c.store.Finite) (ho : HashOrder) :
    ∃ r, Circuit.restore env (c.save ho) = some r ∧ r.monotonicRowVersions = false ∧
      r.opaqueFields = ∅ ∧ c.store.Alike r.store ∧
      (∀ q : String, r.views[q]? = c.views[q]?) ∧
      (∀ q : String, r.graphs[q]? = c.views[q]?.map fun v => Graph.fromPlan v.plan.root) ∧
      ∀ t q : String, q ∈ r.dependencyMap[t]?.getD [] ↔
        ∃ v, c.views[q]? = some v ∧ t ∈ v.referencedTables := by
  have hmem : ∀ q v, (q, v) ∈ entriesIn c.views (ho.visit c.views.keys) ↔ c.views[q]? = some v := by
    intro q v
    rw [mem_entriesIn, mem_visit, ExtTreeMap.mem_keys]
    refine and_iff_right_of_imp fun hv => ?_
    exact mem_of_getElem? hv
  have hkeys : ∀ q, q ∈ (entriesIn c.views (ho.visit c.views.keys)).map Prod.fst ↔
      (c.views[q]?).isSome := by
    intro q
    rw [List.mem_map, Option.isSome_iff_exists]
    constructor
    · rintro ⟨⟨q, v⟩, hqv, rfl⟩
      exact ⟨v, (hmem q v).mp hqv⟩
    · rintro ⟨v, hv⟩
      exact ⟨(q, v), (hmem q v).mpr hv, rfl⟩
  generalize hl : entriesIn c.views (ho.visit c.views.keys) = l at hmem hkeys
  have hread : CircuitState.ofJson env (c.save ho) =
      some ⟨c.store.restored env, l.map fun qv => c.queryState ho qv.2⟩ := by
    unfold Circuit.save
    rw [hl]
    refine CircuitState.ofJson_json hf fun qs hqs => ?_
    obtain ⟨⟨q, v⟩, hqv, rfl⟩ := List.mem_map.mp hqs
    exact queryState_readable (h.view q v ((hmem q v).mp hqv)).1 ho c
  obtain ⟨h1, h2, h3, h4, h5, h6⟩ := foldl_restoreQuery h ho l (fun qv hqv => (hmem _ _).mp hqv)
    { Circuit.new with store := c.store.restored env }
  have hres : Circuit.restore env (c.save ho) = _ := congrArg (Option.map _) hread
  rw [Option.map_some] at hres
  refine ⟨_, hres, h2, h3, ?_, fun q => ?_, fun q => ?_, fun t q => ?_⟩
  · dsimp only
    rw [h1]
    exact restored_alike h.pending h.plain
  · refine (h4 q).trans ?_
    split
    next => rfl
    next hq =>
      rw [hkeys, Option.not_isSome_iff_eq_none] at hq
      rw [hq]
      exact ExtTreeMap.getElem?_empty
  · refine (h5 q).trans ?_
    split
    next => rfl
    next hq =>
      rw [hkeys, Option.not_isSome_iff_eq_none] at hq
      rw [hq]
      exact ExtTreeMap.getElem?_empty
  · refine (h6 t q).trans ?_
    simp only [hmem]
    refine or_iff_right ?_
    simp [Circuit.new]

end ReadBack

/-! ## Restoring is transparent for circuits without operator state -/

/-- The circuit with every graph built anew from its view's plan. -/
def Circuit.rebuilt (c : Circuit) : Circuit :=
  { c with graphs := c.views.map fun _ v => Graph.fromPlan v.plan.root }

theorem Circuit.Sound.rebuilt {env : Env} {c : Circuit} (h : c.Sound env) : c.rebuilt.Sound env := by
  refine ⟨h.versions, h.opaqueFields, h.projection, h.pending, h.plain, fun q v hv => ?_,
    fun q g hg => ?_, h.depends⟩
  · refine ⟨(h.view q v hv).1, Graph.fromPlan v.plan.root, ?_, ⟨rfl, rfl, rfl⟩⟩
    have hv : c.views[q]? = some v := hv
    unfold Circuit.rebuilt
    rw [ExtTreeMap.getElem?_map, hv, Option.map_some]
  · unfold Circuit.rebuilt at hg
    rw [ExtTreeMap.getElem?_map] at hg
    obtain ⟨v, hv, -⟩ := Option.map_eq_some_iff.mp hg
    show (c.views[q]?).isSome
    rw [hv]
    rfl

/-- The dependency map names the tables of the registered plans, and no others. -/
def Circuit.DependsOnPlans (c : Circuit) : Prop :=
  ∀ t q : String, q ∈ c.dependencyMap[t]?.getD [] →
    ∃ v, c.views[q]? = some v ∧ t ∈ v.referencedTables

/-- `restore` gives the saved circuit with its graphs built anew. -/
theorem twin_restore {env : Env} {c : Circuit} (h : c.Sound env) (hf : c.store.Finite)
    (hd : c.DependsOnPlans) (ho : HashOrder) :
    ∃ r, Circuit.restore env (c.save ho) = some r ∧ Twin c.rebuilt r := by
  obtain ⟨r, hr, h1, h2, h3, h4, h5, h6⟩ := restore_save h hf ho
  refine ⟨r, hr, h1, h2, h3, fun q => ?_, h4, fun t q => ?_⟩
  · rw [h5 q]
    unfold Circuit.rebuilt
    rw [ExtTreeMap.getElem?_map]
  · rw [h6 t q]
    constructor
    · rintro ⟨v, hv, ht⟩
      exact h.depends q v hv t ht
    · exact hd t q

/-- No operator holds state: every graph is as its plan builds it. -/
def Circuit.Stateless (c : Circuit) : Prop :=
  ∀ (q : String) (g : Graph) (v : View), c.graphs[q]? = some g → c.views[q]? = some v →
    g = Graph.fromPlan v.plan.root

theorem rebuilt_of_stateless {env : Env} {c : Circuit} (h : c.Sound env) (hs : c.Stateless) :
    c.rebuilt = c := by
  have hg : c.rebuilt.graphs = c.graphs := by
    refine ExtTreeMap.ext_getElem? fun q => ?_
    unfold Circuit.rebuilt
    rw [ExtTreeMap.getElem?_map]
    cases hv : c.views[q]? with
    | none =>
      cases hg : c.graphs[q]? with
      | none => rfl
      | some g =>
        have := h.graph q g hg
        rw [hv] at this
        cases this
    | some v =>
      obtain ⟨-, g, hg, -⟩ := h.view q v hv
      rw [hg, hs q g v hg hv, Option.map_some]
  exact congrArg (fun graphs => { c with graphs := graphs }) hg

/-- A circuit without operator state, of finite rows and with the dependencies of its plans,
    saved and restored, goes through every run of steps with the caches of the circuit that was
    never saved. -/
theorem restore_transparent {env : Env} {c : Circuit} (h : Reached env c) (hf : c.store.Finite)
    (hd : c.DependsOnPlans) (hs : c.Stateless) (ho : HashOrder) :
    ∃ r, Circuit.restore env (c.save ho) = some r ∧
      ∀ (steps : List (HashOrder × List Change)) (q : String),
        (r.stepAll env asWritten steps).cacheOf q = (c.stepAll env asWritten steps).cacheOf q := by
  obtain ⟨r, hr, ht⟩ := twin_restore h.sound hf hd ho
  rw [rebuilt_of_stateless h.sound hs] at ht
  refine ⟨r, hr, fun steps q => ?_⟩
  unfold Circuit.cacheOf
  rw [(ht.stepAll h.sound steps).views q]

/-! ## Two rows and one query -/

/-- Two rows, and the query of the plan over them. -/
def twoRows (root : OperatorPlan) : Circuit :=
  ((Circuit.new.load Env.sample [⟨"T", "1", .object []⟩, ⟨"T", "2", .object []⟩]).addQuery
    Env.sample asWritten .sorted ⟨"q", root⟩ none "").1

theorem twoRows_reached {root : OperatorPlan} (h : root.WF) : Reached Env.sample (twoRows root) :=
  .addQuery (.load .new _) _ _ _ _ h fun _ hj => by cases hj

/-- The rows of a circuit are finite when a walk over its store says so. -/
theorem Store.finite_of_all {s : Store}
    (h : (s.collections.toList.all fun tc => tc.2.rows.toList.all fun ir => ir.2.value.finite) = true) :
    s.Finite := by
  intro t id r hr
  unfold Store.row at hr
  obtain ⟨c, hc, hrow⟩ := Option.bind_eq_some_iff.mp hr
  rw [List.all_eq_true] at h
  have hrows := h (t, c) (ExtTreeMap.mem_toList_iff_getElem?_eq_some.mpr hc)
  rw [List.all_eq_true] at hrows
  exact hrows (id, r) (ExtTreeMap.mem_toList_iff_getElem?_eq_some.mpr hrow)

/-- The query depends on `T`, which its plan scans. -/
theorem twoRows_dependsOnPlans {root : OperatorPlan}
    (hd : (twoRows root).dependencyMap = (∅ : ExtTreeMap String (List String)).insert "T" ["q"])
    (hv : ((twoRows root).views["q"]?.any fun v => v.referencedTables.contains "T") = true) :
    (twoRows root).DependsOnPlans := by
  intro t q hq
  rw [Option.any_eq_true] at hv
  obtain ⟨v, hv, ht⟩ := hv
  rw [hd, ExtTreeMap.getElem?_insert] at hq
  split at hq
  next he =>
    obtain rfl := LawfulEqCmp.compare_eq_iff_eq.mp he
    obtain rfl : q = "q" := by simpa using hq
    exact ⟨v, hv, by simpa using ht⟩
  next => simp at hq

/-- The restored scan of two rows goes on as the saved one. -/
theorem restore_transparent_scan :
    ∃ r, Circuit.restore Env.sample ((twoRows (.scan "T")).save .sorted) = some r ∧
      ∀ (steps : List (HashOrder × List Change)) (q : String),
        (r.stepAll Env.sample asWritten steps).cacheOf q =
          ((twoRows (.scan "T")).stepAll Env.sample asWritten steps).cacheOf q := by
  have hwf : (OperatorPlan.scan "T").WF := trivial
  have hd : (twoRows (.scan "T")).dependencyMap =
      (∅ : ExtTreeMap String (List String)).insert "T" ["q"] := rfl
  refine restore_transparent (twoRows_reached hwf) (Store.finite_of_all (by decide +kernel))
    (twoRows_dependsOnPlans hd (by decide +kernel))
    (fun q g v hg hv => ?_) .sorted
  have hgs : (twoRows (.scan "T")).graphs =
      (∅ : ExtTreeMap String Graph).insert "q" (Graph.fromPlan (.scan "T")) := rfl
  rw [hgs, ExtTreeMap.getElem?_insert] at hg
  split at hg
  next he =>
    obtain rfl := LawfulEqCmp.compare_eq_iff_eq.mp he
    have hroot : (twoRows (.scan "T")).views["q"]?.map (fun v => v.plan.root) = some (.scan "T") := rfl
    rw [hv, Option.map_some, Option.some.injEq] at hroot
    rw [hroot]
    exact (Option.some.inj hg).symm
  next => simp at hg

/-- The first row of the table: its restored window does not know the second row, so a delete of
    the first leaves the two caches apart. -/
theorem restore_loses_window :
    Reached Env.sample (twoRows (.limit (.scan "T") 1 0 none)) ∧
      ¬ ∃ r, Circuit.restore Env.sample
            ((twoRows (.limit (.scan "T") 1 0 none)).save .sorted) = some r ∧
        ∀ (steps : List (HashOrder × List Change)) (q : String),
          (r.stepAll Env.sample asWritten steps).cacheOf q =
            ((twoRows (.limit (.scan "T") 1 0 none)).stepAll Env.sample asWritten steps).cacheOf q := by
  have hwf : (OperatorPlan.limit (.scan "T") 1 0 none).WF := ⟨trivial, fun _ ho => by cases ho⟩
  refine ⟨twoRows_reached hwf, ?_⟩
  rintro ⟨r, hr, hall⟩
  have hsound := (twoRows_reached hwf).sound
  have hd : (twoRows (.limit (.scan "T") 1 0 none)).dependencyMap =
      (∅ : ExtTreeMap String (List String)).insert "T" ["q"] := rfl
  obtain ⟨r', hr', ht⟩ := twin_restore hsound (Store.finite_of_all (by decide +kernel))
    (twoRows_dependsOnPlans hd (by decide +kernel)) .sorted
  obtain rfl : r = r' := Option.some.inj (hr.symm.trans hr')
  have hrun := hall [(.sorted, [⟨"T", .delete, "1", .null⟩])] "q"
  have htwin := (ht.stepAll hsound.rebuilt [(.sorted, [⟨"T", .delete, "1", .null⟩])]).views "q"
  unfold Circuit.cacheOf at hrun
  rw [htwin] at hrun
  have hlist := congrArg (fun z => z.map ExtTreeMap.toList) hrun
  revert hlist
  decide +kernel

end Sp00ky.Ssp
