/-
  `Circuit::save` and `Circuit::restore`.

  A snapshot holds the rows, the plans and the caches; `restore` builds the graphs of the
  plans again and does not prime them. The circuit it returns steps like the saved one
  when there was no operator state to lose (`Circuit.Stateless`).
-/
import Sp00ky.Ssp.SnapshotRoundTrip
import Sp00ky.Ssp.StoreAlike

namespace Sp00ky.Ssp

open Std Lib

/-! ## Saving -/

namespace Circuit

/-- `merge_index` inverted: of several keys with one owner the last in hash order stays. -/
def claimOf (ho : HashOrder) (c : Circuit) (owner : String) : String :=
  (((entriesIn c.mergeIndex (ho.visit c.mergeIndex.keys)).filter fun kv => kv.2 == owner).getLast?.map
    Prod.fst).getD ""

/-- The saved state of a view; its parameters become a plain JSON value. -/
def queryState (ho : HashOrder) (c : Circuit) (v : View) : QueryState where
  plan := v.plan
  params := v.params.map Sp00kyValue.norm
  cache := v.cache
  lastHash := v.lastHash
  contentGeneration := v.contentGeneration
  subqueryCache := v.subqueryCache
  authId := v.authId
  subscribers := c.subscribersOf v.queryId
  detached := c.detachedOwners.contains v.queryId
  mergeKey := c.claimOf ho v.queryId

/-- `Circuit::save`. -/
def save (ho : HashOrder) (c : Circuit) : Json :=
  CircuitState.json
    ⟨c.store, (entriesIn c.views (ho.visit c.views.keys)).map fun qv => c.queryState ho qv.2⟩

/-! ## Restoring -/

/-- The view a saved query comes back as. -/
def restoredView (qs : QueryState) : View :=
  let queryId := canonicalQueryId qs.plan.id
  { View.new queryId ⟨queryId, qs.plan.root⟩ (qs.params.map Sp00kyValue.ofJson)
      qs.plan.root.referencedTables qs.authId with
    cache := qs.cache
    lastHash := qs.lastHash
    contentGeneration := qs.contentGeneration
    subqueryCache := qs.subqueryCache }

/-- One query of the loop in `restore`. -/
def restoreQuery (c : Circuit) (qs : QueryState) : Circuit :=
  let queryId := canonicalQueryId qs.plan.id
  let c1 := c.setQuery queryId (Graph.fromPlan qs.plan.root) (restoredView qs)
  { c1 with
      dependencyMap := qs.plan.root.referencedTables.foldl
        (fun m t => m.alter t fun old => some (old.getD [] ++ [queryId])) c1.dependencyMap
      subscribers :=
        if qs.subscribers.isEmpty then c1.subscribers
        else c1.subscribers.insert queryId
          (qs.subscribers.map fun s => ⟨canonicalQueryId s.queryId, s.authId⟩)
      detachedOwners :=
        if qs.detached then c1.detachedOwners.insert queryId else c1.detachedOwners
      mergeIndex :=
        if qs.mergeKey.isEmpty then c1.mergeIndex else c1.mergeIndex.insert qs.mergeKey queryId }

/-- `reseed_catchup_hashes`. -/
def reseedCatchupHashes (s : Store) : Store where
  collections := s.collections.map fun _ c => { c with catchupXor := xorDigests c.rows }
  pendingDeletedRows := s.pendingDeletedRows
  named := by
    intro t c hc
    rw [ExtTreeMap.getElem?_map] at hc
    obtain ⟨c', hc', rfl⟩ := Option.map_eq_some_iff.mp hc
    exact s.named t c' hc'

/-- `Circuit::restore`. -/
def restore (env : Env) (j : Json) : Option Circuit :=
  (CircuitState.ofJson env j).map fun state =>
    let c := state.queries.foldl restoreQuery { Circuit.new with store := state.store }
    { c with store := reseedCatchupHashes c.store }

/-- A run of steps. -/
def stepAll (env : Env) (planning : Planning) (c : Circuit)
    (steps : List (HashOrder × List Change)) : Circuit :=
  steps.foldl (fun c s => (c.step env planning s.1 s.2).1) c

end Circuit

/-! ## What a view keeps -/

/-- What no step of a view changes. -/
def View.registration (v : View) : String × QueryPlan × Option Sp00kyValue × List String ×
    List String × String :=
  (v.queryId, v.plan, v.params, v.referencedTables, v.subqueryTables, v.authId)

theorem announce_registration (env : Env) (v : View) (touched membershipChanges : Bool)
    (additions removals updates : List String) (items : List SubqueryDeltaItem) :
    (announce env v touched membershipChanges additions removals updates items).1.registration =
      v.registration := by
  unfold announce
  dsimp only
  split
  · rfl
  · generalize v.contentGeneration + _ = n
    split <;> rfl

theorem publishStep_registration (env : Env) (ho : HashOrder) (store : Store) (v : View)
    (viewDelta : ZSet) (deltas : TableDeltas) (cu : ContentUpdates) :
    (publishStep env ho store v viewDelta deltas cu).1.registration = v.registration := by
  unfold publishStep
  dsimp only
  rw [announce_registration]
  split <;> rfl

theorem initialSnapshot_registration (env : Env) (ho : HashOrder) (store : Store) (g : Graph)
    (v : View) : (initialSnapshot env ho store g v).2.1.registration = v.registration := by
  unfold initialSnapshot
  dsimp only
  split
  · rfl
  · split <;> rfl

theorem stepView_registration (env : Env) (planner : IndexPlanner) (ho : HashOrder) (store : Store)
    (deltas : TableDeltas) (cu : ContentUpdates) (g : Graph) (v : View) :
    (Circuit.stepView env planner ho store deltas cu g v).2.1.registration = v.registration := by
  have hq : (stepQuery env ho store g v deltas cu).2.1.registration = v.registration := by
    unfold stepQuery
    dsimp only
    split
    · rfl
    · exact publishStep_registration env ho store v _ deltas cu
  unfold Circuit.stepView
  dsimp only
  split
  · unfold Circuit.reprimeView
    dsimp only
    have hsnap := initialSnapshot_registration env ho store
      (Graph.fromPlanWith (stepQuery env ho store g v deltas cu).2.1.plan.root planner)
      { (stepQuery env ho store g v deltas cu).2.1 with
        cache := ∅, subqueryCache := ∅, lastHash := "" }
    split
    all_goals
      next heq =>
        rw [heq] at hsnap
        exact hsnap.trans hq
  · exact hq

/-! ## Reachable circuits -/

mutual

/-- Every number is an `i64`, a `u64` or a float. -/
def Json.Numbers : Json → Prop
  | .int i => -2 ^ 63 ≤ i ∧ i < 2 ^ 64
  | .array items => NumbersItems items
  | .object fields => NumbersFields fields
  | _ => True

def Json.NumbersItems : List Json → Prop
  | [] => True
  | j :: js => j.Numbers ∧ NumbersItems js

def Json.NumbersFields : List (String × Json) → Prop
  | [] => True
  | (_, j) :: fs => j.Numbers ∧ NumbersFields fs

end

theorem F64.ofInt_finite {i : Int} (hl : 2 ^ 63 ≤ i) (hu : i < 2 ^ 64) :
    (F64.ofInt i).isFinite = true := by
  obtain ⟨m, rfl⟩ := Int.eq_ofNat_of_zero_le (Int.le_trans (by decide) hl)
  have hl' : 2 ^ 63 ≤ m := by exact_mod_cast hl
  have hu' : m < 2 ^ 64 := by exact_mod_cast hu
  have hlog : m.log2 = 63 := (Nat.log2_eq_iff (by omega)).mpr ⟨hl', hu'⟩
  have hround : F64.roundShift m 11 ≤ 2 ^ 53 := by
    unfold F64.roundShift
    dsimp only
    split
    · omega
    · split
      · omega
      · split <;> omega
  have hmag : F64.natMagnitude m ≤ 1085 * 2 ^ 52 + 2 ^ 53 := by
    unfold F64.natMagnitude
    dsimp only
    rw [hlog, if_neg (by decide), show 63 - 52 = 11 from rfl]
    omega
  unfold F64.ofInt
  rw [if_neg (by omega), if_pos (by omega)]
  unfold F64.isFinite F64.magnitude F64.infMagnitude
  simp only [Int.natAbs_natCast, BitVec.toNat_ofNat, decide_eq_true_eq]
  omega

mutual

/-- Parameters read from JSON survive the way through JSON. -/
theorem ofJson_norm : ∀ j : Json, j.WF → j.Numbers →
    Sp00kyValue.ofJson (Sp00kyValue.ofJson j).norm = Sp00kyValue.ofJson j
  | .null, _, _ => rfl
  | .bool b, _, _ => rfl
  | .int i, _, hn => by
    rw [Sp00kyValue.ofJson]
    split
    next hi => rw [Sp00kyValue.norm, Sp00kyValue.ofJson, if_pos hi]
    next hi => rw [Sp00kyValue.norm, F64.ofInt_finite (by omega) hn.2, if_pos rfl,
      Sp00kyValue.ofJson]
  | .float f, hw, _ => by
    have hf : f.isFinite = true := hw
    rw [Sp00kyValue.ofJson, Sp00kyValue.norm, hf, if_pos rfl, Sp00kyValue.ofJson]
  | .str s, _, _ => rfl
  | .array items, hw, hn => by
    rw [Sp00kyValue.ofJson, Sp00kyValue.norm, Sp00kyValue.ofJson, ofJsonItems_norm items hw hn]
  | .object fields, hw, hn => by
    have hkeys : ∀ fs : List (String × Json),
        (Sp00kyValue.normFields (Sp00kyValue.ofJsonFields fs)).map Prod.fst = fs.map Prod.fst := by
      intro fs
      induction fs with
      | nil => rfl
      | cons kv fs ih =>
        rw [Sp00kyValue.ofJsonFields, Sp00kyValue.normFields, List.map_cons, List.map_cons, ih]
    have hsort : sortBy (fun a b : String × Json => compare a.1 b.1)
        (Sp00kyValue.normFields (Sp00kyValue.ofJsonFields fields)) =
          Sp00kyValue.normFields (Sp00kyValue.ofJsonFields fields) := by
      refine sortBy_increasing ?_
      have := hw.2
      rw [← hkeys fields, List.pairwise_map] at this
      exact this
    rw [Sp00kyValue.ofJson, Sp00kyValue.norm, hsort, Sp00kyValue.ofJson,
      ofJsonFields_norm fields hw.1 hn]

theorem ofJsonItems_norm : ∀ js : List Json, Json.WFItems js → Json.NumbersItems js →
    Sp00kyValue.ofJsonItems (Sp00kyValue.normItems (Sp00kyValue.ofJsonItems js)) =
      Sp00kyValue.ofJsonItems js
  | [], _, _ => rfl
  | j :: js, hw, hn => by
    rw [Sp00kyValue.ofJsonItems, Sp00kyValue.normItems, Sp00kyValue.ofJsonItems,
      ofJson_norm j hw.1 hn.1, ofJsonItems_norm js hw.2 hn.2]

theorem ofJsonFields_norm : ∀ fs : List (String × Json), Json.WFFields fs →
    Json.NumbersFields fs →
    Sp00kyValue.ofJsonFields (Sp00kyValue.normFields (Sp00kyValue.ofJsonFields fs)) =
      Sp00kyValue.ofJsonFields fs
  | [], _, _ => rfl
  | (k, j) :: fs, hw, hn => by
    rw [Sp00kyValue.ofJsonFields, Sp00kyValue.normFields, Sp00kyValue.ofJsonFields,
      ofJson_norm j hw.1 hn.1, ofJsonFields_norm fs hw.2 hn.2]

end

/-- A JSON value given as parameters: maps in key order, finite numbers, not null. -/
structure Json.Params (j : Json) : Prop where
  wf : j.WF
  numbers : j.Numbers
  given : j ≠ .null

/-- A circuit reached from a new one by `load`, `add_query` and `step`, the graphs as written. -/
inductive Reached (env : Env) : Circuit → Prop
  | new : Reached env Circuit.new
  | load {c : Circuit} (h : Reached env c) (records : List Record) : Reached env (c.load env records)
  | addQuery {c : Circuit} (h : Reached env c) (ho : HashOrder) (plan : QueryPlan)
      (params : Option Json) (authId : String) (hplan : plan.root.WF)
      (hparams : ∀ j, params = some j → j.Params) :
      Reached env (c.addQuery env asWritten ho plan params authId).1
  | step {c : Circuit} (h : Reached env c) (ho : HashOrder) (changes : List Change) :
      Reached env (c.step env asWritten ho changes).1

/-! ## What holds of every reached circuit -/

/-- A collection as writes leave it when nothing is projected. -/
def Collection.Plain (env : Env) (c : Collection) : Prop := c.retained = none ∧ DigestsRight env c

/-- A registered view. -/
structure View.Sound (q : String) (v : View) : Prop where
  canonical : Circuit.canonicalQueryId q = q
  queryId : v.queryId = q
  planId : v.plan.id = q
  plan : v.plan.root.WF
  tables : v.referencedTables = v.plan.root.referencedTables
  subqueryTables : v.subqueryTables = v.plan.root.subqueryTables
  params : v.params.map (fun p => Sp00kyValue.ofJson p.norm) = v.params
  given : v.params ≠ some .null

theorem View.Sound.congr {q : String} {v v' : View} (h : v.Sound q)
    (he : v'.registration = v.registration) : v'.Sound q := by
  simp only [View.registration, Prod.mk.injEq] at he
  obtain ⟨h1, h2, h3, h4, h5, -⟩ := he
  exact ⟨h.canonical, h1.trans h.queryId, by rw [h2]; exact h.planId, by rw [h2]; exact h.plan,
    by rw [h4, h2]; exact h.tables, by rw [h5, h2]; exact h.subqueryTables, by rw [h3]; exact h.params,
    by rw [h3]; exact h.given⟩

/-- A circuit without settings, whose graphs are those of its views' plans up to state. -/
structure Circuit.Sound (env : Env) (c : Circuit) : Prop where
  versions : c.monotonicRowVersions = false
  opaqueFields : c.opaqueFields = ∅
  projection : c.projection = false
  pending : c.store.pendingDeletedRows = ∅
  plain : ∀ (t : String) (coll : Collection), c.store.collections[t]? = some coll → coll.Plain env
  view : ∀ (q : String) (v : View), c.views[q]? = some v → v.Sound q ∧
    ∃ g, c.graphs[q]? = some g ∧ (Graph.fromPlan v.plan.root).SameShape g
  graph : ∀ (q : String) (g : Graph), c.graphs[q]? = some g → (c.views[q]?).isSome
  depends : ∀ (q : String) (v : View), c.views[q]? = some v → ∀ t ∈ v.referencedTables,
    q ∈ c.dependencyMap[t]?.getD []

section Soundness

variable {env : Env}

theorem plain_applyOwned {s : Store}
    (h : ∀ (t : String) (coll : Collection), s.collections[t]? = some coll → coll.Plain env)
    (t : String) (op : Operation) (id : String) (data : Sp00kyValue) :
    ∀ (u : String) (coll : Collection),
      (s.applyOwned env t op id data).1.collections[u]? = some coll → coll.Plain env := by
  have hc : (s.collectionOrNew t).Plain env := by
    unfold Store.collectionOrNew
    cases hs : s.collections[t]? with
    | none => exact ⟨rfl, DigestsRight.new env t⟩
    | some c => exact h t c hs
  have happ : ((s.collectionOrNew t).apply env op id data).1.Plain env := by
    refine ⟨?_, hc.2.apply op id data⟩
    rw [← hc.1]
    unfold Collection.apply
    dsimp only
    split
    · split <;> rfl
    · split <;> rfl
  intro u coll hu
  unfold Store.applyOwned Store.setCollection at hu
  dsimp only at hu
  rw [ExtTreeMap.getElem?_insert] at hu
  split at hu
  · cases hu
    exact happ
  · exact h u coll hu

/-- A step of a query leaves its graph in shape. -/
theorem stepView_sameShape {ho : HashOrder} {s : Store} {deltas : TableDeltas} {cu : ContentUpdates}
    {g : Graph} {v : View} (h : (Graph.fromPlan v.plan.root).SameShape g) :
    (Graph.fromPlan v.plan.root).SameShape
      (Circuit.stepView env noIndexes ho s deltas cu g v).1 := by
  have hv : g.Valid := h.valid (Graph.fromPlanWith_valid _ _)
  obtain ⟨-, -, h1, h2⟩ := stepView_view env noIndexes ho s deltas cu g v
  cases hr : (stepGraph env ho s v.params v.cache g deltas cu).1.needsRebuild with
  | false =>
    rw [(h1 hr).1]
    exact h.trans (stepGraph_sameShape env ho s v.params hv v.cache deltas cu)
  | true =>
    rw [(h2 hr).1]
    exact primeGraph_sameShape env ho s v.params (Graph.fromPlanWith_valid _ _)

theorem sound_new : Circuit.new.Sound env where
  versions := rfl
  opaqueFields := rfl
  projection := rfl
  pending := rfl
  plain := by simp [Circuit.new, Store.new]
  view := by simp [Circuit.new]
  graph := by simp [Circuit.new]
  depends := by simp [Circuit.new]

variable {c : Circuit}

theorem Circuit.Sound.load (h : c.Sound env) (records : List Record) :
    (c.load env records).Sound env := by
  have hs : ∀ s : Store, s.pendingDeletedRows = ∅ →
      (∀ (t : String) (coll : Collection), s.collections[t]? = some coll → coll.Plain env) →
      (records.foldl (fun s r => (s.applyOwned env r.table .create r.id r.data).1) s).pendingDeletedRows
          = ∅ ∧
        ∀ (t : String) (coll : Collection),
          (records.foldl (fun s r => (s.applyOwned env r.table .create r.id r.data).1)
            s).collections[t]? = some coll → coll.Plain env := by
    induction records with
    | nil => exact fun s h1 h2 => ⟨h1, h2⟩
    | cons r records ih =>
      intro s h1 h2
      exact ih _ h1 (plain_applyOwned h2 r.table .create r.id r.data)
  obtain ⟨h1, h2⟩ := hs c.store h.pending h.plain
  exact ⟨h.versions, h.opaqueFields, h.projection, h1, h2, h.view, h.graph, h.depends⟩

theorem canonicalQueryId_twice (id : String) :
    Circuit.canonicalQueryId (Circuit.canonicalQueryId id) = Circuit.canonicalQueryId id := by
  unfold Circuit.canonicalQueryId
  rw [String.toList_ofList, List.reverse_reverse]
  rw [List.takeWhile_takeWhile]
  simp only [and_self, Bool.decide_eq_true]

theorem Circuit.Sound.addQuery (h : c.Sound env) (ho : HashOrder) (plan : QueryPlan)
    (params : Option Json) (authId : String) (hplan : plan.root.WF)
    (hparams : ∀ j, params = some j → j.Params) :
    (c.addQuery env asWritten ho plan params authId).1.Sound env := by
  have href : (enrolled asWritten c plan params authId).refreshRetainedFields =
      enrolled asWritten c plan params authId := by
    unfold Circuit.refreshRetainedFields
    rw [if_pos]
    show (!c.projection) = true
    rw [h.projection]
    rfl
  have hrun := congrArg Prod.fst (addQuery_run env asWritten ho c plan params authId)
  rw [href] at hrun
  have hstore : (enrolled asWritten c plan params authId).store = c.store := rfl
  generalize hid : Circuit.canonicalQueryId plan.id = id at hrun
  generalize hv0 : View.new id ⟨id, plan.root⟩ (params.map Sp00kyValue.ofJson)
    plan.root.referencedTables authId = v0 at hrun
  have hnew : v0.Sound id := by
    subst hv0 hid
    refine ⟨canonicalQueryId_twice _, rfl, rfl, hplan, rfl, rfl, ?_, ?_⟩
    · cases params with
      | none => rfl
      | some j =>
        have hj := hparams j rfl
        exact congrArg some (ofJson_norm j hj.wf hj.numbers)
    · cases params with
      | none => exact fun he => by cases he
      | some j =>
        have hj := hparams j rfl
        intro he
        have he : Sp00kyValue.ofJson j = .null := Option.some.inj he
        cases j with
        | null => exact hj.given rfl
        | int i => rw [Sp00kyValue.ofJson] at he; split at he <;> cases he
        | _ => cases he
  have hroot : v0.plan.root = plan.root := by rw [← hv0]; rfl
  generalize hpl : asWritten c.indexDefs (params.map Sp00kyValue.ofJson) = planner at hrun
  have hreg := initialSnapshot_registration env ho c.store (Graph.fromPlanWith plan.root planner) v0
  obtain ⟨hg, hp, -, -⟩ := initialSnapshot_view env ho c.store
    (Graph.fromPlanWith plan.root planner) v0
  have hgs := enrolled_graphs asWritten c plan params authId
  have hvs := enrolled_views asWritten c plan params authId
  rw [hid] at hgs hvs
  rw [hrun]
  refine ⟨h.versions, h.opaqueFields, h.projection, h.pending, h.plain, fun q v hq => ?_,
    fun q g hq => ?_, fun q v hq t ht => ?_⟩
  · dsimp only at hq ⊢
    rw [(setQuery_getElem? _ _ _ _ _).2] at hq
    rw [(setQuery_getElem? _ _ _ _ _).1]
    split at hq
    next he =>
      subst he
      cases hq
      rw [if_pos rfl]
      refine ⟨hnew.congr hreg, _, rfl, ?_⟩
      have hpn : planner = noIndexes := hpl.symm
      rw [hstore, hg, hp, hroot, hpn]
      exact primeGraph_sameShape env ho c.store v0.params (Graph.fromPlanWith_valid _ _)
    next he =>
      rw [hvs, if_neg he] at hq
      rw [if_neg he, hgs, if_neg he]
      exact h.view q v hq
  · dsimp only at hq ⊢
    rw [(setQuery_getElem? _ _ _ _ _).1] at hq
    rw [(setQuery_getElem? _ _ _ _ _).2]
    split at hq
    next he => rw [if_pos he]; rfl
    next he =>
      rw [hgs, if_neg he] at hq
      rw [if_neg he, hvs, if_neg he]
      exact h.graph q g hq
  · dsimp only at hq
    rw [(setQuery_getElem? _ _ _ _ _).2] at hq
    refine (enrolled_depends asWritten c plan params authId t q).mpr ?_
    split at hq
    next he =>
      cases hq
      refine .inr ⟨he.trans hid.symm, ?_⟩
      rw [hstore, (hnew.congr hreg).tables, hp, hroot, OperatorPlan.referencedTables,
        mem_dedupFirst] at ht
      exact ht
    next he =>
      rw [hvs, if_neg he] at hq
      exact .inl (h.depends q v hq t ht)

/-- The queries a step reaches. -/
def Circuit.reaches (env : Env) (ho : HashOrder) (c : Circuit) (changes : List Change) :
    List String :=
  (phase1 env ho c changes).circuit.affectedQueries (phase1 env ho c changes).changedTables

/-- A query after a step: stepped on the store of phase 1 if it was reached. -/
theorem step_query (ho : HashOrder) {changes : List Change} (hne : changes ≠ [])
    {q : String} {g : Graph} {v : View} (hg : c.graphs[q]? = some g) (hv : c.views[q]? = some v) :
    let p := phase1 env ho c changes
    let r := if q ∈ c.reaches env ho changes then
        ((Circuit.stepView env noIndexes ho p.circuit.store p.deltas p.content g v).1,
          (Circuit.stepView env noIndexes ho p.circuit.store p.deltas p.content g v).2.1)
      else (g, v)
    (c.step env asWritten ho changes).1.graphs[q]? = some r.1 ∧
      (c.step env asWritten ho changes).1.views[q]? = some r.2 := by
  intro p r
  have hsq : SameQueries c p.circuit := foldl_applyChange_sameQueries env ⟨c, ∅, ∅, []⟩ changes
  have hg' : p.circuit.graphs[q]? = some g := by rw [hsq.graphs]; exact hg
  have hv' : p.circuit.views[q]? = some v := by rw [hsq.views]; exact hv
  rw [step_eq env asWritten ho c hne]
  by_cases hq : q ∈ c.reaches env ho changes
  · have hr : r = _ := if_pos hq
    rw [hr]
    exact foldl_stepAffected_mem env asWritten ho p.deltas p.content _ (nodup_dedupFirst _)
      (p.circuit, []) hq hg' hv'
  · have hr : r = _ := if_neg hq
    rw [hr]
    obtain ⟨h1, h2⟩ := foldl_stepAffected_other env asWritten ho p.deltas p.content _
      (p.circuit, []) (.inl hq)
    exact ⟨h1.trans hg', h2.trans hv'⟩

theorem step_query_absent (ho : HashOrder) {changes : List Change}
    (hne : changes ≠ []) {q : String} (hv : c.views[q]? = none) :
    (c.step env asWritten ho changes).1.graphs[q]? = c.graphs[q]? ∧
      (c.step env asWritten ho changes).1.views[q]? = none := by
  have hsq : SameQueries c (phase1 env ho c changes).circuit :=
    foldl_applyChange_sameQueries env ⟨c, ∅, ∅, []⟩ changes
  rw [step_eq env asWritten ho c hne, ← hsq.graphs]
  rw [← hsq.views] at hv
  obtain ⟨h1, h2⟩ := foldl_stepAffected_other env asWritten ho (phase1 env ho c changes).deltas
    (phase1 env ho c changes).content _ ((phase1 env ho c changes).circuit, []) (.inr (.inr hv))
  exact ⟨h1, h2.trans hv⟩

/-- A circuit without settings writes the body as it comes. -/
theorem bodyIn_sound (hm : c.monotonicRowVersions = false) (hf : c.opaqueFields = ∅)
    (ch : Change) : bodyIn c ch = (c, ch.data) := by
  unfold bodyIn
  rw [hm, hf]
  simp

theorem staged_settings (c : Circuit) (ch : Change) :
    (staged c ch).monotonicRowVersions = c.monotonicRowVersions ∧
      (staged c ch).opaqueFields = c.opaqueFields ∧ (staged c ch).projection = c.projection := by
  unfold staged
  split <;> exact ⟨rfl, rfl, rfl⟩

/-- The settings and the collections of a circuit phase 1 works on. -/
structure Circuit.Plain (env : Env) (c : Circuit) : Prop where
  versions : c.monotonicRowVersions = false
  opaqueFields : c.opaqueFields = ∅
  projection : c.projection = false
  plain : ∀ (t : String) (coll : Collection), c.store.collections[t]? = some coll → coll.Plain env

theorem Circuit.Plain.changed (h : c.Plain env) (ch : Change) :
    (changed env c ch).Plain env := by
  obtain ⟨h1, h2, h3⟩ := staged_settings c ch
  have hb := bodyIn_sound (h1.trans h.versions) (h2.trans h.opaqueFields) ch
  have hcoll : (staged c ch).store.collections = c.store.collections := by
    unfold staged
    split
    · unfold Store.stageDeletedRow
      dsimp only
      split <;> rfl
    · rfl
  unfold Ssp.changed
  rw [hb]
  refine ⟨h1.trans h.versions, h2.trans h.opaqueFields, h3.trans h.projection, ?_⟩
  unfold written
  exact plain_applyOwned (by rw [hcoll]; exact h.plain) _ _ _ _

theorem Circuit.Plain.phase1 (h : c.Plain env) (ho : HashOrder)
    (changes : List Change) : (phase1 env ho c changes).circuit.Plain env := by
  rw [phase1_circuit]
  have hall : ∀ p : Phase1, p.circuit.Plain env →
      (changes.foldl (applyChange env) p).circuit.Plain env := by
    induction changes with
    | nil => exact fun p hp => hp
    | cons ch changes ih =>
      intro p hp
      refine ih _ ?_
      rw [(applyChange_cases env p ch).1]
      exact hp.changed ch
  exact hall _ h

theorem Circuit.Sound.step (h : c.Sound env) (ho : HashOrder)
    (changes : List Change) : (c.step env asWritten ho changes).1.Sound env := by
  by_cases hne : changes = []
  · subst hne
    exact h
  have hp := Circuit.Plain.phase1 ⟨h.versions, h.opaqueFields, h.projection, h.plain⟩ ho changes
  have hc := step_eq env asWritten ho c hne
  have hfr := foldl_stepAffected_frame env asWritten ho (phase1 env ho c changes).deltas
    (phase1 env ho c changes).content ((phase1 env ho c changes).circuit.affectedQueries
      (phase1 env ho c changes).changedTables) ((phase1 env ho c changes).circuit, [])
  have hdep : (c.step env asWritten ho changes).1.dependencyMap = c.dependencyMap := by
    rw [hc, hfr]
    exact (foldl_applyChange_sameQueries env ⟨c, ∅, ∅, []⟩ changes).dependencyMap
  refine ⟨?_, ?_, ?_, ?_, ?_, fun q v' hq => ?_, fun q g' hq => ?_, fun q v' hq t ht => ?_⟩
  · rw [hc, hfr]; exact hp.versions
  · rw [hc, hfr]; exact hp.opaqueFields
  · rw [hc, hfr]; exact hp.projection
  · rw [hc]; rfl
  · rw [hc]; exact hp.plain
  · cases hv : c.views[q]? with
    | none =>
      rw [(step_query_absent ho hne hv).2] at hq
      cases hq
    | some v =>
      obtain ⟨hs, g, hg, hshape⟩ := h.view q v hv
      obtain ⟨h1, h2⟩ := step_query ho hne hg hv
      rw [h2] at hq
      obtain rfl := Option.some.inj hq
      rw [h1]
      split
      · have hreg := stepView_registration env noIndexes ho (phase1 env ho c changes).circuit.store
          (phase1 env ho c changes).deltas (phase1 env ho c changes).content g v
        have hplan : (Circuit.stepView env noIndexes ho (phase1 env ho c changes).circuit.store
            (phase1 env ho c changes).deltas (phase1 env ho c changes).content g v).2.1.plan =
              v.plan := congrArg (fun r => r.2.1) hreg
        refine ⟨hs.congr hreg, _, rfl, ?_⟩
        dsimp only
        rw [hplan]
        exact stepView_sameShape hshape
      · exact ⟨hs, g, rfl, hshape⟩
  · cases hv : c.views[q]? with
    | none =>
      rw [(step_query_absent ho hne hv).1] at hq
      have := h.graph q g' hq
      rw [hv] at this
      cases this
    | some v =>
      obtain ⟨-, g, hg, -⟩ := h.view q v hv
      rw [(step_query ho hne hg hv).2]
      rfl
  · rw [hdep]
    cases hv : c.views[q]? with
    | none =>
      rw [(step_query_absent ho hne hv).2] at hq
      cases hq
    | some v =>
      obtain ⟨-, g, hg, -⟩ := h.view q v hv
      rw [(step_query ho hne hg hv).2] at hq
      obtain rfl := Option.some.inj hq
      refine h.depends q v hv t ?_
      split at ht
      · have hreg := stepView_registration env noIndexes ho (phase1 env ho c changes).circuit.store
          (phase1 env ho c changes).deltas (phase1 env ho c changes).content g v
        have htables : _ = v.referencedTables := congrArg (fun r => r.2.2.2.1) hreg
        exact htables ▸ ht
      · exact ht

theorem Reached.sound (h : Reached env c) : c.Sound env := by
  induction h with
  | new => exact sound_new
  | load _ records ih => exact ih.load records
  | addQuery _ ho plan params authId hplan hparams ih => exact ih.addQuery ho plan params authId hplan hparams
  | step _ ho changes ih => exact ih.step ho changes

end Soundness

end Sp00ky.Ssp
