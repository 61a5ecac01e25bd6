/-
  Precise invalidation of parents (`has_precise_subqueries`, `diff_subquery_sets` and the
  updates of `step_query`).

  A child is correlated with a parent under a projection when it names the parent
  (forward) or the parent names it (reverse). When the correlated children of a parent
  change, or one of their rows does, the parent is to be published as updated. The step
  infers the parents from the difference of two sets that keep one owner per child, and
  follows reverse foreign keys on its own. A child that names its parent is found through
  its owner only, so the inference is complete as long as such a child has one parent
  (`OneParent`), and misses one when two projections give it two.
-/
import Sp00ky.Ssp.Publish
import Sp00ky.Ssp.Snapshot
import Sp00ky.Ssp.SubqueryOwner

namespace Sp00ky.Ssp

open Std Lib

/-! ## The projections of a precise plan -/

theorem noSubquery_infos {ps : List Projection}
    (h : (ps.all fun | .subquery _ _ _ => false | _ => true) = true) (pt : Option String) :
    OperatorPlan.collectProjectionInfo pt ps = [] := by
  induction ps with
  | nil => rfl
  | cons p ps ih =>
    simp only [List.all_cons, Bool.and_eq_true] at h
    cases p with
    | all | field f n => exact ih h.2
    | subquery a plan k => cases h.1

theorem OperatorPlan.preciseChild_infos {key : SubqueryParentKey} {plan : OperatorPlan} {b : Bool}
    (h : plan.preciseChild key = some b) (pt : Option String) : plan.collectSubqueryInfo pt = [] := by
  induction plan using OperatorPlan.inputInduction generalizing b with
  | scan table => rfl
  | filter input p ih =>
    simp only [preciseChild, Option.map_eq_some_iff] at h
    obtain ⟨b', hb, -⟩ := h
    exact ih hb
  | distinct input ih => exact ih h
  | limit input lim start ob ih =>
    simp only [preciseChild, Option.filter_eq_some_iff] at h
    exact ih h.1
  | project input ps ih =>
    simp only [preciseChild] at h
    split at h
    next hall =>
      rw [collectSubqueryInfo, ih h, List.nil_append]
      exact noSubquery_infos hall pt
    next => cases h
  | _ => cases h

/-- Every projection of a precise plan is one of the root, on a subquery table. -/
theorem OperatorPlan.precise_infos {plan : OperatorPlan} (h : plan.hasPreciseSubqueries = true)
    {info : SubqueryInfo} (hi : info ∈ plan.collectSubqueryInfo none) :
    info.parentTable = none ∧ info.table ∈ plan.collectSubqueryTables := by
  induction plan using OperatorPlan.inputInduction with
  | scan table => cases hi
  | filter input p ih | distinct input ih | limit input lim start ob ih => exact ih h hi
  | project input ps ih =>
    simp only [hasPreciseSubqueries, Bool.and_eq_true] at h
    rw [collectSubqueryInfo, List.mem_append] at hi
    rw [collectSubqueryTables, List.mem_append]
    rcases hi with hi | hi
    · obtain ⟨h1, h2⟩ := ih h.1 hi
      exact ⟨h1, .inl h2⟩
    · have hps := h.2
      suffices hs : info.parentTable = none ∧ info.table ∈ collectProjectionTables ps from
        ⟨hs.1, .inr hs.2⟩
      clear ih h
      induction ps with
      | nil => cases hi
      | cons p ps ihp =>
        simp only [List.all_cons, Bool.and_eq_true] at hps
        cases p with
        | all | field f n => exact ihp hi hps.2
        | subquery a sub k =>
          rw [collectProjectionInfo, List.mem_append] at hi
          rw [collectProjectionTables, List.mem_append]
          rcases hi with hi | hi
          · cases k with
            | none => cases hps.1
            | some key =>
              simp only [Bool.and_eq_true, beq_iff_eq] at hps
              cases ht : sub.referencedTables.head? with
              | none =>
                rw [ht] at hi
                cases hi
              | some table =>
                rw [ht] at hi
                simp only [preciseChild_infos hps.1.2, List.mem_singleton] at hi
                subst hi
                refine ⟨rfl, .inl ?_⟩
                have := List.mem_of_mem_head? ht
                rwa [referencedTables, mem_dedupFirst] at this
          · obtain ⟨h1, h2⟩ := ihp hi hps.2
            exact ⟨h1, .inr h2⟩
  | _ => cases h

/-! ## Correlation -/

/-- A child is correlated with a parent under some projection. -/
def Correlated (plan : OperatorPlan) (s : Store) (cache : ZSet) (k p : String) : Prop :=
  ∃ info ∈ plan.subqueryProjectionInfo, RootClaims s cache info k p

/-- The child names its parent. -/
def SubqueryInfo.isForward (info : SubqueryInfo) : Bool :=
  info.parentKey.any (·.childField != "id")

/-- A child names the parent under some projection. -/
def NamesParent (plan : OperatorPlan) (s : Store) (cache : ZSet) (k p : String) : Prop :=
  ∃ info ∈ plan.subqueryProjectionInfo, info.isForward = true ∧ RootClaims s cache info k p

/-- A child that names a parent is correlated with no other one. -/
def OneParent (plan : OperatorPlan) (s : Store) (cache : ZSet) : Prop :=
  ∀ k p p', NamesParent plan s cache k p → Correlated plan s cache k p' → p' = p

/-- The children that name a parent are recorded under it. -/
def OwnsForward (s : Store) (v : View) : Prop :=
  ∀ k p, NamesParent v.plan.root s v.cache k p → ∃ a, v.subqueryCache[k]? = some (p, a)

section Owners

variable {store : Store} {cache : ZSet}

theorem settle_foldl_sound {own : Ownership} (stages : List SubqueryStage) {k : String}
    {o : String × String} (h : stages.foldl (SubqueryStage.settle store cache) own k o) :
    own k o ∨ ∃ st ∈ stages, ∃ held, st.Claims store cache held k o.1 := by
  induction stages generalizing own with
  | nil => exact .inl h
  | cons st stages ih =>
    rcases ih h with (⟨hc, -⟩ | ⟨-, ho⟩) | ⟨st', hst', held, hc⟩
    · exact .inr ⟨st, List.mem_cons_self, _, hc⟩
    · exact .inl ho
    · exact .inr ⟨st', List.mem_cons_of_mem _ hst', held, hc⟩

theorem settle_foldl_total {own : Ownership} (stages : List SubqueryStage) {k : String}
    (h : (∃ o, own k o) ∨ ∃ st ∈ stages, st.nested = false ∧
      ∃ p, RootClaims store cache st.info k p) :
    ∃ o, stages.foldl (SubqueryStage.settle store cache) own k o := by
  induction stages generalizing own with
  | nil =>
    rcases h with h | ⟨st, hst, -⟩
    · exact h
    · cases hst
  | cons st stages ih =>
    refine ih ?_
    have hsettle : (∃ p, st.Claims store cache (fun x => ∃ o, own x o) k p) ∨ (∃ o, own k o) →
        ∃ o, st.settle store cache own k o := by
      intro hcase
      by_cases hc : ∃ p, st.Claims store cache (fun x => ∃ o, own x o) k p
      · obtain ⟨p, hp⟩ := hc
        exact ⟨(p, st.info.asName), .inl ⟨hp, rfl⟩⟩
      · obtain ⟨o, ho⟩ := hcase.resolve_left hc
        exact ⟨o, .inr ⟨fun p hp => hc ⟨p, hp⟩, ho⟩⟩
    rcases h with h | ⟨st', hst', hn, p, hp⟩
    · exact .inl (hsettle (.inr h))
    · rcases List.mem_cons.mp hst' with rfl | hst'
      · refine .inl (hsettle (.inl ⟨p, ?_⟩))
        rw [SubqueryStage.Claims, hn]
        exact hp
      · exact .inr ⟨st', hst', hn, p, hp⟩

/-- In a precise plan the owner of a child is correlated with it. -/
theorem owners_correlated {v : View} (hp : v.plan.root.hasPreciseSubqueries = true) {k : String}
    {o : String × String} (h : owners store v k o) :
    Correlated v.plan.root store v.cache k o.1 := by
  rcases settle_foldl_sound _ h with h | ⟨st, hst, held, hc⟩
  · exact h.elim
  rcases List.mem_append.mp hst with hst | hst
  · obtain ⟨info, hi, rfl⟩ := List.mem_map.mp hst
    exact ⟨info, hi, hc⟩
  · -- no projection is nested
    obtain ⟨info, hi, rfl⟩ := List.mem_map.mp hst
    obtain ⟨pt, -, -, -, hpt, -⟩ := hc
    rw [(OperatorPlan.precise_infos hp hi).1] at hpt
    cases hpt

theorem owners_of_correlated {v : View} {k p : String}
    (h : Correlated v.plan.root store v.cache k p) : ∃ o, owners store v k o := by
  obtain ⟨info, hi, hc⟩ := h
  refine settle_foldl_total _ (.inr ⟨⟨false, info⟩, ?_, rfl, p, hc⟩)
  exact List.mem_append_left _ (List.mem_map_of_mem hi)

/-- The set of the view: a correlated child has an entry, and its owner is correlated. -/
theorem subquerySet_correlated (ho : HashOrder) {v : View}
    (hp : v.plan.root.hasPreciseSubqueries = true) {k p : String}
    (h : Correlated v.plan.root store v.cache k p) :
    ∃ o, (computeCurrentSubquerySet ho store v)[k]? = some o ∧
      Correlated v.plan.root store v.cache k o.1 := by
  obtain ⟨o, ho'⟩ := owners_of_correlated h
  have hin := (realises_owners store v).total ho k o ho'
  rw [ExtTreeMap.contains_eq_isSome_getElem?, Option.isSome_iff_exists] at hin
  obtain ⟨o', hres⟩ := hin
  exact ⟨o', hres, owners_correlated hp ((realises_owners store v).sound ho k o' hres)⟩

/-- With one parent for each child that names one, the set records that parent. -/
theorem ownsForward_refreshed (ho : HashOrder) {v : View}
    (hp : v.plan.root.hasPreciseSubqueries = true) (h : OneParent v.plan.root store v.cache) :
    ∀ k p, NamesParent v.plan.root store v.cache k p →
      ∃ a, (computeCurrentSubquerySet ho store v)[k]? = some (p, a) := by
  intro k p hn
  have hc : Correlated v.plan.root store v.cache k p := by
    obtain ⟨info, hi, -, hc⟩ := hn
    exact ⟨info, hi, hc⟩
  obtain ⟨o, hres, ho'⟩ := subquerySet_correlated ho hp hc
  have he := h k p o.1 hn ho'
  exact ⟨o.2, by rw [hres, ← he]⟩

end Owners

section Claims

variable {s : Store} {cache : ZSet} {info : SubqueryInfo} {k p : String}

theorem row_iff {t id : String} {row : Row} :
    s.row t id = some row ↔ ∃ c, s.getCollection t = some c ∧ c.rows[id]? = some row := by
  unfold Store.row Store.getCollection
  rw [Option.bind_eq_some_iff]

/-- A child that names its parent. -/
theorem rootClaims_forward (hf : info.isForward = true) :
    RootClaims s cache info k p ↔ info.parentTable = none ∧ p ∈ cache ∧ ∃ key id row,
      info.parentKey = some key ∧ s.row info.table id = some row ∧
      row.value.get key.childField = some (.str p) ∧ k = makeKey info.table id := by
  unfold RootClaims
  refine and_congr_right fun _ => ?_
  constructor
  · rintro ⟨key, c, hkey, hc, hp, hcase⟩
    rw [SubqueryInfo.isForward, hkey, Option.any_some, bne_iff_ne] at hf
    rw [if_neg hf] at hcase
    obtain ⟨id, row, hrow, hget, hk⟩ := hcase
    exact ⟨hp, key, id, row, hkey, row_iff.mpr ⟨c, hc, hrow⟩, hget, hk⟩
  · rintro ⟨hp, key, id, row, hkey, hrow, hget, hk⟩
    obtain ⟨c, hc, hrow⟩ := row_iff.mp hrow
    refine ⟨key, c, hkey, hc, hp, ?_⟩
    rw [SubqueryInfo.isForward, hkey, Option.any_some, bne_iff_ne] at hf
    rw [if_neg hf]
    exact ⟨id, row, hrow, hget, hk⟩

/-- A child that its parent names. -/
theorem rootClaims_reverse (hf : info.isForward = false) :
    RootClaims s cache info k p ↔ info.parentTable = none ∧ p ∈ cache ∧ ∃ key child row,
      info.parentKey = some key ∧ key.childField = "id" ∧
      (s.getRowByKey p).bind (·.get key.parentField) = some (.str child) ∧
      s.row info.table (rawId child) = some row ∧ k = makeKey info.table (rawId child) := by
  unfold RootClaims
  refine and_congr_right fun _ => ?_
  constructor
  · rintro ⟨key, c, hkey, hc, hp, hcase⟩
    rw [SubqueryInfo.isForward, hkey, Option.any_some, bne_eq_false_iff_eq] at hf
    rw [if_pos hf] at hcase
    obtain ⟨child, hget, hin, hk⟩ := hcase
    rw [ExtTreeMap.mem_iff_isSome_getElem?, Option.isSome_iff_exists] at hin
    obtain ⟨row, hrow⟩ := hin
    exact ⟨hp, key, child, row, hkey, hf, hget, row_iff.mpr ⟨c, hc, hrow⟩, hk⟩
  · rintro ⟨hp, key, child, row, hkey, hid, hget, hrow, hk⟩
    obtain ⟨c, hc, hrow⟩ := row_iff.mp hrow
    refine ⟨key, c, hkey, hc, hp, ?_⟩
    rw [if_pos hid]
    exact ⟨child, hget, mem_of_getElem? hrow, hk⟩

end Claims

/-! ## What a step publishes -/

theorem diffSubquerySets_removed (ho : HashOrder) {old new : SubqueryCache}
    {changed : Option (List String)} {k : String} {o : String × String}
    (h : old[k]? = some o) (hne : new[k]? ≠ old[k]?) :
    ∃ item ∈ diffSubquerySets ho old new changed, item.parentKey = o.1 := by
  refine ⟨⟨k, o.1, o.2, .remove⟩, List.mem_append_left _ (List.mem_filterMap.mpr ?_), rfl⟩
  refine ⟨(k, o), mem_entriesIn.mpr ⟨?_, h⟩, by rw [if_neg hne]⟩
  exact (mem_visit _).mpr (mem_keys_of_getElem? h)

theorem diffSubquerySets_kept (ho : HashOrder) {old new : SubqueryCache} {changed : List String}
    {k : String} {o : String × String} (h : new[k]? = some o) (hk : k ∈ changed) :
    ∃ item ∈ diffSubquerySets ho old new (some changed), item.parentKey = o.1 := by
  have hmem : (k, o) ∈ entriesIn new (ho.visit new.keys) := by
    refine mem_entriesIn.mpr ⟨?_, h⟩
    exact (mem_visit _).mpr (mem_keys_of_getElem? h)
  refine ⟨⟨k, o.1, o.2, if decide (old[k]? = new[k]?) then .update else .add⟩,
    List.mem_append_right _ (List.mem_filterMap.mpr ⟨(k, o), hmem, ?_⟩), rfl⟩
  simp [hk]

/-- The key of a row that differs is among the changed ones, and its table is marked. -/
def Marks (ho : HashOrder) (deltas : TableDeltas) (cu : ContentUpdates) (s s' : Store)
    (t : String) : Prop :=
  ∀ id, s'.row t id ≠ s.row t id →
    t ++ ":" ++ id ∈ changedKeys ho deltas cu ∧ (deltas.contains t || cu.contains t) = true

/-- The children of a parent changed under a projection, or a row of theirs did. -/
def ChildrenChanged (info : SubqueryInfo) (s s' : Store) (cache cache' : ZSet) (p : String) : Prop :=
  ∃ k, ¬ (RootClaims s cache info k p ↔ RootClaims s' cache' info k p) ∨
    RootClaims s cache info k p ∧ RootClaims s' cache' info k p ∧
      ∃ id, k = info.table ++ ":" ++ id ∧ s'.row info.table id ≠ s.row info.table id

/-- The raw ids of a child table have no colon. -/
def PlainChildren (info : SubqueryInfo) (s : Store) : Prop :=
  ∀ id, (s.row info.table id).isSome → rawId id = id

/-- The parent's row is stored before and after the step, and if it is written the operators
    report no membership change for it. -/
def OwnRow (s s' : Store) (vd : ZSet) (p : String) : Prop :=
  ∃ t id, p = t ++ ":" ++ id ∧ ColonFree t ∧ (s.row t id).isSome ∧ (s'.row t id).isSome ∧
    (s'.row t id ≠ s.row t id → p ∉ vd)

section Publish

variable (env : Env) {ho : HashOrder} {s s' : Store} {v : View} {vd : ZSet} {deltas : TableDeltas}
  {cu : ContentUpdates} {info : SubqueryInfo} {p : String}

theorem makeKey_plain {id : String} (h : rawId id = id) (t : String) :
    makeKey t id = t ++ ":" ++ id := by
  rw [makeKey, h]

variable (hplan : v.plan.root.hasPreciseSubqueries = true)
  (htables : v.subqueryTables = v.plan.root.subqueryTables)
  (hinfo : info ∈ v.plan.root.subqueryProjectionInfo)
  (hnew : p ∈ View.applyDelta v.cache vd)

include hplan htables hinfo hnew

/-- A parent of a published item, or one whose reverse key changed, is named as updated. -/
theorem refreshResult_named (hmark : (deltas.contains info.table || cu.contains info.table) = true)
    (h : (∃ item ∈ diffSubquerySets ho v.subqueryCache
          (computeCurrentSubquerySet ho s' (v.applied vd)) (some (changedKeys ho deltas cu)),
        item.parentKey = p) ∨
      ∃ key child, info.parentKey = some key ∧ key.childField = "id" ∧
        (s'.getRowByKey p).bind (·.get key.parentField) = some (.str child) ∧
        makeKey info.table (rawId child) ∈ changedKeys ho deltas cu) :
    p ∈ (refreshResult ho s' v vd deltas cu).2.2 := by
  have ht : subqueryTouched v deltas cu = true := by
    rw [subqueryTouched, List.any_eq_true]
    refine ⟨info.table, ?_, hmark⟩
    rw [htables, OperatorPlan.subqueryTables, mem_dedupFirst]
    exact (OperatorPlan.precise_infos hplan hinfo).2
  have hr : refreshes ho v vd deltas cu = true := by simp [refreshes, ht]
  have hplan' : (v.applied vd).plan.root.hasPreciseSubqueries = true := hplan
  simp only [refreshResult, hr, if_true, refreshSubqueries, ht, hplan', subqueryUpdates]
  refine List.mem_filter.mpr ⟨List.mem_append.mpr ?_, ExtTreeMap.contains_iff_mem.mpr hnew⟩
  rcases h with ⟨item, hitem, rfl⟩ | ⟨key, child, hkey, hid, hget, hin⟩
  · exact .inl (List.mem_map_of_mem hitem)
  · refine .inr (List.mem_flatMap.mpr ⟨info, hinfo, ?_⟩)
    rw [hkey]
    dsimp only
    rw [if_pos hid]
    refine List.mem_filter.mpr ⟨ExtTreeMap.mem_keys.mpr hnew, ?_⟩
    rw [hget]
    simpa using hin

variable (hold : p ∈ v.cache) (hmarks : Marks ho deltas cu s s' info.table)
  (hids : PlainChildren info s) (hids' : PlainChildren info s')

include hold hmarks hids hids'

/-- A parent named by its children: the row of a child that came, went or changed is marked, and
    the child's owner on the side where it is correlated is the parent. -/
theorem forward_named (hf : info.isForward = true) (hown : OwnsForward s v)
    (hone : OneParent v.plan.root s' (View.applyDelta v.cache vd))
    (h : ChildrenChanged info s s' v.cache (View.applyDelta v.cache vd) p) :
    p ∈ (refreshResult ho s' v vd deltas cu).2.2 := by
  have hpt := (OperatorPlan.precise_infos hplan hinfo).1
  have hstep : ∀ k id, k = info.table ++ ":" ++ id → s'.row info.table id ≠ s.row info.table id →
      (RootClaims s v.cache info k p ∨ RootClaims s' (View.applyDelta v.cache vd) info k p) →
      p ∈ (refreshResult ho s' v vd deltas cu).2.2 := by
    rintro k id rfl hrow hc
    obtain ⟨hin, hmark⟩ := hmarks id hrow
    refine refreshResult_named hplan htables hinfo hnew hmark (.inl ?_)
    by_cases hc' : RootClaims s' (View.applyDelta v.cache vd) info (info.table ++ ":" ++ id) p
    · obtain ⟨a, ha⟩ := ownsForward_refreshed ho (v := v.applied vd) hplan hone
        (info.table ++ ":" ++ id) p ⟨info, hinfo, hf, hc'⟩
      exact diffSubquerySets_kept ho ha hin
    · obtain ⟨a, ha⟩ := hown _ p ⟨info, hinfo, hf, hc.resolve_right hc'⟩
      by_cases hsame : (computeCurrentSubquerySet ho s' (v.applied vd))[info.table ++ ":" ++ id]? =
          v.subqueryCache[info.table ++ ":" ++ id]?
      · rw [ha] at hsame
        exact diffSubquerySets_kept ho hsame hin
      · exact diffSubquerySets_removed ho ha hsame
  obtain ⟨k, h | ⟨h1, h2, id, hk, hrow⟩⟩ := h
  · -- a row that is the same on both sides is correlated on both sides
    have hside : ∀ {s₁ s₂ : Store} {c₁ c₂ : ZSet}, PlainChildren info s₁ → p ∈ c₂ →
        RootClaims s₁ c₁ info k p → ¬ RootClaims s₂ c₂ info k p →
        ∃ id, k = info.table ++ ":" ++ id ∧ s₁.row info.table id ≠ s₂.row info.table id := by
      intro s₁ s₂ c₁ c₂ hplain hmem hc hn
      obtain ⟨-, -, key, id, row, hkey, hrow, hget, hk⟩ := (rootClaims_forward hf).mp hc
      have hid : rawId id = id := hplain id (by rw [hrow]; rfl)
      refine ⟨id, by rw [hk, makeKey_plain hid], fun he => hn ?_⟩
      exact (rootClaims_forward hf).mpr ⟨hpt, hmem, key, id, row, hkey, he ▸ hrow, hget, hk⟩
    by_cases hc : RootClaims s v.cache info k p
    · have hn : ¬ RootClaims s' (View.applyDelta v.cache vd) info k p := fun hc' =>
        h (iff_of_true hc hc')
      obtain ⟨id, hk, hrow⟩ := hside hids hnew hc hn
      exact hstep k id hk (Ne.symm hrow) (.inl hc)
    · have hc' : RootClaims s' (View.applyDelta v.cache vd) info k p := by
        by_contra hn
        exact h (iff_of_false hc hn)
      obtain ⟨id, hk, hrow⟩ := hside hids' hold hc' hc
      exact hstep k id hk hrow (.inr hc')
  · exact hstep k id hk hrow (.inr h2)

/-- A parent that names its child: either its own row changed, or the child's did. -/
theorem reverse_named (hf : info.isForward = false)
    (h : ChildrenChanged info s s' v.cache (View.applyDelta v.cache vd) p)
    (hsame : s'.getRowByKey p = s.getRowByKey p) :
    p ∈ (refreshResult ho s' v vd deltas cu).2.2 := by
  have hpt := (OperatorPlan.precise_infos hplan hinfo).1
  have hstep : ∀ key child, info.parentKey = some key → key.childField = "id" →
      (s'.getRowByKey p).bind (·.get key.parentField) = some (.str child) →
      rawId (rawId child) = rawId child →
      s'.row info.table (rawId child) ≠ s.row info.table (rawId child) →
      p ∈ (refreshResult ho s' v vd deltas cu).2.2 := by
    intro key child hkey hid hget hplain hrow
    obtain ⟨hin, hmark⟩ := hmarks _ hrow
    refine refreshResult_named hplan htables hinfo hnew hmark (.inr ⟨key, child, hkey, hid, hget, ?_⟩)
    rwa [makeKey_plain hplain]
  obtain ⟨k, h | ⟨h1, h2, id, hk, hrow⟩⟩ := h
  · by_cases hc : RootClaims s v.cache info k p
    · obtain ⟨-, -, key, child, row, hkey, hid, hget, hr, hk⟩ := (rootClaims_reverse hf).mp hc
      rw [← hsame] at hget
      refine hstep key child hkey hid hget (hids _ (by rw [hr]; rfl)) fun he => ?_
      refine h (iff_of_true hc ((rootClaims_reverse hf).mpr ⟨hpt, hnew, key, child, row, hkey, hid,
        hget, by rw [he]; exact hr, hk⟩))
    · have hc' : RootClaims s' (View.applyDelta v.cache vd) info k p := by
        by_contra hn
        exact h (iff_of_false hc hn)
      obtain ⟨-, -, key, child, row, hkey, hid, hget, hr, hk⟩ := (rootClaims_reverse hf).mp hc'
      refine hstep key child hkey hid hget (hids' _ (by rw [hr]; rfl)) fun he => hc ?_
      rw [hsame] at hget
      exact (rootClaims_reverse hf).mpr ⟨hpt, hold, key, child, row, hkey, hid, hget,
        by rw [← he]; exact hr, hk⟩
  · obtain ⟨-, -, key, child, row, hkey, hid, hget, hr, hk'⟩ := (rootClaims_reverse hf).mp h2
    have hplain := hids' _ (by rw [hr]; rfl)
    rw [makeKey_plain hplain] at hk'
    rw [hk] at hk'
    have he := join_injective hk'
    rw [he] at hrow
    exact hstep key child hkey hid hget hplain hrow

/-- A parent that stays in the view and whose children changed is published as updated. -/
theorem publishStep_lists (hown : OwnsForward s v)
    (hone : OneParent v.plan.root s' (View.applyDelta v.cache vd))
    (hself : info.isForward = false → s'.getRowByKey p ≠ s.getRowByKey p →
      p ∈ contentKeys ho cu ∧ p ∉ vd)
    (h : ChildrenChanged info s s' v.cache (View.applyDelta v.cache vd) p) :
    ∃ d, (publishStep env ho s' v vd deltas cu).2 = some d ∧ p ∈ d.updates := by
  refine publishStep_updates env hold hnew ?_
  cases hf : info.isForward with
  | true =>
    exact .inr (forward_named hplan htables hinfo hnew hold hmarks hids hids' hf hown hone h)
  | false =>
    by_cases hsame : s'.getRowByKey p = s.getRowByKey p
    · exact .inr (reverse_named hplan htables hinfo hnew hold hmarks hids hids' hf h hsame)
    · obtain ⟨hin, hvd⟩ := hself hf hsame
      exact .inl (mem_ownUpdates.mpr ⟨hin, hold, hvd⟩)

end Publish

/-! ## Marks of a step -/

theorem phase1_content (env : Env) (ho : HashOrder) (c : Circuit) (changes : List Change)
    {t id : String} (ht : ColonFree t)
    (hne : (phase1 env ho c changes).circuit.store.row t id ≠ c.store.row t id)
    (hs : (c.store.row t id).isSome)
    (hs' : ((phase1 env ho c changes).circuit.store.row t id).isSome) :
    t ++ ":" ++ id ∈ (phase1 env ho c changes).content.of t := by
  by_contra hnot
  exact hne ((phase1_stepInput env ho c changes ht).same id hnot hs hs')

theorem phase1_marks (env : Env) (ho : HashOrder) (c : Circuit) (changes : List Change)
    {t : String} (ht : ColonFree t) :
    Marks ho (phase1 env ho c changes).deltas (phase1 env ho c changes).content c.store
      (phase1 env ho c changes).circuit.store t := by
  intro id hne
  have hin := phase1_stepInput env ho c changes ht
  by_cases hp : ((phase1 env ho c changes).circuit.store.row t id).isSome =
      (c.store.row t id).isSome
  · have hs : (c.store.row t id).isSome := by
      by_contra hno
      rw [Bool.not_eq_true, Option.isSome_eq_false_iff, Option.isNone_iff_eq_none] at hno
      rw [hno, Option.isSome_none, Option.isSome_eq_false_iff, Option.isNone_iff_eq_none] at hp
      exact hne (hp.trans hno.symm)
    have hc := phase1_content env ho c changes ht hne hs (hp.trans hs)
    refine ⟨List.mem_append_right _ (mem_contentKeys.mpr ⟨t, hc⟩), ?_⟩
    rw [Bool.or_eq_true]
    right
    rw [ExtTreeMap.contains_eq_isSome_getElem?]
    unfold ContentUpdates.of at hc
    cases h : (phase1 env ho c changes).content[t]? with
    | none =>
      rw [h] at hc
      cases hc
    | some l => rfl
  · have hd := hin.delta id
    rw [if_neg hp] at hd
    unfold TableDeltas.of at hd
    cases h : (phase1 env ho c changes).deltas[t]? with
    | none =>
      rw [h] at hd
      simp at hd
    | some delta =>
      rw [h, Option.getD_some] at hd
      refine ⟨List.mem_append_left _ (List.mem_flatMap.mpr ⟨(t, delta), ?_, ?_⟩), ?_⟩
      · exact ExtTreeMap.mem_toList_iff_getElem?_eq_some.mpr h
      · exact mem_keys_of_getElem? hd
      · rw [ExtTreeMap.contains_eq_isSome_getElem?, h]
        rfl

/-! ## Runs -/

/-- What a view of the plan keeps: its tables, and the forward children under their parents. -/
structure PreciseView (plan : OperatorPlan) (s : Store) (g : Graph) (v : View) : Prop where
  valid : g.Valid
  root : v.plan.root = plan
  tables : v.subqueryTables = plan.subqueryTables
  owns : OwnsForward s v

theorem initialSnapshot_records (env : Env) (ho : HashOrder) (store : Store) (g : Graph) (v : View) :
    (initialSnapshot env ho store g v).2.1.subqueryTables = v.subqueryTables ∧
      ((initialSnapshot env ho store g v).2.1.cache = v.cache ∧
          (initialSnapshot env ho store g v).2.1.subqueryCache = v.subqueryCache ∨
        (initialSnapshot env ho store g v).2.1.subqueryCache =
          computeCurrentSubquerySet ho store (initialSnapshot env ho store g v).2.1) := by
  unfold initialSnapshot
  dsimp only
  split
  · exact ⟨rfl, .inl ⟨rfl, rfl⟩⟩
  · split
    · exact ⟨rfl, .inl ⟨rfl, rfl⟩⟩
    · exact ⟨rfl, .inr rfl⟩

theorem refreshResult_view (ho : HashOrder) (store : Store) (v : View) (vd : ZSet)
    (deltas : TableDeltas) (cu : ContentUpdates) :
    let w := (refreshResult ho store v vd deltas cu).1
    w.plan = v.plan ∧ w.subqueryTables = v.subqueryTables ∧
      w.cache = View.applyDelta v.cache vd ∧
      (refreshes ho v vd deltas cu = true ∧
          w.subqueryCache = computeCurrentSubquerySet ho store (v.applied vd) ∨
        refreshes ho v vd deltas cu = false ∧ w.subqueryCache = v.subqueryCache) := by
  intro w
  have hw : w = (refreshResult ho store v vd deltas cu).1 := rfl
  unfold refreshResult at hw
  cases hr : refreshes ho v vd deltas cu with
  | true =>
    rw [hr, if_pos rfl] at hw
    rw [hw]
    exact ⟨rfl, rfl, rfl, .inl ⟨rfl, rfl⟩⟩
  | false =>
    rw [hr, if_neg (by simp)] at hw
    rw [hw]
    exact ⟨rfl, rfl, rfl, .inr ⟨rfl, rfl⟩⟩

/-- The graph and the view after a step are those of `step_query` or primed again. -/
theorem stepView_cases (env : Env) (planner : IndexPlanner) (ho : HashOrder) (store : Store)
    (deltas : TableDeltas) (cu : ContentUpdates) (g : Graph) (v : View) :
    let q := stepQuery env ho store g v deltas cu
    let primed := Circuit.reprimeView env (Graph.fromPlanWith q.2.1.plan.root planner) ho store q.2.1
    let r := Circuit.stepView env planner ho store deltas cu g v
    r = q ∨ r.1 = primed.1 ∧ r.2.1 = primed.2.1 := by
  intro q primed r
  by_cases hn : q.1.needsRebuild = true
  · right
    have hr : r = (primed.1, primed.2.1, some primed.2.2) := if_pos hn
    rw [hr]
    exact ⟨rfl, rfl⟩
  · left
    exact if_neg hn

section Runs

variable {plan : OperatorPlan} (hplan : plan.hasPreciseSubqueries = true)
  (hcol : ∀ t ∈ plan.subqueryTables, ColonFree t)

theorem namesParent_congr {s s' : Store} {cache : ZSet} {k p : String}
    (h : ∀ info ∈ plan.subqueryProjectionInfo, ∀ id, s'.row info.table id = s.row info.table id)
    (hn : NamesParent plan s' cache k p) : NamesParent plan s cache k p := by
  obtain ⟨info, hi, hf, hc⟩ := hn
  refine ⟨info, hi, hf, ?_⟩
  rw [rootClaims_forward hf] at hc ⊢
  simpa only [h info hi] using hc

include hplan

theorem precise_table {info : SubqueryInfo} (hi : info ∈ plan.subqueryProjectionInfo) :
    info.table ∈ plan.subqueryTables := by
  rw [OperatorPlan.subqueryTables, mem_dedupFirst]
  exact (OperatorPlan.precise_infos hplan hi).2

variable {g : Graph}

/-- A graph primed from an empty view. -/
theorem preciseView_primed (env : Env) (ho : HashOrder) (store : Store) (hg : g.Valid)
    {v : View} (hroot : v.plan.root = plan) (htables : v.subqueryTables = plan.subqueryTables)
    (hempty : v.cache = ∅)
    (hone : OneParent plan store (initialSnapshot env ho store g v).2.1.cache) :
    PreciseView plan store (initialSnapshot env ho store g v).1
      (initialSnapshot env ho store g v).2.1 := by
  obtain ⟨h1, h2, -, -⟩ := initialSnapshot_view env ho store g v
  obtain ⟨ht, hrec⟩ := initialSnapshot_records env ho store g v
  have hroot' : (initialSnapshot env ho store g v).2.1.plan.root = plan := by rw [h2, hroot]
  refine ⟨?_, hroot', ht.trans htables, ?_⟩
  · rw [h1]
    exact (primeGraph_sameShape env ho store v.params hg).valid hg
  · intro k p hn
    rw [hroot'] at hn
    rcases hrec with ⟨hc, -⟩ | hs
    · obtain ⟨info, -, hf, hclaim⟩ := hn
      have hp := ((rootClaims_forward hf).mp hclaim).2.1
      rw [hc, hempty] at hp
      exact absurd hp ExtTreeMap.not_mem_empty
    · rw [hs]
      refine ownsForward_refreshed ho (by rw [hroot']; exact hplan) (by rw [hroot']; exact hone) k p ?_
      rw [hroot']
      exact hn

omit hplan in
/-- Facts about the records of a view do not read its hash. -/
theorem PreciseView.of_fields {s : Store} {v v' : View} (h : PreciseView plan s g v)
    (hp : v'.plan = v.plan) (ht : v'.subqueryTables = v.subqueryTables) (hc : v'.cache = v.cache)
    (hs : v'.subqueryCache = v.subqueryCache) : PreciseView plan s g v' := by
  refine ⟨h.valid, by rw [hp]; exact h.root, by rw [ht]; exact h.tables, ?_⟩
  intro k p hn
  rw [hp, hc] at hn
  rw [hs]
  exact h.owns k p hn

theorem preciseView_reprime (env : Env) (ho : HashOrder) (store : Store) (hg : g.Valid)
    {v : View} (hroot : v.plan.root = plan) (htables : v.subqueryTables = plan.subqueryTables)
    (hone : OneParent plan store (Circuit.reprimeView env g ho store v).2.1.cache) :
    PreciseView plan store (Circuit.reprimeView env g ho store v).1
      (Circuit.reprimeView env g ho store v).2.1 := by
  have hprimed := preciseView_primed hplan env ho store hg
    (v := { v with cache := ∅, subqueryCache := ∅, lastHash := "" }) hroot htables rfl
  unfold Circuit.reprimeView at hone ⊢
  dsimp only at hone ⊢
  split
  next g' v' d heq =>
    rw [heq] at hone hprimed
    exact hprimed hone
  next g' v' heq =>
    rw [heq] at hone hprimed
    exact (hprimed hone).of_fields rfl rfl rfl rfl

include hcol

theorem preciseView_stepQuery (env : Env) (ho : HashOrder) {c : Circuit} {v : View}
    (changes : List Change) (h : PreciseView plan c.store g v) :
    let p := phase1 env ho c changes
    let r := stepQuery env ho p.circuit.store g v p.deltas p.content
    (OneParent plan p.circuit.store r.2.1.cache → PreciseView plan p.circuit.store r.1 r.2.1) ∧
      r.2.1.plan.root = plan ∧ r.2.1.subqueryTables = plan.subqueryTables := by
  intro p r
  obtain ⟨vd, -, hpub⟩ := stepQuery_publish env ho p.circuit.store h.valid v p.deltas p.content
  have hview : r.2.1 = (publishStep env ho p.circuit.store v vd p.deltas p.content).1 :=
    congrArg Prod.fst hpub
  have hg : r.1 = (stepGraph env ho p.circuit.store v.params v.cache g p.deltas p.content).1 :=
    (stepQuery_view env ho p.circuit.store g v p.deltas p.content).1
  obtain ⟨a1, -, a3, a4, a5⟩ := announce_view env (refreshResult ho p.circuit.store v vd p.deltas
    p.content).1 (subqueryTouched v p.deltas p.content) (!vd.isEmpty) (stepAdditions ho v vd)
    (stepRemovals ho v vd) (stepUpdates ho p.circuit.store v vd p.deltas p.content)
    (refreshResult ho p.circuit.store v vd p.deltas p.content).2.1
  rw [publishStep_eq] at hview
  rw [← hview] at a1 a3 a4 a5
  obtain ⟨r1, r2, r3, r4⟩ := refreshResult_view ho p.circuit.store v vd p.deltas p.content
  refine ⟨fun hone => ⟨?_, by rw [a1, r1]; exact h.root, by rw [a5, r2]; exact h.tables, ?_⟩,
    by rw [a1, r1]; exact h.root, by rw [a5, r2]; exact h.tables⟩
  · rw [hg]
    exact (stepGraph_sameShape env ho p.circuit.store v.params h.valid v.cache p.deltas
      p.content).valid h.valid
  · intro k q hn
    rw [a1, r1, a3, r3] at hn
    rw [a3, r3] at hone
    rw [a4]
    rcases r4 with ⟨-, hset⟩ | ⟨hquiet, hset⟩
    · rw [hset]
      exact ownsForward_refreshed ho (v := v.applied vd) (by
        change v.plan.root.hasPreciseSubqueries = true
        rw [h.root]
        exact hplan) (by
        change OneParent v.plan.root _ _
        rw [h.root]
        exact hone) k q hn
    · -- nothing to refresh: no child row changed and the cache is as before
      simp only [refreshes, Bool.or_eq_false_iff, Bool.not_eq_false'] at hquiet
      have hcache : View.applyDelta v.cache vd = v.cache := by
        rw [ExtTreeMap.isEmpty_iff.mp hquiet.1.1, applyDelta_empty]
      rw [hcache] at hn
      rw [hset]
      refine h.owns k q (namesParent_congr (fun info hi id => ?_) hn)
      by_contra hne
      rw [h.root] at hi
      have hcf : ColonFree info.table := hcol _ (precise_table hplan hi)
      have hmark := (phase1_marks env ho c changes hcf id hne).2
      have htouch : subqueryTouched v p.deltas p.content = true := by
        rw [subqueryTouched, List.any_eq_true]
        exact ⟨info.table, by rw [h.tables]; exact precise_table hplan hi, hmark⟩
      rw [htouch] at hquiet
      cases hquiet.1.2

/-- A step keeps the forward children under their parents. -/
theorem preciseView_step (env : Env) (planner : IndexPlanner) (ho : HashOrder) {c : Circuit} {v : View} (changes : List Change) (h : PreciseView plan c.store g v) :
    let p := phase1 env ho c changes
    let r := Circuit.stepView env planner ho p.circuit.store p.deltas p.content g v
    OneParent plan p.circuit.store r.2.1.cache → PreciseView plan p.circuit.store r.1 r.2.1 := by
  intro p r hone
  have hstep : (OneParent plan p.circuit.store
        (stepQuery env ho p.circuit.store g v p.deltas p.content).2.1.cache →
      PreciseView plan p.circuit.store (stepQuery env ho p.circuit.store g v p.deltas p.content).1
        (stepQuery env ho p.circuit.store g v p.deltas p.content).2.1) ∧
      (stepQuery env ho p.circuit.store g v p.deltas p.content).2.1.plan.root = plan ∧
      (stepQuery env ho p.circuit.store g v p.deltas p.content).2.1.subqueryTables =
        plan.subqueryTables :=
    preciseView_stepQuery hplan hcol env ho changes h
  obtain ⟨hview, hroot, htables⟩ := hstep
  rcases stepView_cases env planner ho p.circuit.store p.deltas p.content g v with hr | ⟨h1, h2⟩
  · have hr : r = _ := hr
    rw [hr] at hone ⊢
    exact hview hone
  · have h1 : r.1 = _ := h1
    have h2 : r.2.1 = _ := h2
    rw [h2] at hone
    rw [h1, h2]
    exact preciseView_reprime hplan env ho p.circuit.store (Graph.fromPlanWith_valid _ _) hroot
      htables hone

omit hcol in
theorem precise_collectTables {t : String} (ht : t ∈ plan.subqueryTables) :
    t ∈ plan.collectTables := by
  rw [OperatorPlan.subqueryTables, mem_dedupFirst] at ht
  clear hplan
  induction plan using OperatorPlan.inputInduction with
  | scan table => cases ht
  | filter input p ih | distinct input ih | limit input lim start ob ih => exact ih ht
  | project input ps ih =>
    rw [OperatorPlan.collectSubqueryTables, List.mem_append] at ht
    rw [OperatorPlan.collectTables, List.mem_append]
    exact ht.imp_left ih
  | join l r on ihl ihr | semiJoin l r on ihl ihr | antiJoin l r on ihl ihr | union l r ihl ihr =>
    rw [OperatorPlan.collectSubqueryTables, List.mem_append] at ht
    rw [OperatorPlan.collectTables, List.mem_append]
    exact ht.imp ihl ihr

omit hcol in
theorem preciseView_frame (s s' : Store) (g : Graph) (v : View)
    (hrows : s.Agree plan.collectTables s') (h : PreciseView plan s g v) :
    PreciseView plan s' g v := by
  refine ⟨h.valid, h.root, h.tables, fun k p hn => h.owns k p ?_⟩
  refine namesParent_congr (fun info hi id => ?_) hn
  rw [h.root] at hi
  exact hrows _ (precise_collectTables hplan (precise_table hplan hi)) id

end Runs

/-- A state of a circuit in which every child of the query that names a parent has one. -/
def OneParentIn (c : Circuit) (q : String) (plan : OperatorPlan) : Prop :=
  ∀ v, c.views[q]? = some v → OneParent plan c.store v.cache

/-- Steps to a state with one parent for every child that names one. -/
def OneParentStep (env : Env) (planning : Planning) (q : String) (plan : OperatorPlan) (c : Circuit)
    (changes : List Change) : Prop :=
  ∀ ho, OneParentIn (c.step env planning ho changes).1 q plan

/-- A parent whose stored row changes in a step is a key of an updated row. -/
theorem OwnRow.updated {env : Env} {ho : HashOrder} {c : Circuit} {changes : List Change}
    {vd : ZSet} {p : String} (h : OwnRow c.store (phase1 env ho c changes).circuit.store vd p)
    (hne : (phase1 env ho c changes).circuit.store.getRowByKey p ≠ c.store.getRowByKey p) :
    p ∈ contentKeys ho (phase1 env ho c changes).content ∧ p ∉ vd := by
  obtain ⟨t, id, rfl, ht, hs, hs', hvd⟩ := h
  have hrow : (phase1 env ho c changes).circuit.store.row t id ≠ c.store.row t id := by
    intro he
    obtain ⟨r, hr⟩ := Option.isSome_iff_exists.mp hs
    rw [getRowByKey_join ht, getRowByKey_join ht, he, hr] at hne
    exact hne rfl
  exact ⟨mem_contentKeys.mpr ⟨t, phase1_content env ho c changes ht hrow hs hs'⟩, hvd hrow⟩

section Reached

variable (env : Env) (planning : Planning) (ho : HashOrder) (c : Circuit)
    (plan : QueryPlan) (params : Option Json) (authId : String)
    (hplan : plan.root.hasPreciseSubqueries = true)
    (hcol : ∀ t ∈ plan.root.subqueryTables, ColonFree t)
    (hstart : OneParentIn (c.addQuery env planning ho plan params authId).1
      (Circuit.canonicalQueryId plan.id) plan.root)
    {c' : Circuit} (hrun : Reaches env planning (Circuit.canonicalQueryId plan.id)
      (OneParentStep env planning (Circuit.canonicalQueryId plan.id) plan.root)
      (c.addQuery env planning ho plan params authId).1 c')

include hplan hcol hstart hrun

/-- A registered view in a run of such steps. -/
theorem preciseView_reached :
    ∃ g v, Registered c' (Circuit.canonicalQueryId plan.id) plan.root
      (params.map Sp00kyValue.ofJson) g v ∧ PreciseView plan.root c'.store g v := by
  obtain ⟨-, hreg⟩ := addQuery_snapshot env planning ho c plan params authId
  refine hrun.holds (preciseView_frame hplan) ?_ hreg ?_
  · intro c₁ g v ho₁ changes hne hreg₁ hok h p r hreg'
    obtain ⟨hst, -⟩ := step_registered env planning ho₁ hreg₁ hne
    have hone := hok ho₁ _ hreg'.view
    rw [hst] at hone
    exact preciseView_step hplan hcol env _ ho₁ changes h hone
  · exact preciseView_primed hplan env ho _ (Graph.fromPlanWith_valid _ _) rfl rfl rfl
      (hstart _ hreg.view)

/-- Precise invalidation misses no parent. In every run in which each child that names a parent
    has one, the next step publishes every parent that stays in the view and whose children
    changed, as long as its own row is stored and its membership is not reported again. -/
theorem precise_complete {g : Graph} {v : View}
    (hg : c'.graphs[Circuit.canonicalQueryId plan.id]? = some g)
    (hv : c'.views[Circuit.canonicalQueryId plan.id]? = some v) (ho' : HashOrder)
    (changes : List Change) (vd : ZSet) {p : String} {info : SubqueryInfo} :
    let s' := (phase1 env ho' c' changes).circuit.store
    let r := stepQuery env ho' s' g v (phase1 env ho' c' changes).deltas
      (phase1 env ho' c' changes).content
    (stepGraph env ho' s' v.params v.cache g (phase1 env ho' c' changes).deltas
      (phase1 env ho' c' changes).content).2 = some vd →
    OneParent plan.root s' r.2.1.cache →
    info ∈ plan.root.subqueryProjectionInfo →
    PlainChildren info c'.store → PlainChildren info s' →
    (info.isForward = false → OwnRow c'.store s' vd p) →
    p ∈ v.cache → p ∈ r.2.1.cache →
    ChildrenChanged info c'.store s' v.cache r.2.1.cache p →
    ∃ d, r.2.2 = some d ∧ p ∈ d.updates := by
  intro s' r hvd hone hinfo hids hids' hself hold hnew hchanged
  obtain ⟨g₁, v₁, hreg, hview⟩ := preciseView_reached env planning ho c plan params authId hplan
    hcol hstart hrun
  obtain rfl : g₁ = g := Option.some.inj (hreg.graph.symm.trans hg)
  obtain rfl : v₁ = v := Option.some.inj (hreg.view.symm.trans hv)
  obtain ⟨vd', hvd', hpub⟩ := stepQuery_publish env ho' s' hview.valid v₁
    (phase1 env ho' c' changes).deltas (phase1 env ho' c' changes).content
  obtain rfl : vd' = vd := Option.some.inj (hvd'.symm.trans hvd)
  have hcache : r.2.1.cache = View.applyDelta v₁.cache vd' := by
    rw [hpub]
    exact (publishStep_view env ho' s' v₁ vd' _ _).2.2
  rw [hcache] at hone hnew hchanged
  rw [hpub]
  have hroot : plan.root = v₁.plan.root := hview.root.symm
  rw [hroot] at hone hinfo hplan
  refine publishStep_lists env hplan (by rw [hview.tables, hroot]) hinfo hnew hold
    (phase1_marks env ho' c' changes ?_) hids hids' hview.owns hone
    (fun hf hne => (hself hf).updated hne) hchanged
  refine hcol _ ?_
  rw [hroot]
  exact precise_table hplan hinfo

end Reached

/-- With one projection, whose children name their parent, there is one parent. -/
theorem oneParent_single {plan : OperatorPlan} {info : SubqueryInfo} {s : Store} {cache : ZSet}
    (h : plan.subqueryProjectionInfo = [info]) (hf : info.isForward = true)
    (hids : PlainChildren info s) : OneParent plan s cache := by
  rintro k p p' ⟨i, hi, -, hc⟩ ⟨i', hi', hc'⟩
  rw [h] at hi hi'
  obtain rfl := List.mem_singleton.mp hi
  obtain rfl := List.mem_singleton.mp hi'
  obtain ⟨-, -, key, id, row, hkey, hrow, hget, hk⟩ := (rootClaims_forward hf).mp hc
  obtain ⟨-, -, key', id', row', hkey', hrow', hget', hk'⟩ := (rootClaims_forward hf).mp hc'
  rw [makeKey_plain (hids id (by rw [hrow]; rfl))] at hk
  rw [hk, makeKey_plain (hids id' (by rw [hrow']; rfl))] at hk'
  obtain rfl := join_injective hk'
  rw [hrow, Option.some.injEq] at hrow'
  rw [hkey, Option.some.injEq] at hkey'
  rw [← hrow', ← hkey', hget, Option.some.injEq, Sp00kyValue.str.injEq] at hget'
  exact hget'.symm

/-- The documents a user relates to by a field. -/
def docsBy (field : String) : Projection :=
  .subquery field (.filter (.scan "doc")
    (.cmp .eq (Path.new field) (.object [("$param", .str "parent.id")])))
    (some ⟨field, "id"⟩)

/-- Users with the documents they wrote. -/
def planWriters : QueryPlan := ⟨"q", .project (.scan "user") [.all, docsBy "author"]⟩

/-- Users with the documents they wrote and those they reviewed. -/
def planReviewers : QueryPlan :=
  ⟨"q", .project (.scan "user") [.all, docsBy "author", docsBy "reviewer"]⟩

/-- Two users. -/
def usersCreated : List Change :=
  [⟨"user", .create, "1", .object [("name", .str "a")]⟩,
    ⟨"user", .create, "2", .object [("name", .str "b")]⟩]

/-- A document of the first user, reviewed by the second. -/
def docBody (title : String) : Sp00kyValue :=
  .object [("author", .str "user:1"), ("reviewer", .str "user:2"), ("title", .str title)]

/-- Two users and a document. -/
def docStored : Circuit :=
  (Circuit.new.step Env.sample asWritten .sorted
    (usersCreated ++ [⟨"doc", .create, "1", docBody "x"⟩])).1

/-- Another title. -/
def docTouched : List Change := [⟨"doc", .update, "1", docBody "y"⟩]

/-- The projection `author`. -/
def authorInfo : SubqueryInfo := ⟨"author", "doc", some ⟨"author", "id"⟩, none⟩

/-- The view of a plan over the stored document. -/
def docViewed (plan : QueryPlan) : Circuit :=
  (docStored.addQuery Env.sample asWritten .sorted plan none "").1

/-- The rows of the view. -/
def shownUsers (c : Circuit) : ZSet := (c.views["q"]?).elim ∅ View.cache

/-- A row has a text in a field. -/
def Row.reads (row : Row) (field text : String) : Bool :=
  match row.value.get field with
  | some (.str s) => s == text
  | _ => false

theorem Row.reads_iff {row : Row} {field text : String} :
    row.reads field text = true ↔ row.value.get field = some (.str text) := by
  unfold Row.reads
  split
  next s hs => simp [hs]
  next hne =>
    refine iff_of_false (by simp) fun h => ?_
    exact hne text h

/-- The stored document has an author and a title. -/
def docReads (s : Store) (author title : String) : Bool :=
  (s.row "doc" "1").any fun row => row.reads "author" author && row.reads "title" title

/-- A document is found under its author on both sides of a step that edits its title. -/
theorem docTouched_changes {s s' : Store} {cache cache' : ZSet}
    (h : docReads s "user:1" "x" = true) (h' : docReads s' "user:1" "y" = true)
    (hc : "user:1" ∈ cache) (hc' : "user:1" ∈ cache') :
    ChildrenChanged authorInfo s s' cache cache' "user:1" := by
  simp only [docReads, Option.any_eq_true, Bool.and_eq_true, Row.reads_iff] at h h'
  obtain ⟨row, hrow, ha, ht⟩ := h
  obtain ⟨row', hrow', ha', ht'⟩ := h'
  refine ⟨"doc:1", .inr ⟨?_, ?_, "1", by decide +kernel, ?_⟩⟩
  · refine (rootClaims_forward (by decide)).mpr
      ⟨rfl, hc, ⟨"author", "id"⟩, "1", row, rfl, hrow, ha, ?_⟩
    decide +kernel
  · refine (rootClaims_forward (by decide)).mpr
      ⟨rfl, hc', ⟨"author", "id"⟩, "1", row', rfl, hrow', ha', ?_⟩
    decide +kernel
  · intro he
    rw [show authorInfo.table = "doc" from rfl, hrow, hrow', Option.some.injEq] at he
    rw [he, ht] at ht'
    exact absurd ht' (by simp)

/-- The author of a document stays in the view and is not published when the document is edited:
    the reviewer is its one recorded owner. -/
theorem precise_missed_author :
    let c := docViewed planReviewers
    let c' := (c.step Env.sample asWritten .sorted docTouched).1
    planReviewers.root.hasPreciseSubqueries = true ∧
      authorInfo ∈ planReviewers.root.subqueryProjectionInfo ∧
      "user:1" ∈ shownUsers c ∧ "user:1" ∈ shownUsers c' ∧
      ChildrenChanged authorInfo c.store c'.store (shownUsers c) (shownUsers c') "user:1" ∧
      ∀ d ∈ (c.step Env.sample asWritten .sorted docTouched).2, "user:1" ∉ d.updates := by
  intro c c'
  have hc : "user:1" ∈ shownUsers c := by decide +kernel
  have hc' : "user:1" ∈ shownUsers c' := by decide +kernel
  refine ⟨by decide +kernel, by decide +kernel, hc, hc', ?_, by decide +kernel⟩
  exact docTouched_changes (by decide +kernel) (by decide +kernel) hc hc'

/-- The graph and the view of the writers. -/
def writersGraph : Graph :=
  ((docViewed planWriters).graphs[Circuit.canonicalQueryId planWriters.id]?).get (by decide +kernel)

def writersView : View :=
  ((docViewed planWriters).views[Circuit.canonicalQueryId planWriters.id]?).get (by decide +kernel)

theorem plainChildren_one {s : Store}
    (h : ((s.collections["doc"]?).all fun c => c.rows.keys.all (· == "1")) = true) :
    PlainChildren authorInfo s := by
  intro id hid
  obtain ⟨row, hrow⟩ := Option.isSome_iff_exists.mp hid
  obtain ⟨c, hc, hrow⟩ := row_iff.mp hrow
  have hc : s.collections["doc"]? = some c := hc
  rw [hc, Option.all_some, List.all_eq_true] at h
  have hmem : id ∈ c.rows.keys := mem_keys_of_getElem? hrow
  obtain rfl : id = "1" := by simpa using h id hmem
  decide +kernel

/-- With the one projection the author is published. -/
theorem precise_complete_author :
    let p := phase1 Env.sample .sorted (docViewed planWriters) docTouched
    ∃ d, (stepQuery Env.sample .sorted p.circuit.store writersGraph writersView p.deltas
      p.content).2.2 = some d ∧ "user:1" ∈ d.updates := by
  have hids : PlainChildren authorInfo (docViewed planWriters).store :=
    plainChildren_one (by decide +kernel)
  have hids' : PlainChildren authorInfo
      (phase1 Env.sample .sorted (docViewed planWriters) docTouched).circuit.store :=
    plainChildren_one (by decide +kernel)
  have hone : ∀ s cache, PlainChildren authorInfo s → OneParent planWriters.root s cache :=
    fun s cache h => oneParent_single (by decide +kernel) (by decide) h
  have hg : (docViewed planWriters).graphs[Circuit.canonicalQueryId planWriters.id]? =
      some writersGraph := (Option.some_get _).symm
  have hv : (docViewed planWriters).views[Circuit.canonicalQueryId planWriters.id]? =
      some writersView := (Option.some_get _).symm
  have hrun : Reaches Env.sample asWritten (Circuit.canonicalQueryId planWriters.id)
      (OneParentStep Env.sample asWritten (Circuit.canonicalQueryId planWriters.id)
        planWriters.root) (docViewed planWriters) (docViewed planWriters) := .start
  obtain ⟨vd, hvd⟩ : ∃ vd, (stepGraph Env.sample .sorted
      (phase1 Env.sample .sorted (docViewed planWriters) docTouched).circuit.store
      writersView.params writersView.cache writersGraph
      (phase1 Env.sample .sorted (docViewed planWriters) docTouched).deltas
      (phase1 Env.sample .sorted (docViewed planWriters) docTouched).content).2 = some vd :=
    Option.isSome_iff_exists.mp (by decide +kernel)
  refine precise_complete Env.sample asWritten .sorted docStored planWriters none ""
    (by decide +kernel) (by decide +kernel) (fun v _ => hone _ _ hids) hrun hg hv .sorted
    docTouched vd hvd (hone _ _ hids') (by decide +kernel) hids hids'
    (fun h => absurd h (by decide)) ?_ ?_ (docTouched_changes ?_ ?_ ?_ ?_)
  all_goals decide +kernel

end Sp00ky.Ssp
