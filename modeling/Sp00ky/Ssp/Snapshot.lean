/-
  Reference evaluation of plans, and chains over one scan.

  `OperatorPlan.snapshot` evaluates a plan on a store with `Operator::snapshot`,
  node by node. A `RowChain` is a scan under filters and projections: it admits a
  row by its key and body alone (`admits`). On a graph that holds a chain, the
  main pass filters the table's delta, priming gives the snapshot, and a key
  evaluates to membership plus admission.
-/
import Sp00ky.Ssp.StepFacts

namespace Sp00ky.Ssp

open Std Lib

/-- The plan evaluated on a store, every node by its operator's snapshot. -/
def OperatorPlan.snapshot (env : Env) (store : Store) (ctx : Option Sp00kyValue) :
    OperatorPlan → ZSet
  | .scan table => (Operator.scan table).snapshot env [] store ctx
  | .filter input p => (Operator.filter p).snapshot env [input.snapshot env store ctx] store ctx
  | .join l r on => (Operator.join on ∅ ∅).snapshot env
      [l.snapshot env store ctx, r.snapshot env store ctx] store ctx
  | .semiJoin l r on => (Operator.semiJoin on .empty).snapshot env
      [l.snapshot env store ctx, r.snapshot env store ctx] store ctx
  | .antiJoin l r on => (Operator.antiJoin on .empty).snapshot env
      [l.snapshot env store ctx, r.snapshot env store ctx] store ctx
  | .union l r => Operator.union.snapshot env
      [l.snapshot env store ctx, r.snapshot env store ctx] store ctx
  | .distinct input => (Operator.distinct ∅).snapshot env [input.snapshot env store ctx] store ctx
  | .project input ps => (Operator.map ps).snapshot env [input.snapshot env store ctx] store ctx
  | .limit input lim start ob => (Operator.topK (TopK.new lim start ob)).snapshot env
      [input.snapshot env store ctx] store ctx

/-! ## Chains -/

/-- Filters and projections over a scan of `t`. -/
inductive RowChain (t : String) : OperatorPlan → Prop
  | scan : RowChain t (.scan t)
  | filter {input p} : RowChain t input → RowChain t (.filter input p)
  | project {input ps} : RowChain t input → RowChain t (.project input ps)

/-- Whether the filters of a chain admit a row. -/
def OperatorPlan.admits (key : String) (row : ValueRef) (ctx : Option Sp00kyValue) :
    OperatorPlan → Bool
  | .filter input p => input.admits key row ctx && p.eval key row ctx
  | .project input _ => input.admits key row ctx
  | _ => true

/-- Whether the filters of a chain admit the row behind a key, deleted rows included. -/
def OperatorPlan.admitsKey (plan : OperatorPlan) (store : Store) (ctx : Option Sp00kyValue)
    (key : String) : Bool :=
  plan.admits key (store.getRowByKeyOrDeleted key) ctx

/-- The table a source operator passes the changes of. -/
def Operator.sourceOf : Operator → Option String
  | .scan t => some t
  | .keyScan t _ => some t
  | .indexedScan bindings => bindings.head?.map IndexBinding.table
  | _ => none

/-- A chain at a position of the shape. Its source is any operator that passes the table's
    changes on: the scan itself, or what an index planner put in its place. -/
inductive ChainAt (sh : List (Operator × List Nat)) (t : String) : OperatorPlan → Nat → Prop
  | source {op i} : sh[i]? = some (op, []) → op.sourceOf = some t → ChainAt sh t (.scan t) i
  | filter {input p i j} : ChainAt sh t input j → sh[i]? = some (.filter p, [j]) →
      ChainAt sh t (.filter input p) i
  | project {input ps i j} : ChainAt sh t input j → sh[i]? = some (.map ps, [j]) →
      ChainAt sh t (.project input ps) i

theorem RowChain.chainAt {sh : List (Operator × List Nat)} {t : String} {plan : OperatorPlan}
    (hc : RowChain t plan) {i : Nat} (hb : Built sh plan i) : ChainAt sh t plan i := by
  induction hc generalizing i with
  | scan =>
    cases hb with
    | scan h => exact .source h rfl
  | filter _ ih =>
    cases hb with
    | filter hin h => exact .filter (ih hin) h
  | project _ ih =>
    cases hb with
    | project hin h => exact .project (ih hin) h

theorem ChainAt.rowChain {sh : List (Operator × List Nat)} {t : String} {plan : OperatorPlan}
    {i : Nat} (h : ChainAt sh t plan i) : RowChain t plan := by
  induction h with
  | source => exact .scan
  | filter _ _ ih => exact .filter ih
  | project _ _ ih => exact .project ih

theorem Operator.of_reset_source {op : Operator} {t : String} (h : op.reset.sourceOf = some t) :
    op.reset = op ∧ op.sourceOf = some t := by
  cases op <;> first | exact ⟨rfl, h⟩ | simp [Operator.reset, Operator.sourceOf] at h

theorem Operator.of_reset_scan {op : Operator} {t : String} (h : op.reset = .scan t) :
    op = .scan t := by
  cases op <;> simp_all [Operator.reset]

theorem Operator.of_reset_filter {op : Operator} {p : Predicate} (h : op.reset = .filter p) :
    op = .filter p := by
  cases op <;> simp_all [Operator.reset]

theorem Operator.of_reset_map {op : Operator} {ps : List Projection} (h : op.reset = .map ps) :
    op = .map ps := by
  cases op <;> simp_all [Operator.reset]

section Sources

variable {op : Operator} {t : String} (h : op.sourceOf = some t)

include h

theorem Operator.source_arity : op.arity = 0 := by
  cases op <;> first | rfl | simp [Operator.sourceOf] at h

theorem Operator.source_collections : op.collections.head? = some t := by
  cases op with
  | indexedScan bindings =>
    cases bindings with
    | nil => simp [Operator.sourceOf] at h
    | cons b bs => simpa [Operator.sourceOf, Operator.collections] using h
  | scan t' | keyScan t' key => simpa [Operator.sourceOf, Operator.collections] using h
  | _ => simp [Operator.sourceOf] at h

theorem Operator.source_note (keys : List String) : op.noteContentUpdates keys = op := by
  cases op <;> first | rfl | simp [Operator.sourceOf] at h

theorem Operator.source_step (env : Env) (ho : HashOrder) (delta : ZSet) (store : Store)
    (ctx : Option Sp00kyValue) : op.step env ho [delta] store ctx = (op, delta) := by
  cases op <;> first | rfl | simp [Operator.sourceOf] at h

theorem Operator.source_evaluateKey (env : Env) (key : String) (evals : List Bool) (store : Store)
    (ctx : Option Sp00kyValue) :
    op.evaluateKey env key evals store ctx = (store.getCollection t).any (·.hasKey key) := by
  cases op with
  | indexedScan bindings =>
    cases bindings with
    | nil => simp [Operator.sourceOf] at h
    | cons b bs =>
      obtain rfl : b.table = t := by simpa [Operator.sourceOf] using h
      rfl
  | scan t' | keyScan t' key =>
    obtain rfl : t' = t := by simpa [Operator.sourceOf] using h
    rfl
  | _ => simp [Operator.sourceOf] at h

end Sources

theorem RowChain.snapshot_eq {t : String} {plan : OperatorPlan} (hc : RowChain t plan) (env : Env)
    (store : Store) (ctx : Option Sp00kyValue) :
    plan.snapshot env store ctx =
      (store.held t).filter fun k _ => plan.admitsKey store ctx k := by
  induction hc with
  | scan => exact (filter_true _).symm
  | @filter input p _ ih =>
    rw [OperatorPlan.snapshot, ih]
    exact filter_filter _ _ _
  | project _ ih => exact ih

section Graphs

variable (env : Env) (ho : HashOrder) (store : Store) (ctx : Option Sp00kyValue) {g : Graph}
  {t : String} {plan : OperatorPlan} {i : Nat}

/-- The main pass filters the table's delta. -/
theorem ChainAt.steppedOut_eq (hc : ChainAt (shape g.nodes) t plan i) (hv : g.Valid)
    (deltas : TableDeltas) (keys : List String) :
    g.steppedOut env ho store ctx deltas keys i =
      (deltas.of t).filter fun k _ => plan.admitsKey store ctx k := by
  induction hc with
  | source hs hop =>
    obtain ⟨node, hn, rfl, -⟩ := node_of_shape hs
    obtain ⟨-, hsrc⟩ := Operator.of_reset_source hop
    obtain ⟨ins, -, h2, h3, -⟩ := stepped_node env ho store ctx hv deltas keys hn
    rw [h2, Operator.source_note hsrc, h3 (Operator.source_arity hsrc),
      Operator.source_collections hsrc, Operator.source_step hsrc]
    exact (filter_true _).symm
  | @filter input p i j hin hs ih =>
    obtain ⟨node, hn, hop, hins⟩ := node_of_shape hs
    have hop := Operator.of_reset_filter hop
    obtain ⟨ins, -, h2, h3⟩ := stepped_node_plain env ho store ctx hv deltas keys hn
      (by rw [hop]; simp [Operator.arity]) (by rw [hop]; simp [Operator.integratedInputWeight])
      (by rw [hop]; rfl)
    have hin0 : ins[0]?.getD ∅ = _ := h3 0 j (by rw [hins]; rfl)
    rw [h2, hop]
    simp only [Operator.step, hin0, ih]
    exact filter_filter _ _ _
  | @project input ps i j hin hs ih =>
    obtain ⟨node, hn, hop, hins⟩ := node_of_shape hs
    have hop := Operator.of_reset_map hop
    obtain ⟨ins, -, h2, h3⟩ := stepped_node_plain env ho store ctx hv deltas keys hn
      (by rw [hop]; simp [Operator.arity]) (by rw [hop]; simp [Operator.integratedInputWeight])
      (by rw [hop]; rfl)
    have hin0 : ins[0]?.getD ∅ = _ := h3 0 j (by rw [hins]; rfl)
    rw [h2, hop]
    simp only [Operator.step, hin0, ih]
    rfl

/-- Priming gives the snapshot. -/
theorem RowChain.primedOut_eq (hc : RowChain t plan) (hb : Built (shape g.nodes) plan i)
    (hv : g.Valid) : g.primedOut env ho store ctx i = plan.snapshot env store ctx := by
  induction hc generalizing i with
  | scan =>
    cases hb with
    | scan hs =>
      obtain ⟨node, hn, hop, -⟩ := node_of_shape hs
      have hop := Operator.of_reset_scan hop
      obtain ⟨ins, -, h2, h3, -⟩ := primed_node env ho store ctx hv hn
      rw [hop] at h2 h3
      rw [h2, h3 rfl]
      rfl
  | @filter input p hc ih =>
    cases hb with
    | filter hin hs =>
      obtain ⟨node, hn, hop, hins⟩ := node_of_shape hs
      have hop := Operator.of_reset_filter hop
      obtain ⟨ins, -, h2, -, h3⟩ := primed_node env ho store ctx hv hn
      rw [hop] at h2 h3
      have hin0 : ins[0]?.getD ∅ = _ := h3 (by simp [Operator.arity]) 0 _ (by rw [hins]; rfl)
      rw [h2]
      simp only [Operator.step, hin0, ih hin]
      rfl
  | project hc ih =>
    cases hb with
    | project hin hs =>
      obtain ⟨node, hn, hop, hins⟩ := node_of_shape hs
      have hop := Operator.of_reset_map hop
      obtain ⟨ins, -, h2, -, h3⟩ := primed_node env ho store ctx hv hn
      rw [hop] at h2 h3
      have hin0 : ins[0]?.getD ∅ = _ := h3 (by simp [Operator.arity]) 0 _ (by rw [hins]; rfl)
      rw [h2]
      simp only [Operator.step, hin0, ih hin]
      rfl

/-- A key evaluates to membership of the table and admission. -/
theorem ChainAt.evalAt_eq (hc : ChainAt (shape g.nodes) t plan i) (hv : g.Valid) (k : String) :
    g.evalAt env store ctx k i =
      ((store.getCollection t).any (·.hasKey k) && plan.admitsKey store ctx k) := by
  induction hc with
  | source hs hop =>
    obtain ⟨node, hn, rfl, -⟩ := node_of_shape hs
    obtain ⟨-, hsrc⟩ := Operator.of_reset_source hop
    rw [evalAt_node env store ctx hv hn, Operator.source_evaluateKey hsrc]
    exact (Bool.and_true _).symm
  | @filter input p i j hin hs ih =>
    obtain ⟨node, hn, hop, hins⟩ := node_of_shape hs
    rw [evalAt_node env store ctx hv hn, Operator.of_reset_filter hop, hins]
    simp only [Operator.evaluateKey, List.map_cons, List.map_nil, List.headD_cons, ih,
      OperatorPlan.admitsKey, OperatorPlan.admits, checkPredicate, Bool.and_assoc]
  | @project input ps i j hin hs ih =>
    obtain ⟨node, hn, hop, hins⟩ := node_of_shape hs
    rw [evalAt_node env store ctx hv hn, Operator.of_reset_map hop, hins]
    simp only [Operator.evaluateKey, List.map_cons, List.map_nil, List.headD_cons, ih]
    rfl

end Graphs

/-! ## Chains by row -/

/-- Whether a chain's output holds a record, given the record's row. -/
def OperatorPlan.holdsRow (plan : OperatorPlan) (ctx : Option Sp00kyValue) (key : String)
    (row : Option Row) : Bool :=
  row.any fun r => plan.admits key (some r.value) ctx

section Rows

variable {env : Env} {store : Store} {ctx : Option Sp00kyValue} {t : String} {plan : OperatorPlan}

theorem getRowByKeyOrDeleted_of_row (ht : ColonFree t) {id : String} {r : Row}
    (h : store.row t id = some r) :
    store.getRowByKeyOrDeleted (t ++ ":" ++ id) = some r.value := by
  rw [Store.getRowByKeyOrDeleted, getRowByKey_join ht, h]

theorem RowChain.snapshot_join (hc : RowChain t plan) (ht : ColonFree t) (id : String) :
    (plan.snapshot env store ctx)[t ++ ":" ++ id]? =
      if plan.holdsRow ctx (t ++ ":" ++ id) (store.row t id) then some 1 else none := by
  rw [hc.snapshot_eq, ExtTreeMap.getElem?_filter', held_join]
  cases hr : store.row t id with
  | none => rfl
  | some r =>
    simp only [Option.isSome_some, if_true, Option.filter, OperatorPlan.admitsKey,
      getRowByKeyOrDeleted_of_row ht hr, OperatorPlan.holdsRow, Option.any_some]
    rfl

theorem RowChain.snapshot_other (hc : RowChain t plan) {k : String}
    (hk : ∀ id, k ≠ t ++ ":" ++ id) : (plan.snapshot env store ctx)[k]? = none := by
  rw [hc.snapshot_eq, ExtTreeMap.getElem?_filter']
  rcases held_getElem? (s := store) (t := t) k with ⟨-, id, -, he⟩ | ⟨h, -⟩
  · exact absurd he (hk id)
  · rw [h]
    rfl

theorem RowChain.snapshot_ext (hc : RowChain t plan) (ht : ColonFree t) {z : ZSet}
    (hrow : ∀ id, z[t ++ ":" ++ id]? =
      if plan.holdsRow ctx (t ++ ":" ++ id) (store.row t id) then some 1 else none)
    (hother : ∀ k : String, (∀ id, k ≠ t ++ ":" ++ id) → z[k]? = none) :
    z = plan.snapshot env store ctx := by
  refine ExtTreeMap.ext_getElem? fun k => ?_
  by_cases hk : ∃ id, k = t ++ ":" ++ id
  · obtain ⟨id, rfl⟩ := hk
    rw [hrow, hc.snapshot_join ht]
  · rw [hother k (fun id he => hk ⟨id, he⟩), hc.snapshot_other fun id he => hk ⟨id, he⟩]

theorem RowChain.snapshot_congr (hc : RowChain t plan) (ht : ColonFree t) {s s' : Store}
    (h : ∀ id, s'.row t id = s.row t id) :
    plan.snapshot env s' ctx = plan.snapshot env s ctx := by
  refine hc.snapshot_ext ht ?_ ?_
  · intro id
    rw [hc.snapshot_join ht, h]
  · intro k hk
    exact hc.snapshot_other hk

theorem RowChain.snapshot_binary (hc : RowChain t plan) :
    (plan.snapshot env store ctx).Binary := by
  intro k
  rw [hc.snapshot_eq, ExtTreeMap.getElem?_filter']
  rcases held_getElem? (s := store) (t := t) k with ⟨h, -⟩ | ⟨h, -⟩
  · rw [h]
    simp only [Option.filter]
    split
    · exact .inr rfl
    · exact .inl rfl
  · rw [h]
    exact .inl rfl

theorem ChainAt.evalAt_join {g : Graph} {i : Nat} (hc : ChainAt (shape g.nodes) t plan i)
    (hv : g.Valid) (ht : ColonFree t) (id : String) :
    g.evalAt env store ctx (t ++ ":" ++ id) i =
      plan.holdsRow ctx (t ++ ":" ++ id) (store.row t id) := by
  rw [hc.evalAt_eq env store ctx hv, any_hasKey ht]
  cases hr : store.row t id with
  | none => rfl
  | some r =>
    simp only [Option.isSome_some, Bool.true_and, OperatorPlan.admitsKey,
      getRowByKeyOrDeleted_of_row ht hr, OperatorPlan.holdsRow, Option.any_some]

end Rows

theorem mem_contentKeys {ho : HashOrder} {cu : ContentUpdates} {k : String} :
    k ∈ contentKeys ho cu ↔ ∃ t, k ∈ cu.of t := by
  unfold contentKeys ContentUpdates.of
  rw [List.mem_flatMap]
  constructor
  · rintro ⟨t, -, h⟩
    exact ⟨t, h⟩
  · rintro ⟨t, h⟩
    refine ⟨t, ?_, h⟩
    rw [mem_visit, ExtTreeMap.mem_keys, ExtTreeMap.mem_iff_isSome_getElem?]
    cases hc : cu[t]? with
    | none => simp [hc] at h
    | some l => rfl

/-- Updates of one table only. -/
theorem mem_contentKeys_single {ho : HashOrder} {cu : ContentUpdates} {t : String}
    (h : ∀ u, u ≠ t → cu.of u = []) (k : String) : k ∈ contentKeys ho cu ↔ k ∈ cu.of t := by
  rw [mem_contentKeys]
  constructor
  · rintro ⟨u, hu⟩
    by_cases hut : u = t
    · rwa [hut] at hu
    · rw [h u hut] at hu
      cases hu
  · exact fun hk => ⟨t, hk⟩

end Sp00ky.Ssp
