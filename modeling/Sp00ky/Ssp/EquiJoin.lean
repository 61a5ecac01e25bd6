/-
  Equi-join views (`operator/join.rs`).

  The join integrates keys and weights and reads join values from the store after the
  change. With `joinWeight`, the number of partners of a value, the output of a step
  is bilinear (`joinStep_weight`), and the two integrated sides are the memberships of
  the two tables in every reachable state. What a step can get wrong is the values: a
  deleted row has none any more, an updated row emits no delta, and the re-evaluation
  answers `false` for every key of a join. `KeepsJoin` says which changes that leaves
  unharmed; the view stays exact under exactly these (`equiJoin_exact`).
-/
import Mathlib.Algebra.BigOperators.Group.List.Basic
import Sp00ky.Ssp.Batch
import Sp00ky.Ssp.OneChange

namespace Sp00ky.Ssp

open Std Lib

/-! ## The weight of a join -/

section Weights

variable (env : Env) (on : JoinCondition) (store : Store)

/-- The weight of the partners of a left value. -/
def joinWeight (right : ZSet) (l : ValueRef) : Int :=
  (right.toList.map fun rw =>
    if joinMatches env l (joinField store on.rightField rw.1) then rw.2 else 0).sum

theorem joinWeight_empty (l : ValueRef) : joinWeight env on store ∅ l = 0 := by
  rw [joinWeight, ExtTreeMap.toList_eq_nil_iff.mpr rfl]
  rfl

theorem joinTotal_eq (lw : Int) (l : ValueRef) (rows : List (String × Int)) (acc : Int) :
    rows.foldl (fun acc rw => if joinMatches env l (joinField store on.rightField rw.1) then
        acc + lw * rw.2 else acc) acc =
      acc + lw * (rows.map fun rw =>
        if joinMatches env l (joinField store on.rightField rw.1) then rw.2 else 0).sum := by
  induction rows generalizing acc with
  | nil => simp
  | cons rw rows ih =>
    rw [List.foldl_cons, ih, List.map_cons, List.sum_cons]
    split
    next => rw [Int.mul_add, Int.add_assoc]
    next => rw [Int.zero_add]

theorem getElem?_hashJoin (left right : ZSet) (k : String) :
    (hashJoin env left right on store)[k]? = left[k]?.bind fun lw =>
      let w := lw * joinWeight env on store right (joinField store on.leftField k)
      if w = 0 then none else some w := by
  rw [hashJoin, ExtTreeMap.getElem?_filterMap']
  cases left[k]? with
  | none => rfl
  | some lw =>
    simp only [Option.bind_some, joinTotal_eq, Int.zero_add]
    rfl

theorem hashJoin_noZero (left right : ZSet) : (hashJoin env left right on store).NoZero := by
  intro k
  rw [getElem?_hashJoin]
  cases left[k]? with
  | none => simp
  | some lw =>
    dsimp only [Option.bind_some]
    split
    next => simp
    next h => simpa using h

theorem hashJoin_weight (left right : ZSet) (k : String) :
    (hashJoin env left right on store).weight k =
      left.weight k * joinWeight env on store right (joinField store on.leftField k) := by
  rw [ZSet.weight, getElem?_hashJoin, ZSet.weight]
  cases left[k]? with
  | none => simp
  | some lw =>
    dsimp only [Option.bind_some, Option.getD_some]
    split
    next h => rw [h]; rfl
    next => rfl

/-- The output of a join step. -/
def joinDelta (ls rs da db : ZSet) : ZSet :=
  ((hashJoin env da rs on store).add (hashJoin env ls db on store)).add
    (hashJoin env da db on store)

theorem joinDelta_noZero (ls rs da db : ZSet) : (joinDelta env on store ls rs da db).NoZero :=
  ((hashJoin_noZero env on store _ _).add _).add _

/-- The three terms together: the left delta against the old right side, and the new left side
    against the right delta. -/
theorem joinDelta_weight (ls rs da db : ZSet) (k : String) :
    let l := joinField store on.leftField k
    (joinDelta env on store ls rs da db).weight k =
      da.weight k * joinWeight env on store rs l +
        (ls.add da).weight k * joinWeight env on store db l := by
  intro l
  rw [joinDelta, ZSet.weight_add, ZSet.weight_add, hashJoin_weight, hashJoin_weight,
    hashJoin_weight, ZSet.weight_add, Int.add_mul, Int.add_assoc]

theorem ZSet.empty_add {z : ZSet} (h : z.NoZero) : (∅ : ZSet).add z = z := by
  have hempty : (∅ : ZSet).NoZero := fun k => by simp
  refine ZSet.ext_weight (hempty.add z) h fun k => ?_
  rw [ZSet.weight_add]
  simp [ZSet.weight]

theorem ZSet.add_empty (z : ZSet) : z.add ∅ = z := by
  refine ExtTreeMap.ext_getElem? fun k => ?_
  rw [ZSet.getElem?_add]
  simp

/-- The first step of a fresh join is its snapshot. -/
theorem joinDelta_start (da db : ZSet) :
    joinDelta env on store ∅ ∅ da db = hashJoin env da db on store := by
  refine ZSet.ext_weight (joinDelta_noZero env on store _ _ _ _) (hashJoin_noZero env on store _ _)
    fun k => ?_
  rw [joinDelta_weight, hashJoin_weight, joinWeight_empty, ZSet.weight_add]
  simp [ZSet.weight]

theorem joinWeight_missing (right : ZSet) : joinWeight env on store right none = 0 := by
  have hm : ∀ r, joinMatches env none r = false := fun _ => rfl
  simp [joinWeight, hm]

/-- Against a set, the weight counts the partners. -/
theorem joinWeight_pos {right : ZSet} (hb : right.Binary) (l : ValueRef) :
    0 ≤ joinWeight env on store right l ∧
      (0 < joinWeight env on store right l ↔
        ∃ k, right[k]? = some 1 ∧ joinMatches env l (joinField store on.rightField k) = true) := by
  have hone : ∀ rw ∈ right.toList, rw.2 = 1 := by
    rintro ⟨k, w⟩ hk
    have hk := ExtTreeMap.mem_toList_iff_getElem?_eq_some.mp hk
    rcases hb k with h | h
    · rw [h] at hk
      cases hk
    · rw [h] at hk
      exact (Option.some.inj hk).symm
  have hcount : ∀ rows : List (String × Int), (∀ rw ∈ rows, rw.2 = 1) →
      (rows.map fun rw =>
        if joinMatches env l (joinField store on.rightField rw.1) then rw.2 else 0).sum =
      (rows.countP fun rw => joinMatches env l (joinField store on.rightField rw.1) : Nat) := by
    intro rows hrows
    induction rows with
    | nil => rfl
    | cons rw rows ih =>
      rw [List.map_cons, List.sum_cons, ih (List.forall_mem_cons.mp hrows).2,
        List.countP_cons, hrows rw List.mem_cons_self]
      split <;> omega
  rw [joinWeight, hcount right.toList hone]
  refine ⟨by omega, ?_⟩
  rw [Int.natCast_pos, List.countP_pos_iff]
  constructor
  · rintro ⟨⟨k, w⟩, hk, hm⟩
    have hw : w = 1 := hone _ hk
    subst hw
    exact ⟨k, ExtTreeMap.mem_toList_iff_getElem?_eq_some.mp hk, hm⟩
  · rintro ⟨k, hk, hm⟩
    exact ⟨(k, 1), ExtTreeMap.mem_toList_iff_getElem?_eq_some.mpr hk, hm⟩

theorem joinWeight_single {right : ZSet} {key : String} {w : Int}
    (h : ∀ k : String, right[k]? = if k = key then some w else none) (l : ValueRef) :
    joinWeight env on store right l =
      if joinMatches env l (joinField store on.rightField key) then w else 0 := by
  have hk : right[key]? = some w := by rw [h, if_pos rfl]
  have he : right.erase key = ∅ := by
    refine ExtTreeMap.ext_getElem? fun k => ?_
    rw [ExtTreeMap.getElem?_erase, h]
    by_cases hkk : k = key
    · simp [hkk]
    · simp [hkk]
  rw [joinWeight, ((toList_perm_erase hk).map _).sum_eq, he,
    ExtTreeMap.toList_eq_nil_iff.mpr rfl]
  simp

end Weights

/-! ## The graph of a join view -/

/-- The plans `Filter?(Join(Scan t, Scan u))`. -/
def equiJoin (t u : String) (on : JoinCondition) : Option Predicate → OperatorPlan
  | none => .join (.scan t) (.scan u) on
  | some p => .filter (.join (.scan t) (.scan u) on) p

/-- The output is the join, or the filter over it. -/
def TailAt (sh : List (Operator × List Nat)) (filt : Option Predicate) (n out : Nat) : Prop :=
  match filt with
  | none => out = n
  | some p => sh[out]? = some (.filter p, [n])

/-- The graph of a join view: scans, the join that has integrated the two tables, the filter. -/
structure JoinGraph (t u : String) (on : JoinCondition) (filt : Option Predicate) (s : Store)
    (g : Graph) (n : Nat) : Prop where
  valid : g.Valid
  plain : Plain g.nodes
  join : ∃ a b node, ChainAt (shape g.nodes) t (.scan t) a ∧ ChainAt (shape g.nodes) u (.scan u) b ∧
    g.nodes[n]? = some node ∧ node.operator = .join on (s.held t) (s.held u) ∧ node.inputs = [a, b]
  tail : TailAt (shape g.nodes) filt n g.outputNode

/-- Whether the filter above the join admits a key. -/
def tailAdmits (filt : Option Predicate) (store : Store) (ctx : Option Sp00kyValue) (k : String) :
    Bool :=
  filt.all fun p => checkPredicate p k store ctx

section Graphs

variable (env : Env) (ho : HashOrder) (store : Store) (ctx : Option Sp00kyValue) {t u : String}
  {on : JoinCondition} {filt : Option Predicate} {s : Store} {g : Graph} {n : Nat}

/-- The output of the graph is the join's, filtered. -/
theorem TailAt.steppedOut (hv : g.Valid) (ht : TailAt (shape g.nodes) filt n g.outputNode)
    (deltas : TableDeltas) (keys : List String) (k : String) :
    (g.steppedOut env ho store ctx deltas keys g.outputNode)[k]? =
      if tailAdmits filt store ctx k then (g.steppedOut env ho store ctx deltas keys n)[k]?
      else none := by
  cases filt with
  | none =>
    have ht : g.outputNode = n := ht
    rw [ht]
    simp [tailAdmits]
  | some p =>
    obtain ⟨node, hn, hop, hins⟩ := node_of_shape ht
    have hop := Operator.of_reset_filter hop
    obtain ⟨ins, -, h2, h3⟩ := stepped_node_plain env ho store ctx hv deltas keys hn
      (by rw [hop]; simp [Operator.arity]) (by rw [hop]; simp [Operator.integratedInputWeight])
      (by rw [hop]; rfl)
    have hin0 : ins[0]?.getD ∅ = _ := h3 0 n (by rw [hins]; rfl)
    rw [h2, hop]
    simp only [Operator.step, hin0, tailAdmits, Option.all_some]
    exact getElem?_filter_key _ _ _

/-- Every key evaluates to `false`. -/
theorem JoinGraph.evalAt (h : JoinGraph t u on filt s g n) (k : String) :
    g.evalAt env store ctx k g.outputNode = false := by
  obtain ⟨a, b, node, -, -, hn, hop, hins⟩ := h.join
  have hj : g.evalAt env store ctx k n = false := by
    rw [evalAt_node env store ctx h.valid hn, hop]
    rfl
  have ht := h.tail
  cases filt with
  | none =>
    have ht : g.outputNode = n := ht
    rw [ht]
    exact hj
  | some p =>
    obtain ⟨node', hn', hop', hins'⟩ := node_of_shape ht
    rw [evalAt_node env store ctx h.valid hn', Operator.of_reset_filter hop', hins']
    simp [Operator.evaluateKey, hj]

/-- A step of the join: its output, and the two sides after it. -/
theorem JoinGraph.stepped (h : JoinGraph t u on filt s g n) {s' : Store} {deltas : TableDeltas}
    (hl : (s.held t).add (deltas.of t) = s'.held t) (hr : (s.held u).add (deltas.of u) = s'.held u)
    (keys : List String) :
    JoinGraph t u on filt s' (g.stepped env ho store ctx deltas keys) n ∧
      g.steppedOut env ho store ctx deltas keys n =
        joinDelta env on store (s.held t) (s.held u) (deltas.of t) (deltas.of u) := by
  obtain ⟨a, b, node, hca, hcb, hn, hop, hins⟩ := h.join
  have hshape := stepped_sameShape env ho store ctx h.valid deltas keys
  obtain ⟨ins, h1, h2, h3⟩ := stepped_node_plain env ho store ctx h.valid deltas keys hn
    (by rw [hop]; simp [Operator.arity]) (by rw [hop]; simp [Operator.integratedInputWeight])
    (by rw [hop]; rfl)
  have hin0 : ins[0]?.getD ∅ = deltas.of t := by
    rw [h3 0 a (by rw [hins]; rfl), hca.steppedOut_eq env ho store ctx h.valid]
    exact filter_true _
  have hin1 : ins[1]?.getD ∅ = deltas.of u := by
    rw [h3 1 b (by rw [hins]; rfl), hcb.steppedOut_eq env ho store ctx h.valid]
    exact filter_true _
  refine ⟨⟨hshape.valid h.valid, hshape.plain h.plain, ?_, ?_⟩, ?_⟩
  · rw [hop] at h1
    simp only [Operator.step, hin0, hin1, hl, hr] at h1
    refine ⟨a, b, _, ?_, ?_, h1, rfl, hins⟩
    · rw [hshape.shape]
      exact hca
    · rw [hshape.shape]
      exact hcb
  · rw [hshape.shape, hshape.out]
    exact h.tail
  · rw [h2, hop]
    simp only [Operator.step, hin0, hin1]
    rfl

theorem Graph.fromPlanWith_equiJoin (planner : IndexPlanner) :
    Graph.fromPlanWith (equiJoin t u on filt) planner = Graph.fromPlan (equiJoin t u on filt) := by
  cases filt with
  | none => rfl
  | some p => rfl

theorem equiJoin_unlimited : (equiJoin t u on filt).unlimited = true := by
  cases filt <;> rfl

theorem Built.equiJoin {sh : List (Operator × List Nat)} {out : Nat}
    (h : Built sh (equiJoin t u on filt) out) :
    ∃ n a b, Built sh (.scan t) a ∧ Built sh (.scan u) b ∧
      sh[n]? = some (.join on ∅ ∅, [a, b]) ∧ TailAt sh filt n out := by
  cases filt with
  | none =>
    cases h with
    | join hl hr hs => exact ⟨_, _, _, hl, hr, hs, rfl⟩
  | some p =>
    cases h with
    | filter hj hf =>
      cases hj with
      | join hl hr hs => exact ⟨_, _, _, hl, hr, hs, hf⟩

variable (t u on filt) in
/-- The graph of a join plan after priming, and what it shows. -/
theorem joinGraph_primed :
    ∃ n, JoinGraph t u on filt store
        (primeGraph env ho (Graph.fromPlan (equiJoin t u on filt)) store ctx).1 n ∧
      (primeGraph env ho (Graph.fromPlan (equiJoin t u on filt)) store ctx).2 =
        some ((equiJoin t u on filt).snapshot env store ctx) := by
  have hv : (Graph.fromPlan (equiJoin t u on filt)).Valid := Graph.fromPlanWith_valid _ _
  have hshape := primeGraph_sameShape env ho store ctx hv
  obtain ⟨n, a, b, hba, hbb, hs, htail⟩ :=
    (Graph.fromPlan_built (equiJoin t u on filt)).equiJoin
  obtain ⟨node, hn, -, hins⟩ := node_of_shape hs
  -- a fresh join has integrated nothing
  have hop : node.operator = .join on ∅ ∅ := by
    have hfresh := buildNode_fresh (equiJoin t u on filt) [] (by intro x hx; cases hx) node
      (List.mem_of_getElem? hn)
    rw [← hfresh]
    rw [shape_getElem?, hn, Option.map_some, Option.some.injEq, Prod.mk.injEq] at hs
    exact hs.1
  obtain ⟨ins, h1, h2, -, h3⟩ := primed_node env ho store ctx hv hn
  have harity : node.operator.arity ≠ 0 := by rw [hop]; simp [Operator.arity]
  have hin0 : ins[0]?.getD ∅ = store.held t := by
    rw [h3 harity 0 a (by rw [hins]; rfl)]
    exact RowChain.scan.primedOut_eq env ho store ctx hba hv
  have hin1 : ins[1]?.getD ∅ = store.held u := by
    rw [h3 harity 1 b (by rw [hins]; rfl)]
    exact RowChain.scan.primedOut_eq env ho store ctx hbb hv
  have hjoin : (Graph.fromPlan (equiJoin t u on filt)).primedOut env ho store ctx n =
      hashJoin env (store.held t) (store.held u) on store := by
    rw [h2, hop]
    simp only [Operator.step, hin0, hin1]
    exact joinDelta_start env on store _ _
  refine ⟨n, ⟨hshape.valid hv, hshape.plain (Graph.fromPlan_plain equiJoin_unlimited), ?_, ?_⟩, ?_⟩
  · rw [hop] at h1
    simp only [Operator.step, hin0, hin1, ZSet.empty_add held_noZero] at h1
    refine ⟨a, b, _, ?_, ?_, h1, rfl, hins⟩
    · rw [hshape.shape]
      exact RowChain.scan.chainAt hba
    · rw [hshape.shape]
      exact RowChain.scan.chainAt hbb
  · rw [hshape.shape, hshape.out]
    exact htail
  · rw [primed_out env ho store ctx hv, Option.some.injEq]
    cases filt with
    | none =>
      have htail : (Graph.fromPlan (equiJoin t u on none)).outputNode = n := htail
      rw [htail, hjoin]
      rfl
    | some p =>
      obtain ⟨node', hn', hop', hins'⟩ := node_of_shape htail
      have hop' := Operator.of_reset_filter hop'
      obtain ⟨ins', -, h2', -, h3'⟩ := primed_node env ho store ctx hv hn'
      have hin' : ins'[0]?.getD ∅ = _ :=
        h3' (by rw [hop']; simp [Operator.arity]) 0 n (by rw [hins']; rfl)
      rw [h2', hop']
      simp only [Operator.step, hin', hjoin]
      rfl

end Graphs

/-! ## The rows of a join view -/

/-- The row `t:id` is in the view: the filter admits it and it has a partner. -/
def JoinShown (env : Env) (t u : String) (on : JoinCondition) (filt : Option Predicate)
    (ctx : Option Sp00kyValue) (s : Store) (id : String) : Prop :=
  ∃ r, s.row t id = some r ∧
    (filt.all fun p => p.eval (t ++ ":" ++ id) (some r.value) ctx) = true ∧
    ∃ j r', s.row u j = some r' ∧
      joinMatches env (resolveField (some r.value) on.leftField)
        (resolveField (some r'.value) on.rightField) = true

section Rows

variable {env : Env} {t u : String} {on : JoinCondition} {filt : Option Predicate}
  {ctx : Option Sp00kyValue} {s : Store}

theorem joinField_row (ht : ColonFree t) {id : String} {r : Row} (hr : s.row t id = some r)
    (field : Path) : joinField s field (t ++ ":" ++ id) = resolveField (some r.value) field := by
  rw [joinField, getRowByKey_join ht, hr]

theorem joinField_missing (ht : ColonFree t) (hp : PlainIds s t) {id : String}
    (hr : s.row t id = none) (field : Path) : joinField s field (t ++ ":" ++ id) = none := by
  rw [joinField, getRowByKey_plain ht hp, hr]
  rfl

theorem tailAdmits_row (ht : ColonFree t) {id : String} {r : Row} (hr : s.row t id = some r) :
    tailAdmits filt s ctx (t ++ ":" ++ id) =
      filt.all fun p => p.eval (t ++ ":" ++ id) (some r.value) ctx := by
  unfold tailAdmits checkPredicate
  rw [getRowByKeyOrDeleted_of_row ht hr]

/-- The partners of a row, counted in the store. -/
theorem joinWeight_held_pos (hu : ColonFree u) (l : ValueRef) :
    0 < joinWeight env on s (s.held u) l ↔ ∃ j r', s.row u j = some r' ∧
      joinMatches env l (resolveField (some r'.value) on.rightField) = true := by
  rw [(joinWeight_pos env on s held_binary l).2]
  constructor
  · rintro ⟨k, hk, hm⟩
    rcases held_getElem? (s := s) (t := u) k with ⟨-, j, hj, rfl⟩ | ⟨hn, -⟩
    · obtain ⟨r', hr'⟩ := Option.isSome_iff_exists.mp hj
      exact ⟨j, r', hr', by rwa [joinField_row hu hr'] at hm⟩
    · rw [hn] at hk
      cases hk
  · rintro ⟨j, r', hr', hm⟩
    refine ⟨u ++ ":" ++ j, ?_, by rwa [joinField_row hu hr']⟩
    rw [held_join, hr']
    rfl

theorem getElem?_equiJoin_snapshot (k : String) :
    ((equiJoin t u on filt).snapshot env s ctx)[k]? =
      if tailAdmits filt s ctx k then (hashJoin env (s.held t) (s.held u) on s)[k]? else none := by
  cases filt with
  | none =>
    simp only [tailAdmits, Option.all_none, if_true]
    rfl
  | some p =>
    simp only [tailAdmits, Option.all_some]
    exact getElem?_filter_key _ (fun k => checkPredicate p k s ctx) _

/-- The support of the snapshot holds exactly the shown rows. -/
theorem equiJoin_snapshot (ht : ColonFree t) (hu : ColonFree u) (k : String) :
    (threshold ((equiJoin t u on filt).snapshot env s ctx))[k]? = some 1 ↔
      ∃ id, k = t ++ ":" ++ id ∧ JoinShown env t u on filt ctx s id := by
  rw [threshold, ExtTreeMap.getElem?_filterMap', getElem?_equiJoin_snapshot]
  rcases held_getElem? (s := s) (t := t) k with ⟨hk, id, hid, rfl⟩ | ⟨hk, hno⟩
  · obtain ⟨r, hr⟩ := Option.isSome_iff_exists.mp hid
    rw [getElem?_hashJoin, hk, tailAdmits_row ht hr, joinField_row ht hr]
    simp only [Option.bind_some, Int.one_mul]
    have hpos : 0 < joinWeight env on s (s.held u) (resolveField (some r.value) on.leftField) ↔ _ :=
      joinWeight_held_pos hu _
    have hnn := (joinWeight_pos env on s (held_binary (s := s) (t := u))
      (resolveField (some r.value) on.leftField)).1
    generalize joinWeight env on s (s.held u) (resolveField (some r.value) on.leftField) = w at *
    have hshown : JoinShown env t u on filt ctx s id ↔
        (filt.all fun p => p.eval (t ++ ":" ++ id) (some r.value) ctx) = true ∧ 0 < w := by
      rw [hpos]
      constructor
      · rintro ⟨r1, hr1, hf, hm⟩
        rw [hr] at hr1
        cases hr1
        exact ⟨hf, hm⟩
      · rintro ⟨hf, hm⟩
        exact ⟨r, hr, hf, hm⟩
    have hid' : (∃ id', t ++ ":" ++ id = t ++ ":" ++ id' ∧ JoinShown env t u on filt ctx s id') ↔
        JoinShown env t u on filt ctx s id := by
      constructor
      · rintro ⟨id', he, h⟩
        rwa [join_injective he]
      · exact fun h => ⟨id, rfl, h⟩
    rw [hid', hshown]
    by_cases hf : (filt.all fun p => p.eval (t ++ ":" ++ id) (some r.value) ctx) = true
    · by_cases hw : w = 0
      · simp [hf, hw]
      · have : 0 < w := by omega
        simp [hf, hw, this]
    · simp [hf]
  · rw [getElem?_hashJoin, hk]
    constructor
    · intro h
      simp at h
    · rintro ⟨id, rfl, r, hr, -⟩
      exact absurd rfl (hno id (by rw [hr]; rfl))

/-- Whether a row is shown depends on the row and on the rows of the other table. -/
theorem JoinShown.congr {s' : Store} {id : String} (hl : s'.row t id = s.row t id)
    (hr : ∀ j, s'.row u j = s.row u j) :
    JoinShown env t u on filt ctx s' id ↔ JoinShown env t u on filt ctx s id := by
  unfold JoinShown
  simp only [hl, hr]

end Rows

/-! ## One step -/

/-- The change of the row `table:id` does a join view no harm. A left row that is deleted was
    not shown, one that is rewritten is not shown afterwards, and a right row that is deleted or
    rewritten leaves shown what was shown. -/
def KeepsJoin (env : Env) (t u : String) (on : JoinCondition) (filt : Option Predicate)
    (ctx : Option Sp00kyValue) (s s' : Store) (table id : String) : Prop :=
  (table = t → (s.row t id).isSome → s'.row t id ≠ s.row t id →
    if (s'.row t id).isSome then ¬ JoinShown env t u on filt ctx s' id
    else ¬ JoinShown env t u on filt ctx s id) ∧
  (table = u → (s.row u id).isSome → ∀ i,
    JoinShown env t u on filt ctx s i ↔ JoinShown env t u on filt ctx s' i)

/-- The cache holds the shown rows. -/
def ShowsJoin (env : Env) (t u : String) (on : JoinCondition) (filt : Option Predicate)
    (ctx : Option Sp00kyValue) (s : Store) (cache : ZSet) : Prop :=
  cache = threshold ((equiJoin t u on filt).snapshot env s ctx)

section Step

variable {env : Env} {ho : HashOrder} {t u : String} {on : JoinCondition}
  {filt : Option Predicate} {ctx : Option Sp00kyValue} {s s' : Store} {table id : String}
  {deltas : TableDeltas} {keys : List String}

theorem threshold_binary (z : ZSet) : (threshold z).Binary := by
  intro k
  rw [threshold, ExtTreeMap.getElem?_filterMap']
  cases z[k]? with
  | none => exact .inl rfl
  | some w =>
    by_cases hw : 0 < w
    · exact .inr (by simp [hw])
    · exact .inl (by simp [hw])

theorem applyDelta_threshold (z : ZSet) : View.applyDelta ∅ z = threshold z := by
  refine ExtTreeMap.ext_getElem? fun k => ?_
  rw [getElem?_applyDelta, threshold, ExtTreeMap.getElem?_filterMap']
  cases z[k]? with
  | none => simp
  | some w => simp [ZSet.weight]

theorem showsJoin_iff (ht : ColonFree t) (hu : ColonFree u) {cache : ZSet} (hb : cache.Binary) :
    ShowsJoin env t u on filt ctx s cache ↔ ∀ k : String, cache[k]? = some 1 ↔
      ∃ i, k = t ++ ":" ++ i ∧ JoinShown env t u on filt ctx s i := by
  constructor
  · rintro rfl k
    exact equiJoin_snapshot ht hu k
  · intro h
    refine ExtTreeMap.ext_getElem? fun k => ?_
    have hk := (h k).trans (equiJoin_snapshot ht hu k).symm
    rcases hb k with h1 | h1 <;> rcases threshold_binary
      ((equiJoin t u on filt).snapshot env s ctx) k with h2 | h2
    · rw [h1, h2]
    · rw [h1, h2] at hk
      simp at hk
    · rw [h1, h2] at hk
      simp at hk
    · rw [h1, h2]

variable (env on)
variable (ht : ColonFree t) (hu : ColonFree u) (htu : t ≠ u)
  (h : OneChange s s' table id deltas keys)

include ht hu htu h

/-- The output of the join at a left row: a created left row brings all its partners, a created
    right row is one more partner, and nothing else is seen. -/
theorem joinDelta_cases (hpt : PlainIds s' t) (hpu : PlainIds s' u) (i : String) :
    let w := (joinDelta env on s' (s.held t) (s.held u) (deltas.of t) (deltas.of u)).weight
      (t ++ ":" ++ i)
    let l := joinField s' on.leftField (t ++ ":" ++ i)
    w = if table = t ∧ i = id ∧ (s.row t id) = none then
        presence (s'.row t id) * joinWeight env on s' (s'.held u) l
      else if table = u ∧ (s.row u id) = none ∧
          joinMatches env l (joinField s' on.rightField (u ++ ":" ++ id)) = true then
        presence (s'.row t i) * presence (s'.row u id)
      else 0 := by
  intro w l
  have hw : w = (deltas.of t).weight (t ++ ":" ++ i) * joinWeight env on s' (s.held u) l +
      presence (s'.row t i) * joinWeight env on s' (deltas.of u) l := by
    have := joinDelta_weight env on s' (s.held t) (s.held u) (deltas.of t) (deltas.of u)
      (t ++ ":" ++ i)
    rw [h.held_add, held_weight] at this
    exact this
  rw [hw, h.delta_weight]
  by_cases htt : table = t
  · subst htt
    have hdu : deltas.of u = ∅ := h.deltaOther u htu.symm
    have hhu : s.held u = s'.held u := by
      rw [← h.held_add u, hdu, ZSet.add_empty]
    rw [hdu, joinWeight_empty, Int.mul_zero, Int.add_zero, hhu,
      if_neg (fun hc => htu hc.1 : ¬ (table = u ∧ _))]
    by_cases hi : i = id
    · subst hi
      cases hs : s.row table i with
      | none => simp [presence]
      | some r =>
        rw [if_neg (by simp)]
        cases hs' : s'.row table i with
        | none =>
          have hl : l = none := joinField_missing ht hpt hs' _
          rw [hl, joinWeight_missing, Int.mul_zero]
        | some r' => simp [presence]
    · rw [h.other _ i (.inr hi), if_neg fun hc => hi hc.2.1, Int.sub_self, Int.zero_mul]
  · rw [h.other t i (.inl (Ne.symm htt)), Int.sub_self, Int.zero_mul, Int.zero_add,
      if_neg (fun hc => htt hc.1 : ¬ (table = t ∧ _))]
    by_cases huu : table = u
    · subst huu
      have hd := h.delta
      cases hs : s.row table id with
      | none =>
        cases hs' : s'.row table id with
        | none =>
          rw [hs, hs'] at hd
          rw [hd]
          simp [presenceDelta, joinWeight_empty, presence]
        | some r' =>
          have hsingle : ∀ k : String, (deltas.of table)[k]? =
              if k = table ++ ":" ++ id then some 1 else none := by
            intro k
            rw [hd, hs, hs', getElem?_presenceDelta]
            simp
          rw [joinWeight_single env on s' hsingle]
          split
          next hm => rw [if_pos ⟨rfl, rfl, hm⟩]; simp [presence]
          next hm => rw [if_neg fun hc => hm hc.2.2]; simp
      | some r =>
        rw [if_neg (by simp)]
        cases hs' : s'.row table id with
        | none =>
          have hsingle : ∀ k : String, (deltas.of table)[k]? =
              if k = table ++ ":" ++ id then some (-1) else none := by
            intro k
            rw [hd, hs, hs', getElem?_presenceDelta]
            simp
          have hr : joinField s' on.rightField (table ++ ":" ++ id) = none :=
            joinField_missing hu hpu hs' _
          rw [joinWeight_single env on s' hsingle, hr, if_neg, Int.mul_zero]
          simp [joinMatches]
        | some r' =>
          rw [hs, hs'] at hd
          rw [hd]
          simp [presenceDelta, joinWeight_empty]
    · rw [h.deltaOther u (Ne.symm huu), joinWeight_empty, Int.mul_zero,
        if_neg fun hc => huu hc.1]

end Step

/-- What a step leaves in the cache under a key: the join's output where the filter lets it
    pass, nothing for an updated key, and what was there otherwise. -/
def joinCacheAt (env : Env) (t u : String) (on : JoinCondition) (filt : Option Predicate)
    (ctx : Option Sp00kyValue) (s s' : Store) (deltas : TableDeltas) (keys : List String)
    (cache : ZSet) (k : String) : Option Int :=
  let w := (joinDelta env on s' (s.held t) (s.held u) (deltas.of t) (deltas.of u)).weight k
  if tailAdmits filt s' ctx k = true ∧ w ≠ 0 then
    if 0 < cache.weight k + w then some 1 else none
  else if k ∈ keys then none else cache[k]?

theorem JoinGraph.stepView (env : Env) (planner : IndexPlanner) (ho : HashOrder)
    (cu : ContentUpdates) {t u : String} {on : JoinCondition} {filt : Option Predicate}
    {s s' : Store} {deltas : TableDeltas} {g : Graph} {n : Nat} {v : View}
    (hg : JoinGraph t u on filt s g n) (hb : v.cache.Binary)
    (hl : (s.held t).add (deltas.of t) = s'.held t)
    (hr : (s.held u).add (deltas.of u) = s'.held u) :
    let r := Circuit.stepView env planner ho s' deltas cu g v
    JoinGraph t u on filt s' r.1 n ∧ ∀ k : String, r.2.1.cache[k]? =
      joinCacheAt env t u on filt v.params s s' deltas (contentKeys ho cu) v.cache k := by
  intro r
  obtain ⟨h1, h2⟩ := stepView_plain env ho s' planner hg.valid hg.plain hb deltas cu
  obtain ⟨hg', hout⟩ := hg.stepped env ho s' v.params hl hr (contentKeys ho cu)
  refine ⟨by rw [h1]; exact hg', ?_⟩
  intro k
  have hw := (joinDelta_noZero env on s' (s.held t) (s.held u) (deltas.of t)
    (deltas.of u)).getElem?_eq k
  have heval : (g.stepped env ho s' v.params deltas (contentKeys ho cu)).evalAt env s' v.params k
      g.outputNode = false := by
    have := hg'.evalAt env s' v.params k
    rwa [(stepped_sameShape env ho s' v.params hg.valid deltas (contentKeys ho cu)).out] at this
  rw [h2 k, hg.tail.steppedOut env ho s' v.params hg.valid, hout, hw, heval, joinCacheAt]
  generalize (joinDelta env on s' (s.held t) (s.held u) (deltas.of t) (deltas.of u)).weight k = w
  by_cases ha : tailAdmits filt s' v.params k = true
  · by_cases hz : w = 0
    · simp [ha, hz]
    · simp [ha, hz]
  · simp [ha]

section Exact

variable {env : Env} {ho : HashOrder} {t u : String} {on : JoinCondition}
  {filt : Option Predicate} {ctx : Option Sp00kyValue} {s s' : Store} {table id : String}
  {deltas : TableDeltas} {cu : ContentUpdates}

/-- A row with a partner, in terms of what a step reads. -/
theorem joinShown_of_row (ht : ColonFree t) (hu : ColonFree u) {i : String} {r : Row}
    (hr : s.row t i = some r) :
    JoinShown env t u on filt ctx s i ↔ tailAdmits filt s ctx (t ++ ":" ++ i) = true ∧
      0 < joinWeight env on s (s.held u) (joinField s on.leftField (t ++ ":" ++ i)) := by
  rw [tailAdmits_row ht hr, joinField_row ht hr, joinWeight_held_pos hu]
  constructor
  · rintro ⟨r1, hr1, hf, hm⟩
    rw [hr] at hr1
    cases hr1
    exact ⟨hf, hm⟩
  · rintro ⟨hf, hm⟩
    exact ⟨r, hr, hf, hm⟩

theorem JoinShown.row {i : String} (h : JoinShown env t u on filt ctx s i) :
    (s.row t i).isSome = true := by
  obtain ⟨r, hr, -⟩ := h
  rw [hr]
  rfl

/-- A new right row shows the left rows it matches, besides those shown before. -/
theorem joinShown_created {keys : List String} (h : OneChange s s' u id deltas keys) (htu : t ≠ u)
    (ht : ColonFree t) (hu : ColonFree u) (hs : s.row u id = none) (i : String) :
    JoinShown env t u on filt ctx s' i ↔ JoinShown env t u on filt ctx s i ∨
      (s'.row t i).isSome ∧ (s'.row u id).isSome ∧ tailAdmits filt s' ctx (t ++ ":" ++ i) = true ∧
        joinMatches env (joinField s' on.leftField (t ++ ":" ++ i))
          (joinField s' on.rightField (u ++ ":" ++ id)) = true := by
  have hrow : s'.row t i = s.row t i := h.other t i (.inl htu)
  constructor
  · rintro ⟨r, hr, hf, j, r', hr', hm⟩
    by_cases hj : j = id
    · subst hj
      refine .inr ⟨by rw [hr]; rfl, by rw [hr']; rfl, by rw [tailAdmits_row ht hr]; exact hf, ?_⟩
      rw [joinField_row ht hr, joinField_row hu hr']
      exact hm
    · rw [h.other u j (.inr hj)] at hr'
      exact .inl ⟨r, by rw [← hrow]; exact hr, hf, j, r', hr', hm⟩
  · rintro (⟨r, hr, hf, j, r', hr', hm⟩ | ⟨h1, h2, hf, hm⟩)
    · have hj : j ≠ id := by
        rintro rfl
        rw [hs] at hr'
        cases hr'
      exact ⟨r, by rw [hrow]; exact hr, hf, j, r', by rw [h.other u j (.inr hj)]; exact hr', hm⟩
    · obtain ⟨r, hr⟩ := Option.isSome_iff_exists.mp h1
      obtain ⟨r', hr'⟩ := Option.isSome_iff_exists.mp h2
      rw [tailAdmits_row ht hr] at hf
      rw [joinField_row ht hr, joinField_row hu hr'] at hm
      exact ⟨r, hr, hf, id, r', hr', hm⟩

variable {keys : List String} {cache : ZSet}

/-- A left row without output and without an update keeps what the cache has. -/
theorem joinCacheAt_keep {k : String}
    (hw : (joinDelta env on s' (s.held t) (s.held u) (deltas.of t) (deltas.of u)).weight k = 0)
    (hk : k ∉ keys) :
    joinCacheAt env t u on filt ctx s s' deltas keys cache k = cache[k]? := by
  rw [joinCacheAt, if_neg (fun hc => hc.2 hw), if_neg hk]

/-- An updated key without output leaves the cache. -/
theorem joinCacheAt_drop {k : String}
    (hw : (joinDelta env on s' (s.held t) (s.held u) (deltas.of t) (deltas.of u)).weight k = 0)
    (hk : k ∈ keys) :
    joinCacheAt env t u on filt ctx s s' deltas keys cache k = none := by
  rw [joinCacheAt, if_neg (fun hc => hc.2 hw), if_pos hk]

variable (ht : ColonFree t) (hu : ColonFree u) (htu : t ≠ u) (hpt : PlainIds s' t)
  (hpu : PlainIds s' u) (hb : cache.Binary)
  (hold : ∀ i, cache[t ++ ":" ++ i]? = some 1 ↔ JoinShown env t u on filt ctx s i)

include ht hu htu hpt hpu hb hold

/-- A left row that is created is shown if it should be. -/
theorem joinCacheAt_created_left (h : OneChange s s' t id deltas keys) (hs : s.row t id = none) :
    joinCacheAt env t u on filt ctx s s' deltas keys cache (t ++ ":" ++ id) = some 1 ↔
      JoinShown env t u on filt ctx s' id := by
  have hk : t ++ ":" ++ id ∉ keys := by
    intro hk
    have := (h.updated _ hk).2.1
    rw [hs] at this
    cases this
  have hnot : cache[t ++ ":" ++ id]? = none := by
    rcases hb (t ++ ":" ++ id) with h0 | h1
    · exact h0
    · have := ((hold id).mp h1).row
      rw [hs] at this
      cases this
  have hw := joinDelta_cases env on ht hu htu h hpt hpu id
  simp only [hs, and_self, if_true] at hw
  rw [joinCacheAt, hw, if_neg hk, ZSet.weight, hnot]
  cases hs' : s'.row t id with
  | none =>
    refine iff_of_false (by simp [presence]) fun hsh => ?_
    have := hsh.row
    rw [hs'] at this
    cases this
  | some r' =>
    rw [joinShown_of_row ht hu hs']
    have hnn := (joinWeight_pos env on s' (held_binary (s := s') (t := u))
      (joinField s' on.leftField (t ++ ":" ++ id))).1
    generalize joinWeight env on s' (s'.held u) (joinField s' on.leftField (t ++ ":" ++ id)) = w
      at *
    simp only [presence, Option.isSome_some, if_true, Int.one_mul, Option.getD_none, Int.zero_add]
    by_cases ha : tailAdmits filt s' ctx (t ++ ":" ++ id) = true
    · by_cases hz : w = 0
      · simp [ha, hz]
      · have : 0 < w := by omega
        simp [ha, hz, this]
    · simp [ha]

/-- When a right row is created, exactly the rows that should be shown are. -/
theorem joinCacheAt_created_right (h : OneChange s s' u id deltas keys) (hs : s.row u id = none)
    (i : String) :
    joinCacheAt env t u on filt ctx s s' deltas keys cache (t ++ ":" ++ i) = some 1 ↔
      JoinShown env t u on filt ctx s' i := by
  have hk : t ++ ":" ++ i ∉ keys := fun hk => htu (join_eq_join ht hu (h.updated _ hk).1).1
  have hcw : 0 ≤ cache.weight (t ++ ":" ++ i) := by
    rw [ZSet.weight]
    rcases hb (t ++ ":" ++ i) with h0 | h1
    · rw [h0]
      decide
    · rw [h1]
      decide
  have hw := joinDelta_cases env on ht hu htu h hpt hpu i
  simp only [htu.symm, hs, false_and, if_false, true_and] at hw
  rw [joinShown_created h htu ht hu hs, ← hold i, joinCacheAt, hw, if_neg hk]
  by_cases hnew : (s'.row t i).isSome ∧ (s'.row u id).isSome ∧
      tailAdmits filt s' ctx (t ++ ":" ++ i) = true ∧
      joinMatches env (joinField s' on.leftField (t ++ ":" ++ i))
        (joinField s' on.rightField (u ++ ":" ++ id)) = true
  · obtain ⟨h1, h2, h3, h4⟩ := hnew
    have hpos : 0 < cache.weight (t ++ ":" ++ i) + 1 := by omega
    simp [h1, h2, h3, h4, presence, hpos]
  · have hzero : ¬ (tailAdmits filt s' ctx (t ++ ":" ++ i) = true ∧
        (if joinMatches env (joinField s' on.leftField (t ++ ":" ++ i))
            (joinField s' on.rightField (u ++ ":" ++ id)) = true then
          presence (s'.row t i) * presence (s'.row u id) else 0) ≠ 0) := by
      rintro ⟨ha, hne⟩
      split at hne
      next hm =>
        refine hnew ⟨?_, ?_, ha, hm⟩
        · by_contra hno
          simp [presence, hno] at hne
        · by_contra hno
          simp [presence, hno] at hne
      next => exact hne rfl
    rw [if_neg hzero]
    simp [hnew]

/-- A change of a left row: the row itself decides. -/
theorem joinCacheAt_left (h : OneChange s s' t id deltas keys) :
    (∀ i, joinCacheAt env t u on filt ctx s s' deltas keys cache (t ++ ":" ++ i) = some 1 ↔
        JoinShown env t u on filt ctx s' i) ↔ KeepsJoin env t u on filt ctx s s' t id := by
  have hw := fun i => joinDelta_cases env on ht hu htu h hpt hpu i
  have hright : ∀ j, s'.row u j = s.row u j := fun j => h.other u j (.inl htu.symm)
  have hrow : ∀ i, i ≠ id → (joinCacheAt env t u on filt ctx s s' deltas keys cache
      (t ++ ":" ++ i) = some 1 ↔ JoinShown env t u on filt ctx s' i) := by
    intro i hi
    have hk : t ++ ":" ++ i ∉ keys := fun hk => hi (join_injective (h.updated _ hk).1)
    rw [joinCacheAt_keep (by rw [hw]; simp [hi, htu]) hk, hold]
    exact (JoinShown.congr (h.other _ i (.inr hi)) hright).symm
  have hone : (∀ i, joinCacheAt env t u on filt ctx s s' deltas keys cache (t ++ ":" ++ i) =
        some 1 ↔ JoinShown env t u on filt ctx s' i) ↔
      (joinCacheAt env t u on filt ctx s s' deltas keys cache (t ++ ":" ++ id) = some 1 ↔
        JoinShown env t u on filt ctx s' id) := by
    constructor
    · exact fun hall => hall id
    · intro hid i
      by_cases hi : i = id
      · rw [hi]
        exact hid
      · exact hrow i hi
  have hkeeps : KeepsJoin env t u on filt ctx s s' t id ↔
      ((s.row t id).isSome → s'.row t id ≠ s.row t id →
        if (s'.row t id).isSome then ¬ JoinShown env t u on filt ctx s' id
        else ¬ JoinShown env t u on filt ctx s id) :=
    ⟨fun hk => hk.1 rfl, fun hk => ⟨fun _ => hk, fun he => absurd he htu⟩⟩
  rw [hone, hkeeps]
  cases hs : s.row t id with
  | none =>
    exact iff_of_true (joinCacheAt_created_left ht hu htu hpt hpu hb hold h hs) (by simp)
  | some r0 =>
    have hzero := hw id
    simp only [htu, hs, reduceCtorEq, and_false, false_and, if_false] at hzero
    cases hs' : s'.row t id with
    | none =>
      have hk : t ++ ":" ++ id ∉ keys := by
        intro hk
        have := (h.updated _ hk).2.2
        rw [hs'] at this
        cases this
      have hno : ¬ JoinShown env t u on filt ctx s' id := fun hsh => by
        have := hsh.row
        rw [hs'] at this
        cases this
      rw [joinCacheAt_keep hzero hk, hold]
      simp [hno]
    | some r' =>
      by_cases he : s'.row t id = s.row t id
      · have hk : t ++ ":" ++ id ∉ keys := fun hk => h.moved (List.ne_nil_of_mem hk) he
        rw [joinCacheAt_keep hzero hk, hold, ← hs, ← hs']
        exact iff_of_true (JoinShown.congr he hright).symm (fun _ hne => absurd he hne)
      · have hmem : t ++ ":" ++ id ∈ keys := by
          have hne : keys ≠ [] := fun hnil =>
            he (h.same hnil (by rw [hs]; rfl) (by rw [hs']; rfl))
          obtain ⟨k, hk⟩ := List.exists_mem_of_ne_nil _ hne
          rwa [(h.updated k hk).1] at hk
        rw [joinCacheAt_drop hzero hmem]
        rw [hs, hs'] at he
        constructor
        · intro hiff _ _ hsh
          cases hiff.mpr hsh
        · intro hno
          exact iff_of_false (by simp) (hno rfl he)

/-- A change of a right row that was there: every left row keeps what the cache has. -/
theorem joinCacheAt_right (h : OneChange s s' u id deltas keys) :
    (∀ i, joinCacheAt env t u on filt ctx s s' deltas keys cache (t ++ ":" ++ i) = some 1 ↔
        JoinShown env t u on filt ctx s' i) ↔ KeepsJoin env t u on filt ctx s s' u id := by
  cases hs : s.row u id with
  | none =>
    refine iff_of_true (joinCacheAt_created_right ht hu htu hpt hpu hb hold h hs)
      ⟨fun he => absurd he.symm htu, fun _ hsome => ?_⟩
    rw [hs] at hsome
    cases hsome
  | some r0 =>
    have hstay : ∀ i, joinCacheAt env t u on filt ctx s s' deltas keys cache (t ++ ":" ++ i) =
        cache[t ++ ":" ++ i]? := by
      intro i
      refine joinCacheAt_keep ?_ fun hk => htu (join_eq_join ht hu (h.updated _ hk).1).1
      rw [joinDelta_cases env on ht hu htu h hpt hpu i]
      simp [htu.symm, hs]
    simp only [hstay, hold]
    constructor
    · exact fun hall => ⟨fun he => absurd he.symm htu, fun _ _ => hall⟩
    · exact fun hkeeps => hkeeps.2 rfl (by rw [hs]; rfl)

omit htu hpt hpu hb hold in
/-- Keys of other tables are never shown, so the left rows decide. -/
theorem showsJoin_iff_left (h : OneChange s s' table id deltas keys) {cache' : ZSet}
    (hb' : cache'.Binary) (hc : ShowsJoin env t u on filt ctx s cache)
    (hcache : ∀ k : String, cache'[k]? =
      joinCacheAt env t u on filt ctx s s' deltas keys cache k) :
    ShowsJoin env t u on filt ctx s' cache' ↔ ∀ i,
      (joinCacheAt env t u on filt ctx s s' deltas keys cache (t ++ ":" ++ i) = some 1 ↔
        JoinShown env t u on filt ctx s' i) := by
  have hown : ∀ i, (∃ i', t ++ ":" ++ i = t ++ ":" ++ i' ∧ JoinShown env t u on filt ctx s' i') ↔
      JoinShown env t u on filt ctx s' i := by
    intro i
    constructor
    · rintro ⟨i', he, hi⟩
      rwa [join_injective he]
    · exact fun hi => ⟨i, rfl, hi⟩
  rw [showsJoin_iff ht hu hb']
  constructor
  · intro hall i
    rw [← hcache, hall]
    exact hown i
  · intro hall k
    by_cases hk : ∃ i, k = t ++ ":" ++ i
    · obtain ⟨i, rfl⟩ := hk
      rw [hcache, hall]
      exact (hown i).symm
    · have hout : ∀ s, ¬ ∃ i, k = t ++ ":" ++ i ∧ JoinShown env t u on filt ctx s i :=
        fun _ ⟨i, he, _⟩ => hk ⟨i, he⟩
      refine iff_of_false ?_ (hout s')
      have hd : (deltas.of t).weight k = 0 := by
        rw [ZSet.weight, ExtTreeMap.getElem?_eq_none fun hm => hk (h.delta_key hm)]
        rfl
      have hw : (joinDelta env on s' (s.held t) (s.held u) (deltas.of t) (deltas.of u)).weight k =
          0 := by
        rw [joinDelta_weight, h.held_add, held_weight_other fun i he => hk ⟨i, he⟩, hd]
        simp
      rw [hcache]
      by_cases hmem : k ∈ keys
      · rw [joinCacheAt_drop hw hmem]
        simp
      · rw [joinCacheAt_keep hw hmem, hc, equiJoin_snapshot ht hu]
        exact hout s

omit hb hold in
/-- One change keeps a join view exact if and only if it is one that does no harm. -/
theorem showsJoin_step (htable : ColonFree table)
    (h : OneChange s s' table id deltas (contentKeys ho cu)) {g : Graph} {n : Nat} {v : View}
    (hg : JoinGraph t u on filt s g n) (hc : ShowsJoin env t u on filt v.params s v.cache)
    (planner : IndexPlanner) :
    ShowsJoin env t u on filt v.params s'
        (Circuit.stepView env planner ho s' deltas cu g v).2.1.cache ↔
      KeepsJoin env t u on filt v.params s s' table id := by
  have hb : v.cache.Binary := by rw [hc]; exact threshold_binary _
  obtain ⟨-, hcache⟩ := hg.stepView env planner ho cu hb (h.held_add t) (h.held_add u)
  have hb' : (Circuit.stepView env planner ho s' deltas cu g v).2.1.cache.Binary := by
    intro k
    rw [hcache k, joinCacheAt]
    split
    next =>
      split
      · exact .inr rfl
      · exact .inl rfl
    next =>
      split
      · exact .inl rfl
      · exact hb k
  have hold : ∀ i, v.cache[t ++ ":" ++ i]? = some 1 ↔ JoinShown env t u on filt v.params s i := by
    intro i
    rw [hc, equiJoin_snapshot ht hu]
    constructor
    · rintro ⟨i', he, hi⟩
      rwa [join_injective he]
    · exact fun hi => ⟨i, rfl, hi⟩
  rw [showsJoin_iff_left ht hu h hb' hc hcache]
  by_cases htt : table = t
  · subst htt
    exact joinCacheAt_left ht hu htu hpt hpu hb hold h
  by_cases huu : table = u
  · subst huu
    exact joinCacheAt_right ht hu htu hpt hpu hb hold h
  -- a row of a third table
  refine iff_of_true (fun i => ?_) ⟨fun he => absurd he htt, fun he => absurd he huu⟩
  have hw := joinDelta_cases env on ht hu htu h hpt hpu i
  simp only [htt, huu, false_and, if_false] at hw
  rw [joinCacheAt_keep hw fun hk => htt (join_eq_join ht htable (h.updated _ hk).1).1.symm, hold]
  exact (JoinShown.congr (h.other t i (.inl (Ne.symm htt)))
    fun j => h.other u j (.inl (Ne.symm huu))).symm

end Exact

/-! ## Runs -/

/-- A change on a colon-free table whose record id does not repeat the table's name. -/
def PlainChange (ch : Change) : Prop :=
  ColonFree ch.table ∧ ∀ x, rawId ch.id ≠ ch.table ++ ":" ++ x

/-- A step of one plain change that does the join view no harm. -/
def JoinStep (env : Env) (t u : String) (on : JoinCondition) (filt : Option Predicate)
    (ctx : Option Sp00kyValue) (c : Circuit) (changes : List Change) : Prop :=
  ∃ ch, changes = [ch] ∧ PlainChange ch ∧
    KeepsJoin env t u on filt ctx c.store (changed env c ch).store ch.table (rawId ch.id)

/-- The state of a join view that is exact. -/
def JoinView (env : Env) (t u : String) (on : JoinCondition) (filt : Option Predicate)
    (ctx : Option Sp00kyValue) (s : Store) (g : Graph) (v : View) : Prop :=
  v.params = ctx ∧ PlainIds s t ∧ PlainIds s u ∧ (∃ n, JoinGraph t u on filt s g n) ∧
    ShowsJoin env t u on filt ctx s v.cache

theorem OneChange.plainIds {s s' : Store} {t id : String} {deltas : TableDeltas}
    {keys : List String} (h : OneChange s s' t id deltas keys) (hid : ∀ x, id ≠ t ++ ":" ++ x)
    {u : String} (hp : PlainIds s u) : PlainIds s' u := by
  intro x
  by_cases hu : u = t
  · subst hu
    rw [h.other u _ (.inr fun he => hid x he.symm)]
    exact hp x
  · rw [h.other u _ (.inl hu)]
    exact hp x

theorem held_congr {s s' : Store} {t : String} (h : ∀ id, s'.row t id = s.row t id) :
    s'.held t = s.held t := by
  refine ZSet.ext_weight held_noZero held_noZero fun k => ?_
  by_cases hk : ∃ id, k = t ++ ":" ++ id
  · obtain ⟨id, rfl⟩ := hk
    rw [held_weight, held_weight, h]
  · rw [held_weight_other fun i he => hk ⟨i, he⟩, held_weight_other fun i he => hk ⟨i, he⟩]

section Runs

variable {env : Env} {t u : String} {on : JoinCondition} {filt : Option Predicate}
  {ctx : Option Sp00kyValue} (ht : ColonFree t) (hu : ColonFree u) (htu : t ≠ u)

theorem equiJoin_tables : ∀ x, x ∈ (equiJoin t u on filt).collectTables ↔ x = t ∨ x = u := by
  intro x
  cases filt <;> simp [equiJoin, OperatorPlan.collectTables]

/-- A change that leaves the rows of both tables alone does no harm. -/
theorem keepsJoin_of_agree {s s' : Store}
    (hrows : s.Agree (equiJoin t u on filt).collectTables s') (table id : String) :
    KeepsJoin env t u on filt ctx s s' table id := by
  have hl : ∀ id, s'.row t id = s.row t id := hrows t ((equiJoin_tables t).mpr (.inl rfl))
  have hr : ∀ id, s'.row u id = s.row u id := hrows u ((equiJoin_tables u).mpr (.inr rfl))
  exact ⟨fun _ _ hne => absurd (hl id) hne, fun _ _ i => (JoinShown.congr (hl i) hr).symm⟩

include ht hu

theorem showsJoin_congr {s s' : Store} (hrows : s.Agree (equiJoin t u on filt).collectTables s')
    {cache : ZSet} :
    ShowsJoin env t u on filt ctx s' cache ↔ ShowsJoin env t u on filt ctx s cache := by
  have hl : ∀ id, s'.row t id = s.row t id := hrows t ((equiJoin_tables t).mpr (.inl rfl))
  have hr : ∀ id, s'.row u id = s.row u id := hrows u ((equiJoin_tables u).mpr (.inr rfl))
  unfold ShowsJoin
  have he : threshold ((equiJoin t u on filt).snapshot env s' ctx) =
      threshold ((equiJoin t u on filt).snapshot env s ctx) := by
    refine (showsJoin_iff ht hu (threshold_binary _)).mpr fun k => ?_
    rw [equiJoin_snapshot ht hu]
    simp only [JoinShown.congr (hl _) hr]
  rw [he]

theorem joinView_frame (s s' : Store) (g : Graph) (v : View)
    (hrows : s.Agree (equiJoin t u on filt).collectTables s')
    (h : JoinView env t u on filt ctx s g v) : JoinView env t u on filt ctx s' g v := by
  obtain ⟨hctx, hpt, hpu, ⟨n, hg⟩, hc⟩ := h
  have hl : ∀ id, s'.row t id = s.row t id := hrows t ((equiJoin_tables t).mpr (.inl rfl))
  have hr : ∀ id, s'.row u id = s.row u id := hrows u ((equiJoin_tables u).mpr (.inr rfl))
  refine ⟨hctx, fun x => by rw [hl]; exact hpt x, fun x => by rw [hr]; exact hpu x, ⟨n, ?_⟩,
    (showsJoin_congr ht hu hrows).mpr hc⟩
  obtain ⟨hv, hp, hj, htail⟩ := hg
  refine ⟨hv, hp, ?_, htail⟩
  rw [held_congr hl, held_congr hr]
  exact hj

include htu

/-- A step of one plain change leaves a view of the same kind, exact if and only if the change
    does no harm. -/
theorem joinView_step (planner : IndexPlanner) (ho : HashOrder) {c : Circuit} {g : Graph} {v : View}
    {ch : Change} (hch : PlainChange ch) (h : JoinView env t u on filt ctx c.store g v) :
    let p := phase1 env ho c [ch]
    let r := Circuit.stepView env planner ho p.circuit.store p.deltas p.content g v
    (KeepsJoin env t u on filt ctx c.store (changed env c ch).store ch.table (rawId ch.id) →
        JoinView env t u on filt ctx p.circuit.store r.1 r.2.1) ∧
      (ShowsJoin env t u on filt ctx p.circuit.store r.2.1.cache ↔
        KeepsJoin env t u on filt ctx c.store (changed env c ch).store ch.table (rawId ch.id)) := by
  intro p r
  obtain ⟨rfl, hpt, hpu, ⟨n, hg⟩, hc⟩ := h
  have hone := phase1_oneChange env ho c ch hch.1
  have hstore : p.circuit.store = (changed env c ch).store := applyChange_store env ⟨c, ∅, ∅, []⟩ ch
  have hpt' := hone.plainIds hch.2 hpt
  have hpu' := hone.plainIds hch.2 hpu
  have hiff := showsJoin_step ht hu htu hpt' hpu' hch.1 hone hg hc planner
  rw [← hstore]
  refine ⟨fun hk => ?_, hiff⟩
  have hb : v.cache.Binary := by rw [hc]; exact threshold_binary _
  obtain ⟨hg', -⟩ := hg.stepView env planner ho p.content hb (hone.held_add t) (hone.held_add u)
  obtain ⟨-, hparams, -⟩ := stepView_view env planner ho p.circuit.store p.deltas p.content g v
  exact ⟨hparams, hpt', hpu', ⟨n, hg'⟩, hiff.mpr hk⟩

omit ht hu htu in
/-- A registration starts an exact join view. -/
theorem addQuery_joinView (planning : Planning) (ho : HashOrder) (c : Circuit) (plan : QueryPlan)
    (hplan : plan.root = equiJoin t u on filt) (params : Option Json) (authId : String)
    (hpt : PlainIds c.store t) (hpu : PlainIds c.store u) :
    ∃ g v, Registered (c.addQuery env planning ho plan params authId).1
        (Circuit.canonicalQueryId plan.id) (equiJoin t u on filt) (params.map Sp00kyValue.ofJson)
        g v ∧
      JoinView env t u on filt (params.map Sp00kyValue.ofJson)
        (c.addQuery env planning ho plan params authId).1.store g v := by
  obtain ⟨hrows, v, hreg, hcache⟩ := addQuery_registered env planning ho c plan params authId
  rw [hplan, Graph.fromPlanWith_equiJoin] at hreg hcache
  obtain ⟨n, hg, hout⟩ := joinGraph_primed env ho
    (c.addQuery env planning ho plan params authId).1.store (params.map Sp00kyValue.ofJson)
    t u on filt
  refine ⟨_, v, hreg, hreg.ctx, fun x => by rw [hrows]; exact hpt x,
    fun x => by rw [hrows]; exact hpu x, ⟨n, hg⟩, ?_⟩
  rw [ShowsJoin, hcache, hout]
  exact applyDelta_threshold _

/-- Equi-join views. In every run of plain changes that do no harm the cache is the support of
    the plan's snapshot in every state, and there the next change keeps it so if and only if it
    does no harm either. -/
theorem equiJoin_exact (planning : Planning) (ho : HashOrder) (c : Circuit) (plan : QueryPlan)
    (hplan : plan.root = equiJoin t u on filt) (params : Option Json) (authId : String)
    (hpt : PlainIds c.store t) (hpu : PlainIds c.store u) {c' : Circuit}
    (hrun : Reaches env planning (Circuit.canonicalQueryId plan.id)
      (JoinStep env t u on filt (params.map Sp00kyValue.ofJson))
      (c.addQuery env planning ho plan params authId).1 c') :
    c'.cacheOf (Circuit.canonicalQueryId plan.id) =
        some (threshold (plan.root.snapshot env c'.store (params.map Sp00kyValue.ofJson))) ∧
      ∀ (ho' : HashOrder) (ch : Change), PlainChange ch →
        ((c'.step env planning ho' [ch]).1.cacheOf (Circuit.canonicalQueryId plan.id) =
            some (threshold (plan.root.snapshot env (c'.step env planning ho' [ch]).1.store
              (params.map Sp00kyValue.ofJson))) ↔
          KeepsJoin env t u on filt (params.map Sp00kyValue.ofJson) c'.store
            (changed env c' ch).store ch.table (rawId ch.id)) := by
  obtain ⟨g, v, hreg, hstart⟩ :=
    addQuery_joinView planning ho c plan hplan params authId hpt hpu
  rw [hplan]
  obtain ⟨g', v', hreg', hview⟩ := hrun.holds (joinView_frame ht hu)
    (fun c g v ho changes _ _ hok hP _ => by
      obtain ⟨ch, rfl, hch, hk⟩ := hok
      exact (joinView_step ht hu htu _ ho hch hP).1 hk) hreg hstart
  have hshows := hview.2.2.2.2
  refine ⟨by rw [hreg'.cacheOf_eq, hshows], ?_⟩
  intro ho' ch hch
  obtain ⟨hst, hcase⟩ := step_registered env planning ho' hreg' (by simp : [ch] ≠ [])
  have hiff := (joinView_step ht hu htu (planning c'.indexDefs (params.map Sp00kyValue.ofJson)) ho'
    hch hview).2
  rcases hcase with ⟨hquiet, hreg''⟩ | hreg''
  · -- no row of the two tables changed, so nothing is owed
    have hrows : c'.store.Agree (equiJoin t u on filt).collectTables
        (c'.step env planning ho' [ch]).1.store := by
      intro x hx id
      rw [hst]
      exact phase1_untouched env ho' c' [ch] (hquiet x hx) id
    refine iff_of_true ?_ ?_
    · rw [hreg''.cacheOf_eq, (showsJoin_congr ht hu hrows).mpr hshows]
    · have hstore : (changed env c' ch).store = (phase1 env ho' c' [ch]).circuit.store :=
        (applyChange_store env ⟨c', ∅, ∅, []⟩ ch).symm
      rw [hst, ← hstore] at hrows
      exact keepsJoin_of_agree hrows _ _
  · rw [hreg''.cacheOf_eq, Option.some.injEq, ← hiff]
    exact showsJoin_congr ht hu (fun x hx id => by rw [hst]; rfl)

end Runs

/-- The plan `T WHERE T.a = U.b`. -/
def planPairs : QueryPlan := ⟨"q", equiJoin "T" "U" ⟨Path.new "a", Path.new "b"⟩ none⟩

/-- A row of `T`. -/
def pairLeft : Change := ⟨"T", .create, "1", .object [("a", .str "x")]⟩

/-- Its partner in `U`. -/
def pairRight : Change := ⟨"U", .create, "1", .object [("b", .str "x")]⟩

/-- The view before its first rows. -/
def noPair : Circuit := (Circuit.new.addQuery Env.sample asWritten .sorted planPairs none "").1

/-- The view shows the pair. -/
def onePair : Circuit :=
  ((noPair.step Env.sample asWritten .sorted [pairLeft]).1.step Env.sample asWritten .sorted
    [pairRight]).1

theorem keepsJoin_create {env : Env} {t u : String} {on : JoinCondition} {filt : Option Predicate}
    {ctx : Option Sp00kyValue} {s s' : Store} {table id : String}
    (h : (s.row table id).isSome = false) : KeepsJoin env t u on filt ctx s s' table id := by
  refine ⟨?_, ?_⟩
  · rintro rfl hs
    rw [h] at hs
    cases hs
  · rintro rfl hs
    rw [h] at hs
    cases hs

theorem equiJoin_exact_onePair :
    onePair.cacheOf "q" =
      some (threshold (planPairs.root.snapshot Env.sample onePair.store none)) := by
  have hplain : ∀ ch ∈ [pairLeft, pairRight], PlainChange ch := by
    intro ch hch
    rcases List.mem_cons.mp hch with rfl | hch
    · exact ⟨by decide, fun x => ColonFree.ne_join (by decide) _ _⟩
    · obtain rfl := List.mem_singleton.mp hch
      exact ⟨by decide, fun x => ColonFree.ne_join (by decide) _ _⟩
  have hrun : Reaches Env.sample asWritten "q"
      (JoinStep Env.sample "T" "U" ⟨Path.new "a", Path.new "b"⟩ none none) noPair onePair := by
    refine .step .sorted [pairRight] (.step .sorted [pairLeft] .start ?_) ?_
    · exact ⟨pairLeft, rfl, hplain _ (by simp), keepsJoin_create (by decide +kernel)⟩
    · exact ⟨pairRight, rfl, hplain _ (by simp), keepsJoin_create (by decide +kernel)⟩
  refine (equiJoin_exact (t := "T") (u := "U") (by decide) (by decide) (by decide) asWritten .sorted
    Circuit.new planPairs rfl none "" ?_ ?_ hrun).1
  · intro x
    simp [Circuit.new, Store.new, Store.row]
  · intro x
    simp [Circuit.new, Store.new, Store.row]

/-- One more field for the row of `T`. -/
def pairTouched : Change := ⟨"T", .update, "1", .object [("a", .str "x"), ("note", .str "y")]⟩

/-- A row that still has its partner leaves the view when another field is written. -/
theorem equiJoin_update_lost :
    (onePair.step Env.sample asWritten .sorted [pairTouched]).1.cacheOf "q" ≠
      some (threshold (planPairs.root.snapshot Env.sample
        (onePair.step Env.sample asWritten .sorted [pairTouched]).1.store none)) := by
  intro h
  have hlost : ((onePair.step Env.sample asWritten .sorted [pairTouched]).1.cacheOf "q").any
      (·.contains "T:1") = false := by decide +kernel
  rw [h] at hlost
  have hshown : (threshold (planPairs.root.snapshot Env.sample
      (onePair.step Env.sample asWritten .sorted [pairTouched]).1.store none)).contains "T:1" =
      true := by decide +kernel
  rw [Option.any_some, hshown] at hlost
  cases hlost

end Sp00ky.Ssp
