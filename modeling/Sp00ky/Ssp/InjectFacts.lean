/-
  What an injected plan can show.

  Every key of a plan's snapshot comes from one of its scans: a unary operator
  passes keys of its input, a join keys of its left input, a union keys of either.
  A scan is rewritten together with its table's permission, so a key of the
  rewritten plan carries what the permission asks. A flat permission is evaluated on
  the key's own row. A permission with a subquery is a plan, and the semi-join with
  it compares the `id` fields of the bodies: the key's row has the `id` of a row
  that the permission plan shows, which is the row itself when no two rows share one.
-/
import Sp00ky.Ssp.PermissionText
import Sp00ky.Ssp.Snapshot
import Sp00ky.Ssp.TopKFacts

namespace Sp00ky.Ssp

open Std Lib

/-! ## Keys come from the inputs -/

variable {k : String}

theorem mem_filterMap_exists {z : ZSet} {f : String → Int → Option Int} :
    k ∈ z.filterMap f ↔ ∃ w, z[k]? = some w ∧ (f k w).isSome := by
  rw [ExtTreeMap.mem_iff_isSome_getElem?, ExtTreeMap.getElem?_filterMap']
  cases z[k]? with
  | none => simp
  | some w => simp

theorem mem_filter_exists {z : ZSet} {f : String → Int → Bool} :
    k ∈ z.filter f ↔ ∃ w, z[k]? = some w ∧ f k w = true := by
  rw [ExtTreeMap.mem_iff_isSome_getElem?, ExtTreeMap.getElem?_filter']
  cases z[k]? with
  | none => simp
  | some w =>
    cases hf : f k w <;> simp [hf]

theorem ZSet.mem_add {a b : ZSet} (h : k ∈ a.add b) : k ∈ a ∨ k ∈ b := by
  rw [ExtTreeMap.mem_iff_isSome_getElem?, ZSet.getElem?_add] at h
  rw [ExtTreeMap.mem_iff_isSome_getElem?, ExtTreeMap.mem_iff_isSome_getElem?]
  cases hb : b[k]? with
  | none =>
    rw [hb] at h
    exact .inl h
  | some w => exact .inr rfl

theorem TopK.mem_snapshot {t : TopK} {upstream : ZSet} {store : Store}
    (h : k ∈ t.snapshot upstream store) : k ∈ upstream := by
  unfold TopK.snapshot at h
  rw [← List.foldl_map (f := Prod.snd) (g := fun (z : ZSet) k => z.insert k 1)] at h
  rw [ExtTreeMap.mem_iff_isSome_getElem?, ← TopK.keySet, TopK.getElem?_keySet] at h
  split at h
  next hk =>
    obtain ⟨e, he, rfl⟩ := List.mem_map.mp hk
    have hs := mem_sortBy.mp (List.mem_of_mem_drop (List.mem_of_mem_take he))
    obtain ⟨⟨k, w⟩, hkw, rfl⟩ := List.mem_map.mp hs
    have := ExtTreeMap.mem_toList_iff_getElem?_eq_some.mp (List.mem_filter.mp hkw).1
    exact mem_of_getElem? this
  next => cases h

/-- A row of the left input stays only if a live row of the right one has its join value. -/
theorem mem_semiJoinSnapshot {env : Env} {left right : ZSet} {on : JoinCondition} {store : Store} (h : k ∈ semiJoinSnapshot env left right on store) :
    k ∈ left ∧ ∃ k' w, right[k']? = some w ∧ 0 < w ∧
      joinMatches env (joinField store on.leftField k) (joinField store on.rightField k') = true := by
  obtain ⟨w, hw, hf⟩ := mem_filterMap_exists.mp h
  refine ⟨mem_of_getElem? hw, ?_⟩
  split at hf
  next hc =>
    obtain ⟨-, hm⟩ := hc
    obtain ⟨⟨k', w'⟩, hmem, hk'⟩ := List.any_eq_true.mp hm
    simp only [Bool.and_eq_true, decide_eq_true_eq] at hk'
    exact ⟨k', w', ExtTreeMap.mem_toList_iff_getElem?_eq_some.mp hmem, hk'.1, hk'.2⟩
  next => cases hf

/-! ## What a conjunction asks -/

section Conjunctions

variable (key : String) (row : ValueRef) (ctx : Option Sp00kyValue)

mutual

theorem andOperands_eval (p : Predicate) :
    (andOperands p).all (·.eval key row ctx) = p.eval key row ctx := by
  cases p with
  | true => rfl
  | and ps =>
    rw [andOperands, Predicate.eval]
    exact andOperands_all_eval ps
  | _ => simp [andOperands]

theorem andOperands_all_eval (ps : List Predicate) :
    (andOperands.all ps).all (·.eval key row ctx) = Predicate.evalAll key row ctx ps := by
  cases ps with
  | nil => rfl
  | cons p ps =>
    rw [andOperands.all, Predicate.evalAll, List.all_append, andOperands_eval p,
      andOperands_all_eval ps]

end

/-- The folded predicate asks what both of its parts ask. -/
theorem andPredicates_eval (a b : Predicate) :
    (andPredicates a b).eval key row ctx = (a.eval key row ctx && b.eval key row ctx) := by
  unfold andPredicates
  split
  next => rfl
  next => rw [Predicate.eval.eq_2, Bool.and_false]
  next =>
    rw [← andOperands_eval key row ctx a, ← andOperands_eval key row ctx b, ← List.all_append]
    split
    next h => rw [h]; rfl
    next p h => rw [h]; simp
    next ps h1 h2 =>
      rw [Predicate.eval, Predicate.evalAll_eq_all]

end Conjunctions

/-! ## Admission -/

section Admission

variable (u : Unicode) (perms : ExtTreeMap String String) (params : Option Json) (links : LinkMap)
  (env : Env) (store : Store) (ctx : Option Sp00kyValue)

/-- What an injected permission asks of a key. A permission plan is joined on the `id` of the
    bodies. -/
def PermInjection.Admits (k : String) : Option PermInjection → Prop
  | none => True
  | some (.pred p) => checkPredicate p k store ctx = true
  | some (.plan perm) => ∃ k' w, (perm.snapshot env store ctx)[k']? = some w ∧ 0 < w ∧
      joinMatches env (joinField store (Path.new "id") k) (joinField store (Path.new "id") k') = true

/-- A key of table `t` that the table's permission admits. -/
def PermittedFrom (t k : String) : Prop :=
  k ∈ store.held t ∧ ∃ inj, buildInjection u t perms params links = .ok inj ∧
    PermInjection.Admits env store ctx k inj

variable {u perms params links env store ctx}

theorem injectScan_permitted {t : String} {view plan : OperatorPlan}
    {fold : Predicate → OperatorPlan} (hview : ∀ k ∈ view.snapshot env store ctx, k ∈ store.held t)
    (hfold : ∀ p, ∀ k ∈ (fold p).snapshot env store ctx,
      k ∈ store.held t ∧ checkPredicate p k store ctx = true)
    (h : injectScan u perms params links t view fold = (plan, none)) {k : String}
    (hk : k ∈ plan.snapshot env store ctx) :
    PermittedFrom u perms params links env store ctx t k := by
  unfold injectScan at h
  split at h
  next => cases h
  next hb =>
    cases h
    exact ⟨hview k hk, none, hb, trivial⟩
  next p hb =>
    cases h
    exact ⟨(hfold p k hk).1, _, hb, (hfold p k hk).2⟩
  next perm hb =>
    cases h
    obtain ⟨hl, hm⟩ := mem_semiJoinSnapshot hk
    exact ⟨hview k hl, _, hb, hm⟩

theorem InjectResult.map_ok {f : OperatorPlan → OperatorPlan} {r : InjectResult}
    {plan : OperatorPlan} (h : r.map f = (plan, none)) :
    ∃ input, r = (input, none) ∧ plan = f input := by
  obtain ⟨input, e⟩ := r
  simp only [InjectResult.map, Prod.mk.injEq] at h
  exact ⟨input, by rw [h.2], h.1.symm⟩

theorem InjectResult.both_ok {f : OperatorPlan → OperatorPlan → OperatorPlan} {r : OperatorPlan}
    {left right : InjectResult} {plan : OperatorPlan}
    (h : InjectResult.both f r left right = (plan, none)) :
    ∃ l r', left = (l, none) ∧ right = (r', none) ∧ plan = f l r' := by
  obtain ⟨l, e⟩ := left
  obtain ⟨r', e'⟩ := right
  cases e with
  | some e => simp [InjectResult.both] at h
  | none =>
    simp only [InjectResult.both, Prod.mk.injEq] at h
    exact ⟨l, r', rfl, by rw [h.2], h.1.symm⟩

theorem mem_filter_snapshot {input : OperatorPlan} {p : Predicate} {k : String}
    (h : k ∈ (OperatorPlan.filter input p).snapshot env store ctx) :
    k ∈ input.snapshot env store ctx ∧ checkPredicate p k store ctx = true := by
  obtain ⟨w, hw, hp⟩ := mem_filter_exists.mp h
  have hw : (input.snapshot env store ctx)[k]? = some w := hw
  exact ⟨mem_of_getElem? hw, hp⟩

/-- A key of the rewritten plan comes from a scan, with what the table's permission asks. -/
theorem injectNode_permitted {plan plan' : OperatorPlan}
    (h : injectNode u perms params links plan = (plan', none)) {k : String}
    (hk : k ∈ plan'.snapshot env store ctx) :
    ∃ t, PermittedFrom u perms params links env store ctx t k := by
  induction plan using OperatorPlan.inputInduction generalizing plan' with
  | scan t =>
    rw [injectNode] at h
    have hview : ∀ k ∈ (OperatorPlan.scan t).snapshot env store ctx, k ∈ store.held t :=
      fun k hk => hk
    refine ⟨t, injectScan_permitted hview ?_ h hk⟩
    intro p k hk
    exact mem_filter_snapshot hk
  | filter input p ih =>
    cases input with
    | scan t =>
      rw [injectNode] at h
      have hview : ∀ k ∈ (OperatorPlan.filter (.scan t) p).snapshot env store ctx,
          k ∈ store.held t := fun k hk => (mem_filter_snapshot hk).1
      refine ⟨t, injectScan_permitted hview ?_ h hk⟩
      intro q k hk
      obtain ⟨hin, hpq⟩ := mem_filter_snapshot hk
      rw [checkPredicate, andPredicates_eval, Bool.and_eq_true] at hpq
      exact ⟨hin, hpq.2⟩
    | _ =>
      rw [injectNode] at h
      · obtain ⟨input', hi, rfl⟩ := InjectResult.map_ok h
        exact ih hi (mem_filter_snapshot hk).1
      · intro t ht
        cases ht
  | join l r on ihl ihr | antiJoin l r on ihl ihr =>
    rw [injectNode] at h
    obtain ⟨l', r', hl, -, rfl⟩ := InjectResult.both_ok h
    exact ihl hl (ExtTreeMap.mem_of_mem_filterMap hk)
  | semiJoin l r on ihl ihr =>
    rw [injectNode] at h
    obtain ⟨l', r', hl, -, rfl⟩ := InjectResult.both_ok h
    exact ihl hl (mem_semiJoinSnapshot hk).1
  | union l r ihl ihr =>
    rw [injectNode] at h
    obtain ⟨l', r', hl, hr, rfl⟩ := InjectResult.both_ok h
    rcases ZSet.mem_add hk with hk | hk
    · rcases ZSet.mem_add hk with hk | hk
      · cases ExtTreeMap.not_mem_empty hk
      · exact ihl hl hk
    · exact ihr hr hk
  | distinct input ih =>
    rw [injectNode] at h
    obtain ⟨input', hi, rfl⟩ := InjectResult.map_ok h
    exact ih hi (ExtTreeMap.mem_of_mem_filterMap hk)
  | project input ps ih =>
    rw [injectNode] at h
    split at h
    next => cases h
    next hi =>
      cases h
      exact ih (Prod.ext rfl hi) hk
  | limit input lim start ob ih =>
    rw [injectNode] at h
    obtain ⟨input', hi, rfl⟩ := InjectResult.map_ok h
    exact ih hi (TopK.mem_snapshot hk)

/-- A table whose rows an injected plan may show is listed or internal, and its rule is not
    `false`. -/
theorem buildInjection_ok {t : String} {inj : Option PermInjection}
    (h : buildInjection u t perms params links = .ok inj) :
    (perms[t]? = none → "_00_".toList.isPrefixOf t.toList = true) ∧
      ∀ text, perms[t]? = some text → eqIgnoreCase (permissionText text) "false" = false := by
  unfold buildInjection at h
  split at h
  next hn =>
    split at h
    next hp => exact ⟨fun _ => hp, fun text ht => by simp [hn] at ht⟩
    next => cases h
  next text ht =>
    refine ⟨fun hn => by simp [ht] at hn, fun text' ht' => ?_⟩
    rw [ht] at ht'
    cases ht'
    simp only at h
    split at h
    next htrue =>
      rw [eqIgnoreCase, beq_iff_eq] at htrue
      rw [eqIgnoreCase, htrue]
      decide
    next =>
      split at h
      next => cases h
      next hf => simpa using hf

/-- A permission plan whose rows have their own `id`s admits only its own keys. -/
theorem PermInjection.Admits.mem_snapshot {perm : OperatorPlan} {k : String}
    (h : PermInjection.Admits env store ctx k (some (.plan perm)))
    (hid : ∀ k' ∈ perm.snapshot env store ctx,
      joinMatches env (joinField store (Path.new "id") k) (joinField store (Path.new "id") k') = true →
        k' = k) : k ∈ perm.snapshot env store ctx := by
  obtain ⟨k', w, hw, -, hm⟩ := h
  have hk' : k' ∈ perm.snapshot env store ctx :=
    mem_of_getElem? hw
  rw [← hid k' hk' hm]
  exact hk'

/-- Every key an injected plan shows is a row of some table that its permission admits. -/
theorem injectPermissions_complete {plan plan' : OperatorPlan}
    (h : injectPermissionsWithLinks u perms params links plan = .ok plan') {k : String}
    (hk : k ∈ plan'.snapshot env store ctx) :
    ∃ t id, k = t ++ ":" ++ id ∧ (store.row t id).isSome ∧
      (ColonFree t → parseKey k = some (t, id)) ∧
      (perms[t]? = none → "_00_".toList.isPrefixOf t.toList = true) ∧
      (∀ text, perms[t]? = some text → eqIgnoreCase (permissionText text) "false" = false) ∧
      ∃ inj, buildInjection u t perms params links = .ok inj ∧
        PermInjection.Admits env store ctx k inj ∧
        ∀ perm, inj = some (.plan perm) →
          (∀ k' ∈ perm.snapshot env store ctx,
            joinMatches env (joinField store (Path.new "id") k)
              (joinField store (Path.new "id") k') = true → k' = k) →
          k ∈ perm.snapshot env store ctx := by
  unfold injectPermissionsWithLinks at h
  split at h
  next p hn =>
    cases h
    obtain ⟨t, hheld, inj, hb, ha⟩ := injectNode_permitted hn hk
    rcases held_getElem? (s := store) (t := t) k with ⟨-, id, hrow, rfl⟩ | ⟨hnone, -⟩
    · refine ⟨t, id, rfl, hrow, fun ht => parseKey_join ht id, (buildInjection_ok hb).1,
        (buildInjection_ok hb).2, inj, hb, ha, ?_⟩
      rintro perm rfl hid
      exact ha.mem_snapshot hid
    · rw [ExtTreeMap.mem_iff_isSome_getElem?, hnone] at hheld
      cases hheld
  next => cases h

end Admission

/-! ## Shared ids -/

/-- Rows of a member's own and of a shared document, both with the id of the member's. -/
def sharedIds : Store :=
  (Circuit.new.step Env.sample asWritten .sorted
    [⟨"t", .create, "1", .object [("id", .str "t:2"), ("owner", .str "u:2")]⟩,
     ⟨"t", .create, "2", .object [("id", .str "t:2"), ("owner", .str "u:1")]⟩,
     ⟨"member", .create, "1", .object [("who", .str "u:1")]⟩]).1.store

def memberText : String := "owner IN (SELECT VALUE who FROM member)"

/-- Whether a rewritten plan shows a key. -/
def injectedShows (r : Except InjectError OperatorPlan) (k : String) : Bool :=
  match r with
  | .ok plan => (plan.snapshot Env.sample sharedIds none).contains k
  | .error _ => false

/-- Whether a permission is a plan that does not show a key. -/
def permissionHides (r : Except InjectError (Option PermInjection)) (k : String) : Bool :=
  match r with
  | .ok (some (.plan perm)) => !(perm.snapshot Env.sample sharedIds none).contains k
  | _ => false

theorem exists_of_injectedShows {r : Except InjectError OperatorPlan}
    (h : injectedShows r k = true) :
    ∃ plan, r = .ok plan ∧ k ∈ plan.snapshot Env.sample sharedIds none := by
  unfold injectedShows at h
  split at h
  next plan => exact ⟨plan, rfl, ExtTreeMap.contains_iff_mem.mp h⟩
  next => cases h

theorem exists_of_permissionHides {r : Except InjectError (Option PermInjection)}
    (h : permissionHides r k = true) :
    ∃ perm, r = .ok (some (.plan perm)) ∧ k ∉ perm.snapshot Env.sample sharedIds none := by
  unfold permissionHides at h
  split at h
  next perm =>
    refine ⟨perm, rfl, fun hk => ?_⟩
    rw [ExtTreeMap.contains_iff_mem.mpr hk] at h
    cases h
  next => cases h

/-- The member's own document is shown by a plan whose permission asks for membership. -/
theorem injectPermissions_complete_member :
    ∃ plan', injectPermissionsWithLinks asciiUnicode (onePermission memberText) none ∅ (.scan "t") =
        .ok plan' ∧ "t:2" ∈ plan'.snapshot Env.sample sharedIds none ∧
      ∃ t id, "t:2" = t ++ ":" ++ id ∧ (sharedIds.row t id).isSome := by
  obtain ⟨plan', hp, hk⟩ := exists_of_injectedShows (k := "t:2")
    (r := injectPermissionsWithLinks asciiUnicode (onePermission memberText) none ∅ (.scan "t"))
    (by decide +kernel)
  obtain ⟨t, id, hkey, hrow, -⟩ := injectPermissions_complete hp hk
  exact ⟨plan', hp, hk, t, id, hkey, hrow⟩

/-- The document of another owner is shown as well when its body has the same id, although
    the permission does not admit it. -/
theorem injectPermissions_shared_id :
    ∃ plan' perm, injectPermissionsWithLinks asciiUnicode (onePermission memberText) none ∅
        (.scan "t") = .ok plan' ∧
      buildInjection asciiUnicode "t" (onePermission memberText) none ∅ =
        .ok (some (.plan perm)) ∧
      "t:1" ∈ plan'.snapshot Env.sample sharedIds none ∧
      "t:1" ∉ perm.snapshot Env.sample sharedIds none := by
  obtain ⟨plan', hp, hk⟩ := exists_of_injectedShows (k := "t:1")
    (r := injectPermissionsWithLinks asciiUnicode (onePermission memberText) none ∅ (.scan "t"))
    (by decide +kernel)
  obtain ⟨perm, hb, hn⟩ := exists_of_permissionHides (k := "t:1")
    (r := buildInjection asciiUnicode "t" (onePermission memberText) none ∅)
    (by decide +kernel)
  exact ⟨plan', perm, hp, hb, hk, hn⟩

end Sp00ky.Ssp
