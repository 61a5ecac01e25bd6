/-
  What `step_query` publishes.

  The delta of a step names the keys that enter the view (`stepAdditions`), those that
  leave it (`stepRemovals`) and those that stay and count as updated (`stepUpdates`).
  `publishStep_eq` puts the published delta together from these three, and each has a
  lemma that says which keys it holds.
-/
import Sp00ky.Ssp.StepFacts

namespace Sp00ky.Ssp

open Std Lib

/-- `changed` of `step_query`. -/
def changedKeys (ho : HashOrder) (deltas : TableDeltas) (cu : ContentUpdates) : List String :=
  deltas.toList.flatMap (fun td => td.2.keys) ++ contentKeys ho cu

section Publish

variable (ho : HashOrder) (store : Store) (v : View) (vd : ZSet) (deltas : TableDeltas)
  (cu : ContentUpdates)

/-- The keys that enter the view. -/
def stepAdditions : List String :=
  (entriesIn vd (ho.visit vd.keys)).filterMap fun kw =>
    if 0 < kw.2 ∧ !v.cache.contains kw.1 then some kw.1 else none

/-- The keys that leave the view. -/
def stepRemovals : List String :=
  (entriesIn vd (ho.visit vd.keys)).filterMap fun kw =>
    if kw.2 < 0 ∧ (v.cache[kw.1]?).any (fun old => old + kw.2 ≤ 0) then some kw.1 else none

/-- The updated keys of the view that no membership change names. -/
def ownUpdates : List String :=
  (contentKeys ho cu).filter fun k => v.cache.contains k && !vd.contains k

/-- The view that the subquery records are computed for. -/
def View.applied (v : View) (vd : ZSet) : View := { v with cache := View.applyDelta v.cache vd }

/-- Whether the subquery records are computed again. -/
def refreshes : Bool :=
  !vd.isEmpty || subqueryTouched v deltas cu || !(ownUpdates ho v vd cu).isEmpty

/-- The subquery changes, the view with its new records, and the parents they concern. -/
def refreshResult : View × List SubqueryDeltaItem × List String :=
  if refreshes ho v vd deltas cu then
    refreshSubqueries ho store (v.applied vd) (subqueryTouched v deltas cu)
      (changedKeys ho deltas cu)
  else (v.applied vd, [], [])

/-- The keys that stay in the view and count as updated. -/
def stepUpdates : List String :=
  (dedupFirst (sortBy compare
    (ownUpdates ho v vd cu ++ (refreshResult ho store v vd deltas cu).2.2))).filter fun k => !(stepAdditions ho v vd).contains k && !(stepRemovals ho v vd).contains k

theorem publishStep_eq (env : Env) :
    publishStep env ho store v vd deltas cu =
      announce env (refreshResult ho store v vd deltas cu).1 (subqueryTouched v deltas cu)
        (!vd.isEmpty) (stepAdditions ho v vd) (stepRemovals ho v vd) (stepUpdates ho store v vd deltas cu)
        (refreshResult ho store v vd deltas cu).2.1 := by
  unfold publishStep
  rfl

variable {ho store v vd deltas cu} {k : String}

theorem mem_stepAdditions :
    k ∈ stepAdditions ho v vd ↔ (∃ w, vd[k]? = some w ∧ 0 < w) ∧ k ∉ v.cache := by
  unfold stepAdditions
  rw [List.mem_filterMap]
  constructor
  · rintro ⟨⟨k', w⟩, hmem, hkw⟩
    split at hkw
    next hc =>
      cases hkw
      refine ⟨⟨w, (mem_entriesIn.mp hmem).2, hc.1⟩, fun hk => ?_⟩
      rw [ExtTreeMap.contains_iff_mem.mpr hk] at hc
      cases hc.2
    next => cases hkw
  · rintro ⟨⟨w, hw, hpos⟩, hk⟩
    refine ⟨(k, w), mem_entriesIn.mpr ⟨?_, hw⟩, by simp [hpos, hk]⟩
    exact (mem_visit _).mpr (mem_keys_of_getElem? hw)

theorem mem_stepRemovals :
    k ∈ stepRemovals ho v vd ↔ ∃ w old, vd[k]? = some w ∧ w < 0 ∧ v.cache[k]? = some old ∧
      old + w ≤ 0 := by
  unfold stepRemovals
  rw [List.mem_filterMap]
  constructor
  · rintro ⟨⟨k', w⟩, hmem, hkw⟩
    split at hkw
    next hc =>
      cases hkw
      cases hold : v.cache[k']? with
      | none =>
        rw [hold] at hc
        cases hc.2
      | some old =>
        rw [hold] at hc
        exact ⟨w, old, (mem_entriesIn.mp hmem).2, hc.1, rfl, by simpa using hc.2⟩
    next => cases hkw
  · rintro ⟨w, old, hw, hneg, hold, hle⟩
    refine ⟨(k, w), mem_entriesIn.mpr ⟨?_, hw⟩, by simp [hneg, hold, hle]⟩
    exact (mem_visit _).mpr (mem_keys_of_getElem? hw)

theorem mem_ownUpdates :
    k ∈ ownUpdates ho v vd cu ↔ k ∈ contentKeys ho cu ∧ k ∈ v.cache ∧ k ∉ vd := by
  rw [ownUpdates, List.mem_filter, Bool.and_eq_true, ExtTreeMap.contains_iff_mem,
    Bool.not_eq_true', ← Bool.not_eq_true, ExtTreeMap.contains_iff_mem]

/-- A key named as updated is published as updated unless it enters or leaves the view. -/
theorem mem_stepUpdates :
    k ∈ stepUpdates ho store v vd deltas cu ↔
      (k ∈ ownUpdates ho v vd cu ∨ k ∈ (refreshResult ho store v vd deltas cu).2.2) ∧
        k ∉ stepAdditions ho v vd ∧ k ∉ stepRemovals ho v vd := by
  rw [stepUpdates, List.mem_filter, mem_dedupFirst, mem_sortBy, List.mem_append]
  simp

/-- A key that stays in the view neither enters nor leaves it. -/
theorem stays_not_listed (hold : k ∈ v.cache) (hnew : k ∈ View.applyDelta v.cache vd) :
    k ∉ stepAdditions ho v vd ∧ k ∉ stepRemovals ho v vd := by
  refine ⟨fun h => (mem_stepAdditions.mp h).2 hold, fun h => ?_⟩
  obtain ⟨w, old, hw, -, hv, hle⟩ := mem_stepRemovals.mp h
  rw [ExtTreeMap.mem_iff_isSome_getElem?, View.applyDelta, getElem?_foldAlter, hw] at hnew
  dsimp only at hnew
  rw [hv, Option.getD_some, if_neg (by omega)] at hnew
  cases hnew

/-- An update makes the step publish. -/
theorem announce_updates (env : Env) {v : View} {touched membershipChanges : Bool}
    {additions removals updates : List String} {items : List SubqueryDeltaItem} (h : updates ≠ []) :
    ∃ d, (announce env v touched membershipChanges additions removals updates items).2 = some d ∧
      d.updates = updates := by
  have hu : (!updates.isEmpty || !items.isEmpty) = true := by
    cases updates with
    | nil => exact absurd rfl h
    | cons a l => rfl
  unfold announce
  dsimp only
  rw [hu, if_neg (by simp), if_neg (by simp)]
  exact ⟨_, rfl, rfl⟩

/-- A row that stays in the view and is named as updated is among the published updates. -/
theorem publishStep_updates (env : Env) (hold : k ∈ v.cache)
    (hnew : k ∈ View.applyDelta v.cache vd)
    (h : k ∈ ownUpdates ho v vd cu ∨ k ∈ (refreshResult ho store v vd deltas cu).2.2) :
    ∃ d, (publishStep env ho store v vd deltas cu).2 = some d ∧ k ∈ d.updates := by
  have hmem : k ∈ stepUpdates ho store v vd deltas cu :=
    mem_stepUpdates.mpr ⟨h, stays_not_listed hold hnew⟩
  obtain ⟨d, hd, hu⟩ := announce_updates env (List.ne_nil_of_mem hmem)
  rw [publishStep_eq]
  exact ⟨d, hd, hu ▸ hmem⟩

end Publish

/-- A step of a valid graph publishes the delta of the graph. -/
theorem stepQuery_publish (env : Env) (ho : HashOrder) (store : Store) {g : Graph} (hg : g.Valid)
    (v : View) (deltas : TableDeltas) (cu : ContentUpdates) :
    ∃ vd, (stepGraph env ho store v.params v.cache g deltas cu).2 = some vd ∧
      (stepQuery env ho store g v deltas cu).2 = publishStep env ho store v vd deltas cu := by
  obtain ⟨vd, hvd⟩ : ∃ vd, (stepGraph env ho store v.params v.cache g deltas cu).2 = some vd := by
    rw [stepGraph_eq env ho store v.params hg]
    exact ⟨_, rfl⟩
  refine ⟨vd, hvd, ?_⟩
  unfold stepQuery
  dsimp only
  rw [hvd]

end Sp00ky.Ssp
