/-
  Publications replicate views.

  A consumer of a registration replaces its set on an initial delta, and otherwise adds
  the additions and drops the removals. Along every sequence of registrations, leaves
  and steps it holds exactly the keys of the view it reads (`publications_replicate`),
  as long as an id is registered once at a time and the hash that decides whether a
  step is silent tells the key sets of two successive states of a view apart.
-/
import Sp00ky.Ssp.Merge
import Sp00ky.Ssp.Publish

namespace Sp00ky.Ssp

open Std Lib
open ExtTreeMap (contains_iff_mem getElem?_erase mem_iff_isSome_getElem? mem_keys)

/-! ## What one view publishes -/

/-- The delta of a view that goes from `v` to `v'`. -/
structure Publication (v v' : View) (d : Option ViewDelta) : Prop where
  silent : d = none → ∀ k, k ∈ v'.cache ↔ k ∈ v.cache
  named : ∀ x ∈ d, x.queryId = v.queryId
  fresh : ∀ x ∈ d, ∀ k ∈ x.additions, k ∉ x.removals ∧ k ∉ x.updates
  gone : ∀ x ∈ d, ∀ k ∈ x.removals, k ∉ x.updates
  inside : ∀ x ∈ d, ∀ k ∈ x.updates, k ∈ v'.cache
  whole : ∀ x ∈ d, x.initial = true → ∀ k, k ∈ x.additions ↔ k ∈ v'.cache
  follows : ∀ x ∈ d, x.initial = false → ∀ k,
    k ∈ v'.cache ↔ (k ∈ v.cache ∨ k ∈ x.additions) ∧ k ∉ x.removals

/-- A view in order: a set of keys, and the hash of the state last published. -/
structure View.InOrder (env : Env) (v : View) : Prop where
  binary : v.cache.Binary
  hashed : v.lastHash = v.computeHash env ∨ v.lastHash = "" ∧ v.cache = ∅

section Delta

variable {ho : HashOrder} {v : View} {vd : ZSet}

theorem mem_of_binary {z : ZSet} (h : z.Binary) {k : String} : k ∈ z ↔ z[k]? = some 1 := by
  rw [mem_iff_isSome_getElem?]
  rcases h k with hk | hk <;> simp [hk]

theorem mem_applyDelta (hb : v.cache.Binary) {k : String} :
    k ∈ View.applyDelta v.cache vd ↔
      (k ∈ v.cache ∨ k ∈ stepAdditions ho v vd) ∧ k ∉ stepRemovals ho v vd := by
  rw [mem_stepAdditions, mem_stepRemovals, mem_iff_isSome_getElem?, getElem?_applyDelta,
    mem_iff_isSome_getElem?]
  have hw : v.cache.weight k = (v.cache[k]?).getD 0 := rfl
  rw [hw]
  cases hd : vd[k]? with
  | none => simp
  | some w =>
    rcases hb k with hk | hk
    · by_cases h : 0 < w <;> simp [hk, h]
    · by_cases h : 0 < 1 + w
      · have hle : ¬ (w < 0 ∧ 1 + w ≤ 0) := by omega
        simp [hk, h]
      · have hlt : w < 0 := by omega
        have hle : 1 + w ≤ 0 := by omega
        simp [hk, h, hlt, hle]

theorem stepAdditions_disjoint {k : String} (h : k ∈ stepAdditions ho v vd) :
    k ∉ stepRemovals ho v vd := by
  intro h'
  obtain ⟨⟨w, hw, hpos⟩, -⟩ := mem_stepAdditions.mp h
  obtain ⟨w', old, hw', hneg, -⟩ := mem_stepRemovals.mp h'
  rw [hw, Option.some.injEq] at hw'
  omega

end Delta

/-- What the end of a step does: it stays silent about a view without changes or with the hash
    it published last, or publishes what it was given. -/
theorem announce_cases (env : Env) (v : View) (touched membershipChanges : Bool)
    (additions removals updates : List String) (items : List SubqueryDeltaItem) :
    let r := announce env v touched membershipChanges additions removals updates items
    r.1.queryId = v.queryId ∧ r.1.cache = v.cache ∧
      (r.2 = none ∧ r.1.lastHash = v.lastHash ∧ r.1.contentGeneration = v.contentGeneration ∧
          (membershipChanges = false ∨ r.1.lastHash = r.1.computeHash env) ∨
        ∃ d, r.2 = some d ∧ r.1.lastHash = r.1.computeHash env ∧ d.queryId = v.queryId ∧
          d.additions = additions ∧ d.removals = removals ∧ d.updates = updates ∧
          d.initial = false) := by
  intro r
  have hr : r = announce env v touched membershipChanges additions removals updates items := rfl
  unfold announce at hr
  dsimp only at hr
  split at hr
  next hquiet =>
    rw [hr]
    refine ⟨rfl, rfl, .inl ⟨rfl, rfl, rfl, .inl ?_⟩⟩
    simp only [Bool.and_eq_true, Bool.not_eq_true'] at hquiet
    exact hquiet.1
  next hloud =>
    generalize hn : v.contentGeneration + _ = n at hr
    split at hr
    next hsame =>
      rw [hr]
      refine ⟨rfl, rfl, .inl ⟨rfl, rfl, ?_, .inr hsame.1.symm⟩⟩
      rw [Bool.not_eq_true'] at hsame
      rw [← hn, hsame.2, Bool.and_false]
      rfl
    next =>
      rw [hr]
      exact ⟨rfl, rfl, .inr ⟨_, rfl, rfl, rfl, rfl, rfl, rfl, rfl⟩⟩

theorem refreshResult_kept (ho : HashOrder) (store : Store) (v : View) (vd : ZSet)
    (deltas : TableDeltas) (cu : ContentUpdates) :
    let w := refreshResult ho store v vd deltas cu
    w.1.queryId = v.queryId ∧ w.1.lastHash = v.lastHash ∧
      w.1.contentGeneration = v.contentGeneration ∧ w.1.cache = View.applyDelta v.cache vd ∧
      ∀ k ∈ w.2.2, k ∈ View.applyDelta v.cache vd := by
  intro w
  have hw : w = refreshResult ho store v vd deltas cu := rfl
  unfold refreshResult at hw
  split at hw
  next =>
    rw [hw]
    refine ⟨rfl, rfl, rfl, rfl, ?_⟩
    intro k hk
    simp only [refreshSubqueries] at hk
    split at hk
    next =>
      unfold subqueryUpdates at hk
      split at hk
      next => exact contains_iff_mem.mp (List.mem_filter.mp hk).2
      next => exact mem_keys.mp hk
    next => cases hk
  next =>
    rw [hw]
    exact ⟨rfl, rfl, rfl, rfl, fun k hk => by cases hk⟩

/-- Updates stay in the view. -/
theorem stepUpdates_inside {ho : HashOrder} {store : Store} {v : View} {vd : ZSet}
    {deltas : TableDeltas} {cu : ContentUpdates} {k : String}
    (h : k ∈ stepUpdates ho store v vd deltas cu) : k ∈ View.applyDelta v.cache vd := by
  rcases (mem_stepUpdates.mp h).1 with hown | hnamed
  · obtain ⟨-, hc, hvd⟩ := mem_ownUpdates.mp hown
    rw [mem_iff_isSome_getElem?, getElem?_applyDelta, ExtTreeMap.getElem?_eq_none hvd]
    rwa [mem_iff_isSome_getElem?] at hc
  · exact (refreshResult_kept ho store v vd deltas cu).2.2.2.2 k hnamed

section Views

variable {env : Env} (hne : ∀ keys n, env.viewHash keys n ≠ "") {ho : HashOrder} {store : Store}
  {v : View}

include hne in
/-- A step of a view publishes what changed, unless the hashes of two different key sets agree. -/
theorem publishStep_publication (h : v.InOrder env) (vd : ZSet) (deltas : TableDeltas)
    (cu : ContentUpdates) :
    let r := publishStep env ho store v vd deltas cu
    (r.1.computeHash env = v.computeHash env → ∀ k, k ∈ r.1.cache ↔ k ∈ v.cache) →
    r.1.queryId = v.queryId ∧ r.1.InOrder env ∧ Publication v r.1 r.2 := by
  intro r htells
  have hr : r = announce env _ _ _ _ _ _ _ := publishStep_eq ho store v vd deltas cu env
  obtain ⟨w1, w2, w3, w4, -⟩ := refreshResult_kept ho store v vd deltas cu
  obtain ⟨a1, a2, a3⟩ := announce_cases env (refreshResult ho store v vd deltas cu).1
    (subqueryTouched v deltas cu) (!vd.isEmpty) (stepAdditions ho v vd) (stepRemovals ho v vd)
    (stepUpdates ho store v vd deltas cu) (refreshResult ho store v vd deltas cu).2.1
  rw [← hr] at a1 a2 a3
  have hcache : r.1.cache = View.applyDelta v.cache vd := a2.trans w4
  have hbinary : r.1.cache.Binary := by
    rw [hcache]
    exact applyDelta_binary h.binary vd
  refine ⟨a1.trans w1, ?_⟩
  rcases a3 with ⟨hnone, hlast, hgen, hwhy⟩ | ⟨d, hd, hhash, hq, hadd, hrem, hupd, hinit⟩
  · have hsame : ∀ k, k ∈ r.1.cache ↔ k ∈ v.cache := by
      rcases hwhy with hquiet | hhash
      · have hvd : vd = ∅ := by
          rw [Bool.not_eq_false'] at hquiet
          exact ExtTreeMap.isEmpty_iff.mp hquiet
        rw [hcache, hvd, applyDelta_empty]
        exact fun _ => Iff.rfl
      · rcases h.hashed with hold | ⟨hold, -⟩
        · exact htells (by rw [← hhash, hlast, w2, hold])
        · rw [hlast, w2, hold] at hhash
          exact absurd hhash.symm (hne _ _)
    refine ⟨⟨hbinary, ?_⟩, ⟨fun _ => hsame, ?_, ?_, ?_, ?_, ?_, ?_⟩⟩
    · have hkeys : r.1.cache = v.cache := by
        refine ExtTreeMap.ext_getElem? fun k => ?_
        have hk := hsame k
        rw [mem_of_binary hbinary, mem_of_binary h.binary] at hk
        rcases hbinary k with h1 | h1 <;> rcases h.binary k with h2 | h2 <;>
          simp [h1, h2] at hk ⊢
      rcases h.hashed with hold | ⟨hold, hempty⟩
      · left
        rw [hlast, w2, hold, View.computeHash, View.computeHash, hkeys, hgen, w3]
      · right
        rw [hlast, w2, hkeys]
        exact ⟨hold, hempty⟩
    all_goals
      rw [hnone]
      intro x hx
      cases hx
  · refine ⟨⟨hbinary, .inl hhash⟩, ⟨?_, ?_, ?_, ?_, ?_, ?_, ?_⟩⟩
    all_goals rw [hd]
    · intro hn
      cases hn
    all_goals rintro x ⟨⟩
    · exact hq.trans w1
    · rw [hadd, hrem, hupd]
      exact fun k hk => ⟨stepAdditions_disjoint hk, fun hu => (mem_stepUpdates.mp hu).2.1 hk⟩
    · rw [hrem, hupd]
      exact fun k hk hu => (mem_stepUpdates.mp hu).2.2 hk
    · rw [hupd, hcache]
      exact fun k hk => stepUpdates_inside hk
    · rw [hinit]
      intro hi
      cases hi
    · intro _ k
      rw [hadd, hrem, hcache]
      exact mem_applyDelta h.binary

/-- A whole snapshot as a publication. -/
theorem Publication.ofWhole {v v' : View} {d : ViewDelta} (hq : d.queryId = v.queryId)
    (hi : d.initial = true) (hu : d.updates = []) (hr : d.additions = [] ∨ d.removals = [])
    (hk : ∀ k, k ∈ d.additions ↔ k ∈ v'.cache) : Publication v v' (some d) := by
  refine ⟨fun hn => absurd hn (by simp), ?_, ?_, ?_, ?_, ?_, ?_⟩
  all_goals rintro x ⟨⟩
  · exact hq
  · rw [hu]
    intro k hadd
    refine ⟨fun hrem => ?_, by simp⟩
    rcases hr with h | h
    · rw [h] at hadd
      cases hadd
    · rw [h] at hrem
      cases hrem
  · rw [hu]
    exact fun k _ => by simp
  · rw [hu]
    exact fun k hupd => by cases hupd
  · exact fun _ => hk
  · rw [hi]
    intro hinit
    cases hinit

/-- The first snapshot of a view that holds nothing yet. -/
theorem initialSnapshot_whole (g : Graph) (hc : v.cache = ∅) (hl : v.lastHash = "") :
    let r := initialSnapshot env ho store g v
    r.2.1.queryId = v.queryId ∧ r.2.1.InOrder env ∧
      (r.2.2 = none ∧ r.2.1.cache = ∅ ∨
        ∃ d, r.2.2 = some d ∧ d.queryId = v.queryId ∧ d.initial = true ∧ d.removals = [] ∧
          d.updates = [] ∧ ∀ k, k ∈ d.additions ↔ k ∈ r.2.1.cache) := by
  intro r
  have hr : r = initialSnapshot env ho store g v := rfl
  have hempty : (∅ : ZSet).Binary := fun k => .inl (by simp)
  have hnothing : v.InOrder env := ⟨by rw [hc]; exact hempty, .inr ⟨hl, hc⟩⟩
  unfold initialSnapshot at hr
  dsimp only at hr
  split at hr
  next =>
    rw [hr]
    exact ⟨rfl, hnothing, .inl ⟨rfl, hc⟩⟩
  next output _ =>
    split at hr
    next =>
      rw [hr]
      exact ⟨rfl, hnothing, .inl ⟨rfl, hc⟩⟩
    next =>
      rw [hr]
      refine ⟨rfl, ⟨applyDelta_binary hnothing.binary output, .inl rfl⟩,
        .inr ⟨_, rfl, rfl, rfl, rfl, rfl, ?_⟩⟩
      intro k
      dsimp only
      rw [List.mem_filterMap, hc, mem_iff_isSome_getElem?, getElem?_applyDelta]
      have hzero : (∅ : ZSet).weight k = 0 := by simp [ZSet.weight]
      constructor
      · rintro ⟨⟨k', w⟩, hmem, hkw⟩
        split at hkw
        next hpos =>
          cases hkw
          rw [(mem_entriesIn.mp hmem).2]
          simp [hzero, hpos]
        next => cases hkw
      · intro hk
        cases hw : output[k]? with
        | none =>
          rw [hw] at hk
          simp at hk
        | some w =>
          rw [hw, hzero] at hk
          dsimp only at hk
          have hpos : 0 < w := by
            by_contra hn
            rw [if_neg (by omega)] at hk
            cases hk
          refine ⟨(k, w), mem_entriesIn.mpr ⟨?_, hw⟩, by simp [hpos]⟩
          exact (mem_visit _).mpr (mem_keys_of_getElem? hw)

theorem reprimeView_publication (g : Graph) (w : View) (hq : v.queryId = w.queryId) :
    let r := Circuit.reprimeView env g ho store v
    r.2.1.queryId = w.queryId ∧ r.2.1.InOrder env ∧ Publication w r.2.1 (some r.2.2) := by
  intro r
  have hr : r = Circuit.reprimeView env g ho store v := rfl
  obtain ⟨h1, h2, h3⟩ := @initialSnapshot_whole env ho store
    { v with cache := ∅, subqueryCache := ∅, lastHash := "" } g rfl rfl
  unfold Circuit.reprimeView at hr
  dsimp only at hr
  split at hr
  next g' v' d heq =>
    rw [heq] at h1 h2 h3
    rw [hr]
    refine ⟨h1.trans hq, h2, ?_⟩
    obtain ⟨hn, -⟩ | ⟨d', hd, hdq, hi, hrem, hu, hk⟩ := h3
    · cases hn
    · cases hd
      exact .ofWhole (hdq.trans hq) hi hu (.inr hrem) hk
  next g' v' heq =>
    rw [heq] at h1 h2 h3
    rw [hr]
    obtain ⟨-, hempty⟩ | ⟨d', hd, -⟩ := h3
    · refine ⟨h1.trans hq, ⟨h2.binary, .inl rfl⟩, .ofWhole (h1.trans hq) rfl rfl (.inl rfl) ?_⟩
      intro k
      dsimp only at hempty ⊢
      rw [hempty]
      simp
    · cases hd

theorem stepQuery_queryId (g : Graph) (deltas : TableDeltas) (cu : ContentUpdates) :
    (stepQuery env ho store g v deltas cu).2.1.queryId = v.queryId := by
  unfold stepQuery
  dsimp only
  split
  next => rfl
  next vd _ =>
    dsimp only
    rw [publishStep_eq, (announce_cases env _ _ _ _ _ _ _).1]
    exact (refreshResult_kept ho store v vd deltas cu).1

include hne in
/-- The step of a view is a publication of what it leaves. -/
theorem stepView_publication (h : v.InOrder env) (planner : IndexPlanner) (deltas : TableDeltas)
    (cu : ContentUpdates) (g : Graph) :
    let r := Circuit.stepView env planner ho store deltas cu g v
    (r.2.1.computeHash env = v.computeHash env → ∀ k, k ∈ r.2.1.cache ↔ k ∈ v.cache) →
    r.2.1.queryId = v.queryId ∧ r.2.1.InOrder env ∧ Publication v r.2.1 r.2.2 := by
  intro r htells
  have hr : r = Circuit.stepView env planner ho store deltas cu g v := rfl
  unfold Circuit.stepView at hr
  dsimp only at hr
  split at hr
  next =>
    have hpub := @reprimeView_publication env ho store (stepQuery env ho store g v deltas cu).2.1
      (Graph.fromPlanWith (stepQuery env ho store g v deltas cu).2.1.plan.root planner) v
      (stepQuery_queryId g deltas cu)
    rw [hr]
    exact hpub
  next =>
    rw [hr] at htells ⊢
    unfold stepQuery at htells ⊢
    dsimp only at htells ⊢
    split
    next hnone =>
      refine ⟨rfl, h, ⟨fun _ _ => Iff.rfl, ?_, ?_, ?_, ?_, ?_, ?_⟩⟩
      all_goals
        intro x hx
        cases hx
    next vd hsome =>
      rw [hsome] at htells
      exact publishStep_publication hne h vd deltas cu htells

end Views

/-! ## Consumers -/

/-- What a consumer holds after a delta. -/
def consume (held : ExtTreeSet String) (d : ViewDelta) : ExtTreeSet String :=
  if d.initial then ExtTreeSet.ofList d.additions
  else d.removals.foldl ExtTreeSet.erase (d.additions.foldl ExtTreeSet.insert held)

theorem mem_foldl_insert (l : List String) (held : ExtTreeSet String) (k : String) :
    k ∈ l.foldl ExtTreeSet.insert held ↔ k ∈ held ∨ k ∈ l := by
  induction l generalizing held with
  | nil => simp
  | cons a l ih =>
    rw [List.foldl_cons, ih, ExtTreeSet.mem_insert, LawfulEqOrd.compare_eq_iff_eq, List.mem_cons]
    tauto

theorem mem_foldl_erase (l : List String) (held : ExtTreeSet String) (k : String) :
    k ∈ l.foldl ExtTreeSet.erase held ↔ k ∈ held ∧ k ∉ l := by
  induction l generalizing held with
  | nil => simp
  | cons a l ih =>
    rw [List.foldl_cons, ih, ExtTreeSet.mem_erase, ne_eq, LawfulEqOrd.compare_eq_iff_eq,
      List.mem_cons]
    tauto

/-- A consumer that holds a view holds what a publication of the view leaves. -/
theorem Publication.consumed {v v' : View} {d : Option ViewDelta} (h : Publication v v' d)
    {held : ExtTreeSet String} (hh : ∀ k, k ∈ held ↔ k ∈ v.cache) (k : String) :
    k ∈ (d.toList.foldl consume held) ↔ k ∈ v'.cache := by
  cases d with
  | none => exact (hh k).trans (h.silent rfl k).symm
  | some x =>
    change k ∈ consume held x ↔ _
    unfold consume
    cases hi : x.initial with
    | true =>
      rw [if_pos rfl, ExtTreeSet.mem_ofList, List.contains_iff_mem]
      exact h.whole x rfl hi k
    | false =>
      rw [if_neg (by simp), mem_foldl_erase, mem_foldl_insert, hh]
      exact (h.follows x rfl hi k).symm

/-- The registrations that read a view: its subscribers, and its owner unless that left. -/
def Circuit.recipients (c : Circuit) (q : String) : List String :=
  (c.subscribersOf q).map Subscriber.queryId ++ if c.detachedOwners.contains q then [] else [q]

/-- A circuit and the consumers of its registrations, with the deltas of the last call. -/
structure Replica where
  circuit : Circuit
  held : String → ExtTreeSet String
  emitted : List ViewDelta

/-- The deltas of a call reach the consumers they name. -/
def Replica.receive (r : Replica) (c : Circuit) (ds : List ViewDelta) : Replica :=
  ⟨c, fun id => (ds.filter (fun d => d.queryId == id)).foldl consume (r.held id), ds⟩

/-- The registration of an id ends, and its consumer with it. -/
def Replica.leave (r : Replica) (c : Circuit) (id : String) : Replica :=
  ⟨c, Function.update r.held id ∅, []⟩

/-- No step leaves a view with another key set and the hash it had. -/
def HashTells (env : Env) (planning : Planning) (ho : HashOrder) (c : Circuit)
    (changes : List Change) : Prop :=
  ∀ (q : String) (v v' : View), c.views[q]? = some v → (c.step env planning ho changes).1.views[q]? = some v' →
    v'.computeHash env = v.computeHash env → ∀ k, k ∈ v'.cache ↔ k ∈ v.cache

/-- The runs of a circuit that starts without registrations. An id is registered while it is
    unknown; only a subscriber may attach again, where it is. -/
inductive Replicates (env : Env) (planning : Planning) : Replica → Prop
  | start (c : Circuit) (hv : c.views = ∅) (hs : c.subscribers = ∅) (hd : c.detachedOwners = ∅) :
      Replicates env planning ⟨c, fun _ => ∅, []⟩
  | addQuery {r} (ho : HashOrder) (plan : QueryPlan) (params : Option Json) (authId : String) :
      Replicates env planning r → r.circuit.registration ho plan.id = none →
      Replicates env planning (r.receive (r.circuit.addQuery env planning ho plan params authId).1
        (r.circuit.addQuery env planning ho plan params authId).2.toList)
  | claimMergeKey {r} (mergeKey queryId : String) : Replicates env planning r →
      Replicates env planning (r.receive (r.circuit.claimMergeKey mergeKey queryId) [])
  | attachSubscriber {r} (ho : HashOrder) (owner queryId authId : String) :
      Replicates env planning r →
      (r.circuit.registration ho queryId = none ∨
        Circuit.canonicalQueryId queryId ∈
          (r.circuit.subscribersOf (Circuit.canonicalQueryId owner)).map Subscriber.queryId) →
      Replicates env planning (r.receive (r.circuit.attachSubscriber ho owner queryId authId).1
        (r.circuit.attachSubscriber ho owner queryId authId).2.toList)
  | detachSubscriber {r} (ho : HashOrder) (queryId : String) : Replicates env planning r →
      Replicates env planning (r.leave (r.circuit.detachSubscriber ho queryId).1
        (Circuit.canonicalQueryId queryId))
  | step {r} (ho : HashOrder) (changes : List Change) : Replicates env planning r →
      HashTells env planning ho r.circuit changes →
      Replicates env planning (r.receive (r.circuit.step env planning ho changes).1
        (r.circuit.step env planning ho changes).2)

/-! ## The registry -/

/-- Who reads which view: subscribers of live views, each id at one place. -/
structure Circuit.Shared (c : Circuit) : Prop where
  canonical : ∀ q ∈ c.views, Circuit.canonicalQueryId q = q
  owned : ∀ o, c.subscribersOf o ≠ [] → o ∈ c.views
  apart : ∀ o, ∀ s ∈ c.subscribersOf o, s.queryId ∉ c.views
  once : ∀ o o', ∀ s ∈ c.subscribersOf o, ∀ s' ∈ c.subscribersOf o', s.queryId = s'.queryId → o = o'
  distinct : ∀ o, ((c.subscribersOf o).map Subscriber.queryId).Nodup
  detached : ∀ q ∈ c.detachedOwners, q ∈ c.views

/-- An id is unknown to a circuit. -/
def Circuit.Unknown (c : Circuit) (id : String) : Prop :=
  id ∉ c.views ∧ ∀ o, ∀ s ∈ c.subscribersOf o, s.queryId ≠ id

section Registry

variable {c : Circuit}

theorem subscribersOf_key {o : String} (h : c.subscribersOf o ≠ []) : o ∈ c.subscribers := by
  rw [mem_iff_isSome_getElem?]
  unfold Circuit.subscribersOf at h
  cases hs : c.subscribers[o]? with
  | none =>
    rw [hs] at h
    exact absurd rfl h
  | some l => rfl

theorem registration_none {ho : HashOrder} {id : String} :
    c.registration ho id = none ↔ c.Unknown (Circuit.canonicalQueryId id) := by
  unfold Circuit.registration Circuit.Unknown
  dsimp only
  rw [mem_iff_isSome_getElem?]
  cases hv : c.views[Circuit.canonicalQueryId id]? with
  | some v => simp
  | none =>
    simp only [Option.isSome_none, Bool.false_eq_true, not_false_eq_true, true_and,
      List.findSome?_eq_none_iff, Option.map_eq_none_iff, List.find?_eq_none]
    constructor
    · intro h o s hs he
      have hk : o ∈ ho.visit c.subscribers.keys := by
        rw [mem_visit, mem_keys]
        exact subscribersOf_key (List.ne_nil_of_mem hs)
      exact h o hk s hs (by rw [he]; simp)
    · intro h o _ s hs
      simpa using h o s hs

theorem ownerOf_some {ho : HashOrder} {id o : String} (h : c.ownerOf ho id = some o) :
    ∃ s ∈ c.subscribersOf o, s.queryId = id := by
  rw [Circuit.ownerOf] at h
  have hany := List.find?_some h
  obtain ⟨s, hs, he⟩ := List.any_eq_true.mp hany
  exact ⟨s, hs, by simpa using he⟩

theorem ownerOf_none {ho : HashOrder} {id : String} (h : c.ownerOf ho id = none) :
    ∀ o, ∀ s ∈ c.subscribersOf o, s.queryId ≠ id := by
  intro o s hs he
  rw [Circuit.ownerOf, List.find?_eq_none] at h
  refine h o ?_ (List.any_eq_true.mpr ⟨s, hs, by rw [he]; simp⟩)
  rw [mem_visit, mem_keys]
  exact subscribersOf_key (List.ne_nil_of_mem hs)

theorem canonicalQueryId_idem (id : String) :
    Circuit.canonicalQueryId (Circuit.canonicalQueryId id) = Circuit.canonicalQueryId id := by
  unfold Circuit.canonicalQueryId
  rw [String.toList_ofList, List.reverse_reverse, List.takeWhile_idem]

theorem mem_recipients {q id : String} :
    id ∈ c.recipients q ↔
      (∃ s ∈ c.subscribersOf q, s.queryId = id) ∨ id = q ∧ q ∉ c.detachedOwners := by
  unfold Circuit.recipients
  rw [List.mem_append, List.mem_map]
  refine or_congr Iff.rfl ?_
  by_cases hd : q ∈ c.detachedOwners
  · rw [if_pos (by simpa using hd)]
    simp [hd]
  · rw [if_neg (by simpa using hd)]
    simp [hd]

variable (h : c.Shared)

include h

theorem Circuit.Shared.recipients_nodup {q : String} (hq : q ∈ c.views) :
    (c.recipients q).Nodup := by
  unfold Circuit.recipients
  refine List.nodup_append.mpr ⟨h.distinct q, ?_, ?_⟩
  · split <;> simp
  · intro a ha b hb he
    obtain ⟨s, hs, rfl⟩ := List.mem_map.mp ha
    split at hb
    · cases hb
    · rw [List.mem_singleton.mp hb] at he
      exact h.apart q s hs (he ▸ hq)

theorem Circuit.Shared.recipients_unique {q q' id : String} (hq : q ∈ c.views) (hq' : q' ∈ c.views)
    (hid : id ∈ c.recipients q) (hid' : id ∈ c.recipients q') : q = q' := by
  rcases mem_recipients.mp hid with ⟨s, hs, he⟩ | ⟨he, -⟩ <;>
    rcases mem_recipients.mp hid' with ⟨s', hs', he'⟩ | ⟨he', -⟩
  · exact h.once q q' s hs s' hs' (he.trans he'.symm)
  · rw [← he', ← he] at hq'
    exact absurd hq' (h.apart q s hs)
  · rw [← he, ← he'] at hq
    exact absurd hq (h.apart q' s' hs')
  · exact he.symm.trans he'

/-- Nobody attaches, and who reads a view reads it under the same registration. -/
theorem Circuit.Shared.of_sublist {c' : Circuit}
    (hsub : ∀ o, (c'.subscribersOf o).Sublist (c.subscribersOf o))
    (hcanonical : ∀ q ∈ c'.views, Circuit.canonicalQueryId q = q)
    (howned : ∀ o, c'.subscribersOf o ≠ [] → o ∈ c'.views)
    (hapart : ∀ o, ∀ s ∈ c.subscribersOf o, s.queryId ∉ c'.views)
    (hdetached : ∀ q ∈ c'.detachedOwners, q ∈ c'.views) : c'.Shared :=
  ⟨hcanonical, howned, fun o s hs => hapart o s ((hsub o).subset hs),
    fun o o' s hs s' hs' => h.once o o' s ((hsub o).subset hs) s' ((hsub o').subset hs'),
    fun o => (h.distinct o).sublist ((hsub o).map _), hdetached⟩

omit h in
/-- An unknown id reads no view. -/
theorem Circuit.Unknown.not_recipient {id q : String} (hu : c.Unknown id) (hq : q ∈ c.views) :
    id ∉ c.recipients q := by
  intro hid
  rcases mem_recipients.mp hid with ⟨s, hs, he⟩ | ⟨he, -⟩
  · exact hu.2 q s hs he
  · exact hu.1 (he ▸ hq)

end Registry

/-! ## Calls on one registration -/

/-- What a call emits. -/
structure Emits (c : Circuit) (ds : List ViewDelta) : Prop where
  once : (ds.map ViewDelta.queryId).Nodup
  fresh : ∀ d ∈ ds, ∀ k ∈ d.additions, k ∉ d.removals ∧ k ∉ d.updates
  gone : ∀ d ∈ ds, ∀ k ∈ d.removals, k ∉ d.updates
  inside : ∀ d ∈ ds, ∃ q v, c.views[q]? = some v ∧ d.queryId ∈ c.recipients q ∧
    ∀ k ∈ d.updates, k ∈ v.cache

/-- Every consumer holds the view it reads. -/
structure Replica.Faithful (env : Env) (r : Replica) : Prop where
  shared : r.circuit.Shared
  ordered : ∀ (q : String) (v : View), r.circuit.views[q]? = some v → v.queryId = q ∧ v.InOrder env
  held : ∀ (q : String) (v : View), r.circuit.views[q]? = some v → ∀ id ∈ r.circuit.recipients q,
    ∀ k, k ∈ r.held id ↔ k ∈ v.cache
  idle : ∀ id, (∀ q ∈ r.circuit.views, id ∉ r.circuit.recipients q) → ∀ k, k ∉ r.held id
  emitted : Emits r.circuit r.emitted

theorem emits_nil (c : Circuit) : Emits c [] :=
  ⟨List.nodup_nil, by simp, by simp, by simp⟩

theorem receive_one (r : Replica) (c : Circuit) (d : ViewDelta) (id : String) :
    (r.receive c [d]).held id = if d.queryId = id then consume (r.held id) d else r.held id := by
  unfold Replica.receive
  dsimp only
  by_cases h : d.queryId = id
  · rw [List.filter_cons_of_pos (by simpa using h), if_pos h]
    rfl
  · rw [List.filter_cons_of_neg (by simpa using h), if_neg h]
    rfl

section Calls

variable {env : Env} {r : Replica} {c : Circuit}

theorem faithful_start (hv : c.views = ∅) (hs : c.subscribers = ∅)
    (hd : c.detachedOwners = ∅) : Replica.Faithful env ⟨c, fun _ => ∅, []⟩ := by
  have hsubs : ∀ o, c.subscribersOf o = [] := fun o => by simp [Circuit.subscribersOf, hs]
  refine ⟨⟨?_, ?_, ?_, ?_, ?_, ?_⟩, ?_, ?_, fun _ _ k => by simp, emits_nil c⟩
  · simp [hv]
  · exact fun o h => absurd (hsubs o) h
  · exact fun o s h => by rw [hsubs] at h; cases h
  · exact fun o o' s h => by rw [hsubs] at h; cases h
  · exact fun o => by rw [hsubs]; exact List.nodup_nil
  · simp [hd]
  · simp [hv]
  · simp [hv]

/-- The recipients are read off the subscribers and the detached owners. -/
theorem recipients_congr {c c' : Circuit} (hs : c.subscribers = c'.subscribers)
    (hd : c.detachedOwners = c'.detachedOwners) :
    c.subscribersOf = c'.subscribersOf ∧ c.recipients = c'.recipients := by
  have hsubs : c.subscribersOf = c'.subscribersOf := by
    funext o
    rw [Circuit.subscribersOf, Circuit.subscribersOf, hs]
  refine ⟨hsubs, funext fun q => ?_⟩
  rw [Circuit.recipients, Circuit.recipients, hsubs, hd]

/-- A call that leaves views, subscribers and detached owners alone. -/
theorem Replica.Faithful.same (h : r.Faithful env) (hv : c.views = r.circuit.views)
    (hs : c.subscribers = r.circuit.subscribers) (hd : c.detachedOwners = r.circuit.detachedOwners) :
    (r.receive c []).Faithful env := by
  obtain ⟨hsubs, hrec⟩ := recipients_congr hs hd
  refine ⟨h.shared.of_sublist (fun o => ?_) ?_ ?_ ?_ ?_, ?_, ?_, ?_, emits_nil c⟩ <;>
    simp only [Replica.receive, hv, hsubs, hd, hrec]
  · exact List.Sublist.refl _
  · exact h.shared.canonical
  · exact h.shared.owned
  · exact h.shared.apart
  · exact h.shared.detached
  · exact h.ordered
  · exact h.held
  · exact h.idle

theorem initialSnapshot_publication {ho : HashOrder} {store : Store} {v : View} (g : Graph)
    (hc : v.cache = ∅) (hl : v.lastHash = "") :
    let s := initialSnapshot env ho store g v
    s.2.1.queryId = v.queryId ∧ s.2.1.InOrder env ∧ Publication v s.2.1 s.2.2 := by
  intro s
  obtain ⟨h1, h2, ⟨hn, hempty⟩ | ⟨d, hd, hq, hi, hrem, hu, hk⟩⟩ :=
    @initialSnapshot_whole env ho store v g hc hl
  · refine ⟨h1, h2, ⟨fun _ k => ?_, ?_, ?_, ?_, ?_, ?_, ?_⟩⟩
    · rw [hempty, hc]
    all_goals
      intro x hx
      rw [hn] at hx
      cases hx
  · refine ⟨h1, h2, ?_⟩
    change Publication v _ (initialSnapshot env ho store g v).2.2
    rw [hd]
    exact .ofWhole hq hi hu (.inr hrem) hk

/-- The deltas of one view reach the one registration they name. -/
theorem receive_option {d : Option ViewDelta} {q : String} (hd : ∀ x ∈ d, x.queryId = q)
    (c : Circuit) (id : String) :
    (r.receive c d.toList).held id =
      if id = q then d.toList.foldl consume (r.held id) else r.held id := by
  cases d with
  | none => split <;> rfl
  | some x =>
    rw [Option.toList_some, receive_one, hd x rfl]
    by_cases h : q = id
    · rw [if_pos h, if_pos h.symm]
      rfl
    · rw [if_neg h, if_neg (Ne.symm h)]

/-- A new view with the registration that owns it. -/
theorem Replica.Faithful.enroll (h : r.Faithful env) {q : String} (hu : r.circuit.Unknown q)
    (hq : Circuit.canonicalQueryId q = q) {v v' : View} {d : Option ViewDelta}
    (hc : ∀ q' : String, c.views[q']? = if q' = q then some v' else r.circuit.views[q']?)
    (hs : c.subscribers = r.circuit.subscribers) (hd : c.detachedOwners = r.circuit.detachedOwners)
    (hv : v.cache = ∅) (hvq : v.queryId = q) (hv' : v'.queryId = q) (ho : v'.InOrder env)
    (hp : Publication v v' d) : (r.receive c d.toList).Faithful env := by
  obtain ⟨hsubs, hrec⟩ := recipients_congr hs hd
  have hmem : ∀ q', q' ∈ c.views ↔ q' = q ∨ q' ∈ r.circuit.views := by
    intro q'
    rw [mem_iff_isSome_getElem?, hc, mem_iff_isSome_getElem?]
    by_cases hq' : q' = q <;> simp [hq']
  -- nobody reads the new view yet but its owner
  have hnosubs : r.circuit.subscribersOf q = [] := by
    by_contra hne
    exact hu.1 (h.shared.owned q hne)
  have hrecq : r.circuit.recipients q = [q] := by
    rw [Circuit.recipients, hnosubs, if_neg]
    · rfl
    · intro hdet
      exact hu.1 (h.shared.detached q (by simpa using hdet))
  have hheld := receive_option (r := r) (fun x hx => (hp.named x hx).trans hvq) c
  have hshared : c.Shared := by
    refine h.shared.of_sublist (fun o => (congrFun hsubs o).symm ▸ .refl _) ?_ ?_ ?_ ?_
    · intro q' hq'
      rcases (hmem q').mp hq' with rfl | hq'
      · exact hq
      · exact h.shared.canonical q' hq'
    · intro o ho'
      rw [hsubs] at ho'
      exact (hmem o).mpr (.inr (h.shared.owned o ho'))
    · intro o s hs'
      rw [hmem]
      rintro (he | he)
      · exact hu.2 o s hs' he
      · exact h.shared.apart o s hs' he
    · intro q' hq'
      rw [hd] at hq'
      exact (hmem q').mpr (.inr (h.shared.detached q' hq'))
  refine ⟨hshared, ?_, ?_, ?_, ⟨?_, ?_, ?_, ?_⟩⟩
  · intro q' w hw
    change c.views[q']? = some w at hw
    rw [hc] at hw
    split at hw
    next he =>
      cases hw
      rw [he]
      exact ⟨hv', ho⟩
    next => exact h.ordered q' w hw
  · intro q' w hw id hid k
    change c.views[q']? = some w at hw
    change id ∈ c.recipients q' at hid
    rw [hc] at hw
    rw [hrec] at hid
    rw [hheld]
    split at hw
    next he =>
      cases hw
      rw [he, hrecq, List.mem_singleton] at hid
      rw [if_pos hid, hid]
      refine hp.consumed (fun k => ?_) k
      rw [hv]
      refine iff_of_false (h.idle q (fun o ho => hu.not_recipient ho) k) (by simp)
    next he =>
      have hq' : q' ∈ r.circuit.views := mem_of_getElem? hw
      have hne : id ≠ q := fun hid' => hu.not_recipient hq' (hid' ▸ hid)
      rw [if_neg hne]
      exact h.held q' w hw id hid k
  · intro id hid k
    have hne : id ≠ q := by
      rintro rfl
      refine hid id ((hmem id).mpr (.inl rfl)) ?_
      change id ∈ c.recipients id
      rw [hrec, hrecq]
      exact List.mem_singleton_self id
    rw [hheld, if_neg hne]
    refine h.idle id (fun q' hq' => ?_) k
    have := hid q' ((hmem q').mpr (.inr hq'))
    change id ∉ c.recipients q' at this
    rwa [hrec] at this
  · cases d <;> simp [Replica.receive]
  · exact fun x hx => hp.fresh x (by simpa [Replica.receive] using hx)
  · exact fun x hx => hp.gone x (by simpa [Replica.receive] using hx)
  · intro x hx
    have hx : x ∈ d := by simpa [Replica.receive] using hx
    refine ⟨q, v', ?_, ?_, hp.inside x hx⟩
    · change c.views[q]? = _
      rw [hc, if_pos rfl]
    · change x.queryId ∈ c.recipients q
      rw [hrec, hrecq, (hp.named x hx).trans hvq]
      exact List.mem_singleton_self q

theorem faithful_addQuery (h : r.Faithful env) (planning : Planning) (ho : HashOrder)
    (plan : QueryPlan) (params : Option Json) (authId : String)
    (hu : r.circuit.registration ho plan.id = none) :
    (r.receive (r.circuit.addQuery env planning ho plan params authId).1
      (r.circuit.addQuery env planning ho plan params authId).2.toList).Faithful env := by
  obtain ⟨hsq, -⟩ := refreshRetainedFields_frame (enrolled planning r.circuit plan params authId)
  obtain ⟨p1, p2, p3⟩ := @initialSnapshot_publication env ho
    (enrolled planning r.circuit plan params authId).refreshRetainedFields.store
    (View.new (Circuit.canonicalQueryId plan.id) ⟨Circuit.canonicalQueryId plan.id, plan.root⟩
      (params.map Sp00kyValue.ofJson) plan.root.referencedTables authId)
    (Graph.fromPlanWith plan.root (planning r.circuit.indexDefs (params.map Sp00kyValue.ofJson)))
    rfl rfl
  rw [addQuery_run]
  refine h.enroll (registration_none.mp hu) (canonicalQueryId_idem _) ?_ hsq.subscribers
    hsq.detachedOwners rfl rfl p1 p2 p3
  intro q'
  dsimp only
  rw [(setQuery_getElem? _ _ _ _ _).2]
  by_cases hq : q' = Circuit.canonicalQueryId plan.id
  · rw [if_pos hq, if_pos hq]
  · rw [if_neg hq, if_neg hq, hsq.views, enrolled_views, if_neg hq]

/-- The subscribers of an owner after one more attached. -/
def Circuit.joined (c : Circuit) (o q authId : String) : List Subscriber :=
  if (c.subscribersOf o).any (fun s => s.queryId == q) then c.subscribersOf o
  else c.subscribersOf o ++ [⟨q, authId⟩]

theorem attachSubscriber_cases (c : Circuit) (ho : HashOrder) (owner queryId authId : String) :
    let q := Circuit.canonicalQueryId queryId
    let o := Circuit.canonicalQueryId owner
    c.views[o]? = none ∧ c.attachSubscriber ho owner queryId authId = (c, none) ∨
      ∃ v d, c.views[o]? = some v ∧ c.attachSubscriber ho owner queryId authId =
          ({ c with subscribers := c.subscribers.insert o (c.joined o q authId) }, some d) ∧
        d.queryId = q ∧ d.initial = true ∧ d.removals = [] ∧ d.updates = [] ∧
        ∀ k, k ∈ d.additions ↔ k ∈ v.cache := by
  intro q o
  have hview : c.getView o = c.views[o]? := by
    rw [Circuit.getView, canonicalQueryId_idem, Option.or_self]
  rw [Circuit.attachSubscriber]
  dsimp only
  rw [Circuit.snapshotDeltaFrom, hview]
  cases c.views[o]? with
  | none => exact .inl ⟨rfl, rfl⟩
  | some v =>
    refine .inr ⟨v, _, rfl, rfl, canonicalQueryId_idem _, rfl, rfl, rfl, fun k => ?_⟩
    dsimp only
    rw [mem_visit, mem_keys]

theorem mem_joined {o q authId : String} {s : Subscriber}
    (hs : s ∈ c.joined o q authId) : s ∈ c.subscribersOf o ∨
      s.queryId = q ∧ ∀ s' ∈ c.subscribersOf o, s'.queryId ≠ q := by
  unfold Circuit.joined at hs
  split at hs
  next => exact .inl hs
  next hno =>
    rcases List.mem_append.mp hs with hs | hs
    · exact .inl hs
    · right
      rw [List.mem_singleton.mp hs]
      refine ⟨rfl, fun s' hs' he => hno (List.any_eq_true.mpr ⟨s', hs', by simpa using he⟩)⟩

theorem joined_ids {o q authId id : String} :
    (∃ s ∈ c.joined o q authId, s.queryId = id) ↔
      id = q ∨ ∃ s ∈ c.subscribersOf o, s.queryId = id := by
  unfold Circuit.joined
  split
  next hany =>
    obtain ⟨s, hs, he⟩ := List.any_eq_true.mp hany
    refine ⟨.inr, fun h => ?_⟩
    rcases h with rfl | h
    · exact ⟨s, hs, by simpa using he⟩
    · exact h
  next =>
    constructor
    · rintro ⟨s, hs, he⟩
      rcases List.mem_append.mp hs with hs | hs
      · exact .inr ⟨s, hs, he⟩
      · left
        rw [← he, List.mem_singleton.mp hs]
    · rintro (rfl | ⟨s, hs, he⟩)
      · exact ⟨_, List.mem_append_right _ (List.mem_singleton_self _), rfl⟩
      · exact ⟨s, List.mem_append_left _ hs, he⟩

theorem subscribersOf_insert (c : Circuit) (o o' : String) (subs : List Subscriber) :
    ({ c with subscribers := c.subscribers.insert o subs } : Circuit).subscribersOf o' =
      if o' = o then subs else c.subscribersOf o' := by
  unfold Circuit.subscribersOf
  dsimp only
  rw [ExtTreeMap.getElem?_insert]
  by_cases h : o' = o
  · rw [if_pos (by simp [h]), if_pos h]
    rfl
  · rw [if_neg (by simpa using Ne.symm h), if_neg h]

/-- An unknown id, or a subscriber again, takes the snapshot of a view and reads it from then. -/
theorem faithful_attach (h : r.Faithful env) (ho : HashOrder) (owner queryId authId : String)
    (hu : r.circuit.registration ho queryId = none ∨ Circuit.canonicalQueryId queryId ∈
      (r.circuit.subscribersOf (Circuit.canonicalQueryId owner)).map Subscriber.queryId) :
    (r.receive (r.circuit.attachSubscriber ho owner queryId authId).1
      (r.circuit.attachSubscriber ho owner queryId authId).2.toList).Faithful env := by
  rw [registration_none] at hu
  obtain ⟨-, he⟩ | ⟨v, d, hv, he, hq, hinit, hrem, hupd, hadd⟩ :=
    attachSubscriber_cases r.circuit ho owner queryId authId
  · rw [he]
    exact h.same rfl rfl rfl
  rw [he, Option.toList_some]
  generalize Circuit.canonicalQueryId queryId = q at *
  generalize Circuit.canonicalQueryId owner = o at *
  have hsubs := fun o' => subscribersOf_insert r.circuit o o' (r.circuit.joined o q authId)
  generalize hc : ({ r.circuit with
    subscribers := r.circuit.subscribers.insert o (r.circuit.joined o q authId) } : Circuit) = c
    at hsubs ⊢
  have hviews : c.views = r.circuit.views := by rw [← hc]
  have hdet : c.detachedOwners = r.circuit.detachedOwners := by rw [← hc]
  have hov : o ∈ r.circuit.views := mem_of_getElem? hv
  -- the id is not a view's, and it is a subscriber nowhere else
  have hself : q ∉ r.circuit.views ∧ ∀ o', ∀ s ∈ r.circuit.subscribersOf o', s.queryId = q → o' = o := by
    rcases hu with hu | hu
    · exact ⟨hu.1, fun o' s hs hsq => absurd hsq (hu.2 o' s hs)⟩
    · obtain ⟨s, hs, hsq⟩ := List.mem_map.mp hu
      exact ⟨hsq ▸ h.shared.apart o s hs,
        fun o' s' hs' he' => h.shared.once o' o s' hs' s hs (he'.trans hsq.symm)⟩
  have hrec : ∀ q' id, id ∈ c.recipients q' ↔ q' = o ∧ id = q ∨ id ∈ r.circuit.recipients q' := by
    intro q' id
    rw [mem_recipients, mem_recipients, hsubs, hdet]
    by_cases hq' : q' = o
    · rw [if_pos hq', joined_ids, hq', or_assoc]
      exact or_congr_left (and_iff_right rfl).symm
    · rw [if_neg hq']
      exact (or_iff_right fun hno => hq' hno.1).symm
  refine ⟨⟨?_, ?_, ?_, ?_, ?_, ?_⟩, ?_, ?_, ?_, ⟨?_, ?_, ?_, ?_⟩⟩ <;>
    simp only [Replica.receive, hviews, hdet]
  · exact h.shared.canonical
  · intro o' ho'
    rw [hsubs] at ho'
    split at ho'
    next he => exact he ▸ hov
    next => exact h.shared.owned o' ho'
  · intro o' s hs
    rw [hsubs] at hs
    split at hs
    next =>
      rcases mem_joined hs with hs | ⟨hsq, -⟩
      · exact h.shared.apart o s hs
      · rw [hsq]
        exact hself.1
    next => exact h.shared.apart o' s hs
  · have hwhere : ∀ o', ∀ s ∈ c.subscribersOf o',
        s ∈ r.circuit.subscribersOf o' ∨ s.queryId = q ∧ o' = o := by
      intro o' s hs
      rw [hsubs] at hs
      split at hs
      next he =>
        rw [he]
        exact (mem_joined hs).imp_right fun hj => ⟨hj.1, rfl⟩
      next => exact .inl hs
    intro o₁ o₂ s₁ hs₁ s₂ hs₂ hsame
    rcases hwhere o₁ s₁ hs₁ with h₁ | ⟨h₁, rfl⟩ <;> rcases hwhere o₂ s₂ hs₂ with h₂ | ⟨h₂, he₂⟩
    · exact h.shared.once o₁ o₂ s₁ h₁ s₂ h₂ hsame
    · rw [he₂]
      exact hself.2 o₁ s₁ h₁ (hsame.trans h₂)
    · exact (hself.2 o₂ s₂ h₂ (hsame.symm.trans h₁)).symm
    · exact he₂.symm
  · intro o'
    rw [hsubs]
    split
    next he =>
      unfold Circuit.joined
      split
      next => exact h.shared.distinct o
      next hno =>
        rw [List.map_append, List.nodup_append]
        refine ⟨h.shared.distinct o, by simp, ?_⟩
        rintro a ha b hb rfl
        obtain ⟨s, hs, rfl⟩ := List.mem_map.mp ha
        exact hno (List.any_eq_true.mpr ⟨s, hs, by simpa using hb⟩)
    next => exact h.shared.distinct o'
  · exact h.shared.detached
  · exact h.ordered
  · intro q' w hw id hid k
    have hid := (hrec q' id).mp hid
    have hone := receive_one r c d id
    simp only [Replica.receive] at hone
    rw [hone, hq]
    by_cases hqid : q = id
    · subst hqid
      rw [if_pos rfl, consume, if_pos hinit, ExtTreeSet.mem_ofList, List.contains_iff_mem, hadd]
      have hq' : q' = o := by
        rcases hid with ⟨hq', -⟩ | hid
        · exact hq'
        · rcases mem_recipients.mp hid with ⟨s, hs, he⟩ | ⟨he, -⟩
          · exact hself.2 q' s hs he
          · refine absurd ?_ hself.1
            rw [he, mem_iff_isSome_getElem?]
            rw [hw]
            rfl
      rw [hq', hv, Option.some.injEq] at hw
      rw [hw]
    · rw [if_neg hqid]
      rcases hid with ⟨-, he⟩ | hid
      · exact absurd he.symm hqid
      · exact h.held q' w hw id hid k
  · intro id hid k
    have hne : q ≠ id := by
      rintro rfl
      exact hid o hov ((hrec o q).mpr (.inl ⟨rfl, rfl⟩))
    have hone := receive_one r c d id
    simp only [Replica.receive] at hone
    rw [hone, hq, if_neg hne]
    exact h.idle id (fun q' hq' hin => hid q' hq' ((hrec q' id).mpr (.inr hin))) k
  · simp
  · intro x hx k hk
    obtain rfl : x = d := by simpa using hx
    rw [hrem, hupd]
    simp
  · intro x hx k hk
    obtain rfl : x = d := by simpa using hx
    rw [hupd]
    simp
  · intro x hx
    obtain rfl : x = d := by simpa using hx
    refine ⟨o, v, hv, (hrec o _).mpr (.inl ⟨rfl, hq⟩), ?_⟩
    rw [hupd]
    simp

/-- One recipient of a view leaves. -/
theorem Replica.Faithful.part (h : r.Faithful env) {o q : String}
    (ho : q = o ∨ ∃ s ∈ r.circuit.subscribersOf o, s.queryId = q) (hov : o ∈ r.circuit.views)
    (hviews : c.views = r.circuit.views) (hsubs : ∀ o', c.subscribersOf o' =
      (r.circuit.subscribersOf o').filter fun s => s.queryId != q)
    (hdet : ∀ q', q' ∈ c.detachedOwners ↔ q' ∈ r.circuit.detachedOwners ∨ q' = q ∧ q = o) :
    (r.leave c q).Faithful env := by
  have hsub : ∀ o', (c.subscribersOf o').Sublist (r.circuit.subscribersOf o') :=
    fun o' => hsubs o' ▸ List.filter_sublist
  have hrec : ∀ q' ∈ r.circuit.views, ∀ id,
      id ∈ c.recipients q' ↔ id ∈ r.circuit.recipients q' ∧ id ≠ q := by
    intro q' hq' id
    have hown : id = q' → id = q → q = o := by
      rintro rfl rfl
      rcases ho with he | ⟨s, hs, he⟩
      · exact he
      · exact absurd (he ▸ hq') (h.shared.apart o s hs)
    rw [mem_recipients, mem_recipients, hsubs, hdet]
    simp only [List.mem_filter, bne_iff_ne, not_or, not_and]
    constructor
    · rintro (⟨s, ⟨hs, hne⟩, rfl⟩ | ⟨rfl, hd, hne⟩)
      · exact ⟨.inl ⟨s, hs, rfl⟩, hne⟩
      · exact ⟨.inr ⟨rfl, hd⟩, fun he => hne he (hown rfl he)⟩
    · rintro ⟨⟨s, hs, rfl⟩ | ⟨rfl, hd⟩, hne⟩
      · exact .inl ⟨s, ⟨hs, hne⟩, rfl⟩
      · exact .inr ⟨rfl, hd, fun he => absurd he hne⟩
  refine ⟨h.shared.of_sublist hsub ?_ ?_ ?_ ?_, ?_, ?_, ?_, emits_nil c⟩ <;>
    simp only [Replica.leave, hviews]
  · exact h.shared.canonical
  · intro o' ho'
    obtain ⟨s, hs⟩ := List.exists_mem_of_ne_nil _ ho'
    exact h.shared.owned o' (List.ne_nil_of_mem ((hsub o').subset hs))
  · exact h.shared.apart
  · intro q' hq'
    rcases (hdet q').mp hq' with hq' | ⟨rfl, rfl⟩
    · exact h.shared.detached q' hq'
    · exact hov
  · exact h.ordered
  · intro q' w hw id hid k
    have hq' : q' ∈ r.circuit.views := mem_of_getElem? hw
    obtain ⟨hid, hne⟩ := (hrec q' hq' id).mp hid
    rw [Function.update_of_ne hne]
    exact h.held q' w hw id hid k
  · intro id hid k
    by_cases hne : id = q
    · rw [hne, Function.update_self]
      simp
    · rw [Function.update_of_ne hne]
      exact h.idle id (fun q' hq' hin => hid q' hq' ((hrec q' hq' id).mpr ⟨hin, hne⟩)) k

/-- A view that nobody reads is dropped. -/
theorem Replica.Faithful.drop (h : r.Faithful env) {o : String} (hov : o ∈ r.circuit.views) :
    Replica.Faithful env ⟨(r.circuit.dropGraphIfUnused o).1, r.held, []⟩ := by
  unfold Circuit.dropGraphIfUnused
  split
  next =>
    refine ⟨h.shared, h.ordered, h.held, h.idle, emits_nil _⟩
  next hunused =>
    rw [Bool.not_eq_true, Bool.or_eq_false_iff, Bool.not_eq_false', Bool.not_eq_false',
      List.isEmpty_iff, ExtTreeSet.contains_iff_mem] at hunused
    obtain ⟨hnosubs, hdet⟩ := hunused
    have hcan := h.shared.canonical o hov
    change Replica.Faithful env ⟨{ r.circuit.removeQuery o with
      subscribers := (r.circuit.removeQuery o).subscribers.erase o
      detachedOwners := (r.circuit.removeQuery o).detachedOwners.erase o
      mergeIndex := (r.circuit.removeQuery o).mergeIndex.filter fun _ v => v != o }, r.held, []⟩
    generalize hc : ({ r.circuit.removeQuery o with
      subscribers := (r.circuit.removeQuery o).subscribers.erase o
      detachedOwners := (r.circuit.removeQuery o).detachedOwners.erase o
      mergeIndex := (r.circuit.removeQuery o).mergeIndex.filter fun _ v => v != o } : Circuit) = c
    have hviews : ∀ q : String, c.views[q]? = if q = o then none else r.circuit.views[q]? := by
      intro q
      rw [← hc]
      unfold Circuit.removeQuery
      dsimp only
      rw [hcan, getElem?_erase]
      by_cases hq : q = o
      · rw [if_pos (by simp [hq]), if_pos hq]
      · rw [if_neg (by simpa using Ne.symm hq), if_neg hq]
    have hin : ∀ q, q ∈ c.views ↔ q ≠ o ∧ q ∈ r.circuit.views := by
      intro q
      rw [mem_iff_isSome_getElem?, hviews, mem_iff_isSome_getElem?]
      by_cases hq : q = o <;> simp [hq]
    have hsubs : ∀ q, c.subscribersOf q = r.circuit.subscribersOf q := by
      intro q
      rw [← hc]
      unfold Circuit.subscribersOf
      dsimp only
      rw [getElem?_erase]
      by_cases hq : q = o
      · rw [if_pos (by simp [hq]), hq]
        exact hnosubs.symm
      · rw [if_neg (by simpa using Ne.symm hq)]
        rfl
    have hdets : ∀ q, q ∈ c.detachedOwners ↔ q ≠ o ∧ q ∈ r.circuit.detachedOwners := by
      intro q
      rw [← hc]
      dsimp only
      rw [ExtTreeSet.mem_erase, ne_eq, LawfulEqOrd.compare_eq_iff_eq, eq_comm]
      exact Iff.rfl
    have hrec : ∀ q, q ≠ o → ∀ id, id ∈ c.recipients q ↔ id ∈ r.circuit.recipients q := by
      intro q hq id
      rw [mem_recipients, mem_recipients, hsubs, hdets]
      simp [hq]
    have hquiet : ∀ id, id ∉ r.circuit.recipients o := by
      intro id hid
      rcases mem_recipients.mp hid with ⟨s, hs, -⟩ | ⟨-, hno⟩
      · rw [hnosubs] at hs
        cases hs
      · exact hno hdet
    refine ⟨h.shared.of_sublist (fun q => (hsubs q).symm ▸ .refl _) ?_ ?_ ?_ ?_, ?_, ?_, ?_, emits_nil c⟩
    · exact fun q hq => h.shared.canonical q ((hin q).mp hq).2
    · intro q hq
      change c.subscribersOf q ≠ [] at hq
      rw [hsubs] at hq
      refine (hin q).mpr ⟨?_, h.shared.owned q hq⟩
      rintro rfl
      exact hq hnosubs
    · exact fun q s hs hv => h.shared.apart q s hs ((hin _).mp hv).2
    · intro q hq
      obtain ⟨hne, hq⟩ := (hdets q).mp hq
      exact (hin q).mpr ⟨hne, h.shared.detached q hq⟩
    · intro q w hw
      change c.views[q]? = some w at hw
      rw [hviews] at hw
      split at hw
      next => cases hw
      next => exact h.ordered q w hw
    · intro q w hw id hid k
      change c.views[q]? = some w at hw
      rw [hviews] at hw
      split at hw
      next => cases hw
      next hne => exact h.held q w hw id ((hrec q hne id).mp hid) k
    · intro id hid k
      refine h.idle id (fun q hq hin' => ?_) k
      by_cases hqo : q = o
      · exact hquiet id (hqo ▸ hin')
      · exact hid q ((hin q).mpr ⟨hqo, hq⟩) ((hrec q hqo id).mpr hin')

theorem faithful_detach (h : r.Faithful env) (ho : HashOrder) (queryId : String) :
    (r.leave (r.circuit.detachSubscriber ho queryId).1
      (Circuit.canonicalQueryId queryId)).Faithful env := by
  unfold Circuit.detachSubscriber
  generalize Circuit.canonicalQueryId queryId = q
  dsimp only
  cases how : r.circuit.ownerOf ho q with
  | some o =>
    obtain ⟨s, hs, hsq⟩ := ownerOf_some how
    have hov : o ∈ r.circuit.views := h.shared.owned o (List.ne_nil_of_mem hs)
    have hpart := h.part (q := q) (c := { r.circuit with
        subscribers := r.circuit.subscribers.insert o
          ((r.circuit.subscribersOf o).filter fun s => s.queryId != q) })
      (.inr ⟨s, hs, hsq⟩) hov rfl ?_ ?_
    · exact hpart.drop hov
    · intro o'
      rw [subscribersOf_insert]
      split
      next he => rw [he]
      next hne =>
        refine (List.filter_eq_self.mpr fun s' hs' => ?_).symm
        rw [bne_iff_ne]
        exact fun he => hne (h.shared.once o' o s' hs' s hs (he.trans hsq.symm))
    · intro q'
      refine (or_iff_left ?_).symm
      rintro ⟨-, rfl⟩
      exact h.shared.apart q s hs (hsq ▸ hov)
  | none =>
    have hnone := ownerOf_none how
    by_cases hq : q ∈ r.circuit.views
    · rw [if_pos (contains_iff_mem.mpr hq)]
      have hpart := h.part (q := q) (c := { r.circuit with
        detachedOwners := r.circuit.detachedOwners.insert q }) (.inl rfl) hq rfl ?_ ?_
      · exact hpart.drop hq
      · intro o'
        refine (List.filter_eq_self.mpr fun s' hs' => ?_).symm
        rw [bne_iff_ne]
        exact hnone o' s' hs'
      · intro q'
        dsimp only
        rw [ExtTreeSet.mem_insert, LawfulEqOrd.compare_eq_iff_eq, or_comm, eq_comm]
        exact or_congr_right (and_iff_left rfl).symm
    · rw [if_neg (by rwa [contains_iff_mem])]
      have hu : r.circuit.Unknown q := ⟨hq, hnone⟩
      refine ⟨h.shared, h.ordered, ?_, ?_, emits_nil _⟩
      · intro q' w hw id hid k
        have hq' : q' ∈ r.circuit.views := mem_of_getElem? hw
        have hne : id ≠ q := fun he => hu.not_recipient hq' (he ▸ hid)
        change k ∈ Function.update r.held q ∅ id ↔ _
        rw [Function.update_of_ne hne]
        exact h.held q' w hw id hid k
      · intro id hid k
        change k ∉ Function.update r.held q ∅ id
        by_cases hne : id = q
        · rw [hne, Function.update_self]
          simp
        · rw [Function.update_of_ne hne]
          exact h.idle id hid k

end Calls

/-! ## Steps -/

/-- What the step of one query hands out. -/
def emittedBy (env : Env) (planning : Planning) (ho : HashOrder) (deltas : TableDeltas)
    (cu : ContentUpdates) (c : Circuit) (q : String) : List ViewDelta :=
  match c.graphs[q]?, c.views[q]? with
  | some g, some v =>
    (((Circuit.stepView env (planning c.indexDefs v.params) ho c.store deltas cu g v).2.2).map
      c.fanOut).getD []
  | _, _ => []

theorem filter_eq_singleton {α : Type} {f : α → String} {l : List α} (h : (l.map f).Nodup) {a : α}
    (ha : a ∈ l) : l.filter (fun b => f b == f a) = [a] := by
  induction l with
  | nil => cases ha
  | cons b l ih =>
    rw [List.map_cons, List.nodup_cons] at h
    rcases List.mem_cons.mp ha with rfl | ha
    · rw [List.filter_cons_of_pos (by simp), List.filter_eq_nil_iff.mpr]
      intro b hb he
      exact h.1 (List.mem_map.mpr ⟨b, hb, by simpa using he⟩)
    · rw [List.filter_cons_of_neg, ih h.2 ha]
      intro he
      exact h.1 (List.mem_map.mpr ⟨a, ha, (by simpa using he : f b = f a).symm⟩)

theorem flatMap_eq_single {α β : Type} [DecidableEq α] {f : α → List β} {a : α} {l : List α}
    (hl : l.Nodup) (h : ∀ b ∈ l, b ≠ a → f b = []) :
    l.flatMap f = if a ∈ l then f a else [] := by
  induction l with
  | nil => rfl
  | cons b l ih =>
    rw [List.nodup_cons] at hl
    rw [List.flatMap_cons, ih hl.2 (List.forall_mem_cons.mp h).2]
    by_cases hb : b = a
    · subst hb
      rw [if_neg hl.1, if_pos List.mem_cons_self, List.append_nil]
    · rw [h b List.mem_cons_self hb, List.nil_append]
      simp [Ne.symm hb]

section FanOut

variable (c : Circuit) (d : ViewDelta)

theorem fanOut_queryIds : (c.fanOut d).map ViewDelta.queryId = c.recipients d.queryId := by
  unfold Circuit.fanOut Circuit.recipients Circuit.subscribersOf
  dsimp only
  rw [List.map_append, List.map_map]
  congr 1
  split <;> rfl

theorem fanOut_content {x : ViewDelta} (hx : x ∈ c.fanOut d) :
    x.additions = d.additions ∧ x.removals = d.removals ∧ x.updates = d.updates ∧
      x.initial = d.initial := by
  unfold Circuit.fanOut at hx
  dsimp only at hx
  rcases List.mem_append.mp hx with hx | hx
  · obtain ⟨s, -, rfl⟩ := List.mem_map.mp hx
    exact ⟨rfl, rfl, rfl, rfl⟩
  · split at hx
    · cases hx
    · rw [List.mem_singleton.mp hx]
      exact ⟨rfl, rfl, rfl, rfl⟩

/-- A recipient gets the delta once. -/
theorem fanOut_received (hnd : (c.recipients d.queryId).Nodup) {id : String}
    (hid : id ∈ c.recipients d.queryId) (held : ExtTreeSet String) :
    ((c.fanOut d).filter (fun x => x.queryId == id)).foldl consume held = consume held d := by
  rw [← fanOut_queryIds] at hnd hid
  obtain ⟨x, hx, rfl⟩ := List.mem_map.mp hid
  rw [filter_eq_singleton hnd hx]
  obtain ⟨h1, h2, -, h4⟩ := fanOut_content c d hx
  change consume held x = consume held d
  rw [consume, consume, h1, h2, h4]

end FanOut

section Affected

variable {env : Env} {planning : Planning} {ho : HashOrder} {deltas : TableDeltas}
  {cu : ContentUpdates}

theorem stepAffected_emits (acc : Circuit × List ViewDelta) (q : String) :
    (Circuit.stepAffected env planning ho deltas cu acc q).2 =
      acc.2 ++ emittedBy env planning ho deltas cu acc.1 q := by
  unfold Circuit.stepAffected emittedBy
  cases hg : acc.1.graphs[q]? with
  | none => simp [hg]
  | some g => cases hv : acc.1.views[q]? <;> simp [hg, hv]

/-- The deltas of phase 3, query by query. -/
theorem foldl_stepAffected_emits (l : List String) (hl : l.Nodup) (acc : Circuit × List ViewDelta) :
    (l.foldl (Circuit.stepAffected env planning ho deltas cu) acc).2 =
      acc.2 ++ l.flatMap (emittedBy env planning ho deltas cu acc.1) := by
  induction l generalizing acc with
  | nil => simp
  | cons q l ih =>
    rw [List.nodup_cons] at hl
    rw [List.foldl_cons, ih hl.2, stepAffected_emits, List.flatMap_cons, List.append_assoc]
    congr 2
    refine List.flatMap_congr fun q' hq' => ?_
    -- another query is not touched by the step of this one
    obtain ⟨hg, hv⟩ := stepAffected_ne env planning ho deltas cu acc
      (show q' ≠ q from fun he => hl.1 (he ▸ hq'))
    unfold emittedBy
    rw [hg, hv, stepAffected_frame]
    rfl

variable (hne : ∀ keys n, env.viewHash keys n ≠ "")

include hne in
/-- A view in a step of the circuit: what it becomes, and the deltas that say so. -/
theorem step_publication {c : Circuit} (l : List String) (hl : l.Nodup) {q : String} {v : View}
    (hv : c.views[q]? = some v) (ho' : v.InOrder env)
    (htells : ∀ v', (l.foldl (Circuit.stepAffected env planning ho deltas cu) (c, [])).1.views[q]? =
      some v' → v'.computeHash env = v.computeHash env → ∀ k, k ∈ v'.cache ↔ k ∈ v.cache) :
    ∃ v' d, (l.foldl (Circuit.stepAffected env planning ho deltas cu) (c, [])).1.views[q]? =
        some v' ∧ v'.queryId = v.queryId ∧ v'.InOrder env ∧ Publication v v' d ∧
      (if q ∈ l then emittedBy env planning ho deltas cu c q else []) =
        (d.map c.fanOut).getD [] := by
  have hquiet : Publication v v none := by
    refine ⟨fun _ _ => Iff.rfl, ?_, ?_, ?_, ?_, ?_, ?_⟩
    all_goals
      intro x hx
      cases hx
  by_cases hq : q ∈ l
  · cases hg : c.graphs[q]? with
    | none =>
      obtain ⟨-, hstay⟩ := foldl_stepAffected_other env planning ho deltas cu l (c, [])
        (.inr (.inl hg))
      refine ⟨v, none, hstay.trans hv, rfl, ho', hquiet, ?_⟩
      rw [if_pos hq, emittedBy, hg]
      rfl
    | some g =>
      obtain ⟨-, hview⟩ := foldl_stepAffected_mem env planning ho deltas cu l hl (c, []) hq hg hv
      obtain ⟨p1, p2, p3⟩ := stepView_publication hne ho' (planning c.indexDefs v.params) deltas cu g
        (htells _ hview)
      refine ⟨_, _, hview, p1, p2, p3, ?_⟩
      rw [if_pos hq, emittedBy, hg, hv]
  · obtain ⟨-, hstay⟩ := foldl_stepAffected_other env planning ho deltas cu l (c, [])
      (.inl hq)
    exact ⟨v, none, hstay.trans hv, rfl, ho', hquiet, if_neg hq⟩

end Affected

section Step

variable {env : Env} (hne : ∀ keys n, env.viewHash keys n ≠ "") {r : Replica}

/-- A circuit whose queries were stepped, with their deltas. -/
theorem Replica.Faithful.stepped (h : r.Faithful env) {c : Circuit} {l : List String}
    {f : String → List ViewDelta} (hl : l.Nodup)
    (hs : c.subscribers = r.circuit.subscribers) (hd : c.detachedOwners = r.circuit.detachedOwners)
    (hgone : ∀ q : String, r.circuit.views[q]? = none → c.views[q]? = none ∧ f q = [])
    (hstep : ∀ (q : String) (v : View), r.circuit.views[q]? = some v → ∃ v' d,
      c.views[q]? = some v' ∧ v'.queryId = v.queryId ∧ v'.InOrder env ∧ Publication v v' d ∧
      (if q ∈ l then f q else []) = (d.map r.circuit.fanOut).getD []) :
    (r.receive c (l.flatMap f)).Faithful env := by
  obtain ⟨hsubs, hrec⟩ := recipients_congr hs hd
  have hmem : ∀ q, q ∈ c.views ↔ q ∈ r.circuit.views := by
    intro q
    rw [mem_iff_isSome_getElem?, mem_iff_isSome_getElem?]
    cases hv : r.circuit.views[q]? with
    | none => rw [(hgone q hv).1]
    | some v =>
      obtain ⟨v', -, hv', -⟩ := hstep q v hv
      rw [hv']
      simp
  have hback : ∀ (q : String) (v' : View), c.views[q]? = some v' →
      ∃ v, r.circuit.views[q]? = some v := by
    intro q v' hv'
    have hin := (hmem q).mp (mem_of_getElem? hv')
    rw [mem_iff_isSome_getElem?] at hin
    exact Option.isSome_iff_exists.mp hin
  -- where the deltas of a query come from
  have hfrom : ∀ q ∈ l, ∀ x ∈ f q, ∃ v v' d, r.circuit.views[q]? = some v ∧
      c.views[q]? = some v' ∧ Publication v v' (some d) ∧ x ∈ r.circuit.fanOut d ∧
      f q = r.circuit.fanOut d ∧ d.queryId = q := by
    intro q hq x hx
    cases hv : r.circuit.views[q]? with
    | none =>
      rw [(hgone q hv).2] at hx
      cases hx
    | some v =>
      obtain ⟨v', d, hv', -, -, hp, hf⟩ := hstep q v hv
      rw [if_pos hq] at hf
      cases d with
      | none =>
        rw [hf] at hx
        cases hx
      | some d =>
        rw [Option.map_some, Option.getD_some] at hf
        exact ⟨v, v', d, rfl, hv', hp, hf ▸ hx, hf,
          (hp.named d rfl).trans (h.ordered q v hv).1⟩
  have hids : ∀ q ∈ l, ∀ x ∈ f q, q ∈ r.circuit.views ∧ x.queryId ∈ r.circuit.recipients q := by
    intro q hq x hx
    obtain ⟨v, v', d, hv, -, -, hxd, -, hdq⟩ := hfrom q hq x hx
    refine ⟨mem_of_getElem? hv, ?_⟩
    rw [← hdq, ← fanOut_queryIds]
    exact List.mem_map_of_mem hxd
  -- the deltas for a recipient of one view come from that view
  have hfilter : ∀ q ∈ r.circuit.views, ∀ id ∈ r.circuit.recipients q,
      (l.flatMap f).filter (fun x => x.queryId == id) =
        (if q ∈ l then f q else []).filter (fun x => x.queryId == id) := by
    intro q hq id hid
    rw [List.filter_flatMap, flatMap_eq_single (a := q) hl]
    · split <;> rfl
    · intro q' hq' hne'
      rw [List.filter_eq_nil_iff]
      intro x hx he
      obtain ⟨hqv, hxq⟩ := hids q' hq' x hx
      rw [beq_iff_eq.mp he] at hxq
      exact hne' (h.shared.recipients_unique hqv hq hxq hid)
  refine ⟨⟨?_, ?_, ?_, ?_, ?_, ?_⟩, ?_, ?_, ?_, ⟨?_, ?_, ?_, ?_⟩⟩ <;>
    simp only [Replica.receive, hmem, hsubs, hd, hrec]
  · exact h.shared.canonical
  · exact h.shared.owned
  · exact h.shared.apart
  · exact h.shared.once
  · exact h.shared.distinct
  · exact h.shared.detached
  · intro q v' hv'
    obtain ⟨v, hv⟩ := hback q v' hv'
    obtain ⟨w, d, hw, hwq, hwo, -, -⟩ := hstep q v hv
    obtain rfl : w = v' := Option.some.inj (hw.symm.trans hv')
    exact ⟨hwq.trans (h.ordered q v hv).1, hwo⟩
  · intro q v' hv' id hid k
    obtain ⟨v, hv⟩ := hback q v' hv'
    obtain ⟨w, d, hw, -, -, hp, hf⟩ := hstep q v hv
    obtain rfl : w = v' := Option.some.inj (hw.symm.trans hv')
    have hqv : q ∈ r.circuit.views := mem_of_getElem? hv
    rw [hfilter q hqv id hid, hf, ← hp.consumed (h.held q v hv id hid) k]
    cases d with
    | none => rfl
    | some d =>
      have hdq : d.queryId = q := (hp.named d rfl).trans (h.ordered q v hv).1
      rw [Option.map_some, Option.getD_some, fanOut_received]
      · rfl
      · rw [hdq]
        exact h.shared.recipients_nodup hqv
      · rwa [hdq]
  · intro id hid k
    have hnone : (l.flatMap f).filter (fun x => x.queryId == id) = [] := by
      rw [List.filter_eq_nil_iff]
      intro x hx he
      obtain ⟨q, hq, hx⟩ := List.mem_flatMap.mp hx
      obtain ⟨hqv, hxq⟩ := hids q hq x hx
      rw [beq_iff_eq.mp he] at hxq
      exact hid q hqv hxq
    rw [hnone]
    exact h.idle id hid k
  · rw [List.map_flatMap, List.nodup_flatMap]
    refine ⟨?_, ?_⟩
    · intro q hq
      cases hx : f q with
      | nil => exact List.nodup_nil
      | cons x xs =>
        obtain ⟨v, v', d, hv, -, -, -, hfq, hdq⟩ := hfrom q hq x (by rw [hx]; exact List.mem_cons_self)
        rw [← hx, hfq, fanOut_queryIds, hdq]
        refine h.shared.recipients_nodup ?_
        exact mem_of_getElem? hv
    · refine hl.imp_of_mem fun {q q'} hq hq' hne' => ?_
      intro id hid hid'
      obtain ⟨x, hx, rfl⟩ := List.mem_map.mp hid
      obtain ⟨x', hx', he⟩ := List.mem_map.mp hid'
      obtain ⟨h1, h2⟩ := hids q hq x hx
      obtain ⟨h3, h4⟩ := hids q' hq' x' hx'
      rw [he] at h4
      exact hne' (h.shared.recipients_unique h1 h3 h2 h4)
  · intro x hx
    obtain ⟨q, hq, hx⟩ := List.mem_flatMap.mp hx
    obtain ⟨v, v', d, -, -, hp, hxd, -, -⟩ := hfrom q hq x hx
    obtain ⟨c1, c2, c3, -⟩ := fanOut_content _ _ hxd
    rw [c1, c2, c3]
    exact hp.fresh d rfl
  · intro x hx
    obtain ⟨q, hq, hx⟩ := List.mem_flatMap.mp hx
    obtain ⟨v, v', d, -, -, hp, hxd, -, -⟩ := hfrom q hq x hx
    obtain ⟨-, c2, c3, -⟩ := fanOut_content _ _ hxd
    rw [c2, c3]
    exact hp.gone d rfl
  · intro x hx
    obtain ⟨q, hq, hx⟩ := List.mem_flatMap.mp hx
    obtain ⟨v, v', d, -, hv', hp, hxd, -, -⟩ := hfrom q hq x hx
    refine ⟨q, v', hv', (hids q hq x hx).2, ?_⟩
    rw [(fanOut_content _ _ hxd).2.2.1]
    exact hp.inside d rfl

include hne in
theorem faithful_step (h : r.Faithful env) (planning : Planning) (ho : HashOrder)
    (changes : List Change) (htells : HashTells env planning ho r.circuit changes) :
    (r.receive (r.circuit.step env planning ho changes).1
      (r.circuit.step env planning ho changes).2).Faithful env := by
  by_cases hnil : changes = []
  · subst hnil
    exact h.same rfl rfl rfl
  have hsq : SameQueries r.circuit (phase1 env ho r.circuit changes).circuit :=
    foldl_applyChange_sameQueries env ⟨r.circuit, ∅, ∅, []⟩ changes
  generalize hp : phase1 env ho r.circuit changes = p at hsq
  have hstep : r.circuit.step env planning ho changes =
      let s := (p.circuit.affectedQueries p.changedTables).foldl
        (Circuit.stepAffected env planning ho p.deltas p.content) (p.circuit, [])
      ({ s.1 with store := s.1.store.clearPendingDeletedRows }, s.2) := by
    rw [← hp]
    unfold Circuit.step
    rw [if_neg (by simpa using hnil)]
  have hnd : (p.circuit.affectedQueries p.changedTables).Nodup := nodup_dedupFirst _
  unfold HashTells at htells
  rw [hstep] at htells ⊢
  dsimp only at htells ⊢
  rw [foldl_stepAffected_emits _ hnd, List.nil_append]
  have hframe := foldl_stepAffected_frame env planning ho p.deltas p.content
    (p.circuit.affectedQueries p.changedTables) (p.circuit, [])
  have hfan : p.circuit.fanOut = r.circuit.fanOut := by
    funext d
    unfold Circuit.fanOut
    rw [hsq.subscribers, hsq.detachedOwners]
  refine h.stepped hnd ?_ ?_ ?_ ?_
  · dsimp only
    rw [hframe]
    exact hsq.subscribers
  · dsimp only
    rw [hframe]
    exact hsq.detachedOwners
  · intro q hq
    rw [← hsq.views] at hq
    refine ⟨(foldl_stepAffected_other _ _ _ _ _ _ _ (.inr (.inr hq))).2.trans hq, ?_⟩
    unfold emittedBy
    rw [hq]
    split
    next hv => cases hv
    next => rfl
  · intro q v hv
    rw [← hfan]
    exact step_publication hne _ hnd (by rw [hsq.views]; exact hv) (h.ordered q v hv).2
      fun v' hv' => htells q v v' hv hv'

end Step

/-! ## Runs -/

/-- Every run keeps the consumers faithful. -/
theorem Replicates.faithful {env : Env} (hne : ∀ keys n, env.viewHash keys n ≠ "")
    {planning : Planning} {r : Replica} (h : Replicates env planning r) : r.Faithful env := by
  induction h with
  | start c hv hs hd => exact faithful_start hv hs hd
  | addQuery ho plan params authId _ hu ih =>
    exact faithful_addQuery ih planning ho plan params authId hu
  | claimMergeKey mergeKey queryId _ ih => exact ih.same rfl rfl rfl
  | attachSubscriber ho owner queryId authId _ hu ih =>
    exact faithful_attach ih ho owner queryId authId hu
  | detachSubscriber ho queryId _ ih => exact faithful_detach ih ho queryId
  | step ho changes _ htells ih => exact faithful_step hne ih planning ho changes htells

/-- A registered id reads a view. -/
theorem isRegistered_reads {c : Circuit} (h : c.Shared) {ho : HashOrder} {id : String}
    (hr : c.isRegistered ho id = true) :
    ∃ q ∈ c.views, Circuit.canonicalQueryId id ∈ c.recipients q := by
  unfold Circuit.isRegistered at hr
  dsimp only at hr
  rw [Bool.or_eq_true, Bool.and_eq_true, contains_iff_mem, Bool.not_eq_true',
    Option.isSome_iff_exists] at hr
  rcases hr with ⟨hv, hd⟩ | ⟨o, ho'⟩
  · refine ⟨_, hv, mem_recipients.mpr (.inr ⟨rfl, fun hin => ?_⟩)⟩
    rw [ExtTreeSet.contains_iff_mem.mpr hin] at hd
    cases hd
  · obtain ⟨s, hs, he⟩ := ownerOf_some ho'
    exact ⟨o, h.owned o (List.ne_nil_of_mem hs), mem_recipients.mpr (.inl ⟨s, hs, he⟩)⟩

/-- Publications replicate views. In every run the consumer of a registered id holds exactly the
    keys of the view it reads, and the deltas of a call name each id once, have disjoint parts,
    and list as updated only rows of the view. -/
theorem publications_replicate {env : Env} (hne : ∀ keys n, env.viewHash keys n ≠ "")
    {planning : Planning} {r : Replica} (h : Replicates env planning r) :
    (∀ ho id, r.circuit.isRegistered ho id = true →
        ∃ q v, r.circuit.views[q]? = some v ∧
          Circuit.canonicalQueryId id ∈ r.circuit.recipients q ∧
          ∀ k, k ∈ r.held (Circuit.canonicalQueryId id) ↔ k ∈ v.cache) ∧
      (r.emitted.map ViewDelta.queryId).Nodup ∧
      ∀ d ∈ r.emitted, d.additions.Disjoint d.removals ∧ d.additions.Disjoint d.updates ∧
        d.removals.Disjoint d.updates ∧ ∃ q v, r.circuit.views[q]? = some v ∧
          d.queryId ∈ r.circuit.recipients q ∧ ∀ k ∈ d.updates, k ∈ v.cache := by
  have hf := h.faithful hne
  refine ⟨?_, hf.emitted.once, ?_⟩
  · intro ho id hr
    obtain ⟨q, hq, hid⟩ := isRegistered_reads hf.shared hr
    rw [mem_iff_isSome_getElem?, Option.isSome_iff_exists] at hq
    obtain ⟨v, hv⟩ := hq
    exact ⟨q, v, hv, hid, hf.held q v hv _ hid⟩
  · intro d hd
    exact ⟨fun k hk => (hf.emitted.fresh d hd k hk).1, fun k hk => (hf.emitted.fresh d hd k hk).2,
      hf.emitted.gone d hd, hf.emitted.inside d hd⟩

/-- All rows of a table, under the id `q`. -/
def planAll (table : String) : QueryPlan := ⟨"q", .scan table⟩

/-- A new row of `T`. -/
def rowAdded (id : String) : List Change := [⟨"T", .create, id, .object [("a", .str id)]⟩]

/-- One row, a view of it and a second registration that reads the view, with consumers. -/
def sharedReplica : Replica :=
  let r : Replica := ⟨Circuit.new, fun _ => ∅, []⟩
  let r := r.receive (r.circuit.step Env.sample asWritten .sorted (rowAdded "1")).1
    (r.circuit.step Env.sample asWritten .sorted (rowAdded "1")).2
  let r := r.receive (r.circuit.addQuery Env.sample asWritten .sorted (planAll "T") none "").1
    (r.circuit.addQuery Env.sample asWritten .sorted (planAll "T") none "").2.toList
  r.receive (r.circuit.attachSubscriber .sorted "q" "s" "").1
    (r.circuit.attachSubscriber .sorted "q" "s" "").2.toList

/-- The next step. -/
def sharedNext : Replica :=
  sharedReplica.receive
    (sharedReplica.circuit.step Env.sample asWritten .sorted (rowAdded "2")).1
    (sharedReplica.circuit.step Env.sample asWritten .sorted (rowAdded "2")).2

theorem sample_viewHash_ne (keys : List String) (n : Nat) : Env.sample.viewHash keys n ≠ "" := by
  intro h
  have hlen := congrArg String.length h
  simp only [Env.sample, String.length_append] at hlen
  have hzero := (Nat.add_eq_zero_iff.mp hlen).2
  simp at hzero

/-- The subscriber holds both rows after the step. -/
theorem publications_replicate_shared :
    sharedNext.circuit.isRegistered .sorted "s" = true ∧
      ∃ q v, sharedNext.circuit.views[q]? = some v ∧
        Circuit.canonicalQueryId "s" ∈ sharedNext.circuit.recipients q ∧
        ∀ k, k ∈ sharedNext.held (Circuit.canonicalQueryId "s") ↔ k ∈ v.cache := by
  have hreg : sharedNext.circuit.isRegistered .sorted "s" = true := by decide +kernel
  refine ⟨hreg, ?_⟩
  have hrun : Replicates Env.sample asWritten sharedReplica := by
    refine .attachSubscriber .sorted "q" "s" "" (.addQuery .sorted (planAll "T") none ""
      (.step .sorted (rowAdded "1") (.start Circuit.new rfl rfl rfl) ?_) ?_) (.inl ?_)
    · intro q v v' hv
      simp [Circuit.new] at hv
    · decide +kernel
    · decide +kernel
  have hnext : Replicates Env.sample asWritten sharedNext := by
    refine .step .sorted (rowAdded "2") hrun ?_
    intro q v v' hv hv' hsame
    have hkeys : sharedReplica.circuit.views.keys = ["q"] := by decide +kernel
    have hq : q ∈ sharedReplica.circuit.views.keys := mem_keys_of_getElem? hv
    rw [hkeys, List.mem_singleton] at hq
    have hdiff : ((sharedReplica.circuit.step Env.sample asWritten .sorted
          (rowAdded "2")).1.views["q"]?.map (View.computeHash Env.sample)) ≠
        (sharedReplica.circuit.views["q"]?).map (View.computeHash Env.sample) := by decide +kernel
    rw [hq] at hv hv'
    rw [hv, hv', Option.map_some, Option.map_some, hsame] at hdiff
    exact absurd rfl hdiff
  exact (publications_replicate sample_viewHash_ne hnext).1 .sorted "s" hreg

/-- In every run an id reads one view at most, under one registration: it owns a view or subscribes
    to a live one of another id, and a consumer whose id reads no view holds nothing. -/
theorem registrations_apart {env : Env} (hne : ∀ keys n, env.viewHash keys n ≠ "")
    {planning : Planning} {r : Replica} (h : Replicates env planning r) :
    (∀ q ∈ r.circuit.views, (r.circuit.recipients q).Nodup ∧ ∀ q' ∈ r.circuit.views, ∀ id,
        id ∈ r.circuit.recipients q → id ∈ r.circuit.recipients q' → q = q') ∧
      (∀ o, ∀ s ∈ r.circuit.subscribersOf o, o ∈ r.circuit.views ∧ s.queryId ∉ r.circuit.views) ∧
      ∀ id, (∀ q ∈ r.circuit.views, id ∉ r.circuit.recipients q) → ∀ k, k ∉ r.held id := by
  have hf := h.faithful hne
  refine ⟨fun q hq => ⟨hf.shared.recipients_nodup hq, fun q' hq' id hid hid' => ?_⟩,
    fun o s hs => ⟨hf.shared.owned o (List.ne_nil_of_mem hs), hf.shared.apart o s hs⟩, hf.idle⟩
  exact hf.shared.recipients_unique hq hq' hid hid'

/-- A view that was registered has one recipient. -/
theorem registrations_apart_registered :
    ((Circuit.new.addQuery Env.sample asWritten .sorted (planAll "T") none "").1.recipients
      "q").Nodup := by
  have hrun := Replicates.addQuery .sorted (planAll "T") none ""
    (@Replicates.start Env.sample asWritten Circuit.new rfl rfl rfl) (by decide +kernel)
  exact ((registrations_apart sample_viewHash_ne hrun).1 "q" (by decide +kernel)).1

/-- The id is registered again for a table without rows: no delta says so, and the consumer keeps
    the row of the view that was replaced. -/
theorem publications_registered_twice :
    let c := (Circuit.new.step Env.sample asWritten .sorted (rowAdded "1")).1
    let first := c.addQuery Env.sample asWritten .sorted (planAll "T") none ""
    let second := first.1.addQuery Env.sample asWritten .sorted (planAll "U") none ""
    second.1.isRegistered .sorted "q" = true ∧
      ¬ ∃ v, second.1.views["q"]? = some v ∧
        ∀ k, k ∈ second.2.toList.foldl consume (first.2.toList.foldl consume ∅) ↔ k ∈ v.cache := by
  intro c first second
  refine ⟨by decide +kernel, ?_⟩
  rintro ⟨v, hv, hk⟩
  have hheld : "T:1" ∈ second.2.toList.foldl consume (first.2.toList.foldl consume ∅) := by
    decide +kernel
  have hgone : (second.1.views["q"]?).all (fun v => !v.cache.contains "T:1") = true := by
    decide +kernel
  rw [hv, Option.all_some, Bool.not_eq_true', ← Bool.not_eq_true,
    contains_iff_mem] at hgone
  exact hgone ((hk "T:1").mp hheld)

end Sp00ky.Ssp
