/-
  Steps of one change.

  Such a step writes at most one row. Its table's delta holds the change in presence
  of that row, no other table has a delta, and the only key that can be noted as
  updated is the row's own, when the row is there before and after. The membership of
  every table, with its delta added, is the membership afterwards (`held_add`).
-/
import Sp00ky.Ssp.Snapshot

namespace Sp00ky.Ssp

open Std Lib

/-- The delta of a row that is there before, or after. -/
def presenceDelta (key : String) (before after : Bool) : ZSet :=
  match before, after with
  | false, true => {(key, 1)}
  | true, false => {(key, -1)}
  | _, _ => ∅

/-- What a step of one change on the row `t:id` hands to the queries. -/
structure OneChange (s s' : Store) (t id : String) (deltas : TableDeltas) (keys : List String) :
    Prop where
  other : ∀ u i, (u ≠ t ∨ i ≠ id) → s'.row u i = s.row u i
  deltaOther : ∀ u, u ≠ t → deltas.of u = ∅
  delta : deltas.of t = presenceDelta (t ++ ":" ++ id) (s.row t id).isSome (s'.row t id).isSome
  updated : ∀ k ∈ keys, k = t ++ ":" ++ id ∧ (s.row t id).isSome ∧ (s'.row t id).isSome
  same : keys = [] → (s.row t id).isSome → (s'.row t id).isSome → s'.row t id = s.row t id
  moved : keys ≠ [] → s'.row t id ≠ s.row t id
  staged : ∀ r, s.row t id = some r → s'.row t id = none →
    s'.pendingDeletedRows[t ++ ":" ++ id]? = some r.value

theorem getElem?_presenceDelta (key : String) (before after : Bool) (k : String) :
    (presenceDelta key before after)[k]? =
      if k = key ∧ after ≠ before then some (if after then 1 else -1) else none := by
  have hsingle : ∀ w : Int, ((∅ : ZSet).insert key w)[k]? = if k = key then some w else none := by
    intro w
    rw [ExtTreeMap.getElem?_insert]
    by_cases h : k = key
    · simp [h]
    · have hne : compare key k ≠ .eq := by simpa using Ne.symm h
      simp [h, hne]
  cases before <;> cases after <;> simp [presenceDelta, hsingle]

/-- The accumulators of a step of one change, by table. -/
theorem phase1_single (env : Env) (ho : HashOrder) (c : Circuit) (ch : Change) (u : String) :
    (u ≠ ch.table → (phase1 env ho c [ch]).deltas.of u = ∅ ∧
      (phase1 env ho c [ch]).content.of u = []) ∧
    ∀ k ∈ (phase1 env ho c [ch]).content.of u, k = ch.table ++ ":" ++ rawId ch.id ∧
      (written env c ch).2.contentChanged = true := by
  obtain ⟨h1, h2⟩ := phase1_of env ho c [ch] u
  obtain ⟨hwr, -, -⟩ := written_spec env c ch
  rw [h1, h2, List.foldl_cons, List.foldl_nil]
  rcases (applyChange_cases env ⟨c, ∅, ∅, []⟩ ch).2 with
    ⟨-, hd, hc, -⟩ | ⟨-, hw, hd, hc, -⟩ | ⟨hcc, -, hd, hc, -⟩
  · rw [hd, hc]
    simp [TableDeltas.of, ContentUpdates.of, filter_empty, cleanedKeys, entriesIn]
  · rw [hd, hc]
    by_cases hu : u = ch.table
    · subst hu
      refine ⟨fun h => absurd rfl h, fun k hk => ?_⟩
      -- the entry has a weight, so the clean-up finds nothing
      simp only [ContentUpdates.of, ExtTreeMap.not_mem_empty, not_false_eq_true,
        ExtTreeMap.getElem?_eq_none, Option.getD_none, List.nil_append, mem_cleanedKeys] at hk
      obtain ⟨hk, -⟩ := hk
      rw [TableDeltas.of, ExtTreeMap.getElem?_alter_self, Option.getD_some,
        ExtTreeMap.getElem?_alter] at hk
      simp only [ExtTreeMap.not_mem_empty, not_false_eq_true, ExtTreeMap.getElem?_eq_none,
        Option.getD_none, Int.zero_add] at hk
      split at hk
      next => exact absurd (Option.some.inj hk) hw
      next => cases hk
    · have hnone : (TableDeltas.of ((∅ : TableDeltas).alter ch.table fun old =>
          some ((old.getD ∅).alter (written env c ch).2.key fun w =>
            some (w.getD 0 + (written env c ch).2.weight))) u) = ∅ := by
        rw [TableDeltas.of, ExtTreeMap.getElem?_alter, if_neg (by simpa using Ne.symm hu)]
        simp
      rw [hnone]
      simp [ContentUpdates.of, filter_empty, cleanedKeys, entriesIn]
  · rw [hd, hc, pushContent_of, hwr.key]
    by_cases hu : u = ch.table
    · subst hu
      simp [TableDeltas.of, ContentUpdates.of, cleanedKeys, entriesIn, hcc]
    · simp [hu, TableDeltas.of, ContentUpdates.of, filter_empty, cleanedKeys, entriesIn]

theorem phase1_oneChange (env : Env) (ho : HashOrder) (c : Circuit) (ch : Change)
    (ht : ColonFree ch.table) :
    OneChange c.store (phase1 env ho c [ch]).circuit.store ch.table (rawId ch.id)
      (phase1 env ho c [ch]).deltas (contentKeys ho (phase1 env ho c [ch]).content) := by
  have hin := phase1_stepInput env ho c [ch] ht
  have honce := phase1_stepOnce env ho c [ch] (by simpa [PlainTables] using ht)
    (by simp [NoRepeat]) ht
  obtain ⟨hwr, -, -⟩ := written_spec env c ch
  have hstore : (phase1 env ho c [ch]).circuit.store = (written env c ch).1 :=
    applyChange_store env ⟨c, ∅, ∅, []⟩ ch
  have hkeys : ∀ k, k ∈ contentKeys ho (phase1 env ho c [ch]).content ↔
      k ∈ (phase1 env ho c [ch]).content.of ch.table :=
    mem_contentKeys_single fun u hu => ((phase1_single env ho c ch u).1 hu).2
  have hother : ∀ u i, (u ≠ ch.table ∨ i ≠ rawId ch.id) →
      (phase1 env ho c [ch]).circuit.store.row u i = c.store.row u i := by
    rw [hstore]
    exact hwr.other
  refine ⟨hother, fun u hu => ((phase1_single env ho c ch u).1 hu).1, ?_, ?_, ?_, ?_,
    honce.staged _⟩
  · refine ExtTreeMap.ext_getElem? fun k => ?_
    rw [getElem?_presenceDelta]
    by_cases hk : k = ch.table ++ ":" ++ rawId ch.id
    · subst hk
      rw [hin.delta]
      by_cases he : ((phase1 env ho c [ch]).circuit.store.row ch.table (rawId ch.id)).isSome =
          (c.store.row ch.table (rawId ch.id)).isSome
      · simp [he]
      · simp only [he, if_false, ne_eq, not_false_eq_true, and_self, if_true]
    · rw [if_neg fun h => hk h.1]
      refine ExtTreeMap.getElem?_eq_none fun hmem => ?_
      obtain ⟨i, rfl⟩ := hin.deltaKey k hmem
      have hi : i ≠ rawId ch.id := fun h => hk (by rw [h])
      have hd := hin.delta i
      rw [hother _ i (.inr hi), if_pos rfl] at hd
      rw [ExtTreeMap.mem_iff_isSome_getElem?, hd] at hmem
      cases hmem
  · intro k hk
    have hk' := (hkeys k).mp hk
    obtain ⟨rfl, -⟩ := (phase1_single env ho c ch ch.table).2 k hk'
    exact ⟨rfl, honce.held _ hk'⟩
  · intro hnil hs hs'
    refine hin.same _ ?_ hs hs'
    rw [← hkeys, hnil]
    simp
  · intro hne he
    obtain ⟨k, hk⟩ := List.exists_mem_of_ne_nil _ hne
    obtain ⟨-, hcc⟩ := (phase1_single env ho c ch ch.table).2 k ((hkeys k).mp hk)
    rw [hstore] at he
    exact hwr.changed.mp hcc (by rw [he])

/-! ## Weights -/

theorem ZSet.NoZero.add {a : ZSet} (ha : a.NoZero) (b : ZSet) : (a.add b).NoZero := by
  intro k
  rw [ZSet.getElem?_add]
  cases b[k]? with
  | none => exact ha k
  | some w =>
    dsimp only
    split
    next => simp
    next hne => simpa using hne

theorem ZSet.NoZero.getElem?_eq {z : ZSet} (h : z.NoZero) (k : String) :
    z[k]? = if z.weight k = 0 then none else some (z.weight k) := by
  have hk := h k
  rw [ZSet.weight]
  cases hz : z[k]? with
  | none => simp
  | some w =>
    rw [hz] at hk
    have : w ≠ 0 := fun hw => hk (by rw [hw])
    simp [this]

theorem ZSet.ext_weight {a b : ZSet} (ha : a.NoZero) (hb : b.NoZero)
    (h : ∀ k, a.weight k = b.weight k) : a = b := by
  refine ExtTreeMap.ext_getElem? fun k => ?_
  rw [ha.getElem?_eq, hb.getElem?_eq, h k]

theorem ZSet.Binary.noZero {z : ZSet} (h : z.Binary) : z.NoZero := by
  intro k
  rcases h k with hk | hk
  · simp [hk]
  · simp [hk]

section Held

variable {s : Store} {t : String}

theorem held_binary : (s.held t).Binary := by
  intro k
  rcases held_getElem? (s := s) (t := t) k with ⟨h, -⟩ | ⟨h, -⟩
  · exact .inr h
  · exact .inl h

theorem held_noZero : (s.held t).NoZero := held_binary.noZero

theorem held_weight (id : String) : (s.held t).weight (t ++ ":" ++ id) = presence (s.row t id) := by
  rw [ZSet.weight, held_join, presence]
  split <;> rfl

theorem held_weight_other {k : String} (h : ∀ id, k ≠ t ++ ":" ++ id) : (s.held t).weight k = 0 := by
  rcases held_getElem? (s := s) (t := t) k with ⟨-, id, -, he⟩ | ⟨hn, -⟩
  · exact absurd he (h id)
  · rw [ZSet.weight, hn]
    rfl

end Held

section Changes

variable {s s' : Store} {t id : String} {deltas : TableDeltas} {keys : List String}
  (h : OneChange s s' t id deltas keys)

include h

theorem OneChange.delta_weight (u i : String) :
    (deltas.of u).weight (u ++ ":" ++ i) = presence (s'.row u i) - presence (s.row u i) := by
  by_cases hu : u = t
  · subst hu
    rw [ZSet.weight, h.delta, getElem?_presenceDelta]
    by_cases hi : i = id
    · subst hi
      unfold presence
      cases (s.row u i).isSome <;> cases (s'.row u i).isSome <;> simp
    · rw [if_neg fun hk => hi (join_injective hk.1), h.other u i (.inr hi)]
      simp
  · rw [h.deltaOther u hu, h.other u i (.inl hu)]
    simp [ZSet.weight]

theorem OneChange.delta_key {u k : String} (hk : k ∈ deltas.of u) : ∃ i, k = u ++ ":" ++ i := by
  rw [ExtTreeMap.mem_iff_isSome_getElem?] at hk
  by_cases hu : u = t
  · subst hu
    rw [h.delta, getElem?_presenceDelta] at hk
    split at hk
    next hc => exact ⟨id, hc.1⟩
    next => cases hk
  · rw [h.deltaOther u hu] at hk
    simp at hk

/-- The memberships follow the deltas. -/
theorem OneChange.held_add (u : String) : (s.held u).add (deltas.of u) = s'.held u := by
  refine ZSet.ext_weight (held_noZero.add _) held_noZero fun k => ?_
  rw [ZSet.weight_add]
  by_cases hk : ∃ i, k = u ++ ":" ++ i
  · obtain ⟨i, rfl⟩ := hk
    rw [h.delta_weight, held_weight, held_weight]
    omega
  · have hd : (deltas.of u).weight k = 0 := by
      rw [ZSet.weight, ExtTreeMap.getElem?_eq_none fun hm => hk (h.delta_key hm)]
      rfl
    rw [held_weight_other fun i he => hk ⟨i, he⟩, held_weight_other fun i he => hk ⟨i, he⟩, hd]
    rfl

end Changes

end Sp00ky.Ssp
