/-
  Batches on one table that name a record more than once.

  Only the net weight of a record and the last body staged for it reach the
  operators, so a chain over a scan can miss that a batch deleted a row: when the
  filters admit the body the row had before the batch but not the body its last
  delete dropped, and no write in between rewrote it in place. `BatchOk` rules
  that out, and on plain ids it is exactly what makes one step of the batch agree
  with its changes stepped one at a time.
-/
import Mathlib.Data.List.Infix
import Sp00ky.Ssp.Snapshot

namespace Sp00ky.Ssp

open Std Lib

/-! ## A record through a batch -/

/-- The row of a record after the changes are written. -/
def rowAfter (env : Env) (c : Circuit) (changes : List Change) (t id : String) : Option Row :=
  (changes.foldl (applyChange env) ⟨c, ∅, ∅, []⟩).circuit.store.row t id

/-- The last row the record had while the changes were written. -/
def lastRow (env : Env) (c : Circuit) (changes : List Change) (t id : String) : Option Row :=
  (changes.inits.filterMap fun l => rowAfter env c l t id).getLast?

/-- Some change rewrote the record in place, with another digest. -/
def Rewritten (env : Env) (c : Circuit) (changes : List Change) (t id : String) : Prop :=
  ∃ l ch a b, l ++ [ch] <+: changes ∧ rowAfter env c l t id = some a ∧
    rowAfter env c (l ++ [ch]) t id = some b ∧ b.digest ≠ a.digest

/-- Every change is on `t`, under an id that does not start with `t:`. -/
def PlainOn (t : String) (changes : List Change) : Prop :=
  ∀ ch ∈ changes, ch.table = t ∧ ∀ x, rawId ch.id ≠ t ++ ":" ++ x

/-- A record that the batch ends up deleting, without a rewrite in place: if the chain admits
    the row it had before, it admits the row that the last delete dropped. -/
def BatchOk (env : Env) (c : Circuit) (t : String) (plan : OperatorPlan)
    (ctx : Option Sp00kyValue) (changes : List Change) : Prop :=
  ∀ id r b, c.store.row t id = some r → rowAfter env c changes t id = none →
    lastRow env c changes t id = some b → ¬ Rewritten env c changes t id →
    plan.admits (t ++ ":" ++ id) (some r.value) ctx = true →
    plan.admits (t ++ ":" ++ id) (some b.value) ctx = true

section Trace

variable {env : Env} {c : Circuit} {t : String}

theorem rowAfter_nil (id : String) : rowAfter env c [] t id = c.store.row t id := rfl

theorem lastRow_snoc (l : List Change) (ch : Change) (id : String) :
    lastRow env c (l ++ [ch]) t id =
      (rowAfter env c (l ++ [ch]) t id).or (lastRow env c l t id) := by
  unfold lastRow
  rw [List.inits_append]
  simp only [List.inits, List.tail_cons, List.map_cons, List.map_nil, List.filterMap_append]
  cases h : rowAfter env c (l ++ [ch]) t id with
  | none => simp [h]
  | some r => simp [h]

theorem rewritten_snoc (l : List Change) (ch : Change) (id : String) :
    Rewritten env c (l ++ [ch]) t id ↔ Rewritten env c l t id ∨
      ∃ a b, rowAfter env c l t id = some a ∧ rowAfter env c (l ++ [ch]) t id = some b ∧
        b.digest ≠ a.digest := by
  constructor
  · rintro ⟨l', ch', a, b, hp, ha, hb, hd⟩
    rcases List.prefix_concat_iff.mp hp with he | hp
    · obtain ⟨rfl, he⟩ := List.append_inj' he rfl
      obtain rfl : ch' = ch := by simpa using he
      exact .inr ⟨a, b, ha, hb, hd⟩
    · exact .inl ⟨l', ch', a, b, hp, ha, hb, hd⟩
  · rintro (⟨l', ch', a, b, hp, ha, hb, hd⟩ | ⟨a, b, ha, hb, hd⟩)
    · exact ⟨l', ch', a, b, hp.trans (List.prefix_append _ _), ha, hb, hd⟩
    · exact ⟨l, ch, a, b, List.prefix_rfl, ha, hb, hd⟩

/-- A write under a plain id keeps ids plain. -/
theorem plainIds_written {s : Store} (hp : PlainIds s t) {s' : Store} {u i : String} {a : Applied}
    (hw : Written s s' u i a) (hi : u = t → ∀ x, i ≠ t ++ ":" ++ x) : PlainIds s' t := by
  intro x
  rw [hw.other t (t ++ ":" ++ x)]
  · exact hp x
  · by_cases hu : u = t
    · exact .inr fun he => hi hu x he.symm
    · exact .inl fun he => hu he.symm

theorem plainIds_foldl (env : Env) (hp : PlainIds c.store t) (changes : List Change)
    (hch : ∀ ch ∈ changes, ch.table = t → ∀ x, rawId ch.id ≠ t ++ ":" ++ x) :
    PlainIds (changes.foldl (applyChange env) ⟨c, ∅, ∅, []⟩).circuit.store t := by
  induction changes using List.reverseRecOn with
  | nil => exact hp
  | append_singleton l ch ih =>
    rw [List.foldl_append, List.foldl_cons, List.foldl_nil, applyChange_store]
    exact plainIds_written (ih fun x hx => hch x (by simp [hx])) (written_spec env _ ch).1
      (hch ch (by simp))

/-- The content updates of a batch are the records it rewrote in place. -/
theorem mem_content_iff (l : List Change) (hl : ∀ ch ∈ l, ch.table = t) (id : String) :
    t ++ ":" ++ id ∈ (l.foldl (applyChange env) ⟨c, ∅, ∅, []⟩).content.of t ↔
      Rewritten env c l t id := by
  induction l using List.reverseRecOn with
  | nil =>
    constructor
    · intro h
      simp [ContentUpdates.of] at h
    · rintro ⟨l', ch', -, -, hp, -⟩
      simp at hp
  | append_singleton l ch ih =>
    have ih := ih fun x hx => hl x (by simp [hx])
    have hcht : ch.table = t := hl ch (by simp)
    rw [rewritten_snoc, ← ih]
    unfold rowAfter
    rw [List.foldl_append, List.foldl_cons, List.foldl_nil]
    generalize l.foldl (applyChange env) ⟨c, ∅, ∅, []⟩ = p
    obtain ⟨-, hcases⟩ := applyChange_cases env p ch
    have hw := (written_spec env p.circuit ch).1
    rw [applyChange_store]
    generalize written env p.circuit ch = w at *
    rw [hcht] at hw
    -- the record of the change, or another one
    have hother : id ≠ rawId ch.id → w.1.row t id = p.circuit.store.row t id := fun h =>
      hw.other t id (.inr h)
    have hno : id ≠ rawId ch.id → ¬ ∃ a b, p.circuit.store.row t id = some a ∧
        w.1.row t id = some b ∧ b.digest ≠ a.digest := by
      rintro hne ⟨a, b, ha, hb, hd⟩
      rw [hother hne, ha] at hb
      cases hb
      exact hd rfl
    have hself : (∃ a b, p.circuit.store.row t (rawId ch.id) = some a ∧
        w.1.row t (rawId ch.id) = some b ∧ b.digest ≠ a.digest) ↔
        w.2.contentChanged = true ∧ w.2.weight = 0 := by
      rw [hw.changed, hw.weight, presence, presence]
      cases p.circuit.store.row t (rawId ch.id) <;> cases w.1.row t (rawId ch.id) <;> simp
    rcases hcases with ⟨hcc, -, hc, -⟩ | ⟨-, hne, -, hc, -⟩ | ⟨hcc, hz, -, hc, -⟩
    · rw [hc]
      constructor
      · exact .inl
      · rintro (h | h)
        · exact h
        · by_cases hid : id = rawId ch.id
          · rw [hid, hself, hcc] at h
            exact absurd h.1 (by simp)
          · exact absurd h (hno hid)
    · rw [hc]
      constructor
      · exact .inl
      · rintro (h | h)
        · exact h
        · by_cases hid : id = rawId ch.id
          · rw [hid, hself] at h
            exact absurd h.2 hne
          · exact absurd h (hno hid)
    · rw [hc, pushContent_of, hcht, if_pos rfl, List.mem_append, List.mem_singleton, hw.key]
      by_cases hid : id = rawId ch.id
      · rw [hid]
        simp only [or_true, true_iff]
        exact .inr (hself.mpr ⟨hcc, hz⟩)
      · have hk : t ++ ":" ++ id ≠ t ++ ":" ++ rawId ch.id := fun he => hid (join_injective he)
        simp only [hk, or_false]
        constructor
        · exact .inl
        · rintro (h | h)
          · exact h
          · exact absurd h (hno hid)

/-- A record held before a batch and not after it is staged with the last row it had. -/
theorem pending_lastRow (ht : ColonFree t) (hp : PlainIds c.store t) (l : List Change)
    (hl : PlainOn t l) {id : String} {r : Row} (hr : c.store.row t id = some r)
    (hn : rowAfter env c l t id = none) :
    ∃ b, lastRow env c l t id = some b ∧
      (l.foldl (applyChange env) ⟨c, ∅, ∅, []⟩).circuit.store.pendingDeletedRows[t ++ ":" ++ id]? =
        some b.value := by
  induction l using List.reverseRecOn with
  | nil =>
    rw [rowAfter_nil, hr] at hn
    cases hn
  | append_singleton l ch ih =>
    have hl' : PlainOn t l := fun x hx => hl x (by simp [hx])
    have hcht := (hl ch (by simp)).1
    have hplain := plainIds_foldl env hp l fun x hx _ => (hl' x hx).2
    rw [lastRow_snoc, hn, Option.none_or]
    unfold rowAfter at hn
    rw [List.foldl_append, List.foldl_cons, List.foldl_nil, applyChange_store] at *
    have hpend : ∀ (p : Phase1) (k : String),
        (written env p.circuit ch).1.pendingDeletedRows[k]? =
          (staged p.circuit ch).store.pendingDeletedRows[k]? := fun _ _ => rfl
    rw [hpend, staged_pending]
    obtain ⟨hw, hdel, hput⟩ := written_spec env
      (l.foldl (applyChange env) ⟨c, ∅, ∅, []⟩).circuit ch
    rw [hcht] at hw hput
    by_cases hid : id = rawId ch.id
    · subst hid
      -- the change is on this record: it deleted the row, or found none
      have hop : ch.op = .delete := by
        by_contra hop
        have := hput hop
        rw [hn] at this
        cases this
      cases hrow : rowAfter env c l t (rawId ch.id) with
      | none =>
        obtain ⟨b, hb, hpb⟩ := ih hl' hrow
        refine ⟨b, hb, ?_⟩
        rw [if_neg]
        · exact hpb
        · rintro ⟨-, -, hsome⟩
          rw [getRowByKey_plain ht hplain] at hsome
          unfold rowAfter at hrow
          rw [hrow] at hsome
          cases hsome
      | some b =>
        have hget : (l.foldl (applyChange env) ⟨c, ∅, ∅, []⟩).circuit.store.getRowByKey
            (t ++ ":" ++ rawId ch.id) = some b.value := by
          unfold rowAfter at hrow
          rw [getRowByKey_join ht, hrow]
        refine ⟨b, ?_, ?_⟩
        · rcases List.eq_nil_or_concat l with rfl | ⟨l₀, x, rfl⟩
          · rw [← hrow]
            unfold lastRow
            simp [hrow]
          · rw [List.concat_eq_append] at hrow ⊢
            rw [lastRow_snoc, hrow, Option.some_or]
        · rw [if_pos ⟨hop, by rw [makeKey, hcht], by rw [hget]; rfl⟩, hget]
    · have hrow : rowAfter env c l t id = none := by
        unfold rowAfter
        rw [← hw.other t id (.inr hid)]
        exact hn
      obtain ⟨b, hb, hpb⟩ := ih hl' hrow
      refine ⟨b, hb, ?_⟩
      rw [if_neg]
      · exact hpb
      · rintro ⟨-, hk, -⟩
        rw [makeKey, hcht] at hk
        exact hid (join_injective hk)

end Trace

/-! ## Views over a chain -/

/-- A view over a chain whose cache is the snapshot of its plan. -/
structure ChainView (env : Env) (t : String) (plan : OperatorPlan) (params : Option Sp00kyValue)
    (s : Store) (g : Graph) (v : View) : Prop where
  valid : g.Valid
  chain : ChainAt (shape g.nodes) t plan g.outputNode
  plain : Plain g.nodes
  cache : v.cache = plan.snapshot env s params

section StepChain

variable {env : Env} {t : String} {plan : OperatorPlan} {params : Option Sp00kyValue}

theorem ChainView.frame (ht : ColonFree t) {s s' : Store} {g : Graph} {v : View}
    (h : ChainView env t plan params s g v) (hrow : ∀ id, s'.row t id = s.row t id) :
    ChainView env t plan params s' g v :=
  ⟨h.valid, h.chain, h.plain, by rw [h.chain.rowChain.snapshot_congr ht hrow]; exact h.cache⟩

/-- The key of a deleted record reads the row staged for it. -/
theorem admitsKey_deleted (ht : ColonFree t) {s : Store} (hp : PlainIds s t) {id : String}
    (hn : s.row t id = none) {b : Sp00kyValue}
    (hb : s.pendingDeletedRows[t ++ ":" ++ id]? = some b) :
    plan.admitsKey s params (t ++ ":" ++ id) = plan.admits (t ++ ":" ++ id) (some b) params := by
  rw [OperatorPlan.admitsKey, Store.getRowByKeyOrDeleted, getRowByKey_plain ht hp, hn, ← hb]
  rfl

/-- A step of a chain view keeps its shape, and keeps its cache exact when the step never loses
    a deleted row: `hdel` speaks of the rows that the step dropped without a content update. -/
theorem ChainView.step_cache (ht : ColonFree t) (ho : HashOrder) (planner : IndexPlanner)
    {s s' : Store} {g : Graph} {v : View} (h : ChainView env t plan params s g v)
    (hctx : v.params = params) {deltas : TableDeltas} {cu : ContentUpdates}
    (hin : StepInput t s s' (deltas.of t) (cu.of t)) (hkeys : ∀ u, u ≠ t → cu.of u = []) :
    let r := Circuit.stepView env planner ho s' deltas cu g v
    r.1.Valid ∧ ChainAt (shape r.1.nodes) t plan r.1.outputNode ∧ Plain r.1.nodes ∧
      (r.2.1.cache = plan.snapshot env s' params ↔
        ∀ id row, s.row t id = some row → s'.row t id = none → t ++ ":" ++ id ∉ cu.of t →
          plan.admits (t ++ ":" ++ id) (some row.value) params = true →
          plan.admitsKey s' params (t ++ ":" ++ id) = true) := by
  intro r
  subst hctx
  have hc := h.chain.rowChain
  have hbin : v.cache.Binary := by
    rw [h.cache]
    exact hc.snapshot_binary
  obtain ⟨hg, hcache⟩ := stepView_plain env ho s' planner h.valid h.plain hbin deltas cu
  have hsh := stepped_sameShape env ho s' v.params h.valid deltas (contentKeys ho cu)
  have hg' : r.1 = _ := hg
  have hch' : ChainAt (shape r.1.nodes) t plan r.1.outputNode := by
    rw [hg', hsh.shape, hsh.out]
    exact h.chain
  have hv' : r.1.Valid := by
    rw [hg']
    exact hsh.valid h.valid
  refine ⟨hv', hch', by rw [hg']; exact hsh.plain h.plain, ?_⟩
  -- the main pass, the evaluation and the updated keys, in terms of rows
  have hout := h.chain.steppedOut_eq env ho s' v.params h.valid deltas (contentKeys ho cu)
  have heval : ∀ id, (g.stepped env ho s' v.params deltas (contentKeys ho cu)).evalAt env s'
      v.params (t ++ ":" ++ id) g.outputNode =
        plan.holdsRow v.params (t ++ ":" ++ id) (s'.row t id) := by
    intro id
    have hc2 : ChainAt (shape (g.stepped env ho s' v.params deltas (contentKeys ho cu)).nodes) t
        plan g.outputNode := by
      rw [hsh.shape]
      exact h.chain
    exact hc2.evalAt_join (hsh.valid h.valid) ht id
  have hmem : ∀ k, k ∈ contentKeys ho cu ↔ k ∈ cu.of t := mem_contentKeys_single hkeys
  have hold : ∀ id, v.cache[t ++ ":" ++ id]? =
      if plan.holdsRow v.params (t ++ ":" ++ id) (s.row t id) then some 1 else none := by
    intro id
    rw [h.cache, hc.snapshot_join ht]
  -- the cache at a record of the table
  have hnew : ∀ id, r.2.1.cache[t ++ ":" ++ id]? =
      if plan.holdsRow v.params (t ++ ":" ++ id) (s'.row t id) then some 1
      else if (s'.row t id).isNone ∧ t ++ ":" ++ id ∉ cu.of t ∧
          plan.holdsRow v.params (t ++ ":" ++ id) (s.row t id) ∧
          ¬ plan.admitsKey s' v.params (t ++ ":" ++ id) then some 1
      else none := by
    intro id
    have hd := hin.delta id
    have hsame := hin.same id
    have hw : v.cache.weight (t ++ ":" ++ id) =
        if plan.holdsRow v.params (t ++ ":" ++ id) (s.row t id) then 1 else 0 := by
      rw [ZSet.weight, hold]
      split <;> rfl
    rw [hcache, hout, ExtTreeMap.getElem?_filter', hd, hw, hold, heval]
    simp only [hmem]
    cases hs' : s'.row t id with
    | none =>
      cases hs : s.row t id with
      | none => simp [OperatorPlan.holdsRow]
      | some row =>
        cases hk : plan.admitsKey s' v.params (t ++ ":" ++ id) <;>
          by_cases hcu : t ++ ":" ++ id ∈ cu.of t <;>
          by_cases had : plan.admits (t ++ ":" ++ id) (some row.value) v.params <;>
          simp [OperatorPlan.holdsRow, Option.filter, hcu, had]
    | some row' =>
      have hadm : plan.admitsKey s' v.params (t ++ ":" ++ id) =
          plan.admits (t ++ ":" ++ id) (some row'.value) v.params := by
        rw [OperatorPlan.admitsKey, getRowByKeyOrDeleted_of_row ht hs']
      cases hs : s.row t id with
      | none =>
        by_cases had : plan.admits (t ++ ":" ++ id) (some row'.value) v.params <;>
          simp [OperatorPlan.holdsRow, Option.filter, hadm, had]
      | some row =>
        by_cases hcu : t ++ ":" ++ id ∈ cu.of t
        · by_cases had : plan.admits (t ++ ":" ++ id) (some row'.value) v.params <;>
            simp [OperatorPlan.holdsRow, hcu, had]
        · rw [hs, hs'] at hsame
          obtain rfl : row' = row := by simpa using hsame hcu rfl rfl
          by_cases had : plan.admits (t ++ ":" ++ id) (some row'.value) v.params <;>
            simp [OperatorPlan.holdsRow, hcu, had]
  have hother : ∀ k : String, (∀ id, k ≠ t ++ ":" ++ id) → r.2.1.cache[k]? = none := by
    intro k hk
    have hdk : (deltas.of t)[k]? = none := by
      refine ExtTreeMap.getElem?_eq_none fun hin' => ?_
      obtain ⟨id, he⟩ := hin.deltaKey k hin'
      exact hk id he
    have hnk : k ∉ cu.of t := by
      intro hin'
      obtain ⟨id, he⟩ := hin.contentKey k hin'
      exact hk id he
    rw [hcache, hout, ExtTreeMap.getElem?_filter', hdk]
    simp only [hmem, hnk, if_false, Option.filter]
    rw [h.cache]
    exact hc.snapshot_other hk
  constructor
  · intro he id row hs hs' hcu had
    by_contra hno
    have h1 := hnew id
    rw [he, hc.snapshot_join ht, hs'] at h1
    simp [OperatorPlan.holdsRow, hs, hcu, had, hno] at h1
  · intro hdel
    refine hc.snapshot_ext ht ?_ hother
    intro id
    rw [hnew]
    split
    · rfl
    · rw [if_neg]
      rintro ⟨h1, h2, h3, h4⟩
      rw [Option.isNone_iff_eq_none] at h1
      cases hs : s.row t id with
      | none => simp [OperatorPlan.holdsRow, hs] at h3
      | some row =>
        rw [hs] at h3
        exact h4 (hdel id row hs h1 h2 h3)

end StepChain

/-! ## Runs of a chain view -/

theorem RowChain.mem_collectTables {t : String} {plan : OperatorPlan} (hc : RowChain t plan) :
    t ∈ plan.collectTables := by
  induction hc with
  | scan => simp [OperatorPlan.collectTables]
  | filter _ ih => simpa [OperatorPlan.collectTables] using ih
  | project _ ih => simp [OperatorPlan.collectTables, ih]

theorem RowChain.unlimited {t : String} {plan : OperatorPlan} (hc : RowChain t plan) :
    plan.unlimited = true := by
  induction hc with
  | scan => rfl
  | filter _ ih => exact ih
  | project _ ih => exact ih

theorem content_of_other {env : Env} {ho : HashOrder} {c : Circuit} {changes : List Change}
    {t : String} (hch : ∀ ch ∈ changes, ch.table = t) {u : String} (hu : u ≠ t) :
    (phase1 env ho c changes).content.of u = [] := by
  have hraw : (changes.foldl (applyChange env) ⟨c, ∅, ∅, []⟩).changedTables ⊆ [t] := by
    induction changes using List.reverseRecOn with
    | nil => simp
    | append_singleton l ch ih =>
      have ih := ih fun x hx => hch x (by simp [hx])
      rw [List.foldl_append, List.foldl_cons, List.foldl_nil]
      obtain ⟨-, hcases⟩ := applyChange_cases env (l.foldl (applyChange env) ⟨c, ∅, ∅, []⟩) ch
      rcases hcases with ⟨-, -, -, h⟩ | ⟨-, -, -, -, h⟩ | ⟨-, -, -, -, h⟩
      · rw [h]
        exact ih
      all_goals
        rw [h]
        intro x hx
        rcases mem_addTable.mp hx with hx | rfl
        · exact ih hx
        · simp [hch ch (by simp)]
  have hu' : u ∉ (changes.foldl (applyChange env) ⟨c, ∅, ∅, []⟩).changedTables := fun h =>
    hu (by simpa using hraw h)
  obtain ⟨h1, h2⟩ := (foldl_applyChange_tracks env c changes).touched u hu'
  rw [(phase1_of env ho c changes u).2, ContentUpdates.of, h2]
  simp [cleanedKeys, entriesIn, TableDeltas.of, h1]

section Runs

variable {env : Env} {t : String} {plan : OperatorPlan} {params : Option Sp00kyValue}

/-- On the input of a step, `BatchOk` is what keeps a chain view exact. -/
theorem batchOk_iff (ht : ColonFree t) (ho : HashOrder) {c : Circuit} (hp : PlainIds c.store t)
    {changes : List Change} (hch : PlainOn t changes) :
    BatchOk env c t plan params changes ↔
      ∀ id row, c.store.row t id = some row →
        (phase1 env ho c changes).circuit.store.row t id = none →
        t ++ ":" ++ id ∉ (phase1 env ho c changes).content.of t →
        plan.admits (t ++ ":" ++ id) (some row.value) params = true →
        plan.admitsKey (phase1 env ho c changes).circuit.store params (t ++ ":" ++ id) = true := by
  have hp' := plainIds_foldl env hp changes fun x hx _ => (hch x hx).2
  have hcont : ∀ id, (phase1 env ho c changes).circuit.store.row t id = none →
      (t ++ ":" ++ id ∈ (phase1 env ho c changes).content.of t ↔
        Rewritten env c changes t id) := by
    intro id hn
    rw [phase1_circuit] at hn
    rw [(phase1_of env ho c changes t).2, List.mem_append, mem_cleanedKeys,
      mem_content_iff changes (fun x hx => (hch x hx).1), any_hasKey ht, hn]
    simp
  constructor
  · intro hok id row hr hn hcu had
    obtain ⟨b, hb, hpb⟩ := pending_lastRow ht hp changes hch hr hn
    rw [hcont id hn] at hcu
    rw [phase1_circuit, admitsKey_deleted ht hp' hn hpb]
    exact hok id row b hr hn hb hcu had
  · intro h id r b hr hn hb hrw had
    obtain ⟨b', hb', hpb⟩ := pending_lastRow ht hp changes hch hr hn
    rw [hb] at hb'
    cases hb'
    have := h id r hr hn (by rw [hcont id hn]; exact hrw) had
    rwa [phase1_circuit, admitsKey_deleted ht hp' hn hpb] at this

/-- A step of the circuit on a chain view: its cache stays the snapshot exactly when the change
    set is `BatchOk`. -/
theorem chainView_step (ht : ColonFree t) (planning : Planning) (ho : HashOrder) {c : Circuit}
    {q : String} {g : Graph} {v : View} (hreg : Registered c q plan params g v)
    (h : ChainView env t plan params c.store g v) (hp : PlainIds c.store t)
    {changes : List Change} (hch : PlainOn t changes) :
    let c' := (c.step env planning ho changes).1
    PlainIds c'.store t ∧ ∃ g' v', Registered c' q plan params g' v' ∧
      g'.Valid ∧ ChainAt (shape g'.nodes) t plan g'.outputNode ∧ Plain g'.nodes ∧
      (v'.cache = plan.snapshot env c'.store params ↔ BatchOk env c t plan params changes) := by
  intro c'
  have hc := h.chain.rowChain
  by_cases hne : changes = []
  · subst hne
    refine ⟨hp, g, v, hreg, h.valid, h.chain, h.plain, ?_⟩
    refine iff_of_true h.cache ?_
    intro id r b hr hn
    rw [rowAfter_nil, hr] at hn
    cases hn
  · obtain ⟨hst, hcase⟩ := step_registered env planning ho hreg hne
    have hrows : ∀ id, c'.store.row t id =
        (phase1 env ho c changes).circuit.store.row t id := by
      intro id
      change (c.step env planning ho changes).1.store.row t id = _
      rw [hst]
      rfl
    have hp' : PlainIds c'.store t := by
      intro x
      rw [hrows]
      exact plainIds_foldl env hp changes (fun x hx _ => (hch x hx).2) x
    refine ⟨hp', ?_⟩
    rw [hc.snapshot_congr ht hrows, batchOk_iff ht ho hp hch]
    rcases hcase with ⟨hquiet, hreg'⟩ | hreg'
    · have hsame := phase1_untouched env ho c changes (hquiet t hc.mem_collectTables)
      refine ⟨g, v, hreg', h.valid, h.chain, h.plain, iff_of_true ?_ ?_⟩
      · rw [h.cache, hc.snapshot_congr ht hsame]
      · intro id row hr hn
        rw [hsame, hr] at hn
        cases hn
    · obtain ⟨h1, h2, h3, h4⟩ := h.step_cache ht ho (planning c.indexDefs params) hreg.ctx
        (phase1_stepInput env ho c changes ht)
        (fun u hu => content_of_other (fun x hx => (hch x hx).1) hu)
      exact ⟨_, _, hreg', h1, h2, h3, h4⟩

/-- A chain view stays exact through every run whose steps are on the table and `BatchOk`. -/
theorem chainView_run (ht : ColonFree t) (planning : Planning) {c c' : Circuit} {q : String}
    {g : Graph} {v : View} (hreg : Registered c q plan params g v)
    (h : ChainView env t plan params c.store g v) (hp : PlainIds c.store t)
    (hr : Reaches env planning q
      (fun c changes => PlainOn t changes ∧ BatchOk env c t plan params changes) c c') :
    ∃ g' v', Registered c' q plan params g' v' ∧
      ChainView env t plan params c'.store g' v' ∧ PlainIds c'.store t := by
  have hmem := h.chain.rowChain.mem_collectTables
  induction hr with
  | start => exact ⟨g, v, hreg, h, hp⟩
  | step ho changes _ hok ih =>
    obtain ⟨g', v', hreg', h', hp'⟩ := ih
    obtain ⟨hp2, g2, v2, hreg2, hv2, hc2, hpl2, hiff⟩ :=
      chainView_step ht planning ho hreg' h' hp' hok.1
    exact ⟨g2, v2, hreg2, ⟨hv2, hc2, hpl2, hiff.mpr hok.2⟩, hp2⟩
  | addQuery ho other params' authId _ hq ih =>
    obtain ⟨g', v', hreg', h', hp'⟩ := ih
    obtain ⟨h1, h2⟩ := addQuery_other env planning ho _ other params' authId hreg' hq
    exact ⟨g', v', h1, h'.frame ht (h2 t), fun x => by rw [h2]; exact hp' x⟩
  | removeQuery other _ hq ih =>
    obtain ⟨g', v', hreg', h', hp'⟩ := ih
    exact ⟨g', v', removeQuery_other other hreg' hq, h', hp'⟩

end Runs

/-! ## One change at a time -/

/-- What phase 1 reads of a circuit: the rows and the version settings, not the staged rows. -/
structure SameData (c c' : Circuit) : Prop where
  collections : c'.store.collections = c.store.collections
  opaqueFields : c'.opaqueFields = c.opaqueFields
  monotonic : c'.monotonicRowVersions = c.monotonicRowVersions
  rvFloor : c'.rvFloor = c.rvFloor

theorem SameData.floorRowVersion {c c' : Circuit} (h : SameData c c') (t id : String)
    (data : Sp00kyValue) :
    SameData (floorRowVersion c t id data).1 (floorRowVersion c' t id data).1 ∧
      (Ssp.floorRowVersion c' t id data).2 = (Ssp.floorRowVersion c t id data).2 := by
  have hmax : maxRowVersion c'.store = maxRowVersion c.store := by
    unfold maxRowVersion
    rw [h.collections]
  unfold Ssp.floorRowVersion Store.getCollection
  dsimp only
  rw [h.collections, h.rvFloor, hmax]
  split
  · exact ⟨⟨h.collections, h.opaqueFields, h.monotonic, rfl⟩, rfl⟩
  · split
    · exact ⟨⟨h.collections, h.opaqueFields, h.monotonic, rfl⟩, rfl⟩
    · exact ⟨⟨h.collections, h.opaqueFields, h.monotonic, rfl⟩, rfl⟩

theorem SameData.staged {c c' : Circuit} (h : SameData c c') (ch : Change) :
    SameData (staged c ch) (staged c' ch) := by
  have hs : ∀ (s : Store) (t id : String), (s.stageDeletedRow t id).collections = s.collections := by
    intro s t id
    unfold Store.stageDeletedRow
    dsimp only
    split <;> rfl
  unfold Ssp.staged
  split
  · exact ⟨by rw [hs, hs]; exact h.collections, h.opaqueFields, h.monotonic, h.rvFloor⟩
  · exact h

theorem SameData.bodyIn {c c' : Circuit} (h : SameData c c') (ch : Change) :
    SameData (bodyIn c ch).1 (bodyIn c' ch).1 ∧ (Ssp.bodyIn c' ch).2 = (Ssp.bodyIn c ch).2 := by
  unfold Ssp.bodyIn
  dsimp only
  rw [h.opaqueFields, h.monotonic]
  split
  · exact h.floorRowVersion _ _ _
  · exact ⟨h, rfl⟩

theorem SameData.changed {c c' : Circuit} (h : SameData c c') (env : Env) (ch : Change) :
    SameData (changed env c ch) (changed env c' ch) := by
  obtain ⟨hb, hd⟩ := (h.staged ch).bodyIn ch
  refine ⟨?_, hb.opaqueFields, hb.monotonic, hb.rvFloor⟩
  unfold Ssp.changed written Store.applyOwned Store.setCollection Store.collectionOrNew
  dsimp only
  rw [hd, (h.staged ch).collections]

theorem SameData.trans {a b c : Circuit} (h : SameData a b) (h' : SameData b c) : SameData a c :=
  ⟨h'.1.trans h.1, h'.2.trans h.2, h'.3.trans h.3, h'.4.trans h.4⟩

/-- A step leaves the data that writing its changes leaves. -/
theorem step_sameData (env : Env) (planning : Planning) (ho : HashOrder) (c : Circuit)
    {changes : List Change} (hne : changes ≠ []) :
    SameData (changes.foldl (applyChange env) ⟨c, ∅, ∅, []⟩).circuit
        (c.step env planning ho changes).1 ∧
      (c.step env planning ho changes).1.store.pendingDeletedRows = ∅ := by
  rw [step_eq env planning ho c hne, foldl_stepAffected_frame, phase1_circuit]
  exact ⟨⟨rfl, rfl, rfl, rfl⟩, rfl⟩

/-- Step the changes one at a time, each in its own hash order. -/
def Circuit.stepEach (env : Env) (planning : Planning) (c : Circuit)
    (l : List (HashOrder × Change)) : Circuit :=
  l.foldl (fun c x => (c.step env planning x.1 [x.2]).1) c

theorem stepEach_snoc (env : Env) (planning : Planning) (c : Circuit)
    (l : List (HashOrder × Change)) (x : HashOrder × Change) :
    c.stepEach env planning (l ++ [x]) =
      ((c.stepEach env planning l).step env planning x.1 [x.2]).1 := by
  simp [Circuit.stepEach]

theorem stepEach_sameData (env : Env) (planning : Planning) (c : Circuit)
    (l : List (HashOrder × Change)) :
    SameData ((l.map Prod.snd).foldl (applyChange env) ⟨c, ∅, ∅, []⟩).circuit
        (c.stepEach env planning l) ∧
      (l ≠ [] → (c.stepEach env planning l).store.pendingDeletedRows = ∅) := by
  induction l using List.reverseRecOn with
  | nil => exact ⟨⟨rfl, rfl, rfl, rfl⟩, fun h => absurd rfl h⟩
  | append_singleton l x ih =>
    obtain ⟨hd, hp⟩ := step_sameData env planning x.1 (c.stepEach env planning l)
      (show [x.2] ≠ [] by simp)
    rw [stepEach_snoc, List.map_append, List.foldl_append]
    refine ⟨?_, fun _ => hp⟩
    simp only [List.map_cons, List.map_nil, List.foldl_cons, List.foldl_nil] at hd ⊢
    refine SameData.trans ?_ hd
    rw [(applyChange_cases env _ x.2).1, (applyChange_cases env _ x.2).1]
    exact ih.1.changed env x.2

/-- One step of a batch and its changes stepped one at a time leave the same store. -/
theorem step_store_eq_stepEach (env : Env) (planning : Planning) (ho : HashOrder) (c : Circuit)
    (l : List (HashOrder × Change)) :
    (c.step env planning ho (l.map Prod.snd)).1.store = (c.stepEach env planning l).store := by
  by_cases hl : l = []
  · subst hl
    rfl
  · obtain ⟨h1, h2⟩ := step_sameData env planning ho c
      (show l.map Prod.snd ≠ [] by simpa using hl)
    obtain ⟨h3, h4⟩ := stepEach_sameData env planning c l
    have hcol := h1.collections.trans h3.collections.symm
    have hpend := h2.trans (h4 hl).symm
    revert hcol hpend
    generalize (c.step env planning ho (l.map Prod.snd)).1.store = s
    generalize (c.stepEach env planning l).store = s'
    intro hcol hpend
    cases s
    cases s'
    simp only at hcol hpend
    subst hcol hpend
    rfl

/-! ## The batching law -/

/-- The cache of a query's view. -/
def Circuit.cacheOf (c : Circuit) (q : String) : Option ZSet := c.views[q]?.map View.cache

theorem Registered.cacheOf_eq {c : Circuit} {q : String} {plan : OperatorPlan}
    {params : Option Sp00kyValue} {g : Graph} {v : View} (h : Registered c q plan params g v) :
    c.cacheOf q = some v.cache := by
  rw [Circuit.cacheOf, h.view]
  rfl

theorem batchOk_single {env : Env} {c : Circuit} {t : String} {plan : OperatorPlan}
    {params : Option Sp00kyValue} (ch : Change) : BatchOk env c t plan params [ch] := by
  intro id r b hr hn hb _ had
  have hsn : lastRow env c ([] ++ [ch]) t id = _ := lastRow_snoc [] ch id
  rw [List.nil_append, hn, Option.none_or, hb] at hsn
  have hl : lastRow env c [] t id = some r := by
    unfold lastRow
    simp [rowAfter_nil, hr]
  rw [hl] at hsn
  cases hsn
  exact had

/-- A registration as written starts with an exact view. -/
theorem addQuery_chainView (env : Env) (ho : HashOrder) (c : Circuit) (plan : QueryPlan)
    (params : Option Json) (authId : String) {t : String} (hc : RowChain t plan.root) :
    ∃ g v, Registered (c.addQuery env asWritten ho plan params authId).1
        (Circuit.canonicalQueryId plan.id) plan.root (params.map Sp00kyValue.ofJson) g v ∧
      ChainView env t plan.root (params.map Sp00kyValue.ofJson)
        (c.addQuery env asWritten ho plan params authId).1.store g v := by
  obtain ⟨-, v, hreg, hcache⟩ := addQuery_registered env asWritten ho c plan params authId
  have hv : (Graph.fromPlan plan.root).Valid := Graph.fromPlanWith_valid plan.root noIndexes
  have hb := Graph.fromPlan_built plan.root
  have hsh := primeGraph_sameShape env ho
    (c.addQuery env asWritten ho plan params authId).1.store (params.map Sp00kyValue.ofJson) hv
  refine ⟨_, v, hreg, hsh.valid hv, ?_, hsh.plain (Graph.fromPlan_plain hc.unlimited), ?_⟩
  · have hchain := hc.chainAt hb
    rw [← hsh.shape] at hchain
    exact hchain
  · have hout : (primeGraph env ho (Graph.fromPlan plan.root) _ _).2 = some _ := primed_out env ho
      (c.addQuery env asWritten ho plan params authId).1.store (params.map Sp00kyValue.ofJson) hv
    have hsnap := hc.primedOut_eq env ho
      (c.addQuery env asWritten ho plan params authId).1.store (params.map Sp00kyValue.ofJson) hb hv
    have hcache' : v.cache = View.applyDelta ∅ ((primeGraph env ho (Graph.fromPlan plan.root) _
      (params.map Sp00kyValue.ofJson)).2.getD ∅) := hcache
    rw [hcache', hout, Option.getD_some, hsnap]
    exact applyDelta_of_binary hc.snapshot_binary

/-- Batches against single changes. In every state that a chain view reaches through admitted
    steps, one step of a change set leaves the store and the cache that its changes leave one at
    a time, in any hash orders, exactly when the change set is `BatchOk`. -/
theorem batch_law_iff (env : Env) (planning : Planning) {t : String} (ht : ColonFree t)
    {plan : OperatorPlan} {params : Option Sp00kyValue} {q : String} {c₀ c : Circuit} {g : Graph}
    {v : View} (hreg : Registered c₀ q plan params g v)
    (hview : ChainView env t plan params c₀.store g v) (hids : PlainIds c₀.store t)
    (hrun : Reaches env planning q
      (fun c changes => PlainOn t changes ∧ BatchOk env c t plan params changes) c₀ c)
    (ho : HashOrder) (l : List (HashOrder × Change)) (hl : PlainOn t (l.map Prod.snd)) :
    (c.step env planning ho (l.map Prod.snd)).1.store = (c.stepEach env planning l).store ∧
        (c.step env planning ho (l.map Prod.snd)).1.cacheOf q =
          (c.stepEach env planning l).cacheOf q ↔
      BatchOk env c t plan params (l.map Prod.snd) := by
  obtain ⟨g', v', hreg', hview', hids'⟩ := chainView_run ht planning hreg hview hids hrun
  -- one at a time the view stays exact: a single change is always admitted
  have heach : Reaches env planning q
      (fun c changes => PlainOn t changes ∧ BatchOk env c t plan params changes) c
      (c.stepEach env planning l) := by
    induction l using List.reverseRecOn with
    | nil => exact .start
    | append_singleton l x ih =>
      rw [stepEach_snoc]
      refine .step x.1 [x.2] (ih fun ch hch => hl ch ?_) ⟨fun ch hch => hl ch ?_, batchOk_single _⟩
      · rw [List.map_append]
        exact List.mem_append_left _ hch
      · rw [List.map_append]
        exact List.mem_append_right _ hch
  obtain ⟨g2, v2, hreg2, hview2, -⟩ := chainView_run ht planning hreg' hview' hids' heach
  obtain ⟨-, g3, v3, hreg3, -, -, -, hiff⟩ := chainView_step ht planning ho hreg' hview' hids' hl
  have hstore := step_store_eq_stepEach env planning ho c l
  rw [hreg3.cacheOf_eq, hreg2.cacheOf_eq, hview2.cache, ← hstore, Option.some.injEq, hiff]
  simp

/-- The plan `T WHERE a = 1`. -/
def planWhereA : QueryPlan := ⟨"q", .filter (.scan "T") (.cmp .eq (Path.new "a") (.int 1))⟩

/-- A row of `T`. -/
def rowA (a : Int) : Sp00kyValue := .object [("a", .int a)]

/-- A circuit with an empty view on `planWhereA`. -/
def emptyViewA : Circuit := (Circuit.new.addQuery Env.sample asWritten .sorted planWhereA none "").1

theorem emptyViewA_row (t id : String) : emptyViewA.store.row t id = none := by
  have h := (addQuery_registered Env.sample asWritten .sorted Circuit.new planWhereA none "").1 t id
  rw [← emptyViewA] at h
  rw [h]
  simp [Circuit.new, Store.new, Store.row]

/-- Create, delete and create one record. -/
def createDeleteCreate : List (HashOrder × Change) :=
  [(.sorted, ⟨"T", .create, "1", rowA 1⟩), (.sorted, ⟨"T", .delete, "1", .null⟩),
    (.sorted, ⟨"T", .create, "1", rowA 2⟩)]

theorem plainOn_createDeleteCreate : PlainOn "T" (createDeleteCreate.map Prod.snd) := by
  intro ch hch
  have hid : ch.table = "T" ∧ ch.id = "1" := by
    simp only [createDeleteCreate, List.map_cons, List.map_nil, List.mem_cons, List.not_mem_nil,
      or_false] at hch
    rcases hch with rfl | rfl | rfl <;> exact ⟨rfl, rfl⟩
  rw [hid.2]
  exact ⟨hid.1, ColonFree.ne_join (by decide) "T"⟩

theorem batch_law_iff_create_delete_create :
    (emptyViewA.step Env.sample asWritten .sorted (createDeleteCreate.map Prod.snd)).1.store =
        (emptyViewA.stepEach Env.sample asWritten createDeleteCreate).store ∧
      (emptyViewA.step Env.sample asWritten .sorted (createDeleteCreate.map Prod.snd)).1.cacheOf
          (Circuit.canonicalQueryId planWhereA.id) =
        (emptyViewA.stepEach Env.sample asWritten createDeleteCreate).cacheOf
          (Circuit.canonicalQueryId planWhereA.id) := by
  have hc : RowChain "T" planWhereA.root := .filter .scan
  obtain ⟨g, v, hreg, hview⟩ := addQuery_chainView Env.sample .sorted Circuit.new planWhereA none
    "" hc
  rw [← emptyViewA] at hreg hview
  refine (batch_law_iff Env.sample asWritten (by decide) hreg hview
    (fun id => emptyViewA_row _ _) .start .sorted createDeleteCreate
    plainOn_createDeleteCreate).mpr ?_
  intro id r b hr
  rw [emptyViewA_row] at hr
  cases hr

/-- Delete, create a row the filter rejects, delete again: in one batch the row stays in the
    view, one change at a time it goes. -/
theorem batch_law_delete_create_delete :
    let c := ((Circuit.new.step Env.sample indexPlanning .sorted
      [⟨"T", .create, "1", rowA 1⟩]).1.addQuery Env.sample indexPlanning .sorted planWhereA none
        "").1
    let l : List (HashOrder × Change) :=
      [(.sorted, ⟨"T", .delete, "1", .null⟩), (.sorted, ⟨"T", .create, "1", rowA 2⟩),
        (.sorted, ⟨"T", .delete, "1", .null⟩)]
    ¬ ((c.step Env.sample indexPlanning .sorted (l.map Prod.snd)).1.store =
        (c.stepEach Env.sample indexPlanning l).store ∧
      (c.step Env.sample indexPlanning .sorted (l.map Prod.snd)).1.cacheOf "q" =
        (c.stepEach Env.sample indexPlanning l).cacheOf "q") := by
  intro c l h
  have hlist := congrArg (fun z => z.map ExtTreeMap.toList) h.2
  revert hlist
  simp only [c, l]
  decide +kernel

end Sp00ky.Ssp
