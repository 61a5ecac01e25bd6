/-
  What a write and a batch of writes do to the store.

  `Store.row` is the row a table holds under a raw id; every reader of the model
  is put in its terms for colon-free tables. `PlainIds s t` says that no row of
  `t` has a raw id of the form `t:…`: it is what `get_row_by_key` needs in order
  not to answer for an absent row with another one.

  `phase1_spec` is the contract of phase 1 of a step over any change list: a
  table's delta is the difference in presence, and a row held before and after
  without a content update is the same row. `phase1_distinct` adds, for change
  lists that mention no record twice, that content updates are rows held before
  and after, and that a deleted row is staged with the body it had.
-/
import Sp00ky.Ssp.Circuit

namespace Sp00ky.Ssp

open Std Lib
open ExtTreeMap (getElem?_alter getElem?_eq_none getElem?_filter' getElem?_insert mem_alter
  mem_iff_isSome_getElem? mem_keys)

/-! ## Reading rows -/

/-- The row `t` holds under a raw id. -/
def Store.row (s : Store) (t id : String) : Option Row := (s.collections[t]?).bind (·.rows[id]?)

/-- No row of `t` has a raw id that starts with `t:`. -/
def PlainIds (s : Store) (t : String) : Prop := ∀ id, s.row t (t ++ ":" ++ id) = none

/-- The membership of a table, empty for an unknown one. -/
def Store.held (s : Store) (t : String) : ZSet := (s.getCollection t).elim ∅ Collection.membership

section Reading

variable {s : Store} {t : String}

theorem getRowByKey_join (ht : ColonFree t) (id : String) :
    s.getRowByKey (t ++ ":" ++ id) =
      match s.row t id with
      | some r => some r.value
      | none => (s.row t (t ++ ":" ++ id)).map Row.value := by
  unfold Store.getRowByKey
  rw [parseKey_join ht]
  dsimp only
  unfold Store.row Collection.get
  cases hc : s.collections[t]? with
  | none => rfl
  | some c =>
    dsimp only [Option.bind_some]
    cases c.rows[id]? <;> rfl

theorem getRowByKey_plain (ht : ColonFree t) (hp : PlainIds s t) (id : String) :
    s.getRowByKey (t ++ ":" ++ id) = (s.row t id).map Row.value := by
  rw [getRowByKey_join ht, hp id]
  cases s.row t id <;> rfl

theorem any_hasKey (ht : ColonFree t) (id : String) :
    (s.getCollection t).any (·.hasKey (t ++ ":" ++ id)) = (s.row t id).isSome := by
  unfold Store.row Store.getCollection Collection.hasKey
  rw [rawId_join ht]
  cases s.collections[t]? with
  | none => rfl
  | some c => simp

theorem membership_getElem? (c : Collection) (k : String) :
    (c.membership)[k]? = some 1 ∧ (∃ id ∈ c.rows, k = c.keyOf id) ∨
      (c.membership)[k]? = none ∧ ∀ id ∈ c.rows, k ≠ c.keyOf id := by
  have hfold : ∀ (l : List (String × Row)) (z : ZSet),
      (l.foldl (fun z ir => z.insert (c.keyOf ir.1) 1) z)[k]? =
        if ∃ ir ∈ l, k = c.keyOf ir.1 then some 1 else z[k]? := by
    intro l
    induction l with
    | nil => simp
    | cons ir l ih =>
      intro z
      rw [List.foldl_cons, ih, getElem?_insert]
      by_cases h1 : ∃ ir' ∈ l, k = c.keyOf ir'.1
      · rw [if_pos h1, if_pos]
        obtain ⟨ir', hm, hk⟩ := h1
        exact ⟨ir', List.mem_cons_of_mem _ hm, hk⟩
      · rw [if_neg h1]
        by_cases h2 : k = c.keyOf ir.1
        · rw [if_pos (by simp [h2]), if_pos ⟨ir, List.mem_cons_self, h2⟩]
        · rw [if_neg (by simpa using Ne.symm h2), if_neg]
          rintro ⟨ir', hm, hk⟩
          rcases List.mem_cons.mp hm with rfl | hm
          · exact h2 hk
          · exact h1 ⟨ir', hm, hk⟩
  have hm : c.membership = c.rows.toList.foldl (fun z ir => z.insert (c.keyOf ir.1) 1) ∅ :=
    ExtTreeMap.foldl_eq_foldl_toList
  have hiff : (∃ ir ∈ c.rows.toList, k = c.keyOf ir.1) ↔ ∃ id ∈ c.rows, k = c.keyOf id := by
    constructor
    · rintro ⟨⟨id, r⟩, hr, hk⟩
      have := ExtTreeMap.mem_toList_iff_getElem?_eq_some.mp hr
      exact ⟨id, mem_of_getElem? this, hk⟩
    · rintro ⟨id, hid, hk⟩
      rw [mem_iff_isSome_getElem?, Option.isSome_iff_exists] at hid
      obtain ⟨r, hr⟩ := hid
      exact ⟨(id, r), ExtTreeMap.mem_toList_iff_getElem?_eq_some.mpr hr, hk⟩
  rw [hm, hfold]
  by_cases h : ∃ id ∈ c.rows, k = c.keyOf id
  · exact .inl ⟨if_pos (hiff.mpr h), h⟩
  · refine .inr ⟨?_, fun id hid hk => h ⟨id, hid, hk⟩⟩
    rw [if_neg fun h' => h (hiff.mp h')]
    simp

theorem held_getElem? (k : String) :
    (s.held t)[k]? = some 1 ∧ (∃ id, (s.row t id).isSome ∧ k = t ++ ":" ++ id) ∨
      (s.held t)[k]? = none ∧ ∀ id, (s.row t id).isSome → k ≠ t ++ ":" ++ id := by
  unfold Store.held Store.getCollection Store.row
  cases hc : s.collections[t]? with
  | none => exact .inr ⟨by simp, fun id h => by simp at h⟩
  | some c =>
    have hname := s.named t c hc
    have hkey : ∀ id, c.keyOf id = t ++ ":" ++ id := fun id => by rw [Collection.keyOf, hname]
    have hmem : ∀ id, id ∈ c.rows ↔ (c.rows[id]?).isSome := fun id =>
      mem_iff_isSome_getElem?
    simp only [Option.elim_some, Option.bind_some]
    rcases membership_getElem? c k with ⟨h1, id, hid, hk⟩ | ⟨h1, h2⟩
    · exact .inl ⟨h1, id, (hmem id).mp hid, by rw [hk, hkey]⟩
    · exact .inr ⟨h1, fun id hid => by rw [← hkey]; exact h2 id ((hmem id).mpr hid)⟩

theorem held_join (id : String) :
    (s.held t)[t ++ ":" ++ id]? = if (s.row t id).isSome then some 1 else none := by
  rcases held_getElem? (s := s) (t := t) (t ++ ":" ++ id) with ⟨h, id', hr, he⟩ | ⟨h, hn⟩
  · obtain rfl := join_injective he
    rw [h, if_pos hr]
  · rw [h, if_neg]
    intro hr
    exact hn id hr rfl

end Reading

/-! ## One write -/

/-- 1 for a row held, 0 for none. -/
def presence (r : Option Row) : Int := if r.isSome then 1 else 0

/-- What one write to the row `t:id` did, as its `Applied` record tells. -/
structure Written (s s' : Store) (t id : String) (a : Applied) : Prop where
  key : a.key = t ++ ":" ++ id
  other : ∀ u i, (u ≠ t ∨ i ≠ id) → s'.row u i = s.row u i
  weight : a.weight = presence (s'.row t id) - presence (s.row t id)
  same : a.contentChanged = false → s'.row t id = s.row t id
  changed : a.contentChanged = true ↔ (s'.row t id).map Row.digest ≠ (s.row t id).map Row.digest

theorem setCollection_row (s : Store) (c : Collection) (t id : String) :
    (s.setCollection c).row t id = if t = c.name then c.rows[id]? else s.row t id := by
  unfold Store.row Store.setCollection
  rw [getElem?_insert]
  by_cases h : t = c.name
  · simp [h]
  · rw [if_neg (by simpa using Ne.symm h), if_neg h]

theorem collectionOrNew_rows (s : Store) (t id : String) :
    (s.collectionOrNew t).rows[id]? = s.row t id := by
  unfold Store.collectionOrNew Store.row
  cases s.collections[t]? with
  | none => simp [Collection.new]
  | some c => rfl

variable (env : Env)

/-- The rows of a collection after a write. -/
theorem apply_rows (c : Collection) (op : Operation) (id : String)
    (data : Sp00kyValue) (i : String) :
    (c.apply env op id data).1.rows[i]? =
      if i = rawId id then (c.apply env op id data).1.rows[rawId id]? else c.rows[i]? := by
  by_cases h : i = rawId id
  · rw [if_pos h, h]
  · rw [if_neg h]
    have hne : compare (rawId id) i ≠ .eq := by simpa using Ne.symm h
    unfold Collection.apply
    dsimp only
    split
    · split
      · rfl
      · simp [ExtTreeMap.getElem?_erase, hne]
    · split
      · rfl
      · simp [getElem?_insert, hne]

/-- The written row of a collection against its `Applied` record. -/
theorem apply_row (c : Collection) (op : Operation) (id : String) (data : Sp00kyValue) :
    (c.apply env op id data).2.weight =
        presence (c.apply env op id data).1.rows[rawId id]? - presence c.rows[rawId id]? ∧
      ((c.apply env op id data).2.contentChanged = false →
        (c.apply env op id data).1.rows[rawId id]? = c.rows[rawId id]?) ∧
      ((c.apply env op id data).2.contentChanged = true ↔
        (c.apply env op id data).1.rows[rawId id]?.map Row.digest ≠
          c.rows[rawId id]?.map Row.digest) ∧
      (op = .delete → (c.apply env op id data).1.rows[rawId id]? = none) ∧
      (op ≠ .delete → (c.apply env op id data).1.rows[rawId id]?.isSome) := by
  unfold Collection.apply
  dsimp only
  by_cases hop : op = .delete
  · rw [if_pos hop]
    cases hr : c.rows[rawId id]? with
    | none => simp [hr, hop]
    | some old => simp [presence, hop]
  · rw [if_neg hop]
    cases hr : c.rows[rawId id]? with
    | none => simp [presence, hop]
    | some old =>
      by_cases hd : old.digest = env.digest (rawId id) (c.incoming op (rawId id) data)
      · simp [hd, hr, hop]
      · simp [hd, hop, presence, Ne.symm hd]

theorem applyOwned_written (s : Store) (t : String) (op : Operation) (id : String)
    (data : Sp00kyValue) :
    Written s (s.applyOwned env t op id data).1 t (rawId id) (s.applyOwned env t op id data).2 ∧
      (op = .delete → (s.applyOwned env t op id data).1.row t (rawId id) = none) ∧
      (op ≠ .delete → ((s.applyOwned env t op id data).1.row t (rawId id)).isSome) := by
  have hname := s.collectionOrNew_name t
  obtain ⟨hw, hs, hc, hdel, hput⟩ := apply_row env (s.collectionOrNew t) op id data
  have hrow : ∀ u i, (s.applyOwned env t op id data).1.row u i =
      if u = t then ((s.collectionOrNew t).apply env op id data).1.rows[i]? else s.row u i := by
    intro u i
    unfold Store.applyOwned
    rw [setCollection_row, Collection.apply_name, hname]
  rw [collectionOrNew_rows] at hw hs hc
  refine ⟨⟨?_, ?_, ?_, ?_, ?_⟩, ?_, ?_⟩
  · unfold Store.applyOwned
    rw [Collection.apply_key, hname, makeKey]
  · intro u i h
    rw [hrow]
    by_cases hu : u = t
    · have hi : i ≠ rawId id := h.resolve_left (not_not_intro hu)
      rw [if_pos hu, apply_rows, if_neg hi, collectionOrNew_rows, hu]
    · rw [if_neg hu]
  · rw [hrow, if_pos rfl]
    exact hw
  · rw [hrow, if_pos rfl]
    exact hs
  · rw [hrow, if_pos rfl]
    exact hc
  · rw [hrow, if_pos rfl]
    exact hdel
  · rw [hrow, if_pos rfl]
    exact hput

/-! ## One change -/

/-- Everything of a circuit but its store and its version counters. -/
structure SameQueries (c c' : Circuit) : Prop where
  graphs : c'.graphs = c.graphs
  views : c'.views = c.views
  dependencyMap : c'.dependencyMap = c.dependencyMap
  indexDefs : c'.indexDefs = c.indexDefs
  subscribers : c'.subscribers = c.subscribers
  detachedOwners : c'.detachedOwners = c.detachedOwners

theorem SameQueries.trans {a b c : Circuit} (h : SameQueries a b) (h' : SameQueries b c) :
    SameQueries a c :=
  ⟨h'.1.trans h.1, h'.2.trans h.2, h'.3.trans h.3, h'.4.trans h.4, h'.5.trans h.5, h'.6.trans h.6⟩

variable (c : Circuit)

theorem floorRowVersion_frame (table id : String) (data : Sp00kyValue) :
    SameQueries c (floorRowVersion c table id data).1 ∧
      (floorRowVersion c table id data).1.store = c.store := by
  unfold floorRowVersion
  dsimp only
  split
  · exact ⟨⟨rfl, rfl, rfl, rfl, rfl, rfl⟩, rfl⟩
  · split <;> exact ⟨⟨rfl, rfl, rfl, rfl, rfl, rfl⟩, rfl⟩

/-- The body a change brings to the store: opaque fields stripped, version stamped. -/
def bodyIn (c : Circuit) (ch : Change) : Circuit × Sp00kyValue :=
  let stripped := match c.opaqueFields[ch.table]? with
    | some fields => stripOpaque ch.data fields
    | none => ch.data
  if c.monotonicRowVersions && (ch.op = .create || ch.op = .update) then
    floorRowVersion c ch.table ch.id stripped
  else (c, stripped)

theorem bodyIn_frame (ch : Change) :
    SameQueries c (bodyIn c ch).1 ∧ (bodyIn c ch).1.store = c.store := by
  unfold bodyIn
  dsimp only
  split
  · exact floorRowVersion_frame _ _ _ _
  · exact ⟨⟨rfl, rfl, rfl, rfl, rfl, rfl⟩, rfl⟩

/-- The circuit a change is written to: a delete stages the row it is about to drop. -/
def staged (c : Circuit) (ch : Change) : Circuit :=
  if ch.op = .delete then { c with store := c.store.stageDeletedRow ch.table ch.id } else c

/-- The store a change leaves and its `Applied` record. -/
def written (env : Env) (c : Circuit) (ch : Change) : Store × Applied :=
  (staged c ch).store.applyOwned env ch.table ch.op ch.id (bodyIn (staged c ch) ch).2

theorem stageDeletedRow_row (s : Store) (t id u i : String) :
    (s.stageDeletedRow t id).row u i = s.row u i := by
  unfold Store.stageDeletedRow
  dsimp only
  split <;> rfl

theorem staged_row (ch : Change) (u i : String) :
    (staged c ch).store.row u i = c.store.row u i := by
  unfold staged
  split
  · exact stageDeletedRow_row _ _ _ _ _
  · rfl

theorem written_spec (ch : Change) :
    Written c.store (written env c ch).1 ch.table (rawId ch.id) (written env c ch).2 ∧
      (ch.op = .delete → (written env c ch).1.row ch.table (rawId ch.id) = none) ∧
      (ch.op ≠ .delete → ((written env c ch).1.row ch.table (rawId ch.id)).isSome) := by
  obtain ⟨h, hdel, hput⟩ := applyOwned_written env (staged c ch).store ch.table ch.op ch.id
    (bodyIn (staged c ch) ch).2
  refine ⟨⟨h.key, ?_, ?_, ?_, ?_⟩, hdel, hput⟩
  · intro u i hne
    rw [← staged_row c ch]
    exact h.other u i hne
  · rw [← staged_row c ch]
    exact h.weight
  · rw [← staged_row c ch]
    exact h.same
  · rw [← staged_row c ch]
    exact h.changed

/-- `touched` of phase 1: the table joins the changed ones. -/
def addTable (tables : List String) (t : String) : List String :=
  if tables.contains t then tables else tables ++ [t]

theorem mem_addTable {tables : List String} {t u : String} :
    u ∈ addTable tables t ↔ u ∈ tables ∨ u = t := by
  unfold addTable
  split
  · next h =>
    have ht : t ∈ tables := by simpa using h
    constructor
    · exact .inl
    · rintro (h | rfl)
      · exact h
      · exact ht
  · simp

/-- The circuit a change leaves. -/
def changed (env : Env) (c : Circuit) (ch : Change) : Circuit :=
  { (bodyIn (staged c ch) ch).1 with store := (written env c ch).1 }

theorem changed_sameQueries (ch : Change) :
    SameQueries c (changed env c ch) := by
  have hst : SameQueries c (staged c ch) := by
    unfold staged
    split <;> exact ⟨rfl, rfl, rfl, rfl, rfl, rfl⟩
  have hq := hst.trans (bodyIn_frame (staged c ch) ch).1
  exact ⟨hq.1, hq.2, hq.3, hq.4, hq.5, hq.6⟩

theorem applyChange_eq (p : Phase1) (ch : Change) :
    applyChange env p ch =
      if !(written env p.circuit ch).2.contentChanged then
        { p with circuit := changed env p.circuit ch }
      else
        let p1 : Phase1 :=
          if (written env p.circuit ch).2.weight ≠ 0 then
            { p with
                circuit := changed env p.circuit ch
                deltas := p.deltas.alter ch.table fun old =>
                  some ((old.getD ∅).alter (written env p.circuit ch).2.key fun w =>
                    some (w.getD 0 + (written env p.circuit ch).2.weight)) }
          else
            { p with
                circuit := changed env p.circuit ch
                content := pushContent p.content ch.table (written env p.circuit ch).2.key }
        { p1 with changedTables := addTable p1.changedTables ch.table } := by
  have hw : written env p.circuit ch = (bodyIn (staged p.circuit ch) ch).1.store.applyOwned env
      ch.table ch.op ch.id (bodyIn (staged p.circuit ch) ch).2 := by
    rw [(bodyIn_frame (staged p.circuit ch) ch).2]
    rfl
  unfold changed
  rw [hw]
  rfl

/-- What one change does to the accumulators of phase 1. -/
theorem applyChange_cases (p : Phase1) (ch : Change) :
    (applyChange env p ch).circuit = changed env p.circuit ch ∧
      ((written env p.circuit ch).2.contentChanged = false ∧
          (applyChange env p ch).deltas = p.deltas ∧
          (applyChange env p ch).content = p.content ∧
          (applyChange env p ch).changedTables = p.changedTables ∨
        (written env p.circuit ch).2.contentChanged = true ∧
          (written env p.circuit ch).2.weight ≠ 0 ∧
          (applyChange env p ch).deltas = p.deltas.alter ch.table (fun old =>
            some ((old.getD ∅).alter (written env p.circuit ch).2.key fun w =>
              some (w.getD 0 + (written env p.circuit ch).2.weight))) ∧
          (applyChange env p ch).content = p.content ∧
          (applyChange env p ch).changedTables = addTable p.changedTables ch.table ∨
        (written env p.circuit ch).2.contentChanged = true ∧
          (written env p.circuit ch).2.weight = 0 ∧
          (applyChange env p ch).deltas = p.deltas ∧
          (applyChange env p ch).content =
            pushContent p.content ch.table (written env p.circuit ch).2.key ∧
          (applyChange env p ch).changedTables = addTable p.changedTables ch.table) := by
  rw [applyChange_eq]
  cases hcc : (written env p.circuit ch).2.contentChanged with
  | false => exact ⟨rfl, .inl ⟨rfl, rfl, rfl, rfl⟩⟩
  | true =>
    dsimp only
    by_cases hw : (written env p.circuit ch).2.weight = 0
    · rw [if_neg (not_not_intro hw)]
      exact ⟨rfl, .inr (.inr ⟨rfl, hw, rfl, rfl, rfl⟩)⟩
    · rw [if_pos hw]
      exact ⟨rfl, .inr (.inl ⟨rfl, hw, rfl, rfl, rfl⟩)⟩

theorem applyChange_store (p : Phase1) (ch : Change) :
    (applyChange env p ch).circuit.store = (written env p.circuit ch).1 := by
  rw [(applyChange_cases env p ch).1]
  rfl

/-! ## All changes of a step -/

/-- The delta of a table, empty when it has none. -/
def TableDeltas.of (d : TableDeltas) (t : String) : ZSet := d[t]?.getD ∅

/-- The updated keys of a table. -/
def ContentUpdates.of (cu : ContentUpdates) (t : String) : List String := cu[t]?.getD []

theorem pushContent_of (cu : ContentUpdates) (t k u : String) :
    (pushContent cu t k).of u = if u = t then cu.of t ++ [k] else cu.of u := by
  unfold pushContent ContentUpdates.of
  rw [getElem?_alter]
  by_cases h : u = t
  · simp [h]
  · rw [if_neg (by simpa using Ne.symm h), if_neg h]

/-- The accumulators of phase 1 against the store the step started from: a delta holds the
    change in presence, and a row in neither accumulator is untouched. -/
structure Phase1.Tracks (s : Store) (p : Phase1) : Prop where
  deltaKey : ∀ t k, k ∈ p.deltas.of t → ∃ id, k = t ++ ":" ++ id
  weight : ∀ t id, (p.deltas.of t).weight (t ++ ":" ++ id) =
    presence (p.circuit.store.row t id) - presence (s.row t id)
  contentKey : ∀ t, ∀ k ∈ p.content.of t, ∃ id, k = t ++ ":" ++ id
  same : ∀ t id, t ++ ":" ++ id ∉ p.content.of t → t ++ ":" ++ id ∉ p.deltas.of t →
    p.circuit.store.row t id = s.row t id
  touched : ∀ t, t ∉ p.changedTables → p.deltas[t]? = none ∧ p.content[t]? = none

theorem tracks_start : Phase1.Tracks c.store ⟨c, ∅, ∅, []⟩ where
  deltaKey := by
    intro t k h
    simp [TableDeltas.of] at h
  weight := by
    intro t id
    simp [TableDeltas.of, ZSet.weight]
  contentKey := by
    intro t k h
    simp [ContentUpdates.of] at h
  same := fun _ _ _ _ => rfl
  touched := by
    intro t _
    simp

theorem Phase1.Tracks.applyChange {s : Store} {p : Phase1} (h : p.Tracks s) (env : Env)
    (ch : Change) : (applyChange env p ch).Tracks s := by
  have hst := applyChange_store env p ch
  obtain ⟨-, hcases⟩ := applyChange_cases env p ch
  obtain ⟨hw, -, -⟩ := written_spec env p.circuit ch
  generalize hw' : written env p.circuit ch = w at *
  generalize hp' : Ssp.applyChange env p ch = p' at *
  rw [← hst] at hw
  -- a row other than the one written is as it was
  have hrow : ∀ t id, t ≠ ch.table ∨ id ≠ rawId ch.id →
      p'.circuit.store.row t id = p.circuit.store.row t id := hw.other
  rcases hcases with ⟨hcc, hd, hc, hct⟩ | ⟨hcc, hne, hd, hc, hct⟩ | ⟨hcc, hz, hd, hc, hct⟩
  · -- nothing changed
    have hsame : ∀ t id, p'.circuit.store.row t id = p.circuit.store.row t id := by
      intro t id
      by_cases h1 : t = ch.table ∧ id = rawId ch.id
      · rw [h1.1, h1.2]
        exact hw.same hcc
      · exact hrow t id (by tauto)
    refine ⟨?_, ?_, ?_, ?_, ?_⟩
    · rw [hd]
      exact h.deltaKey
    · intro t id
      rw [hd, hsame]
      exact h.weight t id
    · rw [hc]
      exact h.contentKey
    · intro t id h1 h2
      rw [hsame]
      exact h.same t id (by rwa [hc] at h1) (by rwa [hd] at h2)
    · rw [hct, hd, hc]
      exact h.touched
  · -- a row came or went: its weight moves in the table's delta
    have hof : ∀ t, p'.deltas.of t = if t = ch.table then
        (p.deltas.of t).alter w.2.key (fun old => some (old.getD 0 + w.2.weight))
        else p.deltas.of t := by
      intro t
      unfold TableDeltas.of
      rw [hd, getElem?_alter]
      by_cases ht : t = ch.table
      · simp [ht]
      · rw [if_neg (by simpa using Ne.symm ht), if_neg ht]
    have hget : ∀ t k, (p'.deltas.of t)[k]? =
        if t = ch.table ∧ k = w.2.key then some ((p.deltas.of t).weight k + w.2.weight)
        else (p.deltas.of t)[k]? := by
      intro t k
      rw [hof]
      by_cases ht : t = ch.table
      · by_cases hk : k = w.2.key
        · simp [ht, hk, ZSet.weight]
        · rw [if_pos ht, if_neg (by tauto), getElem?_alter,
            if_neg (by simpa using Ne.symm hk)]
      · rw [if_neg ht, if_neg (by tauto)]
    refine ⟨?_, ?_, ?_, ?_, ?_⟩
    · intro t k hk
      rw [mem_iff_isSome_getElem?, hget] at hk
      by_cases hc' : t = ch.table ∧ k = w.2.key
      · exact ⟨rawId ch.id, by rw [hc'.2, hw.key, hc'.1]⟩
      · rw [if_neg hc'] at hk
        exact h.deltaKey t k (mem_iff_isSome_getElem?.mpr hk)
    · intro t id
      have hold := h.weight t id
      rw [ZSet.weight, hget]
      by_cases hc' : t = ch.table ∧ t ++ ":" ++ id = w.2.key
      · obtain ⟨rfl, hk⟩ := hc'
        have hid : id = rawId ch.id := by
          rw [hw.key] at hk
          exact join_injective hk
        have hww := hw.weight
        rw [if_pos ⟨rfl, hk⟩, Option.getD_some, hold, hid, hww]
        omega
      · rw [if_neg hc', hrow t id, ← ZSet.weight, hold]
        by_contra hno
        simp only [not_or, not_not] at hno
        exact hc' ⟨hno.1, by rw [hw.key, hno.1, hno.2]⟩
    · rw [hc]
      exact h.contentKey
    · intro t id h1 h2
      rw [mem_iff_isSome_getElem?, hget] at h2
      by_cases hc' : t = ch.table ∧ t ++ ":" ++ id = w.2.key
      · rw [if_pos hc'] at h2
        exact absurd rfl h2
      · rw [if_neg hc', ← mem_iff_isSome_getElem?] at h2
        rw [hrow t id]
        · exact h.same t id (by rwa [hc] at h1) h2
        · by_contra hno
          simp only [not_or, not_not] at hno
          exact hc' ⟨hno.1, by rw [hw.key, hno.1, hno.2]⟩
    · intro t ht
      rw [hct, mem_addTable, not_or] at ht
      rw [hd, hc, getElem?_alter, if_neg (by simpa using Ne.symm ht.2)]
      exact h.touched t ht.1
  · -- a row was rewritten in place: its key joins the content updates
    have hof : ∀ t, p'.content.of t = if t = ch.table then p.content.of t ++ [w.2.key]
        else p.content.of t := by
      intro t
      rw [hc, pushContent_of]
      split
      · next ht => rw [ht]
      · rfl
    refine ⟨?_, ?_, ?_, ?_, ?_⟩
    · rw [hd]
      exact h.deltaKey
    · intro t id
      rw [hd, h.weight t id]
      by_cases h1 : t = ch.table ∧ id = rawId ch.id
      · obtain ⟨rfl, rfl⟩ := h1
        have hww := hw.weight
        omega
      · rw [hrow t id (by tauto)]
    · intro t k hk
      rw [hof] at hk
      split at hk
      · next ht =>
        rcases List.mem_append.mp hk with hk | hk
        · exact h.contentKey t k hk
        · obtain rfl : k = w.2.key := by simpa using hk
          exact ⟨rawId ch.id, by rw [hw.key, ht]⟩
      · exact h.contentKey t k hk
    · intro t id h1 h2
      rw [hof] at h1
      rw [hd] at h2
      by_cases h3 : t = ch.table ∧ id = rawId ch.id
      · exact absurd (by rw [if_pos h3.1, hw.key, ← h3.1, ← h3.2]; simp) h1
      · rw [hrow t id (by tauto)]
        refine h.same t id ?_ h2
        intro hm
        refine h1 ?_
        split
        · exact List.mem_append_left _ hm
        · exact hm
    · intro t ht
      rw [hct, mem_addTable, not_or] at ht
      rw [hd, hc, pushContent, getElem?_alter, if_neg (by simpa using Ne.symm ht.2)]
      exact h.touched t ht.1

theorem foldl_applyChange_tracks (changes : List Change) :
    (changes.foldl (applyChange env) ⟨c, ∅, ∅, []⟩).Tracks c.store := by
  induction changes using List.reverseRecOn with
  | nil => exact tracks_start c
  | append_singleton l ch ih =>
    rw [List.foldl_append, List.foldl_cons, List.foldl_nil]
    exact ih.applyChange env ch

/-! ## The clean-up -/

/-- The keys the clean-up of a table's delta turns into content updates. -/
def cleanedKeys (ho : HashOrder) (store : Store) (t : String) (delta : ZSet) : List String :=
  ((entriesIn delta (ho.visit delta.keys)).filter fun kw =>
    kw.2 = 0 ∧ (store.getCollection t).any (·.hasKey kw.1)).map Prod.fst

theorem mem_visit (ho : HashOrder) {l : List String} {k : String} : k ∈ ho.visit l ↔ k ∈ l :=
  (ho.perm l).mem_iff

theorem mem_cleanedKeys {ho : HashOrder} {store : Store} {t : String} {delta : ZSet} {k : String} :
    k ∈ cleanedKeys ho store t delta ↔
      delta[k]? = some 0 ∧ (store.getCollection t).any (·.hasKey k) = true := by
  simp only [cleanedKeys, List.mem_map, List.mem_filter, Prod.exists, decide_eq_true_eq]
  constructor
  · rintro ⟨a, b, ⟨hm, h0, hh⟩, rfl⟩
    rw [mem_entriesIn] at hm
    exact ⟨by rw [hm.2, h0], hh⟩
  · rintro ⟨h0, hh⟩
    refine ⟨k, 0, ⟨mem_entriesIn.mpr ⟨?_, h0⟩, rfl, hh⟩, rfl⟩
    exact (mem_visit _).mpr (mem_keys_of_getElem? h0)

theorem foldl_pushContent_of (t : String) (l : List (String × Int)) (cu : ContentUpdates)
    (u : String) :
    (l.foldl (fun cu kw => pushContent cu t kw.1) cu).of u =
      if u = t then cu.of t ++ l.map Prod.fst else cu.of u := by
  induction l generalizing cu with
  | nil =>
    by_cases h : u = t
    · simp [h]
    · simp [h]
  | cons kw l ih =>
    rw [List.foldl_cons, ih, pushContent_of, pushContent_of]
    by_cases h : u = t
    · simp [h]
    · simp [h]

theorem cleanTable_spec (ho : HashOrder) (store : Store) (p : TableDeltas × ContentUpdates)
    (t u : String) :
    (cleanTable ho store p t).1[u]? =
        (if u = t then p.1[u]?.map (fun d => d.filter fun _ w => w != 0) else p.1[u]?) ∧
      (cleanTable ho store p t).2.of u =
        if u = t then p.2.of u ++ (p.1[u]?.map (cleanedKeys ho store u)).getD [] else p.2.of u := by
  unfold cleanTable
  cases hd : p.1[t]? with
  | none =>
    by_cases h : u = t
    · subst h
      simp [hd]
    · simp [h]
  | some delta =>
    dsimp only
    rw [foldl_pushContent_of, getElem?_insert]
    by_cases h : u = t
    · subst h
      simp [hd, cleanedKeys]
    · have hne : compare t u ≠ .eq := by simpa using Ne.symm h
      simp [h, hne]

theorem foldl_cleanTable_spec (ho : HashOrder) (store : Store) (l : List String) (hl : l.Nodup)
    (p : TableDeltas × ContentUpdates) (u : String) :
    (l.foldl (cleanTable ho store) p).1[u]? =
        (if u ∈ l then p.1[u]?.map (fun d => d.filter fun _ w => w != 0) else p.1[u]?) ∧
      (l.foldl (cleanTable ho store) p).2.of u =
        if u ∈ l then p.2.of u ++ (p.1[u]?.map (cleanedKeys ho store u)).getD []
        else p.2.of u := by
  induction l generalizing p with
  | nil => exact ⟨rfl, rfl⟩
  | cons t l ih =>
    rw [List.nodup_cons] at hl
    obtain ⟨h1, h2⟩ := ih hl.2 (cleanTable ho store p t)
    obtain ⟨c1, c2⟩ := cleanTable_spec ho store p t u
    rw [List.foldl_cons, h1, h2, c1, c2]
    by_cases h : u = t
    · subst h
      simp [hl.1]
    · simp [h]

/-- Phase 1 after the clean-up, by table. -/
theorem phase1_of (ho : HashOrder) (c : Circuit) (changes : List Change) (t : String) :
    (phase1 env ho c changes).deltas.of t =
        ((changes.foldl (applyChange env) ⟨c, ∅, ∅, []⟩).deltas.of t).filter (fun _ w => w != 0) ∧
      (phase1 env ho c changes).content.of t =
        (changes.foldl (applyChange env) ⟨c, ∅, ∅, []⟩).content.of t ++
          cleanedKeys ho (changes.foldl (applyChange env) ⟨c, ∅, ∅, []⟩).circuit.store t
            ((changes.foldl (applyChange env) ⟨c, ∅, ∅, []⟩).deltas.of t) := by
  unfold phase1
  generalize changes.foldl (applyChange env) ⟨c, ∅, ∅, []⟩ = p
  have hnd : (ho.visit p.deltas.keys).Nodup := (ho.perm _).nodup_iff.mpr (nodup_keys _)
  obtain ⟨h1, h2⟩ := foldl_cleanTable_spec ho p.circuit.store _ hnd (p.deltas, p.content) t
  have hmem : t ∉ ho.visit p.deltas.keys → p.deltas[t]? = none := by
    intro h
    rw [mem_visit, mem_keys] at h
    exact getElem?_eq_none h
  dsimp only
  rw [h2]
  unfold TableDeltas.of
  rw [h1]
  by_cases ht : t ∈ ho.visit p.deltas.keys
  · rw [if_pos ht, if_pos ht]
    cases p.deltas[t]? with
    | none => exact ⟨(filter_empty _).symm, by simp [cleanedKeys, entriesIn]⟩
    | some d => exact ⟨rfl, rfl⟩
  · rw [if_neg ht, if_neg ht, hmem ht]
    exact ⟨(filter_empty _).symm, by simp [cleanedKeys, entriesIn]⟩

theorem phase1_circuit (ho : HashOrder) (c : Circuit) (changes : List Change) :
    (phase1 env ho c changes).circuit =
      (changes.foldl (applyChange env) ⟨c, ∅, ∅, []⟩).circuit := rfl

theorem phase1_changedTables (ho : HashOrder) (c : Circuit) (changes : List Change) :
    (phase1 env ho c changes).changedTables =
      (changes.foldl (applyChange env) ⟨c, ∅, ∅, []⟩).changedTables := rfl

/-! ## What a step hands to the queries -/

/-- The part of a step's input that concerns the table `t`: its delta is the change in
    presence, and a row held before and after without a content update is the same row. -/
structure StepInput (t : String) (s s' : Store) (delta : ZSet) (content : List String) : Prop where
  deltaKey : ∀ k, k ∈ delta → ∃ id, k = t ++ ":" ++ id
  delta : ∀ id, delta[t ++ ":" ++ id]? =
    if (s'.row t id).isSome = (s.row t id).isSome then none
    else some (if (s'.row t id).isSome then 1 else -1)
  contentKey : ∀ k ∈ content, ∃ id, k = t ++ ":" ++ id
  same : ∀ id, t ++ ":" ++ id ∉ content → (s.row t id).isSome → (s'.row t id).isSome →
    s'.row t id = s.row t id

theorem phase1_stepInput (ho : HashOrder) (c : Circuit) (changes : List Change)
    {t : String} (ht : ColonFree t) :
    StepInput t c.store (phase1 env ho c changes).circuit.store
      ((phase1 env ho c changes).deltas.of t) ((phase1 env ho c changes).content.of t) := by
  have htr := foldl_applyChange_tracks env c changes
  obtain ⟨h1, h2⟩ := phase1_of env ho c changes t
  rw [h1, h2, phase1_circuit]
  generalize changes.foldl (applyChange env) ⟨c, ∅, ∅, []⟩ = p at *
  have hw := htr.weight t
  have hraw : ∀ k, k ∉ p.deltas.of t → (p.deltas.of t)[k]? = none := fun k hk =>
    getElem?_eq_none hk
  refine ⟨?_, ?_, ?_, ?_⟩
  · intro k hk
    refine htr.deltaKey t k ?_
    rw [mem_iff_isSome_getElem?] at hk ⊢
    rw [getElem?_filter'] at hk
    cases hd : (p.deltas.of t)[k]? with
    | none => simp [hd] at hk
    | some w => rfl
  · intro id
    have hwid := hw id
    rw [getElem?_filter']
    simp only [ZSet.weight, presence] at hwid
    generalize (p.deltas.of t)[t ++ ":" ++ id]? = d at *
    generalize (p.circuit.store.row t id).isSome = b at *
    generalize (c.store.row t id).isSome = b' at *
    cases d <;> cases b <;> cases b' <;> simp_all
  · intro k hk
    rcases List.mem_append.mp hk with hk | hk
    · exact htr.contentKey t k hk
    · rw [mem_cleanedKeys] at hk
      refine htr.deltaKey t k ?_
      exact mem_of_getElem? hk.1
  · intro id hnot hs hs'
    rw [List.mem_append, not_or, mem_cleanedKeys] at hnot
    refine htr.same t id hnot.1 ?_
    intro hin
    refine hnot.2 ⟨?_, by rw [any_hasKey ht]; exact hs'⟩
    have hwid := hw id
    simp only [ZSet.weight, presence, hs, hs'] at hwid
    rw [mem_iff_isSome_getElem?, Option.isSome_iff_exists] at hin
    obtain ⟨w, hwv⟩ := hin
    rw [hwv] at hwid
    rw [hwv]
    simpa using hwid

/-! ## Change sets that name no record twice -/

/-- The record a change is about. -/
def Change.target (ch : Change) : String × String := (ch.table, rawId ch.id)

theorem Change.eq_of_target {ch : Change} {t id : String} (h : (t, id) = ch.target) :
    t = ch.table ∧ id = rawId ch.id :=
  ⟨congrArg Prod.fst h, congrArg Prod.snd h⟩

/-- No record is named twice. -/
def NoRepeat (changes : List Change) : Prop := (changes.map Change.target).Nodup

/-- Every change is on a colon-free table. -/
def PlainTables (changes : List Change) : Prop := ∀ ch ∈ changes, ColonFree ch.table

theorem staged_pending (ch : Change) (k : String) :
    (staged c ch).store.pendingDeletedRows[k]? =
      if ch.op = .delete ∧ k = makeKey ch.table ch.id ∧ (c.store.getRowByKey k).isSome then
        c.store.getRowByKey k
      else c.store.pendingDeletedRows[k]? := by
  unfold staged
  by_cases hop : ch.op = .delete
  · rw [if_pos hop]
    unfold Store.stageDeletedRow
    dsimp only
    by_cases hk : k = makeKey ch.table ch.id
    · subst hk
      cases hr : c.store.getRowByKey (makeKey ch.table ch.id) with
      | none => simp
      | some row => simp [hop]
    · rw [if_neg (by tauto)]
      split
      · rfl
      · dsimp only
        rw [getElem?_insert, if_neg (by simpa using Ne.symm hk)]
  · rw [if_neg hop, if_neg (by tauto)]

/-- The accumulators of phase 1 when the records named so far are `seen`, each once. -/
structure Phase1.Once (s : Store) (seen : List (String × String)) (p : Phase1) : Prop where
  fresh : ∀ t id, (t, id) ∉ seen → p.circuit.store.row t id = s.row t id ∧
    t ++ ":" ++ id ∉ p.content.of t ∧ t ++ ":" ++ id ∉ p.deltas.of t
  held : ∀ t id, t ++ ":" ++ id ∈ p.content.of t →
    (s.row t id).isSome ∧ (p.circuit.store.row t id).isSome
  moved : ∀ t id, t ++ ":" ++ id ∈ p.deltas.of t →
    (p.circuit.store.row t id).isSome ≠ (s.row t id).isSome
  staged : ∀ t id r, ColonFree t → s.row t id = some r → p.circuit.store.row t id = none →
    p.circuit.store.pendingDeletedRows[t ++ ":" ++ id]? = some r.value

theorem Phase1.Once.applyChange {s : Store} {seen : List (String × String)} {p : Phase1}
    (h : p.Once s seen) (env : Env) (ch : Change) (hT : ColonFree ch.table)
    (hnew : ch.target ∉ seen) : (applyChange env p ch).Once s (seen ++ [ch.target]) := by
  have hst := applyChange_store env p ch
  obtain ⟨-, hcases⟩ := applyChange_cases env p ch
  obtain ⟨hw, hdel, hput⟩ := written_spec env p.circuit ch
  obtain ⟨hrow0, hcont0, hdelta0⟩ := h.fresh ch.table (rawId ch.id) hnew
  have hpend : ∀ k : String, (Ssp.applyChange env p ch).circuit.store.pendingDeletedRows[k]? =
      (Ssp.staged p.circuit ch).store.pendingDeletedRows[k]? := by
    intro k
    rw [hst]
    rfl
  generalize hw' : written env p.circuit ch = w at *
  generalize hp' : Ssp.applyChange env p ch = p' at *
  rw [← hst] at hw hdel hput
  have hrow : ∀ t id, (t, id) ≠ ch.target →
      p'.circuit.store.row t id = p.circuit.store.row t id := by
    intro t id hne
    refine hw.other t id ?_
    by_contra hno
    simp only [not_or, not_not] at hno
    exact hne (by rw [Change.target, hno.1, hno.2])
  have hkey : ∀ t id, t ++ ":" ++ id = w.2.key → t = ch.table → (t, id) = ch.target := by
    rintro t id hk rfl
    rw [hw.key] at hk
    rw [Change.target, join_injective hk]
  -- staging writes the key of the change and leaves the other keys
  have hstaged : ∀ t id r, ColonFree t → s.row t id = some r → p'.circuit.store.row t id = none →
      p'.circuit.store.pendingDeletedRows[t ++ ":" ++ id]? = some r.value := by
    intro t id r ht hs hnone
    rw [hpend, staged_pending]
    by_cases htar : (t, id) = ch.target
    · obtain ⟨rfl, rfl⟩ := Change.eq_of_target htar
      have hop : ch.op = .delete := by
        by_contra hop
        have := hput hop
        rw [hnone] at this
        cases this
      have hget : p.circuit.store.getRowByKey (ch.table ++ ":" ++ rawId ch.id) = some r.value := by
        rw [getRowByKey_join hT, hrow0, hs]
      rw [if_pos ⟨hop, rfl, by rw [hget]; rfl⟩, hget]
    · rw [if_neg]
      · exact h.staged t id r ht hs (by rw [← hrow t id htar]; exact hnone)
      · rintro ⟨-, hk, -⟩
        obtain ⟨h1, h2⟩ := join_eq_join ht hT hk
        exact htar (by rw [h1, h2, Change.target])
  have hsplit : ∀ {t id}, (t, id) ∉ seen ++ [ch.target] → (t, id) ∉ seen ∧ (t, id) ≠ ch.target := by
    intro t id hno
    simpa using hno
  rcases hcases with ⟨hcc, hd, hc, -⟩ | ⟨hcc, hne, hd, hc, -⟩ | ⟨hcc, hz, hd, hc, -⟩
  · have hsame : ∀ t id, p'.circuit.store.row t id = p.circuit.store.row t id := by
      intro t id
      by_cases h1 : (t, id) = ch.target
      · obtain ⟨rfl, rfl⟩ := Change.eq_of_target h1
        exact hw.same hcc
      · exact hrow t id h1
    refine ⟨?_, ?_, ?_, hstaged⟩
    · intro t id hno
      rw [hsame, hd, hc]
      exact h.fresh t id (hsplit hno).1
    · intro t id hm
      rw [hsame]
      exact h.held t id (by rwa [hc] at hm)
    · intro t id hm
      rw [hsame]
      exact h.moved t id (by rwa [hd] at hm)
  · have hmem : ∀ t id, t ++ ":" ++ id ∈ p'.deltas.of t →
        t ++ ":" ++ id ∈ p.deltas.of t ∨ (t, id) = ch.target := by
      intro t id hm
      unfold TableDeltas.of at hm ⊢
      rw [hd, getElem?_alter] at hm
      by_cases ht : t = ch.table
      · rw [if_pos (by simp [ht]), Option.getD_some, mem_alter] at hm
        split at hm
        · next hk =>
          exact .inr (hkey t id (LawfulEqCmp.compare_eq_iff_eq.mp hk).symm ht)
        · exact .inl (ht ▸ hm)
      · rw [if_neg (by simpa using Ne.symm ht)] at hm
        exact .inl hm
    refine ⟨?_, ?_, ?_, hstaged⟩
    · intro t id hno
      obtain ⟨h1, h2⟩ := hsplit hno
      obtain ⟨f1, f2, f3⟩ := h.fresh t id h1
      exact ⟨by rw [hrow t id h2, f1], by rwa [hc],
        fun hm => (hmem t id hm).elim f3 h2⟩
    · intro t id hm
      rw [hc] at hm
      by_cases h1 : (t, id) = ch.target
      · obtain ⟨rfl, rfl⟩ := Change.eq_of_target h1
        exact absurd hm hcont0
      · rw [hrow t id h1]
        exact h.held t id hm
    · intro t id hm
      by_cases h1 : (t, id) = ch.target
      · obtain ⟨rfl, rfl⟩ := Change.eq_of_target h1
        have hww := hw.weight
        rw [hrow0] at hww
        intro heq
        simp only [presence, heq] at hww
        exact hne (by omega)
      · rw [hrow t id h1]
        exact h.moved t id ((hmem t id hm).resolve_right h1)
  · have hmem : ∀ t id, t ++ ":" ++ id ∈ p'.content.of t →
        t ++ ":" ++ id ∈ p.content.of t ∨ (t, id) = ch.target := by
      intro t id hm
      rw [hc, pushContent_of] at hm
      split at hm
      · next ht =>
        rcases List.mem_append.mp hm with hm | hm
        · exact .inl (ht ▸ hm)
        · exact .inr (hkey t id (by simpa using hm) ht)
      · exact .inl hm
    refine ⟨?_, ?_, ?_, hstaged⟩
    · intro t id hno
      obtain ⟨h1, h2⟩ := hsplit hno
      obtain ⟨f1, f2, f3⟩ := h.fresh t id h1
      exact ⟨by rw [hrow t id h2, f1], fun hm => (hmem t id hm).elim f2 h2, by rwa [hd]⟩
    · intro t id hm
      by_cases h1 : (t, id) = ch.target
      · have hww := hw.weight
        have hch := hw.changed.mp hcc
        rw [hz, hrow0] at hww
        rw [hrow0] at hch
        obtain ⟨rfl, rfl⟩ := Change.eq_of_target h1
        revert hww hch
        cases s.row ch.table (rawId ch.id) <;>
          cases p'.circuit.store.row ch.table (rawId ch.id) <;> simp [presence]
      · rw [hrow t id h1]
        exact h.held t id ((hmem t id hm).resolve_right h1)
    · intro t id hm
      rw [hd] at hm
      by_cases h1 : (t, id) = ch.target
      · obtain ⟨rfl, rfl⟩ := Change.eq_of_target h1
        exact absurd hm hdelta0
      · rw [hrow t id h1]
        exact h.moved t id hm

theorem foldl_applyChange_once (changes : List Change)
    (hp : PlainTables changes) (hd : NoRepeat changes) :
    (changes.foldl (applyChange env) ⟨c, ∅, ∅, []⟩).Once c.store (changes.map Change.target) := by
  induction changes using List.reverseRecOn with
  | nil =>
    refine ⟨fun t id _ => ⟨rfl, by simp [ContentUpdates.of], by simp [TableDeltas.of]⟩, ?_, ?_, ?_⟩
    · intro t id h
      simp [ContentUpdates.of] at h
    · intro t id h
      simp [TableDeltas.of] at h
    · intro t id r _ h h'
      rw [List.foldl_nil] at h'
      rw [h] at h'
      cases h'
  | append_singleton l ch ih =>
    rw [NoRepeat, List.map_append, List.nodup_append] at hd
    rw [List.foldl_append, List.foldl_cons, List.foldl_nil, List.map_append]
    refine (ih (fun x hx => hp x (List.mem_append_left _ hx)) hd.1).applyChange env ch
      (hp ch (by simp)) ?_
    intro hm
    exact hd.2.2 _ hm _ (by simp) rfl

/-- The further facts of a step whose changes name no record twice: content updates are rows
    held before and after, and a deleted row is staged with the body it had. -/
structure StepOnce (t : String) (s s' : Store) (content : List String) : Prop where
  held : ∀ id, t ++ ":" ++ id ∈ content → (s.row t id).isSome ∧ (s'.row t id).isSome
  staged : ∀ id r, s.row t id = some r → s'.row t id = none →
    s'.pendingDeletedRows[t ++ ":" ++ id]? = some r.value

theorem phase1_stepOnce (ho : HashOrder) (c : Circuit) (changes : List Change)
    (hp : PlainTables changes) (hd : NoRepeat changes) {t : String} (ht : ColonFree t) :
    StepOnce t c.store (phase1 env ho c changes).circuit.store
      ((phase1 env ho c changes).content.of t) := by
  have hon := foldl_applyChange_once env c changes hp hd
  have htr := foldl_applyChange_tracks env c changes
  rw [(phase1_of env ho c changes t).2, phase1_circuit]
  generalize changes.foldl (applyChange env) ⟨c, ∅, ∅, []⟩ = p at *
  refine ⟨?_, fun id r => hon.staged t id r ht⟩
  intro id hm
  rcases List.mem_append.mp hm with hm | hm
  · exact hon.held t id hm
  · rw [mem_cleanedKeys] at hm
    have hin : t ++ ":" ++ id ∈ p.deltas.of t := mem_of_getElem? hm.1
    have hw := htr.weight t id
    rw [ZSet.weight, hm.1, Option.getD_some] at hw
    refine absurd ?_ (hon.moved t id hin)
    revert hw
    unfold presence
    cases (p.circuit.store.row t id).isSome <;> cases (c.store.row t id).isSome <;> simp

end Sp00ky.Ssp
