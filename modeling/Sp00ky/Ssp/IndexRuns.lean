/-
  Indexes that are built in steps (`circuit/store.rs`).

  An index holds entries of stored rows only, and an entry of each stored row that its list of
  pending ids does not name (`Follows`). Writes keep that for an index whose build is underway just as
  for a finished one, so a lookup, which reads the pending rows first, sees the index of the rows
  stored at that moment (`lookup_exact`). The list of pending ids grows with nothing but the start
  of a build, so a loop of steps comes to its end (`stepped_build_ends`).
-/
import Sp00ky.Lib.Transition
import Sp00ky.Ssp.CollectionCaches
import Sp00ky.Ssp.IndexOrder

namespace Sp00ky.Ssp

open Std Lib

/-! ## Entries -/

/-- The entry of a stored row in an index. -/
def entryOf (base : Collection) (d : IndexDef) (id : String) (row : Row) : IndexKey × String :=
  (indexKeyOf d.paths row.value, base.keyOf id)

/-- The rows' values at the indexed fields are no floats. -/
def Orderable (base : Collection) (d : IndexDef) : Prop :=
  ∀ (id : String) (row : Row), base.rows[id]? = some row → PlainKey (indexKeyOf d.paths row.value)

/-- An index follows the rows, but for the ids it has not read yet. -/
structure BuiltIndex.Follows (ix : BuiltIndex) (base : Collection) : Prop where
  increasing : Increasing indexCmp ix.entries
  stored : ∀ e ∈ ix.entries, ∃ id row, base.rows[id]? = some row ∧ e = entryOf base ix.indexDef id row
  complete : ∀ (id : String) (row : Row), base.rows[id]? = some row →
    entryOf base ix.indexDef id row ∈ ix.entries ∨ id ∈ ix.pending.getD []

namespace BuiltIndex

variable {ix : BuiltIndex} {base base' : Collection}

theorem Follows.plain (h : ix.Follows base) (hb : Orderable base ix.indexDef)
    (e : IndexKey × String) (he : e ∈ ix.entries) : PlainKey e.1 := by
  obtain ⟨id, row, hrow, rfl⟩ := h.stored e he
  exact hb id row hrow

/-- An index with no id pending holds the entries of the rows. -/
theorem Follows.exact (h : ix.Follows base) (hp : ix.pending = none) (e : IndexKey × String) :
    e ∈ ix.entries ↔ ∃ id row, base.rows[id]? = some row ∧ e = entryOf base ix.indexDef id row := by
  refine ⟨h.stored e, ?_⟩
  rintro ⟨id, row, hrow, rfl⟩
  refine (h.complete id row hrow).resolve_right ?_
  rw [hp]
  exact List.not_mem_nil

/-! ## Reading rows -/

@[simp] theorem foldl_insert_indexDef (l : List (IndexKey × String)) (ix : BuiltIndex) :
    (l.foldl insert ix).indexDef = ix.indexDef := by
  induction l generalizing ix with
  | nil => rfl
  | cons e l ih => exact ih (ix.insert e)

@[simp] theorem foldl_insert_pending (l : List (IndexKey × String)) (ix : BuiltIndex) :
    (l.foldl insert ix).pending = ix.pending := by
  induction l generalizing ix with
  | nil => rfl
  | cons e l ih => exact ih (ix.insert e)

/-- Filing entries keeps the order and loses nothing. -/
theorem foldl_insert_spec {l : List (IndexKey × String)} {ix : BuiltIndex}
    (hl : ∀ e ∈ l, PlainKey e.1) (hix : ∀ e ∈ ix.entries, PlainKey e.1)
    (hinc : Increasing indexCmp ix.entries) :
    Increasing indexCmp (l.foldl insert ix).entries ∧
      ∀ e, e ∈ (l.foldl insert ix).entries ↔ e ∈ ix.entries ∨ e ∈ l := by
  induction l generalizing ix with
  | nil => simpa using hinc
  | cons a l ih =>
    have ha := hl a List.mem_cons_self
    have hmem : ∀ e, e ∈ (ix.insert a).entries ↔ e = a ∨ e ∈ ix.entries := fun e =>
      mem_insertBy indexEntry_lawful ha hix
    have hplain : ∀ e ∈ (ix.insert a).entries, PlainKey e.1 := by
      intro e he
      rcases (hmem e).mp he with rfl | he
      · exact ha
      · exact hix e he
    obtain ⟨h1, h2⟩ := @ih (ix.insert a) (fun e he => hl e (List.mem_cons_of_mem a he)) hplain
      (increasing_insertBy indexEntry_lawful ha hix hinc)
    refine ⟨h1, fun e => ?_⟩
    rw [List.foldl_cons, h2, hmem, List.mem_cons]
    tauto

theorem fill_spec {entries : List (IndexKey × String)} {ix : BuiltIndex}
    (hl : ∀ e ∈ entries, PlainKey e.1) (hix : ∀ e ∈ ix.entries, PlainKey e.1)
    (hinc : Increasing indexCmp ix.entries) :
    Increasing indexCmp (ix.fill entries).entries ∧
      ∀ e, e ∈ (ix.fill entries).entries ↔ e ∈ ix.entries ∨ e ∈ entries := by
  obtain ⟨h1, h2⟩ := foldl_insert_spec (l := sortBy indexCmp entries)
    (fun e he => hl e (mem_sortBy.mp he)) hix hinc
  exact ⟨h1, fun e => by rw [fill, h2, mem_sortBy]⟩

/-! ## Writes -/

/-- One row of an index is filed anew. -/
def refile (ix : BuiltIndex) (key : String) (old new : Option Row) : BuiltIndex :=
  let cleared := match old with
    | none => ix
    | some row => ix.remove (indexKeyOf ix.indexDef.paths row.value, key)
  match new with
  | none => cleared
  | some row => cleared.insert (indexKeyOf ix.indexDef.paths row.value, key)

@[simp] theorem refile_indexDef (ix : BuiltIndex) (key : String) (old new : Option Row) :
    (ix.refile key old new).indexDef = ix.indexDef := by
  cases old <;> cases new <;> rfl

/-- A write takes out what the stored row files under and files the new row. -/
theorem Follows.refile (h : ix.Follows base) {id : String} (hname : base'.name = base.name)
    (hrows : ∀ i, i ≠ id → base'.rows[i]? = base.rows[i]?) (hb : Orderable base ix.indexDef)
    (hb' : Orderable base' ix.indexDef) :
    (ix.refile (base.keyOf id) base.rows[id]? base'.rows[id]?).Follows base' := by
  have hentry : ∀ i row, entryOf base' ix.indexDef i row = entryOf base ix.indexDef i row := by
    intro i row
    unfold entryOf Collection.keyOf
    rw [hname]
  have hne : ∀ {i row row'}, entryOf base ix.indexDef i row = entryOf base ix.indexDef id row' →
      i = id := fun he => keyOf_injective base (congrArg Prod.snd he)
  -- what is left once the stored row's entry is out
  have hcleared : ∃ cleared : BuiltIndex, cleared.indexDef = ix.indexDef ∧
      cleared.pending = ix.pending ∧ Increasing indexCmp cleared.entries ∧
      (∀ e, e ∈ cleared.entries ↔ e ∈ ix.entries ∧
        ∀ row, base.rows[id]? = some row → e ≠ entryOf base ix.indexDef id row) ∧
      ix.refile (base.keyOf id) base.rows[id]? base'.rows[id]? = match base'.rows[id]? with
        | none => cleared
        | some row => cleared.insert (entryOf base ix.indexDef id row) := by
    cases hold : base.rows[id]? with
    | none =>
      refine ⟨ix, rfl, rfl, h.increasing, fun e => ?_, ?_⟩
      · simp
      · cases base'.rows[id]? <;> rfl
    | some row =>
      refine ⟨ix.remove (entryOf base ix.indexDef id row), rfl, rfl,
        h.increasing.sublist (removeBy_sublist _ _), fun e => ?_, ?_⟩
      · refine (mem_removeBy indexEntry_lawful (hb id row hold) (h.plain hb) h.increasing).trans ?_
        simp
      · cases base'.rows[id]? <;> rfl
  obtain ⟨cleared, hdef, hpending, hinc, hmem, heq⟩ := hcleared
  have hplain : ∀ e ∈ cleared.entries, PlainKey e.1 := fun e he =>
    h.plain hb e ((hmem e).mp he).1
  have hkeeps : ∀ i row, i ≠ id → base.rows[i]? = some row →
      (entryOf base ix.indexDef i row ∈ cleared.entries ∨ i ∈ ix.pending.getD []) := by
    intro i row hi hrow
    refine (h.complete i row hrow).imp_left fun he => (hmem _).mpr ⟨he, fun row' _ heq' => ?_⟩
    exact hi (hne heq')
  have hother : ∀ e ∈ cleared.entries, ∃ i row, i ≠ id ∧ base.rows[i]? = some row ∧
      e = entryOf base ix.indexDef i row := by
    intro e he
    obtain ⟨hin, hnot⟩ := (hmem e).mp he
    obtain ⟨i, row, hrow, rfl⟩ := h.stored e hin
    refine ⟨i, row, ?_, hrow, rfl⟩
    rintro rfl
    exact hnot row hrow rfl
  rw [heq]
  cases hnew : base'.rows[id]? with
  | none =>
    refine ⟨hinc, fun e he => ?_, fun i row hrow => ?_⟩
    · obtain ⟨i, row, hi, hrow, rfl⟩ := hother e he
      exact ⟨i, row, by rw [hrows i hi]; exact hrow, by rw [hdef, hentry]⟩
    · have hi : i ≠ id := by
        rintro rfl
        rw [hnew] at hrow
        cases hrow
      rw [hdef, hentry, hpending]
      exact hkeeps i row hi (by rw [← hrows i hi]; exact hrow)
  | some new =>
    have hplainNew : PlainKey (entryOf base ix.indexDef id new).1 := hb' id new hnew
    have hins : ∀ e, e ∈ (cleared.insert (entryOf base ix.indexDef id new)).entries ↔
        e = entryOf base ix.indexDef id new ∨ e ∈ cleared.entries := fun e =>
      mem_insertBy indexEntry_lawful hplainNew hplain
    refine ⟨increasing_insertBy indexEntry_lawful hplainNew hplain hinc, fun e he => ?_,
      fun i row hrow => ?_⟩
    · rcases (hins e).mp he with rfl | he
      · refine ⟨id, new, hnew, ?_⟩
        change _ = entryOf base' cleared.indexDef id new
        rw [hdef, hentry]
      · obtain ⟨i, row, hi, hrow, rfl⟩ := hother e he
        refine ⟨i, row, by rw [hrows i hi]; exact hrow, ?_⟩
        change _ = entryOf base' cleared.indexDef i row
        rw [hdef, hentry]
    · change entryOf base' cleared.indexDef i row ∈ _ ∨ i ∈ cleared.pending.getD []
      rw [hdef, hentry, hpending]
      by_cases hi : i = id
      · subst hi
        rw [hnew] at hrow
        cases hrow
        exact .inl ((hins _).mpr (.inl rfl))
      · exact (hkeeps i row hi (by rw [← hrows i hi]; exact hrow)).imp_left fun he =>
          (hins _).mpr (.inr he)

end BuiltIndex

namespace CachedCollection

/-! ## The indexes of a collection -/

/-- Every held index is one of those in use, under its name, and follows the rows. -/
def IndexesFollow (defs : List IndexDef) (c : CachedCollection) : Prop :=
  ∀ (n : String) (ix : BuiltIndex), c.indexes[n]? = some ix →
    ix.indexDef ∈ defs ∧ ix.indexDef.name = n ∧ ix.Follows c.base

/-- The rows can be ordered by every index in use. -/
def AllOrderable (defs : List IndexDef) (c : CachedCollection) : Prop :=
  ∀ d ∈ defs, Orderable c.base d

theorem apply_indexes (env : Env) (c : CachedCollection) (op : Operation) (id : String)
    (data : Sp00kyValue) :
    (c.apply env op id data).1.indexes =
      if (c.apply env op id data).2.contentChanged then c.indexes.map fun _ ix =>
        ix.refile (c.base.keyOf (rawId id)) c.base.rows[rawId id]?
          (c.apply env op id data).1.base.rows[rawId id]?
      else c.indexes := by
  have hkey : makeKey c.base.name id = c.base.keyOf (rawId id) := rfl
  unfold apply
  dsimp only
  rw [hkey]
  split
  · cases hold : c.base.rows[rawId id]? with
    | none => rfl
    | some old =>
      simp only [unindexRow, hold, bumpMembership]
      refine ExtTreeMap.ext_getElem? fun n => ?_
      simp [BuiltIndex.refile]
  · split
    · rfl
    · cases hold : c.base.rows[rawId id]? with
      | none =>
        simp only [unindexRow, hold, bumpMembership, indexRow]
        refine ExtTreeMap.ext_getElem? fun n => ?_
        simp [BuiltIndex.refile]
      | some old =>
        simp only [unindexRow, hold, bumpMembership, indexRow]
        refine ExtTreeMap.ext_getElem? fun n => ?_
        simp only [BuiltIndex.refile]
        simp
        rfl

variable {defs : List IndexDef} {c : CachedCollection}

theorem apply_follows (h : c.IndexesFollow defs)
    (env : Env) (op : Operation) (id : String) (data : Sp00kyValue) (hc : c.AllOrderable defs)
    (hc' : (c.apply env op id data).1.AllOrderable defs) :
    (c.apply env op id data).1.IndexesFollow defs := by
  obtain ⟨hbase, -⟩ := apply_base env c op id data
  intro n ix hix
  rw [apply_indexes] at hix
  split at hix
  next =>
    rw [ExtTreeMap.getElem?_map] at hix
    obtain ⟨old, hold, rfl⟩ := Option.map_eq_some_iff.mp hix
    obtain ⟨hdef, hname, hfollows⟩ := h n old hold
    rw [BuiltIndex.refile_indexDef]
    refine ⟨hdef, hname, hfollows.refile ?_ ?_ (hc _ hdef) (hc' _ hdef)⟩
    · rw [hbase]
      exact Collection.apply_name env c.base op id data
    · intro i hi
      rw [hbase, apply_rows, if_neg hi]
  next hsame =>
    rw [apply_unchanged env c op id data (by simpa using hsame)]
    exact h n ix hix

/-! ## Projections -/

/-- A field that the projection keeps reads the same. -/
theorem resolveField_project {c : Collection} {keep : ExtTreeSet String}
    (hkeep : c.retained = some keep) {p : Path} (v : Sp00kyValue)
    (hp : keep.contains (p.segments.headD "") = true ∨
      alwaysRetained.contains (p.segments.headD "") = true) :
    Scalar.ofValue (resolveField (some (c.project v)) p) =
      Scalar.ofValue (resolveField (some v) p) := by
  unfold Collection.project
  rw [hkeep]
  cases v with
  | object fields =>
    dsimp only
    unfold resolveField
    dsimp only
    cases hsegs : p.segments with
    | nil => rfl
    | cons seg rest =>
      rw [hsegs, List.headD_cons] at hp
      have hget : (Sp00kyValue.object (fields.filter fun kv =>
          keep.contains kv.1 || alwaysRetained.contains kv.1)).get seg =
            (Sp00kyValue.object fields).get seg := by
        unfold Sp00kyValue.get fieldsGet
        dsimp only
        induction fields with
        | nil => rfl
        | cons kv fields ih =>
          obtain ⟨k, v⟩ := kv
          by_cases hk : seg = k
          · subst hk
            rw [List.filter_cons_of_pos (by simpa using hp)]
            simp
          · have hne : (seg == k) = false := by simpa using hk
            rw [List.lookup_cons, hne, List.filter_cons]
            split
            · rw [List.lookup_cons, hne]
              exact ih
            · exact ih
      unfold resolveSegments
      simp only [Sp00kyValue.isRecordRef, Bool.and_false, Bool.false_eq_true, if_false]
      rw [hget]
  | _ => rfl

variable {ix : BuiltIndex}

theorem indexKeyOf_project {c : Collection} {keep : ExtTreeSet String}
    (hkeep : c.retained = some keep) (hix : retainsIndex keep ix = true) (v : Sp00kyValue) :
    indexKeyOf ix.indexDef.paths (c.project v) = indexKeyOf ix.indexDef.paths v := by
  unfold indexKeyOf IndexDef.paths
  rw [List.map_map, List.map_map]
  refine List.map_congr_left fun field hfield => ?_
  have := List.all_eq_true.mp hix field hfield
  exact resolveField_project hkeep v (by simpa using this)

theorem project_of_retained_none {c : Collection} (h : c.retained = none) (v : Sp00kyValue) :
    c.project v = v := by
  unfold Collection.project
  rw [h]

/-- The indexes that a compaction keeps still match the rows. -/
theorem compact_follows (h : c.IndexesFollow defs)
    (env : Env) : (c.compact env).IndexesFollow defs := by
  have hkept : ∀ (n : String) (ix : BuiltIndex), (c.compact env).indexes[n]? = some ix →
      c.indexes[n]? = some ix ∧ ∀ v, indexKeyOf ix.indexDef.paths (c.base.project v) =
        indexKeyOf ix.indexDef.paths v := by
    intro n ix hix
    unfold compact at hix
    dsimp only at hix
    cases hretained : c.base.retained with
    | none =>
      rw [hretained] at hix
      exact ⟨hix, fun v => by rw [project_of_retained_none hretained]⟩
    | some keep =>
      rw [hretained] at hix
      dsimp only at hix
      rw [ExtTreeMap.getElem?_filter'] at hix
      obtain ⟨hold, hix'⟩ := Option.filter_eq_some_iff.mp hix
      exact ⟨hold, indexKeyOf_project hretained hix'⟩
  intro n ix hix
  obtain ⟨hold, hsame⟩ := hkept n ix hix
  obtain ⟨hdef, hname, hfollows⟩ := h n ix hold
  have hrows : ∀ id : String, (c.compact env).base.rows[id]? = c.base.rows[id]?.map fun r =>
      ⟨c.base.project r.value, env.digest id (c.base.project r.value)⟩ := by
    intro id
    simp [compact]
  have hentry : ∀ (id : String) (row : Row) (digest : BitVec 256),
      entryOf (c.compact env).base ix.indexDef id ⟨c.base.project row.value, digest⟩ =
        entryOf c.base ix.indexDef id row := fun id row _ =>
    Prod.ext (hsame row.value) rfl
  refine ⟨hdef, hname, hfollows.increasing, fun e he => ?_, fun id row hrow => ?_⟩
  · obtain ⟨id, row, hrow, rfl⟩ := hfollows.stored e he
    exact ⟨id, _, by rw [hrows, hrow]; rfl, (hentry id row _).symm⟩
  · rw [hrows] at hrow
    obtain ⟨old, hrow', rfl⟩ := Option.map_eq_some_iff.mp hrow
    rw [hentry]
    exact hfollows.complete id old hrow'

/-! ## Builds -/

@[simp] theorem fill_indexDef (ix : BuiltIndex) (entries : List (IndexKey × String)) :
    (ix.fill entries).indexDef = ix.indexDef := BuiltIndex.foldl_insert_indexDef _ ix

@[simp] theorem fill_pending (ix : BuiltIndex) (entries : List (IndexKey × String)) :
    (ix.fill entries).pending = ix.pending := BuiltIndex.foldl_insert_pending _ ix

@[simp] theorem fillPending_indexDef (c : CachedCollection) (ix : BuiltIndex) (maxRows : Nat) :
    (c.fillPending ix maxRows).indexDef = ix.indexDef := by
  unfold fillPending
  split
  · rfl
  · rw [fill_indexDef]

/-- Reading rows takes them off the list, and the list goes with the last one. -/
theorem fillPending_pending (c : CachedCollection) (ix : BuiltIndex) (maxRows : Nat) :
    ((c.fillPending ix maxRows).pending.getD []).length =
        (ix.pending.getD []).length - maxRows ∧
      ((ix.pending.getD []).length ≤ maxRows → (c.fillPending ix maxRows).pending = none) := by
  unfold fillPending
  cases hp : ix.pending with
  | none =>
    dsimp only
    rw [hp]
    simp
  | some pending =>
    dsimp only
    rw [fill_pending]
    dsimp only [Option.getD_some]
    split
    next hempty =>
      have hlen : (pending.take (pending.length - min pending.length maxRows)).length = 0 := by
        rw [List.isEmpty_iff.mp hempty, List.length_nil]
      rw [List.length_take] at hlen
      refine ⟨?_, fun _ => rfl⟩
      simp only [Option.getD_none, List.length_nil]
      omega
    next hrest =>
      have hlen : (pending.take (pending.length - min pending.length maxRows)).length ≠ 0 := by
        intro h0
        exact hrest (List.isEmpty_iff.mpr (List.length_eq_zero_iff.mp h0))
      rw [List.length_take] at hlen
      refine ⟨?_, fun hle => absurd hle (by omega)⟩
      rw [Option.getD_some, List.length_take]
      omega

/-- An index that follows the rows still does with more of them read. -/
theorem fillPending_follows (h : ix.Follows c.base)
    (hc : Orderable c.base ix.indexDef) (maxRows : Nat) :
    (c.fillPending ix maxRows).Follows c.base := by
  unfold fillPending
  cases hp : ix.pending with
  | none => exact h
  | some pending =>
    dsimp only
    have hread : ∀ e ∈ (pending.drop (pending.length - min pending.length maxRows)).filterMap
        (fun id => c.base.rows[id]?.map (c.indexEntry ix id)),
        ∃ id row, c.base.rows[id]? = some row ∧ e = entryOf c.base ix.indexDef id row := by
      intro e he
      obtain ⟨id, -, hid⟩ := List.mem_filterMap.mp he
      obtain ⟨row, hrow, rfl⟩ := Option.map_eq_some_iff.mp hid
      exact ⟨id, row, hrow, rfl⟩
    obtain ⟨hinc, hmem⟩ := @BuiltIndex.fill_spec _
      { ix with
        pending := if (pending.take (pending.length - min pending.length maxRows)).isEmpty then none
          else some (pending.take (pending.length - min pending.length maxRows)) }
      (fun e he => by
        obtain ⟨id, row, hrow, rfl⟩ := hread e he
        exact hc id row hrow) (h.plain hc) h.increasing
    refine ⟨hinc, fun e he => ?_, fun id row hrow => ?_⟩
    · rw [fill_indexDef]
      rcases (hmem e).mp he with he | he
      · exact h.stored e he
      · exact hread e he
    · rw [fill_indexDef, fill_pending, hmem]
      dsimp only
      rcases h.complete id row hrow with he | he
      · exact .inl (.inl he)
      · rw [hp, Option.getD_some,
          ← List.take_append_drop (pending.length - min pending.length maxRows) pending,
          List.mem_append] at he
        rcases he with he | he
        · refine .inr ?_
          split
          next hempty =>
            rw [List.isEmpty_iff.mp hempty] at he
            exact absurd he List.not_mem_nil
          next => exact he
        · refine .inl (.inr (List.mem_filterMap.mpr ⟨id, he, ?_⟩))
          rw [hrow]
          rfl

/-- A build in one pass. -/
theorem buildIndex_follows (c : CachedCollection) (d : IndexDef) (hc : Orderable c.base d) :
    (c.buildIndex d).2.indexDef = d ∧ (c.buildIndex d).2.pending = none ∧
      (c.buildIndex d).2.Follows c.base := by
  have hread : ∀ e, e ∈ c.base.rows.toList.map
      (fun ir => c.indexEntry ⟨d, [], none⟩ ir.1 ir.2) ↔
        ∃ id row, c.base.rows[id]? = some row ∧ e = entryOf c.base d id row := by
    intro e
    rw [List.mem_map]
    constructor
    · rintro ⟨⟨id, row⟩, hin, rfl⟩
      exact ⟨id, row, ExtTreeMap.mem_toList_iff_getElem?_eq_some.mp hin, rfl⟩
    · rintro ⟨id, row, hrow, rfl⟩
      exact ⟨(id, row), ExtTreeMap.mem_toList_iff_getElem?_eq_some.mpr hrow, rfl⟩
  obtain ⟨hinc, hmem⟩ := @BuiltIndex.fill_spec _ ⟨d, [], none⟩
    (fun e he => by
      obtain ⟨id, row, hrow, rfl⟩ := (hread e).mp he
      exact hc id row hrow) (by simp) List.Pairwise.nil
  have hdef : (c.buildIndex d).2.indexDef = d := fill_indexDef _ _
  refine ⟨hdef, fill_pending _ _, hinc, fun e he => ?_, fun id row hrow => .inl ?_⟩
  · rw [hdef]
    exact (hread e).mp (((hmem e).mp he).resolve_left List.not_mem_nil)
  · rw [hdef]
    exact (hmem _).mpr (.inr ((hread _).mpr ⟨id, row, hrow, rfl⟩))

/-- A build that starts has every row to read. -/
theorem fresh_follows (c : CachedCollection) (d : IndexDef) :
    BuiltIndex.Follows ⟨d, [], some c.base.rows.keys⟩ c.base := by
  refine ⟨List.Pairwise.nil, fun e he => absurd he List.not_mem_nil, fun id row hrow => .inr ?_⟩
  rw [Option.getD_some, ExtTreeMap.mem_keys]
  exact mem_of_getElem? hrow

theorem slot_spec {d : IndexDef} (h : c.slot d = some ix) :
    c.indexes[d.name]? = some ix ∧ ix.indexDef = d := by
  obtain ⟨hix, hdef⟩ := Option.filter_eq_some_iff.mp h
  exact ⟨hix, by simpa using hdef⟩

/-- The index that a lookup reads follows the rows, with none pending. -/
theorem withIndex_follows (h : c.IndexesFollow defs) {d : IndexDef} (hc : Orderable c.base d) :
    (c.withIndex d).2.indexDef = d ∧ (c.withIndex d).2.pending = none ∧
      (c.withIndex d).2.Follows c.base := by
  unfold withIndex
  cases hslot : c.slot d with
  | none =>
    obtain ⟨hdef, hpending, hfollows⟩ := c.buildIndex_follows d hc
    refine ⟨?_, ?_, ?_⟩
    · exact (fillPending_indexDef _ _ _).trans hdef
    · exact (fillPending_pending _ _ _).2 (Nat.le_refl _)
    · exact fillPending_follows (c := (c.buildIndex d).1) hfollows (by rw [hdef]; exact hc) _
  | some ix =>
    obtain ⟨hix, hdef⟩ := slot_spec hslot
    obtain ⟨-, -, hfollows⟩ := h d.name ix hix
    refine ⟨?_, ?_, ?_⟩
    · exact (fillPending_indexDef _ _ _).trans hdef
    · exact (fillPending_pending _ _ _).2 (Nat.le_refl _)
    · exact fillPending_follows hfollows (by rw [hdef]; exact hc) _

theorem withIndex_base (c : CachedCollection) (d : IndexDef) : (c.withIndex d).1.base = c.base := by
  unfold withIndex
  cases c.slot d <;> rfl

theorem withIndex_indexes (c : CachedCollection) (d : IndexDef) :
    (c.withIndex d).1.indexes = c.indexes.insert d.name (c.withIndex d).2 := by
  unfold withIndex
  cases c.slot d <;> rfl

/-- Filing one index of a collection under its name. -/
theorem insert_follows {c c' : CachedCollection}
    (h : c.IndexesFollow defs) (hbase : c'.base = c.base)
    (hindexes : c'.indexes = c.indexes.insert ix.indexDef.name ix) (hdef : ix.indexDef ∈ defs)
    (hix : ix.Follows c.base) : c'.IndexesFollow defs := by
  intro n ix' hix'
  rw [hbase]
  rw [hindexes, ExtTreeMap.getElem?_insert] at hix'
  split at hix'
  next hn =>
    cases hix'
    exact ⟨hdef, LawfulEqCmp.compare_eq_iff_eq.mp hn, hix⟩
  next => exact h n ix' hix'

theorem fillRounds_spec (rounds : Nat) (h : ix.Follows c.base) (hc : Orderable c.base ix.indexDef) :
    (c.fillRounds rounds ix).indexDef = ix.indexDef ∧ (c.fillRounds rounds ix).Follows c.base := by
  induction rounds generalizing ix with
  | zero => exact ⟨rfl, h⟩
  | succ rounds ih =>
    unfold fillRounds
    split
    next => exact ⟨rfl, h⟩
    next =>
      obtain ⟨hdef, hfollows⟩ := ih (fillPending_follows h hc indexStepRows)
        (by rw [fillPending_indexDef]; exact hc)
      exact ⟨hdef.trans (fillPending_indexDef _ _ _), hfollows⟩

theorem buildIndexStep_follows
    (h : c.IndexesFollow defs) {d : IndexDef} (hd : d ∈ defs) (hc : Orderable c.base d)
    (rounds : Nat) : (c.buildIndexStep d rounds).IndexesFollow defs := by
  have hstart : ∀ ix, (c.slot d).getD ⟨d, [], some c.base.rows.keys⟩ = ix →
      ix.indexDef = d ∧ ix.Follows c.base := by
    rintro ix rfl
    cases hslot : c.slot d with
    | none => exact ⟨rfl, c.fresh_follows d⟩
    | some ix =>
      obtain ⟨hix, hdef⟩ := slot_spec hslot
      exact ⟨hdef, (h d.name ix hix).2.2⟩
  obtain ⟨hdef, hfollows⟩ := hstart _ rfl
  obtain ⟨hdef', hfollows'⟩ := fillRounds_spec (rounds + 1) hfollows (by rw [hdef]; exact hc)
  refine insert_follows (c := c) h rfl ?_ (by rw [hdef', hdef]; exact hd) hfollows'
  rw [hdef', hdef]
  rfl

/-! ## Runs -/

end CachedCollection

/-- The index that an operation asks for. -/
def CollectionOp.asks : CollectionOp → Option IndexDef
  | .withIndex d | .buildIndexStep d _ => some d
  | _ => none

namespace CachedCollection

/-- The indexes in use are asked for, and the rows can be ordered by them afterwards too. -/
def Allowed (env : Env) (defs : List IndexDef) (c : CachedCollection) (a : CollectionOp) : Prop :=
  (∀ d, a.asks = some d → d ∈ defs) ∧ (c.perform env a).AllOrderable defs

theorem perform_follows {env : Env} {defs : List IndexDef} {c : CachedCollection}
    (h : c.IndexesFollow defs) (hc : c.AllOrderable defs) {a : CollectionOp}
    (ha : c.Allowed env defs a) : (c.perform env a).IndexesFollow defs := by
  cases a with
  | apply op id data => exact apply_follows h env op id data hc ha.2
  | compact => exact compact_follows h env
  | membership | releaseMembership => exact h
  | reseedCatchupXor | setRetained fields =>
    intro n ix hix
    obtain ⟨hdef, hname, hinc, hstored, hcomplete⟩ := h n ix hix
    exact ⟨hdef, hname, hinc, hstored, hcomplete⟩
  | withIndex d =>
    have hd := ha.1 d rfl
    obtain ⟨hdef, -, hfollows⟩ := withIndex_follows h (hc d hd)
    refine insert_follows h (c.withIndex_base d) ?_ (by rw [hdef]; exact hd) hfollows
    rw [hdef]
    exact c.withIndex_indexes d
  | buildIndexStep d rounds => exact buildIndexStep_follows h (ha.1 d rfl) (hc d (ha.1 d rfl)) rounds

/-- A run keeps the indexes following the rows. -/
theorem run_follows {env : Env} {defs : List IndexDef} {c₀ c : CachedCollection}
    (h₀ : c₀.indexes = ∅) (hrows : c₀.AllOrderable defs)
    (h : Run (fun c a => some (perform env c a)) (Allowed env defs) c₀ c) :
    c.IndexesFollow defs ∧ c.AllOrderable defs := by
  refine h.invariant (P := fun c => c.IndexesFollow defs ∧ c.AllOrderable defs) ⟨?_, hrows⟩ ?_
  · intro n ix hix
    rw [h₀] at hix
    simp at hix
  · intro t a u ⟨hfollow, hc⟩ ha hu
    cases hu
    exact ⟨perform_follows hfollow hc ha, ha.2⟩

/-! ## A loop of steps -/

/-- The index is held, and holds every row. -/
def Complete (c : CachedCollection) (d : IndexDef) : Prop :=
  ∃ ix, c.slot d = some ix ∧ ix.pending = none

/-- The ids that a build has still to read. -/
def left (c : CachedCollection) (d : IndexDef) : Nat :=
  (((c.slot d).getD ⟨d, [], some c.base.rows.keys⟩).pending.getD []).length

theorem fillRounds_pending (c : CachedCollection) (rounds : Nat) (ix : BuiltIndex) :
    ((c.fillRounds (rounds + 1) ix).pending.getD []).length ≤
        (ix.pending.getD []).length - indexStepRows ∧
      ((ix.pending.getD []).length ≤ indexStepRows →
        (c.fillRounds (rounds + 1) ix).pending = none) := by
  induction rounds generalizing ix with
  | zero =>
    unfold fillRounds fillRounds
    split
    next hp =>
      have hnone : ix.pending = none := by simpa using hp
      rw [hnone]
      simp
    next =>
      obtain ⟨hlen, hdone⟩ := c.fillPending_pending ix indexStepRows
      exact ⟨hlen.le, hdone⟩
  | succ rounds ih =>
    unfold fillRounds
    split
    next hp =>
      have hnone : ix.pending = none := by simpa using hp
      rw [hnone]
      simp
    next =>
      obtain ⟨hlen, hdone⟩ := c.fillPending_pending ix indexStepRows
      obtain ⟨hlen', hdone'⟩ := ih (c.fillPending ix indexStepRows)
      exact ⟨by omega, fun hle => hdone' (by omega)⟩

theorem slot_buildIndexStep (c : CachedCollection) (d : IndexDef) (rounds : Nat)
    (hdef : (c.fillRounds (rounds + 1)
      ((c.slot d).getD ⟨d, [], some c.base.rows.keys⟩)).indexDef = d) :
    (c.buildIndexStep d rounds).slot d = some (c.fillRounds (rounds + 1)
      ((c.slot d).getD ⟨d, [], some c.base.rows.keys⟩)) := by
  have hget : (c.buildIndexStep d rounds).indexes[d.name]? = some (c.fillRounds (rounds + 1)
      ((c.slot d).getD ⟨d, [], some c.base.rows.keys⟩)) := by
    unfold buildIndexStep
    dsimp only
    rw [ExtTreeMap.getElem?_insert_self]
  rw [slot, hget, Option.filter_some_pos]
  exact beq_iff_eq.mpr hdef

theorem fillRounds_indexDef (c : CachedCollection) (rounds : Nat) (ix : BuiltIndex) :
    (c.fillRounds rounds ix).indexDef = ix.indexDef := by
  induction rounds generalizing ix with
  | zero => rfl
  | succ rounds ih =>
    unfold fillRounds
    split
    next => rfl
    next => rw [ih, fillPending_indexDef]

/-- A step reads some of what is left, and with nothing left the index is complete. -/
theorem buildIndexStep_left (c : CachedCollection) (d : IndexDef) (rounds : Nat) :
    (c.buildIndexStep d rounds).left d ≤ c.left d - indexStepRows ∧
      (c.left d ≤ indexStepRows → (c.buildIndexStep d rounds).Complete d) := by
  have hstart : ((c.slot d).getD ⟨d, [], some c.base.rows.keys⟩).indexDef = d := by
    cases hslot : c.slot d with
    | none => rfl
    | some ix => exact (slot_spec hslot).2
  have hslot := c.slot_buildIndexStep d rounds ((c.fillRounds_indexDef _ _).trans hstart)
  obtain ⟨hlen, hdone⟩ := c.fillRounds_pending rounds
    ((c.slot d).getD ⟨d, [], some c.base.rows.keys⟩)
  refine ⟨?_, fun hle => ⟨_, hslot, hdone hle⟩⟩
  unfold left
  rw [hslot]
  exact hlen

/-- The states of a collection under a sequence of operations. -/
def stateAt (env : Env) (c : CachedCollection) (ops : Nat → CollectionOp) : Nat → CachedCollection
  | 0 => c
  | n + 1 => (stateAt env c ops n).perform env (ops n)

/-- A loop of steps with only so many other operations among them completes the index. -/
theorem loop_completes (env : Env) (c : CachedCollection) (d : IndexDef)
    (ops : Nat → CollectionOp) {N : Nat} (h : ∀ n ≥ N, ∃ rounds, ops n = .buildIndexStep d rounds) :
    ∃ n ≥ N, (stateAt env c ops (n + 1)).Complete d := by
  have hleft : ∀ k, (stateAt env c ops (N + k)).left d ≤
      (stateAt env c ops N).left d - k * indexStepRows := by
    intro k
    induction k with
    | zero => simp
    | succ k ih =>
      obtain ⟨rounds, hops⟩ := h (N + k) (Nat.le_add_right N k)
      have hstep : stateAt env c ops (N + (k + 1)) =
          (stateAt env c ops (N + k)).buildIndexStep d rounds := by
        change (stateAt env c ops (N + k)).perform env (ops (N + k)) = _
        rw [hops]
        rfl
      rw [hstep]
      refine ((buildIndexStep_left _ d rounds).1).trans ?_
      rw [Nat.add_mul]
      omega
  refine ⟨N + (stateAt env c ops N).left d, Nat.le_add_right _ _, ?_⟩
  obtain ⟨rounds, hops⟩ := h (N + (stateAt env c ops N).left d) (Nat.le_add_right _ _)
  change ((stateAt env c ops _).perform env (ops _)).Complete d
  rw [hops]
  refine (buildIndexStep_left _ d rounds).2 ?_
  have := hleft ((stateAt env c ops N).left d)
  unfold indexStepRows at this ⊢
  omega

end CachedCollection

/-- However builds, writes and compactions come, a lookup sees the index of the rows stored then,
and a loop of steps comes to its end. -/
theorem stepped_builds_exact {env : Env} {defs : List IndexDef} {c₀ c : CachedCollection}
    (h₀ : c₀.indexes = ∅) (hrows : c₀.AllOrderable defs)
    (h : Run (fun c a => some (CachedCollection.perform env c a))
      (CachedCollection.Allowed env defs) c₀ c) :
    (∀ d ∈ defs, Increasing indexCmp (c.withIndex d).2.entries ∧
      ∀ e, e ∈ (c.withIndex d).2.entries ↔
        ∃ id row, c.base.rows[id]? = some row ∧ e = entryOf c.base d id row) ∧
    ∀ (d : IndexDef) (ops : Nat → CollectionOp) (N : Nat),
      (∀ n ≥ N, ∃ rounds, ops n = .buildIndexStep d rounds) →
        ∃ n ≥ N, (CachedCollection.stateAt env c ops (n + 1)).Complete d := by
  obtain ⟨hfollow, hc⟩ := CachedCollection.run_follows h₀ hrows h
  refine ⟨fun d hd => ?_, fun d ops N hops => CachedCollection.loop_completes env c d ops hops⟩
  obtain ⟨hdef, hpending, hfollows⟩ := CachedCollection.withIndex_follows hfollow (hc d hd)
  refine ⟨hfollows.increasing, fun e => ?_⟩
  rw [hfollows.exact hpending, hdef]

/-- A row that comes while the index is being built. -/
theorem stepped_builds_exact_created :
    ∃ c : CachedCollection,
      (c.withIndex ⟨"by_a", ["a"]⟩).2.entries = [([.int 0], "T:2"), ([.int 1], "T:1")] ∧
        Increasing indexCmp (c.withIndex ⟨"by_a", ["a"]⟩).2.entries := by
  let d : IndexDef := ⟨"by_a", ["a"]⟩
  let allowed (c : CachedCollection) (a : CollectionOp) : Bool :=
    a.asks.all (fun d' => d' == d) &&
      decide (∀ ir ∈ (c.perform Env.sample a).base.rows.toList,
        PlainKey (indexKeyOf d.paths ir.2.value))
  have hrun : (runAll (fun c a => some (CachedCollection.perform Env.sample c a)) allowed
      (CachedCollection.new "T") [.apply .create "1" (.object [("a", .int 1)]),
        .buildIndexStep d 0, .apply .create "2" (.object [("a", .int 0)])]).any
      (fun c => decide ((c.withIndex d).2.entries = [([.int 0], "T:2"), ([.int 1], "T:1")])) =
        true := by decide +kernel
  obtain ⟨c, hc, hentries⟩ := exists_run hrun
  have hallowed : ∀ c a, allowed c a = true → CachedCollection.Allowed Env.sample [d] c a := by
    intro c a ha
    obtain ⟨hasks, hrows⟩ := (Bool.and_eq_true _ _).mp ha
    refine ⟨fun d' hd' => ?_, fun d' hd' id row hrow => ?_⟩
    · rw [hd'] at hasks
      simpa using hasks
    · obtain rfl := List.mem_singleton.mp hd'
      exact of_decide_eq_true hrows (id, row) (ExtTreeMap.mem_toList_iff_getElem?_eq_some.mpr hrow)
  have hnew : (CachedCollection.new "T").AllOrderable [d] := by
    intro d' _ id row hrow
    simp [CachedCollection.new, Collection.new] at hrow
  exact ⟨c, of_decide_eq_true hentries,
    ((stepped_builds_exact rfl hnew (hc.mono hallowed)).1 d (by simp)).1⟩

end Sp00ky.Ssp
