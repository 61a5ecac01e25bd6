/-
  What a collection derives from its rows and keeps (`circuit/store.rs`,
  `circuit/index.rs`).

  Beside its rows a collection holds the XOR of their digests, the membership
  Z-set once something asked for it, and the secondary indexes that lookups
  built, some of them only in part. `apply` is the single place where rows change
  and brings each of them along; `compact` and `reseed_catchup_xor` recompute.
  The rows, the XOR and the write counter are those of `Collection`, which the
  rest of the model works with (`apply_base`).
-/
import Sp00ky.Ssp.StoreFacts

namespace Sp00ky.Ssp

open Std Lib

/-! ## The caches -/

/-- `OrderedIndex` as it is held: its definition, its entries, and the ids that a stepped
    build has not read yet. -/
structure BuiltIndex where
  indexDef : IndexDef
  entries : List (IndexKey × String)
  pending : Option (List String)

namespace BuiltIndex

/-- `OrderedIndex::insert`. -/
def insert (ix : BuiltIndex) (e : IndexKey × String) : BuiltIndex :=
  { ix with entries := insertBy indexCmp e ix.entries }

/-- `OrderedIndex::remove`. -/
def remove (ix : BuiltIndex) (e : IndexKey × String) : BuiltIndex :=
  { ix with entries := removeBy indexCmp e ix.entries }

/-- `OrderedIndex::fill`. -/
def fill (ix : BuiltIndex) (entries : List (IndexKey × String)) : BuiltIndex :=
  (sortBy indexCmp entries).foldl insert ix

end BuiltIndex

/-- A `Collection` with the caches behind its rows. -/
structure CachedCollection where
  base : Collection
  membership : Option ZSet
  indexes : ExtTreeMap String BuiltIndex

/-- The XOR of the digests of all rows. -/
def xorDigests (rows : ExtTreeMap String Row) : BitVec 256 :=
  rows.foldl (fun acc _ r => acc ^^^ r.digest) 0

/-- `INDEX_STEP_ROWS`. -/
def indexStepRows : Nat := 512

namespace CachedCollection

/-- `Collection::new`. -/
def new (name : String) : CachedCollection := ⟨Collection.new name, none, ∅⟩

/-- `Collection::membership`: built on first use. -/
def getMembership (c : CachedCollection) : CachedCollection × ZSet :=
  let z := c.membership.getD c.base.membership
  ({ c with membership := some z }, z)

/-- `Collection::release_membership`. -/
def releaseMembership (c : CachedCollection) : CachedCollection := { c with membership := none }

/-- `Collection::bump_membership`. -/
def bumpMembership (c : CachedCollection) (key : String) (weight : Int) : CachedCollection :=
  { c with
    membership := c.membership.map fun z =>
      z.alter key fun old =>
        if old.getD 0 + weight = 0 then none else some (old.getD 0 + weight) }

/-- `Collection::index_entry`. -/
def indexEntry (c : CachedCollection) (ix : BuiltIndex) (id : String) (row : Row) :
    IndexKey × String :=
  (indexKeyOf ix.indexDef.paths row.value, c.base.keyOf id)

/-- `Collection::unindex_row`. -/
def unindexRow (c : CachedCollection) (id key : String) : CachedCollection :=
  match c.base.rows[id]? with
  | none => c
  | some row =>
    { c with
      indexes := c.indexes.map fun _ ix =>
        ix.remove (indexKeyOf ix.indexDef.paths row.value, key) }

/-- `Collection::index_row`. -/
def indexRow (c : CachedCollection) (row : Sp00kyValue) (key : String) : CachedCollection :=
  { c with
    indexes := c.indexes.map fun _ ix => ix.insert (indexKeyOf ix.indexDef.paths row, key) }

/-- `Collection::fill_pending`: the ids come off the end of the list, and one whose row went
    in the meantime is not read. -/
def fillPending (c : CachedCollection) (ix : BuiltIndex) (maxRows : Nat) : BuiltIndex :=
  match ix.pending with
  | none => ix
  | some pending =>
    let keep := pending.length - min pending.length maxRows
    let entries := (pending.drop keep).filterMap fun id =>
      c.base.rows[id]?.map (c.indexEntry ix id)
    let rest := pending.take keep
    { ix with pending := if rest.isEmpty then none else some rest }.fill entries

/-- `Collection::build_index`: the membership is built along with it. -/
def buildIndex (c : CachedCollection) (d : IndexDef) : CachedCollection × BuiltIndex :=
  let fresh : BuiltIndex := ⟨d, [], none⟩
  (c.getMembership.1,
    fresh.fill (c.base.rows.toList.map fun ir => c.indexEntry fresh ir.1 ir.2))

/-- The slot of an index, empty when it holds another definition under the name. -/
def slot (c : CachedCollection) (d : IndexDef) : Option BuiltIndex :=
  c.indexes[d.name]?.filter fun ix => ix.indexDef == d

/-- `Collection::with_index`: the index a lookup reads. -/
def withIndex (c : CachedCollection) (d : IndexDef) : CachedCollection × BuiltIndex :=
  let (c, ix) := match c.slot d with
    | some ix => (c, ix)
    | none => c.buildIndex d
  let ix := c.fillPending ix (ix.pending.getD []).length
  ({ c with indexes := c.indexes.insert d.name ix }, ix)

/-- Rounds of `build_index_step` until the index is complete or the time is up. -/
def fillRounds (c : CachedCollection) : Nat → BuiltIndex → BuiltIndex
  | 0, ix => ix
  | rounds + 1, ix =>
    if ix.pending.isNone then ix else fillRounds c rounds (c.fillPending ix indexStepRows)

/-- `Collection::build_index_step`; the clock decides the number of rounds, at least one. -/
def buildIndexStep (c : CachedCollection) (d : IndexDef) (rounds : Nat) : CachedCollection :=
  let ix := (c.slot d).getD ⟨d, [], some c.base.rows.keys⟩
  { c with indexes := c.indexes.insert d.name (c.fillRounds (rounds + 1) ix) }

/-- An index whose fields all survive the projection. -/
def retainsIndex (keep : ExtTreeSet String) (ix : BuiltIndex) : Bool :=
  ix.indexDef.fields.all fun field =>
    let root := (Path.new field).segments.headD ""
    keep.contains root || alwaysRetained.contains root

/-- `Collection::compact`. -/
def compact (env : Env) (c : CachedCollection) : CachedCollection where
  base :=
    { c.base with
      rows := c.base.rows.map fun id r =>
        ⟨c.base.project r.value, env.digest id (c.base.project r.value)⟩
      catchupXor := c.base.rows.foldl
        (fun acc id r => acc ^^^ env.digest id (c.base.project r.value)) 0
      writes := c.base.writes + 1 }
  membership := c.membership
  indexes :=
    match c.base.retained with
    | some keep => c.indexes.filter fun _ ix => retainsIndex keep ix
    | none => c.indexes

/-- `Collection::reseed_catchup_xor`. -/
def reseedCatchupXor (c : CachedCollection) : CachedCollection :=
  { c with base := { c.base with catchupXor := xorDigests c.base.rows } }

/-- `Collection::apply`. -/
def apply (env : Env) (c : CachedCollection) (op : Operation) (id : String)
    (data : Sp00kyValue) : CachedCollection × Applied :=
  let normalized := rawId id
  let key := makeKey c.base.name id
  if op = .delete then
    match c.base.rows[normalized]? with
    | none => (c, ⟨key, 0, false⟩)
    | some old =>
      let c := c.unindexRow normalized key
      let c :=
        { c with
          base :=
            { c.base with
              rows := c.base.rows.erase normalized
              catchupXor := c.base.catchupXor ^^^ old.digest
              writes := c.base.writes + 1 } }
      (c.bumpMembership key (-1), ⟨key, -1, true⟩)
  else
    let stored := c.base.rows[normalized]?
    let body := c.base.incoming op normalized data
    let digest := env.digest normalized body
    if stored.any (·.digest == digest) then (c, ⟨key, 0, false⟩)
    else
      let c := c.unindexRow normalized key
      let c :=
        { c with
          base :=
            { c.base with
              rows := c.base.rows.insert normalized ⟨body, digest⟩
              catchupXor := c.base.catchupXor ^^^ (stored.map Row.digest).getD 0 ^^^ digest
              writes := c.base.writes + 1 } }
      let c := c.indexRow body key
      let weight : Int := if stored.isSome then 0 else 1
      (if weight = 0 then c else c.bumpMembership key weight, ⟨key, weight, true⟩)

end CachedCollection

/-! ## Runs -/

/-- What may happen to a collection. -/
inductive CollectionOp where
  | apply (op : Operation) (id : String) (data : Sp00kyValue)
  | compact
  | membership
  | releaseMembership
  | reseedCatchupXor
  | withIndex (d : IndexDef)
  | buildIndexStep (d : IndexDef) (rounds : Nat)
  | setRetained (fields : Option (ExtTreeSet String))

def CachedCollection.perform (env : Env) (c : CachedCollection) : CollectionOp → CachedCollection
  | .apply op id data => (c.apply env op id data).1
  | .compact => c.compact env
  | .membership => c.getMembership.1
  | .releaseMembership => c.releaseMembership
  | .reseedCatchupXor => c.reseedCatchupXor
  | .withIndex d => (c.withIndex d).1
  | .buildIndexStep d rounds => c.buildIndexStep d rounds
  | .setRetained fields => { c with base := { c.base with retained := fields } }

def CachedCollection.run (env : Env) (c : CachedCollection) (ops : List CollectionOp) :
    CachedCollection :=
  ops.foldl (CachedCollection.perform env) c

/-! ## The XOR of the digests -/

theorem xorDigests_erase {rows : ExtTreeMap String Row} {id : String} {r : Row}
    (h : rows[id]? = some r) : xorDigests rows = xorDigests (rows.erase id) ^^^ r.digest :=
  foldl_eq_erase (fun d _ r _ r' => by rw [BitVec.xor_assoc, BitVec.xor_comm r.digest,
    ← BitVec.xor_assoc]) 0 h

theorem xorDigests_insert (rows : ExtTreeMap String Row) (id : String) (r : Row) :
    xorDigests (rows.insert id r) = xorDigests (rows.erase id) ^^^ r.digest := by
  have hget : (rows.insert id r)[id]? = some r := by simp
  have herase : (rows.insert id r).erase id = rows.erase id := by
    refine ExtTreeMap.ext_getElem? fun k => ?_
    simp only [ExtTreeMap.getElem?_erase, ExtTreeMap.getElem?_insert]
    split <;> simp_all
  rw [xorDigests_erase hget, herase]

theorem erase_of_none {rows : ExtTreeMap String Row} {id : String} (h : rows[id]? = none) :
    rows.erase id = rows := by
  refine ExtTreeMap.ext_getElem? fun k => ?_
  rw [ExtTreeMap.getElem?_erase]
  split
  · next hk =>
    obtain rfl := LawfulEqCmp.compare_eq_iff_eq.mp hk
    exact h.symm
  · rfl

/-- A row replaced or added: its old digest goes out of the XOR, the new one goes in. -/
theorem xorDigests_write (rows : ExtTreeMap String Row) (id : String) (r : Row) :
    xorDigests (rows.insert id r) =
      xorDigests rows ^^^ (rows[id]?.map Row.digest).getD 0 ^^^ r.digest := by
  rw [xorDigests_insert]
  cases h : rows[id]? with
  | none => simp [erase_of_none h]
  | some old => simp [xorDigests_erase h, BitVec.xor_assoc]

/-! ## Coherence -/

/-- A Z-set that holds a collection's keys, each once. -/
def IsMembership (c : Collection) (z : ZSet) : Prop :=
  ∀ (k : String) (w : Int), z[k]? = some w ↔ w = 1 ∧ ∃ id ∈ c.rows, k = c.keyOf id

/-- The caches agree with the rows. -/
structure CachedCollection.Coherent (c : CachedCollection) : Prop where
  membership : ∀ z, c.membership = some z → IsMembership c.base z
  xor : c.base.catchupXor = xorDigests c.base.rows

theorem isMembership_membership (c : Collection) : IsMembership c c.membership := by
  intro k w
  rcases membership_getElem? c k with ⟨h, hid⟩ | ⟨h, hid⟩
  · rw [h]
    simp only [Option.some.injEq, eq_comm (a := (1 : Int)), hid, and_true]
  · rw [h]
    constructor
    · intro hw
      cases hw
    · rintro ⟨-, id, hmem, hk⟩
      exact absurd hk (hid id hmem)

theorem keyOf_injective (c : Collection) {i j : String} (h : c.keyOf i = c.keyOf j) : i = j :=
  join_injective h

/-- A row that appears or goes moves the weight of its key by one. -/
theorem IsMembership.alter {c c' : Collection} {z : ZSet} (hz : IsMembership c z)
    (hname : c'.name = c.name) {id : String} {w : Int}
    (hrows : ∀ i, i ≠ id → (i ∈ c'.rows ↔ i ∈ c.rows))
    (hw : id ∉ c.rows ∧ id ∈ c'.rows ∧ w = 1 ∨ id ∈ c.rows ∧ id ∉ c'.rows ∧ w = -1) :
    IsMembership c' (z.alter (c.keyOf id) fun old =>
      if old.getD 0 + w = 0 then none else some (old.getD 0 + w)) := by
  have hkey : ∀ i, c'.keyOf i = c.keyOf i := fun i => by rw [Collection.keyOf, hname]; rfl
  intro k v
  rw [ExtTreeMap.getElem?_alter]
  by_cases hk : c.keyOf id = k
  · subst hk
    rw [if_pos (by simp)]
    have hmem : ∀ d : Collection, (∀ i, d.keyOf i = c.keyOf i) →
        ((∃ i ∈ d.rows, c.keyOf id = d.keyOf i) ↔ id ∈ d.rows) := by
      intro d hd
      constructor
      · rintro ⟨i, hi, he⟩
        rw [hd] at he
        rwa [keyOf_injective c he]
      · intro hi
        exact ⟨id, hi, (hd id).symm⟩
    rw [hmem c' hkey]
    have hold := fun v => hz (c.keyOf id) v
    simp only [hmem c fun _ => rfl] at hold
    rcases hw with ⟨hn, hy, rfl⟩ | ⟨hy, hn, rfl⟩
    · have hnone : z[c.keyOf id]? = none := by
        cases hv : z[c.keyOf id]? with
        | none => rfl
        | some v => exact absurd ((hold v).mp hv).2 hn
      simp [hnone, hy, eq_comm]
    · have hone : z[c.keyOf id]? = some 1 := (hold 1).mpr ⟨rfl, hy⟩
      simp [hone, hn]
  · rw [if_neg (by simpa using hk), hz k v]
    have hiff : (∃ i ∈ c'.rows, k = c'.keyOf i) ↔ ∃ i ∈ c.rows, k = c.keyOf i := by
      constructor
      · rintro ⟨i, hi, rfl⟩
        rw [hkey] at hk ⊢
        exact ⟨i, (hrows i fun he => hk (by rw [he])).mp hi, rfl⟩
      · rintro ⟨i, hi, rfl⟩
        exact ⟨i, (hrows i fun he => hk (by rw [he])).mpr hi, (hkey i).symm⟩
    rw [hiff]

/-- The same ids under the same name have the same membership. -/
theorem IsMembership.congr {c c' : Collection} {z : ZSet} (hz : IsMembership c z)
    (hname : c'.name = c.name) (hrows : ∀ i, i ∈ c'.rows ↔ i ∈ c.rows) : IsMembership c' z := by
  intro k w
  have hkey : ∀ i, c'.keyOf i = c.keyOf i := fun i => by rw [Collection.keyOf, hname]; rfl
  rw [hz k w]
  simp only [hrows, hkey]

/-! ## Each operation keeps it -/

namespace CachedCollection

@[simp] theorem unindexRow_base (c : CachedCollection) (id key : String) :
    (c.unindexRow id key).base = c.base := by
  unfold unindexRow
  split <;> rfl

@[simp] theorem unindexRow_membership (c : CachedCollection) (id key : String) :
    (c.unindexRow id key).membership = c.membership := by
  unfold unindexRow
  split <;> rfl

/-- The rows, their XOR and what is reported are those of `Collection::apply` on the rows alone. -/
theorem apply_base (env : Env) (c : CachedCollection) (op : Operation) (id : String)
    (data : Sp00kyValue) :
    (c.apply env op id data).1.base = (c.base.apply env op id data).1 ∧
      (c.apply env op id data).2 = (c.base.apply env op id data).2 := by
  unfold apply Collection.apply
  dsimp only
  by_cases hop : op = .delete
  · rw [if_pos hop, if_pos hop]
    cases c.base.rows[rawId id]? with
    | none => exact ⟨rfl, rfl⟩
    | some old => exact ⟨by simp [bumpMembership], rfl⟩
  · rw [if_neg hop, if_neg hop]
    split
    · exact ⟨rfl, rfl⟩
    · refine ⟨?_, rfl⟩
      split <;> simp [bumpMembership, indexRow]

/-- A mutation that reports no change did nothing. -/
theorem apply_unchanged (env : Env) (c : CachedCollection) (op : Operation) (id : String)
    (data : Sp00kyValue) (h : (c.apply env op id data).2.contentChanged = false) :
    (c.apply env op id data).1 = c := by
  unfold apply at h ⊢
  dsimp only at h ⊢
  by_cases hop : op = .delete
  · rw [if_pos hop] at h ⊢
    cases hrow : c.base.rows[rawId id]? with
    | none => rfl
    | some old =>
      rw [hrow] at h
      cases h
  · rw [if_neg hop] at h ⊢
    split at h
    · next hsame => rw [if_pos hsame]
    · cases h

/-- The membership after a mutation: bumped by the weight it reports. -/
theorem apply_membership (env : Env) (c : CachedCollection) (op : Operation) (id : String)
    (data : Sp00kyValue) :
    (c.apply env op id data).1.membership =
      if (c.apply env op id data).2.weight = 0 then c.membership
      else (c.bumpMembership (c.base.keyOf (rawId id)) (c.apply env op id data).2.weight).membership := by
  unfold apply
  dsimp only
  split
  · split
    · rfl
    · simp [bumpMembership, Collection.keyOf, makeKey]
  · split
    · rfl
    · dsimp only
      split
      · next h => simp [indexRow]
      · simp [bumpMembership, indexRow, Collection.keyOf, makeKey]

theorem xor_apply (env : Env) (c : Collection) (op : Operation) (id : String)
    (data : Sp00kyValue) (h : c.catchupXor = xorDigests c.rows) :
    (c.apply env op id data).1.catchupXor = xorDigests (c.apply env op id data).1.rows := by
  unfold Collection.apply
  dsimp only
  split
  · split
    · exact h
    · next old hold =>
      dsimp only
      rw [h, xorDigests_erase hold, BitVec.xor_assoc, BitVec.xor_self, BitVec.xor_zero]
  · split
    · exact h
    · dsimp only
      rw [h, xorDigests_write]

variable {c : CachedCollection}

theorem Coherent.apply (h : c.Coherent) (env : Env) (op : Operation)
    (id : String) (data : Sp00kyValue) : (c.apply env op id data).1.Coherent := by
  obtain ⟨hbase, happ⟩ := apply_base env c op id data
  obtain ⟨hweight, -⟩ := apply_row env c.base op id data
  have hname := Collection.apply_name env c.base op id data
  have hrows : ∀ i, i ≠ rawId id →
      (i ∈ (c.base.apply env op id data).1.rows ↔ i ∈ c.base.rows) := by
    intro i hi
    rw [ExtTreeMap.mem_iff_isSome_getElem?, ExtTreeMap.mem_iff_isSome_getElem?, apply_rows,
      if_neg hi]
  constructor
  · intro z hz
    rw [apply_membership, happ] at hz
    rw [hbase]
    -- the weight is the change of the row's presence
    have hmem : ∀ d : Collection, rawId id ∈ d.rows ↔ d.rows[rawId id]?.isSome := fun d =>
      ExtTreeMap.mem_iff_isSome_getElem?
    by_cases hsame : rawId id ∈ (c.base.apply env op id data).1.rows ↔ rawId id ∈ c.base.rows
    · have hw : (c.base.apply env op id data).2.weight = 0 := by
        rw [hmem, hmem] at hsame
        simp only [hweight, presence, hsame, Int.sub_self]
      rw [if_pos hw] at hz
      refine (h.membership z hz).congr hname fun i => ?_
      by_cases hi : i = rawId id
      · rw [hi]
        exact hsame
      · exact hrows i hi
    · have hw : rawId id ∉ c.base.rows ∧ rawId id ∈ (c.base.apply env op id data).1.rows ∧
            (c.base.apply env op id data).2.weight = 1 ∨
          rawId id ∈ c.base.rows ∧ rawId id ∉ (c.base.apply env op id data).1.rows ∧
            (c.base.apply env op id data).2.weight = -1 := by
        rw [hmem, hmem] at hsame ⊢
        rw [hweight, presence, presence]
        by_cases h1 : c.base.rows[rawId id]?.isSome
        · by_cases h2 : (c.base.apply env op id data).1.rows[rawId id]?.isSome
          · exact absurd (iff_of_true h2 h1) hsame
          · exact .inr ⟨h1, h2, by simp [h1, h2]⟩
        · by_cases h2 : (c.base.apply env op id data).1.rows[rawId id]?.isSome
          · exact .inl ⟨h1, h2, by simp [h1, h2]⟩
          · exact absurd (iff_of_false h2 h1) hsame
      have hne : (c.base.apply env op id data).2.weight ≠ 0 := by
        rcases hw with ⟨-, -, hw⟩ | ⟨-, -, hw⟩ <;> rw [hw] <;> decide
      rw [if_neg hne] at hz
      obtain ⟨z₀, hz₀, rfl⟩ := Option.map_eq_some_iff.mp hz
      exact (h.membership z₀ hz₀).alter hname hrows hw
  · rw [hbase]
    exact xor_apply env c.base op id data h.xor

theorem Coherent.new (name : String) : (new name).Coherent := by
  refine ⟨?_, rfl⟩
  intro z hz
  cases hz

theorem Coherent.getMembership (h : c.Coherent) :
    c.getMembership.1.Coherent := by
  refine ⟨?_, h.xor⟩
  intro z hz
  obtain rfl : c.membership.getD c.base.membership = z := Option.some.inj hz
  cases hm : c.membership with
  | none => exact isMembership_membership c.base
  | some z => exact h.membership z hm

theorem Coherent.releaseMembership (h : c.Coherent) :
    c.releaseMembership.Coherent := by
  refine ⟨?_, h.xor⟩
  intro z hz
  cases hz

theorem Coherent.reseedCatchupXor (h : c.Coherent) :
    c.reseedCatchupXor.Coherent := ⟨h.membership, rfl⟩

/-- Only the rows' bodies and digests change; the ids stay. -/
theorem Coherent.compact (h : c.Coherent) (env : Env) :
    (c.compact env).Coherent := by
  constructor
  · intro z hz
    refine (h.membership z hz).congr rfl fun i => ?_
    rw [ExtTreeMap.mem_iff_isSome_getElem?, ExtTreeMap.mem_iff_isSome_getElem?]
    simp [CachedCollection.compact]
  · simp only [CachedCollection.compact, xorDigests]
    rw [ExtTreeMap.foldl_eq_foldl_toList, ExtTreeMap.foldl_eq_foldl_toList, ExtTreeMap.toList_map,
      List.foldl_map]

/-- The index slots are no part of the agreement. -/
theorem Coherent.withIndexes (h : c.Coherent)
    (indexes : ExtTreeMap String BuiltIndex) : { c with indexes := indexes }.Coherent :=
  ⟨h.membership, h.xor⟩

theorem Coherent.withIndex (h : c.Coherent) (d : IndexDef) :
    (c.withIndex d).1.Coherent := by
  unfold CachedCollection.withIndex
  cases c.slot d with
  | some ix => exact h.withIndexes _
  | none => exact h.getMembership.withIndexes _

theorem Coherent.perform (h : c.Coherent) (env : Env) (op : CollectionOp) :
    (c.perform env op).Coherent := by
  cases op with
  | apply op id data => exact h.apply env op id data
  | compact => exact h.compact env
  | membership => exact h.getMembership
  | releaseMembership => exact h.releaseMembership
  | reseedCatchupXor => exact h.reseedCatchupXor
  | withIndex d => exact h.withIndex d
  | buildIndexStep d rounds => exact h.withIndexes _
  | setRetained fields => exact ⟨h.membership, h.xor⟩

theorem Coherent.run (h : c.Coherent) (env : Env)
    (ops : List CollectionOp) : (c.run env ops).Coherent := by
  induction ops generalizing c with
  | nil => exact h
  | cons op ops ih => exact ih (h.perform env op)

end CachedCollection

/-- In every state a collection can reach its caches agree with its rows, the next mutation
    reports the change of the row's presence, and one that reports no change did nothing. -/
theorem collection_coherent (env : Env) (name : String) (ops : List CollectionOp)
    (op : Operation) (id : String) (data : Sp00kyValue) :
    let c := (CachedCollection.new name).run env ops
    c.Coherent ∧
      (c.apply env op id data).2.weight =
        presence (c.apply env op id data).1.base.rows[rawId id]? -
          presence c.base.rows[rawId id]? ∧
      ((c.apply env op id data).2.contentChanged = false → (c.apply env op id data).1 = c) := by
  intro c
  obtain ⟨hbase, happ⟩ := CachedCollection.apply_base env c op id data
  refine ⟨(CachedCollection.Coherent.new name).run env ops, ?_, ?_⟩
  · rw [hbase, happ]
    exact (apply_row env c.base op id data).1
  · exact CachedCollection.apply_unchanged env c op id data

end Sp00ky.Ssp
