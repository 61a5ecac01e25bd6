/-
  `Circuit::reconcile`: one table against an authoritative list of ids and versions.

  Rows the list lacks are deleted through a step; entries the table lacks, or holds at a
  lower version, are fetched by the caller and ingested as updates. A row whose digest is
  that of the body fetched for it is not written, and the digest leaves the version out,
  so such a row keeps its old version and is fetched again.
-/
import Sp00ky.Ssp.RecordDigest
import Sp00ky.Ssp.Batch

namespace Sp00ky.Ssp

open Std Lib

/-! ## The operation -/

/-- `Reconciled`. -/
structure Reconciled where
  fetch : List String
  deleted : Nat
  deltas : List ViewDelta

namespace Circuit

/-- The table lacks the entry, or holds it at a lower version or at none. -/
def needsFetch (coll : Option Collection) (e : String × Int) : Bool :=
  match coll with
  | some coll =>
    match coll.rows[rawId e.1]?.bind Row.rv with
    | some stored => decide (stored < e.2)
    | none => true
  | none => true

/-- The raw ids of the table that no entry names, in hash order. -/
def staleIds (ho : HashOrder) (coll : Option Collection) (entries : List (String × Int)) :
    List String :=
  match coll with
  | some coll =>
    (ho.visit coll.rows.keys).filter fun id => !(entries.map fun e => rawId e.1).contains id
  | none => []

/-- `Circuit::reconcile`. -/
def reconcile (env : Env) (planning : Planning) (ho : HashOrder) (c : Circuit) (table : String)
    (entries : List (String × Int)) : Circuit × Reconciled :=
  let coll := c.store.getCollection table
  let stale := staleIds ho coll entries
  let fetch := (entries.filter (needsFetch coll)).map Prod.fst
  let r := if stale.isEmpty then (c, [])
    else c.step env planning ho (stale.map fun id => ⟨table, .delete, id, .null⟩)
  (r.1, ⟨fetch, stale.length, r.2⟩)

end Circuit

/-- The ingestion of a fetched entry. -/
def fetchedChange (table : String) (body : String → Sp00kyValue) (e : String × Int) : Change :=
  ⟨table, .update, e.1, body e.1⟩

/-! ## Versions and digests of incoming bodies -/

section Bodies

/-- A filter by key decides a lookup by its key. -/
theorem lookup_filter_fst (p : String → Bool) (k : String) (fields : List (String × Sp00kyValue)) :
    (fields.filter fun kv => p kv.1).lookup k = if p k then fields.lookup k else none := by
  induction fields with
  | nil => simp
  | cons kv fields ih =>
    obtain ⟨k', v⟩ := kv
    rw [List.filter_cons, List.lookup_cons]
    by_cases hk : k = k'
    · subst hk
      cases hp : p k with
      | true => simp
      | false =>
        rw [hp] at ih
        simpa using ih
    · have hb : (k == k') = false := by simpa using hk
      cases hp : p k' with
      | true =>
        rw [if_pos rfl, List.lookup_cons, hb]
        exact ih
      | false =>
        rw [if_neg (by simp), hb]
        exact ih

theorem lookup_fieldsRemove {fields : List (String × Sp00kyValue)} {key k : String} (h : k ≠ key) :
    (fieldsRemove fields key).lookup k = fields.lookup k := by
  unfold fieldsRemove
  rw [lookup_filter_fst fun k => k != key, if_pos (by simpa using h)]

theorem lookup_fieldsInsert_self (fields : List (String × Sp00kyValue)) (key : String)
    (v : Sp00kyValue) : (fieldsInsert fields key v).lookup key = some v := by
  unfold fieldsInsert fieldsRemove
  rw [List.lookup_append, lookup_filter_fst fun k => k != key, if_neg (by simp)]
  simp

/-- A path that starts elsewhere leaves a field alone. -/
theorem get_stripPath {segs : List String} {key : String} (h : ∀ s ∈ segs.head?, s ≠ key)
    (v : Sp00kyValue) : (stripPath segs v).get key = v.get key := by
  have hmap : ∀ (head : String) (f : Sp00kyValue → Sp00kyValue), head ≠ key →
      ∀ fields : List (String × Sp00kyValue),
        (fields.map fun kv => if kv.1 = head then (kv.1, f kv.2) else kv).lookup key =
          fields.lookup key := by
    intro head f hne fields
    induction fields with
    | nil => rfl
    | cons kv fields ih =>
      obtain ⟨k, w⟩ := kv
      rw [List.map_cons, List.lookup_cons]
      by_cases hk : k = head
      · subst hk
        have hb : (key == k) = false := by simpa using Ne.symm hne
        simp only [if_true, List.lookup_cons, hb, ih]
      · simp only [if_neg hk, List.lookup_cons, ih]
  unfold stripPath
  split
  · rfl
  · next leaf fields =>
    exact lookup_fieldsRemove (Ne.symm (h leaf rfl))
  · next head rest fields _ => exact hmap head _ (h head rfl) fields
  · rfl

theorem splitDots_head {cs seg : List Char} (h : seg ∈ (splitDots cs).head?) : seg <+: cs := by
  induction cs generalizing seg with
  | nil =>
    obtain rfl : [] = seg := by simpa [splitDots] using h
    exact List.nil_prefix
  | cons c cs ih =>
    unfold splitDots at h
    split at h
    · obtain rfl : [] = seg := by simpa using h
      exact List.nil_prefix
    · split at h
      next heq =>
        obtain rfl : [c] = seg := by simpa using h
        exact ⟨cs, rfl⟩
      next seg' segs heq =>
        obtain rfl : c :: seg' = seg := by simpa using h
        exact List.cons_prefix_cons.mpr ⟨rfl, ih (by rw [heq]; rfl)⟩

/-- Opaque fields are never the reserved ones. -/
theorem get_stripOpaque {fields : ExtTreeSet String}
    (h : ∀ f ∈ fields.toList, isReservedKey f = false) (v : Sp00kyValue) :
    (stripOpaque v fields).get "_00_rv" = v.get "_00_rv" := by
  unfold stripOpaque
  generalize fields.toList = l at h
  induction l generalizing v with
  | nil => rfl
  | cons f l ih =>
    rw [List.foldl_cons, ih _ (List.forall_mem_cons.mp h).2]
    refine get_stripPath (fun s hs => ?_) v
    rintro rfl
    have hf := h f List.mem_cons_self
    rw [List.head?_map] at hs
    obtain ⟨seg, hseg, hs⟩ := Option.map_eq_some_iff.mp hs
    have hpre := splitDots_head hseg
    rw [← String.toList_ofList (l := seg), hs] at hpre
    have hres : isReservedKey f = true := by
      unfold isReservedKey
      rw [List.isPrefixOf_iff_prefix]
      exact List.IsPrefix.trans (by decide) hpre
    rw [hf] at hres
    cases hres

/-- The projection keeps the version. -/
theorem project_version (coll : Collection) (v : Sp00kyValue) :
    (coll.project v).get "_00_rv" = v.get "_00_rv" := by
  unfold Collection.project
  split
  next keep fields hkeep =>
    have hkept : (keep.contains "_00_rv" || alwaysRetained.contains "_00_rv") = true := by
      rw [show alwaysRetained.contains "_00_rv" = true from by decide, Bool.or_true]
    refine (lookup_filter_fst (fun k => keep.contains k || alwaysRetained.contains k) _ fields).trans ?_
    rw [if_pos hkept]
    rfl
  next => rfl

theorem get_project {coll : Collection} {v : Sp00kyValue} {n : Sp00kyValue}
    (h : v.get "_00_rv" = some n) : (coll.project v).get "_00_rv" = some n :=
  (project_version coll v).trans h

/-- The digest leaves the version out. -/
theorem recordDigest_version (blake3 : List Char → BitVec 256) (num : JsonNumber → List Char)
    (coll : Collection) (id : String) (fields : List (String × Sp00kyValue)) (n : Sp00kyValue) :
    recordDigest blake3 num id (coll.project (.object (fieldsInsert fields "_00_rv" n))) =
      recordDigest blake3 num id (coll.project (.object fields)) := by
  have hkept : ∀ p : String × Sp00kyValue → Bool,
      ((fieldsInsert fields "_00_rv" n).filter p).filter keptField =
        (fields.filter p).filter keptField := by
    intro p
    have hlast : keptField ("_00_rv", n) = false := by
      unfold keptField
      rw [show isReservedKey "_00_rv" = true from by decide]
      rfl
    unfold fieldsInsert fieldsRemove
    rw [List.filter_append, List.filter_append]
    have hnil : ([("_00_rv", n)].filter p).filter keptField = [] := by
      rw [List.filter_filter, List.filter_cons_of_neg (by simp [hlast]), List.filter_nil]
    rw [hnil, List.append_nil, List.filter_filter, List.filter_filter, List.filter_filter]
    refine List.filter_congr fun kv _ => ?_
    by_cases hk : kv.1 = "_00_rv"
    · have hdrop : keptField kv = false := by
        unfold keptField
        rw [hk, show isReservedKey "_00_rv" = true from by decide]
        rfl
      simp [hdrop]
    · simp [hk]
  have hall := hkept fun _ => true
  unfold recordDigest Collection.project
  cases coll.retained with
  | none =>
    simp only [Sp00kyValue.writeCanonicalRecord]
    rw [List.filter_true, List.filter_true] at hall
    rw [hall]
  | some keep =>
    simp only [Sp00kyValue.writeCanonicalRecord]
    rw [hkept]

end Bodies

/-! ## What the writes leave -/

/-- The table's collection, a new one when it is unknown. -/
def Circuit.tableOf (c : Circuit) (table : String) : Collection := c.store.collectionOrNew table

/-- The body of a change without its opaque fields. -/
def Circuit.stripped (c : Circuit) (table : String) (data : Sp00kyValue) : Sp00kyValue :=
  match c.opaqueFields[table]? with
  | some fields => stripOpaque data fields
  | none => data

/-- The digest of an incoming body: stripped and projected. -/
def Circuit.incomingDigest (env : Env) (c : Circuit) (table id : String) (data : Sp00kyValue) :
    BitVec 256 :=
  env.digest (rawId id) ((c.tableOf table).project (c.stripped table data))

/-- The opaque fields of the table are not reserved ones, as `opaque_fields_from_info` has it. -/
def Circuit.OpaquePlain (c : Circuit) (table : String) : Prop :=
  ∀ fields, c.opaqueFields[table]? = some fields → ∀ f ∈ fields.toList, isReservedKey f = false

/-- A write of a body at version `rv`: suppressed by its digest, or stored at `rv` or above. -/
def Wrote (digest : BitVec 256) (rv : Int) (stored after : Option Row) : Prop :=
  (∃ row, stored = some row ∧ row.digest = digest ∧ after = stored) ∨
    (∀ row, stored = some row → row.digest ≠ digest) ∧
      ∃ row n, after = some row ∧ row.rv = some n ∧ rv ≤ n

/-- What reading and writing rows of the table depends on besides the rows. -/
structure SameSettings (table : String) (c c' : Circuit) : Prop where
  retained : (c'.tableOf table).retained = (c.tableOf table).retained
  opaqueFields : c'.opaqueFields = c.opaqueFields
  rvFloor : 0 ≤ c.rvFloor → 0 ≤ c'.rvFloor

theorem SameSettings.refl (table : String) (c : Circuit) : SameSettings table c c := ⟨rfl, rfl, id⟩

theorem SameSettings.trans {table : String} {a b c : Circuit} (h : SameSettings table a b)
    (h' : SameSettings table b c) : SameSettings table a c :=
  ⟨h'.retained.trans h.retained, h'.opaqueFields.trans h.opaqueFields, h'.rvFloor ∘ h.rvFloor⟩

theorem SameSettings.stripped {table : String} {c c' : Circuit} (h : SameSettings table c c')
    (data : Sp00kyValue) : c'.stripped table data = c.stripped table data := by
  unfold Circuit.stripped
  rw [h.opaqueFields]

theorem SameSettings.incomingDigest {table : String} {c c' : Circuit} (h : SameSettings table c c')
    (env : Env) (id : String) (data : Sp00kyValue) :
    c'.incomingDigest env table id data = c.incomingDigest env table id data := by
  unfold Circuit.incomingDigest Collection.project
  rw [h.stripped, h.retained]

section Writes

variable {env : Env} {blake3 : List Char → BitVec 256} {num : JsonNumber → List Char}

theorem staged_frame (c : Circuit) (ch : Change) :
    (staged c ch).store.collections = c.store.collections ∧
      (staged c ch).opaqueFields = c.opaqueFields ∧ (staged c ch).rvFloor = c.rvFloor := by
  unfold staged
  split
  · unfold Store.stageDeletedRow
    dsimp only
    split <;> exact ⟨rfl, rfl, rfl⟩
  · exact ⟨rfl, rfl, rfl⟩

theorem floorRowVersion_settings (c : Circuit) (table id : String) (data : Sp00kyValue) :
    (floorRowVersion c table id data).1.opaqueFields = c.opaqueFields ∧
      (0 ≤ c.rvFloor → 0 ≤ (floorRowVersion c table id data).1.rvFloor) := by
  have hmax : 0 ≤ c.rvFloor → 0 ≤ ((incomingVersion data).map (max c.rvFloor)).getD c.rvFloor := by
    intro h
    cases incomingVersion data with
    | none => exact h
    | some v => exact Int.le_trans h (Int.le_max_left _ _)
  unfold floorRowVersion
  dsimp only
  split
  · exact ⟨rfl, hmax⟩
  · split
    · exact ⟨rfl, hmax⟩
    · refine ⟨rfl, fun h => ?_⟩
      have := hmax h
      dsimp only
      split <;> omega

theorem applyOwned_retained (s : Store) (t : String) (op : Operation) (id : String)
    (data : Sp00kyValue) :
    ((s.applyOwned env t op id data).1.collectionOrNew t).retained =
      (s.collectionOrNew t).retained := by
  have hname : ((s.collectionOrNew t).apply env op id data).1.name = t := by
    rw [Collection.apply_name, s.collectionOrNew_name]
  have happly : ((s.collectionOrNew t).apply env op id data).1.retained =
      (s.collectionOrNew t).retained := by
    unfold Collection.apply
    dsimp only
    split
    · split <;> rfl
    · split <;> rfl
  have hat : (s.setCollection ((s.collectionOrNew t).apply env op id data).1).collectionOrNew t =
      ((s.collectionOrNew t).apply env op id data).1 := by
    unfold Store.setCollection Store.collectionOrNew
    dsimp only
    rw [ExtTreeMap.getElem?_insert, if_pos (by
      unfold Store.collectionOrNew at hname
      rw [hname]
      exact ReflCmp.compare_self)]
    rfl
  unfold Store.applyOwned
  dsimp only
  rw [hat, happly]

/-- No change to the table touches its settings. -/
theorem changed_sameSettings (c : Circuit) (ch : Change) :
    SameSettings ch.table c (changed env c ch) := by
  obtain ⟨hs1, hs2, hs3⟩ := staged_frame c ch
  have hb : (bodyIn (staged c ch) ch).1.opaqueFields = c.opaqueFields ∧
      (0 ≤ c.rvFloor → 0 ≤ (bodyIn (staged c ch) ch).1.rvFloor) := by
    rw [← hs2, ← hs3]
    unfold bodyIn
    dsimp only
    split
    · exact floorRowVersion_settings _ _ _ _
    · exact ⟨rfl, id⟩
  refine ⟨?_, hb.1, hb.2⟩
  have hst : (staged c ch).store.collectionOrNew ch.table = c.store.collectionOrNew ch.table := by
    unfold Store.collectionOrNew
    rw [hs1]
  show ((written env c ch).1.collectionOrNew ch.table).retained = (c.store.collectionOrNew _).retained
  unfold written
  rw [applyOwned_retained, hst]

variable (env) in
/-- The row a create or an update leaves. -/
theorem applyOwned_put_row {op : Operation} (hd : op ≠ .delete) (hm : op ≠ .merge) (s : Store)
    (t id : String) (data : Sp00kyValue) :
    (s.applyOwned env t op id data).1.row t (rawId id) =
      if (s.row t (rawId id)).any (·.digest ==
          env.digest (rawId id) ((s.collectionOrNew t).project data)) then s.row t (rawId id)
      else some ⟨(s.collectionOrNew t).project data,
        env.digest (rawId id) ((s.collectionOrNew t).project data)⟩ := by
  have hname := s.collectionOrNew_name t
  have hrow := collectionOrNew_rows s t (rawId id)
  have hin : (s.collectionOrNew t).incoming op (rawId id) data =
      (s.collectionOrNew t).project data := by
    unfold Collection.incoming
    rw [if_neg hm]
  unfold Store.applyOwned
  dsimp only
  rw [setCollection_row, Collection.apply_name, hname, if_pos rfl]
  unfold Collection.apply
  dsimp only
  rw [if_neg hd, hrow, hin]
  split
  · exact hrow
  · rw [ExtTreeMap.getElem?_insert_self]

variable {table : String}

/-- The body a fetched entry brings: its version is at least the listed one, and its digest that
    of the body before any stamp. -/
theorem bodyIn_fetched (hdig : env.digest = recordDigest blake3 num) {c : Circuit}
    (hop : c.OpaquePlain table) (hfloor : 0 ≤ c.rvFloor) (id : String) {rv : Int}
    {data : Sp00kyValue} (hrv : data.get "_00_rv" = some (.int rv)) :
    ∃ n, (bodyIn c ⟨table, .update, id, data⟩).2.get "_00_rv" = some (.int n) ∧ rv ≤ n ∧
      ∀ coll : Collection,
        env.digest (rawId id) (coll.project (bodyIn c ⟨table, .update, id, data⟩).2) =
          env.digest (rawId id) (coll.project (c.stripped table data)) := by
  have hget : (c.stripped table data).get "_00_rv" = some (.int rv) := by
    unfold Circuit.stripped
    split
    next fields hf => rw [get_stripOpaque (hop fields hf), hrv]
    next => exact hrv
  have hbody : bodyIn c ⟨table, .update, id, data⟩ =
      if c.monotonicRowVersions then floorRowVersion c table id (c.stripped table data)
      else (c, c.stripped table data) := by
    unfold bodyIn Circuit.stripped
    simp only [reduceCtorEq, decide_false, decide_true, Bool.or_true, Bool.and_true] <;> rfl
  rw [hbody]
  cases hm : c.monotonicRowVersions with
  | false => exact ⟨rv, hget, Int.le_refl _, fun _ => rfl⟩
  | true =>
    rw [if_pos rfl]
    generalize hS : c.stripped table data = S at hget
    cases S with
    | object fields =>
      have hin : incomingVersion (.object fields) = if 0 < rv then some rv else none := by
        unfold incomingVersion
        rw [hget]
      unfold floorRowVersion
      dsimp only
      split
      · exact ⟨rv, hget, Int.le_refl _, fun _ => rfl⟩
      next row _ =>
        split
        · exact ⟨rv, hget, Int.le_refl _, fun _ => rfl⟩
        next =>
          refine ⟨_, lookup_fieldsInsert_self fields "_00_rv" _, ?_, fun coll => ?_⟩
          · rw [hin]
            by_cases hpos : 0 < rv
            · rw [if_pos hpos]
              simp only [Option.map_some, Option.getD_some]
              split <;> omega
            · rw [if_neg hpos]
              simp only [Option.map_none, Option.getD_none]
              split <;> omega
          · rw [hdig]
            exact recordDigest_version blake3 num coll _ fields _
    | _ => cases hget

/-- The updates of `l` were written to the table, each to its own row. -/
structure Updated (env : Env) (table : String) (body : String → Sp00kyValue) (c c' : Circuit)
    (l : List (String × Int)) : Prop where
  settings : SameSettings table c c'
  other : ∀ id, id ∉ l.map (fun e => rawId e.1) → c'.store.row table id = c.store.row table id
  row : ∀ e ∈ l, Wrote (c.incomingDigest env table e.1 (body e.1)) e.2
    (c.store.row table (rawId e.1)) (c'.store.row table (rawId e.1))

variable {body : String → Sp00kyValue}

theorem Updated.nil {c c' : Circuit} (h : SameSettings table c c')
    (hr : ∀ id, c'.store.row table id = c.store.row table id) : Updated env table body c c' [] :=
  ⟨h, fun id _ => hr id, fun _ he => by cases he⟩

/-- Updates of different rows do not meet. -/
theorem Updated.append {a b c : Circuit}
    {l l' : List (String × Int)} (h : Updated env table body a b l)
    (h' : Updated env table body b c l')
    (hd : ((l ++ l').map fun e => rawId e.1).Nodup) : Updated env table body a c (l ++ l') := by
  rw [List.map_append, List.nodup_append] at hd
  obtain ⟨-, -, hdis⟩ := hd
  refine ⟨h.settings.trans h'.settings, fun id hid => ?_, fun e he => ?_⟩
  · rw [List.map_append, List.mem_append, not_or] at hid
    rw [h'.other id hid.2, h.other id hid.1]
  · rcases List.mem_append.mp he with he | he
    · have hnot : rawId e.1 ∉ l'.map fun e => rawId e.1 := fun hm =>
        hdis _ (List.mem_map_of_mem he) _ hm rfl
      rw [h'.other _ hnot]
      exact h.row e he
    · have hnot : rawId e.1 ∉ l.map fun e => rawId e.1 := fun hm =>
        hdis _ hm _ (List.mem_map_of_mem he) rfl
      have hw := h'.row e he
      rw [h.settings.incomingDigest, h.other _ hnot] at hw
      exact hw

/-- One fetched entry is written. -/
theorem updated_changed (hdig : env.digest = recordDigest blake3 num) {c : Circuit}
    (hop : c.OpaquePlain table) (hfloor : 0 ≤ c.rvFloor)
    {e : String × Int} (hrv : (body e.1).get "_00_rv" = some (.int e.2)) :
    Updated env table body c (changed env c (fetchedChange table body e)) [e] := by
  have hstaged : staged c (fetchedChange table body e) = c := by
    unfold staged fetchedChange
    rw [if_neg (by simp)]
  have hrow : (changed env c (fetchedChange table body e)).store = (c.store.applyOwned env table
      .update e.1 (bodyIn c (fetchedChange table body e)).2).1 := by
    show (written env c (fetchedChange table body e)).1 = _
    unfold written
    rw [hstaged]
    rfl
  refine ⟨changed_sameSettings c (fetchedChange table body e), fun id hid => ?_, fun e' he' => ?_⟩
  · rw [hrow]
    refine (applyOwned_written env c.store table .update e.1 _).1.other table id (.inr ?_)
    simpa using hid
  · obtain rfl : e' = e := by simpa using he'
    obtain ⟨n, hn, hle, hproj⟩ := bodyIn_fetched hdig hop hfloor e'.1 hrv
    have hb : (bodyIn c (fetchedChange table body e')).2 =
      (bodyIn c ⟨table, .update, e'.1, body e'.1⟩).2 := rfl
    rw [hrow, applyOwned_put_row _ (by decide) (by decide), hb, hproj]
    unfold Wrote
    cases hs : c.store.row table (rawId e'.1) with
    | none => exact .inr ⟨fun _ h => (by cases h), _, n, rfl, by
        unfold Row.rv
        rw [get_project hn], hle⟩
    | some row =>
      have hiff : Option.any (fun r => r.digest == env.digest (rawId e'.1)
          ((c.store.collectionOrNew table).project (c.stripped table (body e'.1)))) (some row) =
            true ↔ row.digest = c.incomingDigest env table e'.1 (body e'.1) := by
        simp [Circuit.incomingDigest, Circuit.tableOf]
      by_cases hd : row.digest = c.incomingDigest env table e'.1 (body e'.1)
      · rw [if_pos (hiff.mpr hd)]
        exact .inl ⟨row, rfl, hd, rfl⟩
      · rw [if_neg fun h => hd (hiff.mp h)]
        refine .inr ⟨fun r hr => ?_, _, n, rfl, ?_, hle⟩
        · cases hr
          exact hd
        · unfold Row.rv
          rw [get_project hn]

theorem OpaquePlain.congr {c c' : Circuit} (h : c.OpaquePlain table)
    (hs : SameSettings table c c') : c'.OpaquePlain table := by
  unfold Circuit.OpaquePlain
  rw [hs.opaqueFields]
  exact h

/-- The updates of one change set. -/
theorem updated_foldl (hdig : env.digest = recordDigest blake3 num) (l : List (String × Int)) (p : Phase1)
    (hop : p.circuit.OpaquePlain table) (hfloor : 0 ≤ p.circuit.rvFloor)
    (hrv : ∀ e ∈ l, (body e.1).get "_00_rv" = some (.int e.2))
    (hd : (l.map fun e => rawId e.1).Nodup) :
    Updated env table body p.circuit
      ((l.map (fetchedChange table body)).foldl (applyChange env) p).circuit l := by
  induction l generalizing p with
  | nil => exact .nil (.refl _ _) fun _ => rfl
  | cons e l ih =>
    have hfirst := updated_changed hdig hop hfloor (hrv e List.mem_cons_self)
    rw [← (applyChange_cases env p (fetchedChange table body e)).1] at hfirst
    refine hfirst.append (ih _ (OpaquePlain.congr hop hfirst.settings)
      (hfirst.settings.rvFloor hfloor) (List.forall_mem_cons.mp hrv).2 ?_) hd
    rw [List.map_cons, List.nodup_cons] at hd
    exact hd.2

/-- A step keeps what phase 1 left in the table. -/
theorem step_phase1 (planning : Planning) (ho : HashOrder) (c : Circuit) (changes : List Change)
    (table : String) :
    SameSettings table (changes.foldl (applyChange env) ⟨c, ∅, ∅, []⟩).circuit
        (c.step env planning ho changes).1 ∧
      ∀ id, (c.step env planning ho changes).1.store.row table id =
        (changes.foldl (applyChange env) ⟨c, ∅, ∅, []⟩).circuit.store.row table id := by
  by_cases hne : changes = []
  · subst hne
    exact ⟨.refl _ _, fun _ => rfl⟩
  · obtain ⟨h, -⟩ := step_sameData env planning ho c hne
    refine ⟨⟨?_, h.opaqueFields, fun hf => by rw [h.rvFloor]; exact hf⟩, fun id => ?_⟩
    · unfold Circuit.tableOf Store.collectionOrNew
      rw [h.collections]
    · unfold Store.row
      rw [h.collections]

/-- The updates of a run of change sets. -/
theorem updated_steps (hdig : env.digest = recordDigest blake3 num) (planning : Planning) (steps : List (HashOrder × List Change))
    (l : List (String × Int)) (hl : steps.flatMap Prod.snd = l.map (fetchedChange table body))
    (c : Circuit) (hop : c.OpaquePlain table) (hfloor : 0 ≤ c.rvFloor)
    (hrv : ∀ e ∈ l, (body e.1).get "_00_rv" = some (.int e.2))
    (hd : (l.map fun e => rawId e.1).Nodup) :
    Updated env table body c
      (steps.foldl (fun c s => (c.step env planning s.1 s.2).1) c) l := by
  induction steps generalizing c l with
  | nil =>
    obtain rfl : l = [] := List.map_eq_nil_iff.mp hl.symm
    exact .nil (.refl _ _) fun _ => rfl
  | cons s steps ih =>
    rw [List.flatMap_cons] at hl
    obtain ⟨l₁, l₂, rfl, h1, h2⟩ := List.append_eq_map_iff.mp hl
    have hd' := hd
    rw [List.map_append, List.nodup_append] at hd'
    have hfold := updated_foldl hdig l₁ ⟨c, ∅, ∅, []⟩ hop hfloor
      (fun e he => hrv e (List.mem_append_left _ he)) hd'.1
    rw [h1] at hfold
    obtain ⟨hs, hr⟩ := step_phase1 planning s.1 c s.2 table
    have hstep : Updated env table body c (c.step env planning s.1 s.2).1 l₁ :=
      ⟨hfold.settings.trans hs, fun id hid => (hr id).trans (hfold.other id hid), fun e he => by
        rw [hr]
        exact hfold.row e he⟩
    rw [List.foldl_cons]
    exact hstep.append (ih l₂ h2.symm _ (OpaquePlain.congr hop hstep.settings)
      (hstep.settings.rvFloor hfloor) (fun e he => hrv e (List.mem_append_right _ he)) hd'.2.1) hd

/-- Deleting through a step removes the rows the ids are normalised to. -/
theorem deletes_foldl (table : String) (ids : List String) (p : Phase1) :
    SameSettings table p.circuit ((ids.map fun id => (⟨table, .delete, id, .null⟩ : Change)).foldl
        (applyChange env) p).circuit ∧
      ∀ id, ((ids.map fun id => (⟨table, .delete, id, .null⟩ : Change)).foldl
          (applyChange env) p).circuit.store.row table id =
        if id ∈ ids.map rawId then none else p.circuit.store.row table id := by
  induction ids generalizing p with
  | nil => exact ⟨.refl _ _, fun _ => rfl⟩
  | cons i ids ih =>
    obtain ⟨h1, h2⟩ := ih (applyChange env p ⟨table, .delete, i, .null⟩)
    have hset : SameSettings table p.circuit (changed env p.circuit ⟨table, .delete, i, .null⟩) :=
      changed_sameSettings p.circuit ⟨table, .delete, i, .null⟩
    obtain ⟨hw, hgone, -⟩ := written_spec env p.circuit ⟨table, .delete, i, .null⟩
    rw [← (applyChange_cases env p ⟨table, .delete, i, .null⟩).1] at hset
    refine ⟨hset.trans h1, fun id => ?_⟩
    refine (h2 id).trans ?_
    rw [applyChange_store, List.map_cons]
    by_cases hm : id ∈ ids.map rawId
    · rw [if_pos hm, if_pos (List.mem_cons_of_mem _ hm)]
    · rw [if_neg hm]
      by_cases hi : id = rawId i
      · subst hi
        rw [if_pos List.mem_cons_self]
        exact hgone rfl
      · rw [if_neg fun h => (List.mem_cons.mp h).elim hi hm]
        exact hw.other table id (.inr hi)

end Writes

/-! ## Reconciling twice -/

/-- The raw ids an authoritative list names. -/
def listedIds (entries : List (String × Int)) : List String := entries.map fun e => rawId e.1

/-- A row is there but not listed. -/
def StaleRow (c : Circuit) (table : String) (entries : List (String × Int)) (id : String) : Prop :=
  (c.store.row table id).isSome ∧ id ∉ listedIds entries

theorem mem_staleIds {ho : HashOrder} {c : Circuit} {table : String}
    {entries : List (String × Int)} {id : String} :
    id ∈ Circuit.staleIds ho (c.store.getCollection table) entries ↔
      StaleRow c table entries id := by
  unfold Circuit.staleIds StaleRow Store.row Store.getCollection listedIds
  cases hc : c.store.collections[table]? with
  | none => simp
  | some coll =>
    rw [List.mem_filter, mem_visit, ExtTreeMap.mem_keys, ExtTreeMap.mem_iff_isSome_getElem?]
    simp

theorem needsFetch_iff {c : Circuit} {table : String} {e : String × Int} :
    Circuit.needsFetch (c.store.getCollection table) e = true ↔
      ∀ row n, c.store.row table (rawId e.1) = some row → row.rv = some n → n < e.2 := by
  unfold Circuit.needsFetch Store.row Store.getCollection
  cases c.store.collections[table]? with
  | none => simp
  | some coll =>
    simp only [Option.bind_some]
    cases hr : coll.rows[rawId e.1]? with
    | none => simp
    | some row =>
      simp only [Option.bind_some, Option.some.injEq]
      cases hrv : row.rv with
      | none =>
        simp only [true_iff]
        rintro r n rfl h
        rw [hrv] at h
        cases h
      | some n =>
        simp only [decide_eq_true_eq]
        constructor
        · rintro h r m rfl hm
          rw [hrv] at hm
          cases hm
          exact h
        · intro h
          exact h row n rfl hrv

/-- Normalising an id again shortens it or leaves it. -/
theorem rawId_length {id : String} (h : rawId id ≠ id) : (rawId id).toList.length < id.toList.length := by
  unfold rawId at h ⊢
  unfold splitOnce at h ⊢
  have hlen := (List.dropWhile_suffix (l := id.toList) (· != ':')).length_le
  cases hd : id.toList.dropWhile (· != ':') with
  | nil =>
    rw [hd] at h
    exact absurd rfl h
  | cons c rest =>
    rw [hd, List.length_cons] at hlen
    dsimp only
    rw [String.toList_ofList]
    omega

/-- If every stale id is the normal form of a stale id, they are all normal. -/
theorem rawId_of_covered {l : List String} (h : ∀ y ∈ l, ∃ z ∈ l, rawId z = y) :
    ∀ y ∈ l, rawId y = y := by
  obtain ⟨m, hm⟩ : ∃ m, ∀ y ∈ l, y.toList.length ≤ m := by
    clear h
    induction l with
    | nil => exact ⟨0, fun y hy => by cases hy⟩
    | cons y l ih =>
      obtain ⟨m, hm⟩ := ih
      refine ⟨max y.toList.length m, List.forall_mem_cons.mpr ⟨Nat.le_max_left _ _, fun z hz => ?_⟩⟩
      exact Nat.le_trans (hm z hz) (Nat.le_max_right _ _)
  by_contra hex
  push Not at hex
  obtain ⟨y, hy, hne⟩ := hex
  -- a stale id that is not normal comes from a longer one, without end
  have hclimb : ∀ k y, y ∈ l → rawId y ≠ y → m - y.toList.length = k → False := by
    intro k
    induction k using Nat.strong_induction_on with
    | _ k ih =>
      intro y hy hne hk
      obtain ⟨z, hz, hzy⟩ := h y hy
      have hzne : rawId z ≠ z := by
        intro he
        rw [he] at hzy
        exact hne (hzy ▸ he)
      have hlt := rawId_length hzne
      rw [hzy] at hlt
      have := hm z hz
      exact ih (m - z.toList.length) (by omega) z hz hzne rfl
  exact hclimb _ y hy hne rfl

section Twice

variable {env : Env} {blake3 : List Char → BitVec 256} {num : JsonNumber → List Char}
  (planning : Planning) (ho ho' : HashOrder) (c : Circuit) (table : String)
  (entries : List (String × Int)) (body : String → Sp00kyValue)

/-- The circuit `reconcile` leaves: the rows the stale ids are normalised to are gone. -/
theorem reconcile_circuit :
    SameSettings table c (c.reconcile env planning ho table entries).1 ∧
      ∀ id, (c.reconcile env planning ho table entries).1.store.row table id =
        if id ∈ (Circuit.staleIds ho (c.store.getCollection table) entries).map rawId then none
        else c.store.row table id := by
  unfold Circuit.reconcile
  dsimp only
  generalize Circuit.staleIds ho (c.store.getCollection table) entries = stale
  split
  next h =>
    obtain rfl := List.isEmpty_iff.mp h
    exact ⟨.refl _ _, fun _ => rfl⟩
  next =>
    obtain ⟨h1, h2⟩ := step_phase1 planning ho c
      (stale.map fun id => ⟨table, .delete, id, .null⟩) table
    obtain ⟨h3, h4⟩ := deletes_foldl table stale ⟨c, ∅, ∅, []⟩
    exact ⟨h3.trans h1, fun id => (h2 id).trans (h4 id)⟩

/-- The rows that stay unlisted have ids without a colon, and no body fetched for a row the table
    holds has the digest of that row. -/
structure Reconcilable (env : Env) (c : Circuit) (table : String) (entries : List (String × Int))
    (body : String → Sp00kyValue) : Prop where
  stale : ∀ id, StaleRow c table entries id → rawId id = id
  changed : ∀ e ∈ entries, Circuit.needsFetch (c.store.getCollection table) e = true →
    ∀ row, c.store.row table (rawId e.1) = some row →
      row.digest ≠ c.incomingDigest env table e.1 (body e.1)

/-- A list that names each row once; the fetched bodies carry the listed versions and are ingested
    as updates, in any change sets. The second `reconcile` fetches and deletes nothing exactly when
    the first one met no row with the digest of its fetched body and no stale id with a colon. -/
theorem reconcile_converges_iff (hdig : env.digest = recordDigest blake3 num)
    (hids : (listedIds entries).Nodup) (hop : c.OpaquePlain table) (hfloor : 0 ≤ c.rvFloor)
    (hbody : ∀ e ∈ entries, Circuit.needsFetch (c.store.getCollection table) e = true →
      (body e.1).get "_00_rv" = some (.int e.2))
    (steps : List (HashOrder × List Change))
    (hsteps : steps.flatMap Prod.snd =
      (c.reconcile env planning ho table entries).2.fetch.map
        fun id => ⟨table, .update, id, body id⟩) :
    let c' := steps.foldl (fun c s => (c.step env planning s.1 s.2).1)
      (c.reconcile env planning ho table entries).1
    let again := (c'.reconcile env planning ho' table entries).2
    (again.fetch = [] ∧ again.deleted = 0) ↔ Reconcilable env c table entries body := by
  intro c' again
  obtain ⟨hset, hrows⟩ := reconcile_circuit planning ho c table entries
  generalize hc1 : (c.reconcile env planning ho table entries).1 = c1 at hset hrows
  have hfetch : (c.reconcile env planning ho table entries).2.fetch.map
      (fun id => (⟨table, .update, id, body id⟩ : Change)) =
        (entries.filter (Circuit.needsFetch (c.store.getCollection table))).map
          (fetchedChange table body) := by
    show List.map _ (List.map _ _) = _
    rw [List.map_map]
    rfl
  generalize hl : entries.filter (Circuit.needsFetch (c.store.getCollection table)) = l at hfetch
  have hmem : ∀ e, e ∈ l ↔
      e ∈ entries ∧ Circuit.needsFetch (c.store.getCollection table) e = true := by
    intro e
    rw [← hl, List.mem_filter]
  have hnodup : (l.map fun e => rawId e.1).Nodup := by
    rw [← hl]
    exact hids.sublist (List.filter_sublist.map _)
  have hup : Updated env table body c1 c' l := by
    have := updated_steps hdig planning steps l (hsteps.trans hfetch) c1
      (OpaquePlain.congr hop hset) (hset.rvFloor hfloor)
      (fun e he => hbody e ((hmem e).mp he).1 ((hmem e).mp he).2) hnodup
    rw [← hc1] at this ⊢
    exact this
  have hstale : again.deleted = 0 ↔ ∀ id, ¬ StaleRow c' table entries id := by
    show (Circuit.staleIds ho' (c'.store.getCollection table) entries).length = 0 ↔ _
    rw [List.length_eq_zero_iff, List.eq_nil_iff_forall_not_mem]
    exact forall_congr' fun id => not_congr mem_staleIds
  have hfetched : again.fetch = [] ↔
      ∀ e ∈ entries, ¬ Circuit.needsFetch (c'.store.getCollection table) e = true := by
    show List.map _ _ = [] ↔ _
    rw [List.map_eq_nil_iff, List.filter_eq_nil_iff]
  have hlisted : ∀ e ∈ entries, rawId e.1 ∈ listedIds entries := fun e he =>
    List.mem_map_of_mem (f := fun e : String × Int => rawId e.1) he
  have hunlisted : ∀ id, id ∉ listedIds entries → id ∉ l.map fun e => rawId e.1 := by
    intro id hid hm
    obtain ⟨e, he, rfl⟩ := List.mem_map.mp hm
    exact hid (hlisted e ((hmem e).mp he).1)
  -- with normal stale ids the deletes take the stale rows and nothing else
  have hkept : (∀ id, StaleRow c table entries id → rawId id = id) →
      ∀ id ∈ listedIds entries, c1.store.row table id = c.store.row table id := by
    intro hnorm id hid
    rw [hrows, if_neg]
    intro hm
    obtain ⟨y, hy, rfl⟩ := List.mem_map.mp hm
    have hy := mem_staleIds.mp hy
    rw [hnorm y hy] at hid
    exact hy.2 hid
  have hother : ∀ e ∈ entries, e ∉ l →
      c'.store.row table (rawId e.1) = c1.store.row table (rawId e.1) := by
    intro e he hne
    refine hup.other _ fun hm => ?_
    obtain ⟨e', he', heq⟩ := List.mem_map.mp hm
    have : e' = e := List.inj_on_of_nodup_map hids ((hmem e').mp he').1 he heq
    exact hne (this ▸ he')
  rw [hstale, hfetched]
  constructor
  · rintro ⟨hf, hs⟩
    have hnorm : ∀ id, StaleRow c table entries id → rawId id = id := by
      have hcover := rawId_of_covered
        (l := Circuit.staleIds ho (c.store.getCollection table) entries) fun y hy => by
          have hy' := mem_staleIds.mp hy
          by_contra hno
          refine hs y ⟨?_, hy'.2⟩
          rw [hup.other y (hunlisted y hy'.2), hrows, if_neg]
          · exact hy'.1
          · intro hm
            obtain ⟨z, hz, hzy⟩ := List.mem_map.mp hm
            exact hno ⟨z, hz, hzy⟩
      exact fun id hid => hcover id (mem_staleIds.mpr hid)
    refine ⟨hnorm, fun e he hn row hrow hdg => ?_⟩
    have hw := hup.row e ((hmem e).mpr ⟨he, hn⟩)
    rw [hset.incomingDigest, hkept hnorm _ (hlisted e he), hrow] at hw
    rcases hw with ⟨r, hr, -, hafter⟩ | ⟨hdiff, -⟩
    · refine hf e he (needsFetch_iff.mpr fun r' n hr' hn' => ?_)
      rw [hafter] at hr'
      cases hr'
      exact needsFetch_iff.mp hn row n hrow hn'
    · exact hdiff row rfl hdg
  · rintro ⟨hnorm, hchanged⟩
    refine ⟨fun e he hagain => ?_, fun id hid => ?_⟩
    · by_cases hel : e ∈ l
      · have hn := ((hmem e).mp hel).2
        have hw := hup.row e hel
        rw [hset.incomingDigest, hkept hnorm _ (hlisted e he)] at hw
        rcases hw with ⟨r, hr, hdg, -⟩ | ⟨-, r, n, hafter, hrv, hle⟩
        · exact hchanged e he hn r hr hdg
        · have := needsFetch_iff.mp hagain r n hafter hrv
          omega
      · refine hel ((hmem e).mpr ⟨he, needsFetch_iff.mpr fun r n hr hrv => ?_⟩)
        rw [← hkept hnorm _ (hlisted e he), ← hother e he hel] at hr
        exact needsFetch_iff.mp hagain r n hr hrv
    · have hrow := hid.1
      rw [hup.other id (hunlisted id hid.2), hrows] at hrow
      by_cases hst : StaleRow c table entries id
      · rw [if_pos] at hrow
        · cases hrow
        · exact List.mem_map.mpr ⟨id, mem_staleIds.mpr hst, hnorm id hst⟩
      · split at hrow
        · cases hrow
        · exact hst ⟨hrow, hid.2⟩

end Twice

/-! ## One stored row -/

/-- The row `T:1` at version 1. -/
def storedOnce : Circuit :=
  Circuit.new.load digestEnv [⟨"T", "1", .object [("x", .int 1), ("_00_rv", .int 1)]⟩]

/-- A body at version 2. -/
def secondVersion (x : Int) (_ : String) : Sp00kyValue :=
  .object [("x", .int x), ("_00_rv", .int 2)]

/-- The ingestion of what the list `[(1, 2)]` makes the caller fetch. -/
def ingestSecond (x : Int) : List (HashOrder × List Change) :=
  [(.sorted, [⟨"T", .update, "1", secondVersion x "1"⟩])]

/-- A body that changed is fetched once. -/
theorem reconcile_converges_changed :
    let c' := (ingestSecond 5).foldl (fun c s => (c.step digestEnv asWritten s.1 s.2).1)
      (storedOnce.reconcile digestEnv asWritten .sorted "T" [("1", 2)]).1
    let again := (c'.reconcile digestEnv asWritten .sorted "T" [("1", 2)]).2
    again.fetch = [] ∧ again.deleted = 0 := by
  have hbody : ∀ e ∈ [("1", (2 : Int))], Circuit.needsFetch (storedOnce.store.getCollection "T") e =
      true → (secondVersion 5 e.1).get "_00_rv" = some (.int e.2) := by
    intro e he _
    obtain rfl : e = ("1", 2) := by simpa using he
    rfl
  have hsteps : (ingestSecond 5).flatMap Prod.snd =
      (storedOnce.reconcile digestEnv asWritten .sorted "T" [("1", 2)]).2.fetch.map
        fun id => ⟨"T", .update, id, secondVersion 5 id⟩ := rfl
  refine (reconcile_converges_iff asWritten .sorted .sorted storedOnce "T" [("1", 2)]
    (secondVersion 5)
    (show digestEnv.digest = recordDigest sampleBlake3 sampleNumber from rfl) (by decide)
    (fun fields hf => ?_) (by decide) hbody (ingestSecond 5) hsteps).mpr ⟨fun id hid => ?_, ?_⟩
  · cases hf
  · have hmem : id ∈ Circuit.staleIds .sorted _ _ := mem_staleIds.mpr hid
    rw [show Circuit.staleIds .sorted (storedOnce.store.getCollection "T") [("1", 2)] = [] by
      decide +kernel] at hmem
    cases hmem
  · intro e he _ row hrow
    obtain rfl : e = ("1", 2) := by simpa using he
    have hdigest : (storedOnce.store.row "T" "1").map Row.digest ≠
        some (storedOnce.incomingDigest digestEnv "T" "1" (secondVersion 5 "1")) := by
      decide +kernel
    intro heq
    refine hdigest ?_
    rw [show storedOnce.store.row "T" "1" = some row from hrow, Option.map_some, heq]

/-- A new version of the same body is not stored, and the row is fetched again. -/
theorem reconcile_fetches_again :
    let first := storedOnce.reconcile digestEnv asWritten .sorted "T" [("1", 2)]
    let c' := (ingestSecond 1).foldl (fun c s => (c.step digestEnv asWritten s.1 s.2).1) first.1
    let again := (c'.reconcile digestEnv asWritten .sorted "T" [("1", 2)]).2
    first.2.fetch = ["1"] ∧ (secondVersion 1 "1").get "_00_rv" = some (.int 2) ∧
      ¬ (again.fetch = [] ∧ again.deleted = 0) := by
  refine ⟨by decide +kernel, rfl, ?_⟩
  decide +kernel

end Sp00ky.Ssp
