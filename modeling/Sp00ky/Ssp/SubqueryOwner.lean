/-
  Who owns a subquery record (`compute_current_subquery_set`, `membership_digests`).

  The set keeps one owner per child. `owners` is what the two passes allow: at the
  last projection that claims a child, any parent that claims it may be the one
  that is visited last. Every order of the loops ends with an allowed owner, every
  allowed owner is reached by some order, so the set does not depend on the order
  exactly when each child has one allowed owner.
-/
import Sp00ky.Lib.LastWrite
import Sp00ky.Ssp.View

namespace Sp00ky.Ssp

open Std Lib

/-! ## Claims -/

/-- A parent in the view claims a child of a root-level subquery. -/
def RootClaims (store : Store) (cache : ZSet) (info : SubqueryInfo) (k p : String) : Prop :=
  info.parentTable = none ∧ ∃ key c,
    info.parentKey = some key ∧ store.getCollection info.table = some c ∧ p ∈ cache ∧
    if key.childField = "id" then
      ∃ child, (store.getRowByKey p).bind (·.get key.parentField) = some (.str child) ∧
        rawId child ∈ c.rows ∧ k = makeKey info.table (rawId child)
    else
      ∃ id row, c.rows[id]? = some row ∧ row.value.get key.childField = some (.str p) ∧
        k = makeKey info.table id

/-- A record of the set claims a child of a nested subquery. -/
def NestedClaims (store : Store) (held : String → Prop) (info : SubqueryInfo) (k p : String) :
    Prop :=
  ∃ pt key c parents, info.parentTable = some pt ∧ info.parentKey = some key ∧
    store.getCollection info.table = some c ∧ store.getCollection pt = some parents ∧
    ∃ id row pid prow val, c.rows[id]? = some row ∧ parents.rows[pid]? = some prow ∧
      row.value.get key.childField = some (.str val) ∧
      prow.value.get key.parentField = some (.str val) ∧ held (makeKey pt pid) ∧
      k = makeKey info.table id ∧ p = makeKey pt pid

/-- One projection in one of the two passes. -/
structure SubqueryStage where
  nested : Bool
  info : SubqueryInfo

namespace SubqueryStage

def run (ho : HashOrder) (store : Store) (cache : ZSet) (result : SubqueryCache)
    (st : SubqueryStage) : SubqueryCache :=
  if st.nested then nestedSubquery ho store result st.info
  else rootSubquery ho store cache result st.info

def Claims (store : Store) (cache : ZSet) (held : String → Prop) (st : SubqueryStage)
    (k p : String) : Prop :=
  if st.nested then NestedClaims store held st.info k p else RootClaims store cache st.info k p

end SubqueryStage

/-- Children with the owners they may have. -/
abbrev Ownership := String → String × String → Prop

/-- A projection that claims a child decides its owner. -/
def SubqueryStage.settle (store : Store) (cache : ZSet) (own : Ownership) (st : SubqueryStage) :
    Ownership := fun k o =>
  (st.Claims store cache (fun x => ∃ o, own x o) k o.1 ∧ o.2 = st.info.asName) ∨
    ((∀ p, ¬ st.Claims store cache (fun x => ∃ o, own x o) k p) ∧ own k o)

/-- Both passes in order. -/
def View.stages (v : View) : List SubqueryStage :=
  v.plan.root.subqueryProjectionInfo.map (⟨false, ·⟩) ++
    v.plan.root.subqueryProjectionInfo.map (⟨true, ·⟩)

/-- The owners a child may have in the view's subquery set. -/
def owners (store : Store) (v : View) : Ownership :=
  v.stages.foldl (SubqueryStage.settle store v.cache) fun _ _ => False

/-- Every child has one possible owner. -/
def OneOwner (store : Store) (v : View) : Prop :=
  ∀ k o o', owners store v k o → owners store v k o' → o = o'

theorem computeCurrentSubquerySet_eq (ho : HashOrder) (store : Store) (v : View) :
    computeCurrentSubquerySet ho store v =
      v.stages.foldl (SubqueryStage.run ho store v.cache) ∅ := by
  unfold computeCurrentSubquerySet View.stages
  rw [List.foldl_append, List.foldl_map, List.foldl_map]
  rfl

/-! ## The loops as last writes -/

section Loops

variable (store : Store) (cache : ZSet) (info : SubqueryInfo) (key : SubqueryParentKey)
  (c : Collection)

/-- What a visited parent writes in `reverseChildren`. -/
def reverseWrite (parent : String) : Option (String × String × String) :=
  match (store.getRowByKey parent).bind (·.get key.parentField) with
  | some (.str child) =>
    if c.rows.contains (rawId child) then
      some (makeKey info.table (rawId child), parent, info.asName)
    else none
  | _ => none

/-- What a visited child writes in `forwardChildren`. -/
def forwardWrite (id : String) : Option (String × String × String) :=
  match c.rows[id]?.bind (·.value.get key.childField) with
  | some (.str fk) =>
    if cache.contains fk then some (makeKey info.table id, fk, info.asName) else none
  | _ => none

/-- What a visited parent writes to the index of pass 2. -/
def parentWrite (pt : String) (result : SubqueryCache) (pid : String) : Option (String × String) :=
  if result.contains (makeKey pt pid) then
    match c.rows[pid]?.bind (·.value.get key.parentField) with
    | some (.str val) => some (val, makeKey pt pid)
    | _ => none
  else none

/-- What a visited child writes in pass 2. -/
def nestedWrite (index : ExtTreeMap String String) (id : String) :
    Option (String × String × String) :=
  match c.rows[id]?.bind (·.value.get key.childField) with
  | some (.str val) => index[val]?.map fun parent => (makeKey info.table id, parent, info.asName)
  | _ => none

theorem reverseChildren_eq (ho : HashOrder) (result : SubqueryCache) :
    reverseChildren ho store cache info key c result =
      writeAll (reverseWrite store info key c) result (ho.visit cache.keys) := by
  unfold reverseChildren writeAll
  congr 1
  funext acc parent
  unfold reverseWrite
  rcases (store.getRowByKey parent).bind (·.get key.parentField) with _ | v
  · rfl
  · cases v with
    | str child =>
      dsimp only
      split <;> rfl
    | _ => rfl

/-- A loop over the rows is a loop over their ids. -/
theorem foldl_rowsIn {γ δ : Type} (ho : HashOrder) (f : γ → String × Sp00kyValue → γ)
    (g : String → Option δ) (h : γ → δ → γ) (hsome : ∀ acc id row, c.rows[id]? = some row →
      f acc (id, row.value) = (g id).elim acc (h acc))
    (hnone : ∀ id, c.rows[id]? = none → g id = none) (init : γ) :
    (c.rowsIn ho).foldl f init =
      (ho.visit c.rows.keys).foldl (fun acc id => (g id).elim acc (h acc)) init := by
  unfold Collection.rowsIn entriesIn
  rw [List.foldl_map]
  induction ho.visit c.rows.keys generalizing init with
  | nil => rfl
  | cons id l ih =>
    rw [List.filterMap_cons, List.foldl_cons]
    cases hrow : c.rows[id]? with
    | none =>
      rw [hnone id hrow]
      exact ih init
    | some row =>
      simp only [Option.map_some, List.foldl_cons]
      rw [hsome init id row hrow]
      exact ih _

theorem forwardChildren_eq (ho : HashOrder) (result : SubqueryCache) :
    forwardChildren ho cache info key c result =
      writeAll (forwardWrite cache info key c) result (ho.visit c.rows.keys) := by
  refine foldl_rowsIn c ho _ (forwardWrite cache info key c)
    (fun (acc : SubqueryCache) kv => acc.insert kv.1 kv.2) ?_ ?_ result
  · intro acc id row hrow
    simp only [forwardWrite, hrow, Option.bind_some]
    rcases row.value.get key.childField with _ | v
    · rfl
    · cases v with
      | str fk =>
        dsimp only
        split <;> rfl
      | _ => rfl
  · intro id hrow
    simp only [forwardWrite, hrow, Option.bind_none]

theorem parentFieldIndex_eq (ho : HashOrder) (pt : String) (result : SubqueryCache) :
    parentFieldIndex ho pt key c result =
      writeAll (parentWrite key c pt result) ∅ (ho.visit c.rows.keys) := by
  refine foldl_rowsIn c ho _ (parentWrite key c pt result)
    (fun (acc : ExtTreeMap String String) kv => acc.insert kv.1 kv.2) ?_ ?_ ∅
  · intro acc id row hrow
    simp only [parentWrite, hrow, Option.bind_some]
    split
    · rcases row.value.get key.parentField with _ | v
      · rfl
      · cases v <;> rfl
    · rfl
  · intro id hrow
    simp [parentWrite, hrow]

theorem nestedLoop_eq (ho : HashOrder) (index : ExtTreeMap String String) (result : SubqueryCache) :
    (c.rowsIn ho).foldl
        (fun acc row => match row.2.get key.childField with
          | some (.str val) =>
            match index[val]? with
            | some parent => acc.insert (makeKey info.table row.1) (parent, info.asName)
            | none => acc
          | _ => acc) result =
      writeAll (nestedWrite info key c index) result (ho.visit c.rows.keys) := by
  refine foldl_rowsIn c ho _ (nestedWrite info key c index)
    (fun (acc : SubqueryCache) kv => acc.insert kv.1 kv.2) ?_ ?_ result
  · intro acc id row hrow
    simp only [nestedWrite, hrow, Option.bind_some]
    rcases row.value.get key.childField with _ | v
    · rfl
    · cases v with
      | str val =>
        dsimp only
        cases index[val]? <;> rfl
      | _ => rfl
  · intro id hrow
    simp only [nestedWrite, hrow, Option.bind_none]

end Loops

/-! ## What each loop writes -/

section Writes

variable {store : Store} {cache : ZSet} {info : SubqueryInfo} {key : SubqueryParentKey}
  {c : Collection} {k : String}

variable {o : String × String}

theorem reverseWrite_some {parent : String} :
    reverseWrite store info key c parent = some (k, o) ↔
      o = (parent, info.asName) ∧
        ∃ child, (store.getRowByKey parent).bind (·.get key.parentField) = some (.str child) ∧
          rawId child ∈ c.rows ∧ k = makeKey info.table (rawId child) := by
  unfold reverseWrite
  rcases (store.getRowByKey parent).bind (·.get key.parentField) with _ | v
  · simp
  · cases v with
    | str child =>
      simp only [Option.some.injEq, Sp00kyValue.str.injEq, exists_eq_left']
      split
      · next h =>
        rw [ExtTreeMap.contains_iff_mem] at h
        simp [h, eq_comm, and_comm]
      · next h =>
        rw [ExtTreeMap.contains_iff_mem] at h
        simp [h]
    | _ => simp

theorem forwardWrite_some {id : String} :
    forwardWrite cache info key c id = some (k, o) ↔
      o.2 = info.asName ∧ o.1 ∈ cache ∧ ∃ row, c.rows[id]? = some row ∧
        row.value.get key.childField = some (.str o.1) ∧ k = makeKey info.table id := by
  unfold forwardWrite
  cases c.rows[id]? with
  | none => simp
  | some row =>
    simp only [Option.bind_some, Option.some.injEq, exists_eq_left']
    rcases row.value.get key.childField with _ | v
    · simp
    · cases v with
      | str fk =>
        simp only [Option.some.injEq, Sp00kyValue.str.injEq]
        obtain ⟨p, a⟩ := o
        split
        · next h =>
          rw [ExtTreeMap.contains_iff_mem] at h
          constructor
          · intro he
            cases he
            exact ⟨rfl, h, rfl, rfl⟩
          · rintro ⟨rfl, -, rfl, rfl⟩
            rfl
        · next h =>
          rw [ExtTreeMap.contains_iff_mem] at h
          constructor
          · intro he
            cases he
          · rintro ⟨-, hp, rfl, -⟩
            exact absurd hp h
      | _ => simp

theorem parentWrite_some {pt : String} {result : SubqueryCache} {pid val p : String} :
    parentWrite key c pt result pid = some (val, p) ↔
      p = makeKey pt pid ∧ result.contains (makeKey pt pid) = true ∧
        ∃ row, c.rows[pid]? = some row ∧ row.value.get key.parentField = some (.str val) := by
  unfold parentWrite
  split
  · next h =>
    cases c.rows[pid]? with
    | none => simp
    | some row =>
      simp only [Option.bind_some, Option.some.injEq, exists_eq_left', h, true_and]
      rcases row.value.get key.parentField with _ | v
      · simp
      · cases v with
        | str x => simp [eq_comm, and_comm]
        | _ => simp
  · next h => simp [h]

theorem nestedWrite_some {index : ExtTreeMap String String} {id : String} :
    nestedWrite info key c index id = some (k, o) ↔
      o.2 = info.asName ∧ k = makeKey info.table id ∧ ∃ row val, c.rows[id]? = some row ∧
        row.value.get key.childField = some (.str val) ∧ index[val]? = some o.1 := by
  unfold nestedWrite
  obtain ⟨p, a⟩ := o
  constructor
  · intro h
    split at h
    · next val hval =>
      obtain ⟨row, hrow, hget⟩ := Option.bind_eq_some_iff.mp hval
      obtain ⟨p', hp', he⟩ := Option.map_eq_some_iff.mp h
      cases he
      exact ⟨rfl, rfl, row, val, hrow, hget, hp'⟩
    · cases h
  · rintro ⟨rfl, rfl, row, val, hrow, hget, hidx⟩
    dsimp only at hidx
    simp only [hrow, Option.bind_some, hget, hidx, Option.map_some]

theorem mem_visit_keys {β : Type} {m : ExtTreeMap String β} (ho : HashOrder) {x : String} :
    x ∈ ho.visit m.keys ↔ x ∈ m := by
  rw [(ho.perm _).mem_iff, ExtTreeMap.mem_keys]

end Writes

/-! ## Root-level projections -/

/-- An order that visits `a` and then `b` at the end. -/
def HashOrder.lastly (a b : String) : HashOrder where
  visit l := moveLast b (moveLast a l)
  perm l := (moveLast_perm b _).trans (moveLast_perm a l)

theorem visit_nil (ho : HashOrder) : ho.visit [] = [] := (ho.perm []).eq_nil

/-- A root-level projection is one loop of writes, and its writes are its claims. -/
theorem rootSubquery_writes (store : Store) (cache : ZSet) (info : SubqueryInfo) :
    ∃ (keys : List String) (g : String → Option (String × String × String)),
      (∀ ho result, rootSubquery ho store cache result info =
        writeAll g result (ho.visit keys)) ∧
      ∀ k o, (∃ x ∈ keys, g x = some (k, o)) ↔
        RootClaims store cache info k o.1 ∧ o.2 = info.asName := by
  have hidle : (∀ ho result, rootSubquery ho store cache result info = result) →
      (∀ k p, ¬ RootClaims store cache info k p) → ∃ (keys : List String)
        (g : String → Option (String × String × String)),
        (∀ ho result, rootSubquery ho store cache result info =
          writeAll g result (ho.visit keys)) ∧
        ∀ k o, (∃ x ∈ keys, g x = some (k, o)) ↔
          RootClaims store cache info k o.1 ∧ o.2 = info.asName := by
    intro hrun hno
    refine ⟨[], fun _ => none, ?_, ?_⟩
    · intro ho result
      rw [hrun, visit_nil]
      rfl
    · intro k o
      simp [hno]
  cases hpt : info.parentTable with
  | some pt =>
    exact hidle (fun ho result => by simp [rootSubquery, hpt]) (by simp [RootClaims, hpt])
  | none =>
    cases hkey : info.parentKey with
    | none =>
      exact hidle (fun ho result => by simp [rootSubquery, hkey]) (by simp [RootClaims, hkey])
    | some key =>
      cases hc : store.getCollection info.table with
      | none =>
        exact hidle (fun ho result => by simp [rootSubquery, hc]) (by simp [RootClaims, hc])
      | some c =>
        by_cases hid : key.childField = "id"
        · refine ⟨cache.keys, reverseWrite store info key c, ?_, ?_⟩
          · intro ho result
            rw [← reverseChildren_eq]
            simp [rootSubquery, hpt, hkey, hc, hid]
          · intro k o
            simp only [reverseWrite_some, ExtTreeMap.mem_keys]
            constructor
            · rintro ⟨x, hx, rfl, hchild⟩
              exact ⟨⟨hpt, key, c, hkey, hc, hx, by simpa [hid] using hchild⟩, rfl⟩
            · rintro ⟨⟨-, key', c', hk', hc', hp, hchild⟩, ha⟩
              cases hkey.symm.trans hk'
              cases hc.symm.trans hc'
              rw [if_pos hid] at hchild
              exact ⟨o.1, hp, by rw [← ha], hchild⟩
        · refine ⟨c.rows.keys, forwardWrite cache info key c, ?_, ?_⟩
          · intro ho result
            rw [← forwardChildren_eq]
            simp [rootSubquery, hpt, hkey, hc, hid]
          · intro k o
            simp only [forwardWrite_some, ExtTreeMap.mem_keys]
            constructor
            · rintro ⟨x, -, ha, hp, row, hrow, hget, hk⟩
              refine ⟨⟨hpt, key, c, hkey, hc, hp, ?_⟩, ha⟩
              rw [if_neg hid]
              exact ⟨x, row, hrow, hget, hk⟩
            · rintro ⟨⟨-, key', c', hk', hc', hp, hchild⟩, ha⟩
              cases hkey.symm.trans hk'
              cases hc.symm.trans hc'
              rw [if_neg hid] at hchild
              obtain ⟨x, row, hrow, hget, hk⟩ := hchild
              refine ⟨x, ?_, ha, hp, row, hrow, hget, hk⟩
              exact mem_of_getElem? hrow

/-! ## Nested projections -/

section Nested

variable {store : Store} {info : SubqueryInfo} {k p : String}

/-- A nested projection on the collections it reads. -/
theorem nestedSubquery_eq {pt : String} {key : SubqueryParentKey} {c parents : Collection}
    (hpt : info.parentTable = some pt) (hkey : info.parentKey = some key)
    (hc : store.getCollection info.table = some c) (hp : store.getCollection pt = some parents)
    (ho : HashOrder) (result : SubqueryCache) :
    nestedSubquery ho store result info =
      writeAll (nestedWrite info key c
          (writeAll (parentWrite key parents pt result) ∅ (ho.visit parents.rows.keys)))
        result (ho.visit c.rows.keys) := by
  rw [← nestedLoop_eq, ← parentFieldIndex_eq]
  simp only [nestedSubquery, hpt, hkey, hc, hp] <;> rfl

variable {result : SubqueryCache} {held : String → Prop}

/-- What a nested projection writes, in any order, it claims. -/
theorem nestedWrite_claims {pt : String} {key : SubqueryParentKey} {c parents : Collection}
    (hpt : info.parentTable = some pt) (hkey : info.parentKey = some key)
    (hc : store.getCollection info.table = some c) (hp : store.getCollection pt = some parents)
    {ho : HashOrder}
    (hheld : ∀ x, result.contains x = true ↔ held x) {id : String} {o : String × String}
    (h : nestedWrite info key c
      (writeAll (parentWrite key parents pt result) ∅ (ho.visit parents.rows.keys)) id =
        some (k, o)) :
    NestedClaims store held info k o.1 ∧ o.2 = info.asName := by
  obtain ⟨ha, hk, row, val, hrow, hget, hidx⟩ := nestedWrite_some.mp h
  obtain ⟨pid, -, hpid⟩ := writeAll_empty_some hidx
  obtain ⟨hpe, hcont, prow, hprow, hpget⟩ := parentWrite_some.mp hpid
  exact ⟨⟨pt, key, c, parents, hpt, hkey, hc, hp, id, row, pid, prow, val, hrow, hprow, hget,
    hpget, (hheld _).mp hcont, hk, hpe⟩, ha⟩

/-- A claimed child is written by some claimant. -/
theorem nested_of_claims {ho : HashOrder}
    (hheld : ∀ x, result.contains x = true ↔ held x) (h : NestedClaims store held info k p) :
    ∃ p', NestedClaims store held info k p' ∧
      (nestedSubquery ho store result info)[k]? = some (p', info.asName) := by
  obtain ⟨pt, key, c, parents, hpt, hkey, hc, hp, id, row, pid, prow, val, hrow, hprow, hget,
    hpget, hheldp, hk, hpe⟩ := h
  have hpw : parentWrite key parents pt result pid = some (val, p) :=
    parentWrite_some.mpr ⟨hpe, (hheld _).mpr hheldp, prow, hprow, hpget⟩
  have hpid : pid ∈ ho.visit parents.rows.keys :=
    (mem_visit_keys _).mpr (mem_of_getElem? hprow)
  have hid : id ∈ ho.visit c.rows.keys :=
    (mem_visit_keys _).mpr (mem_of_getElem? hrow)
  obtain ⟨pid', -, q, -, hq⟩ := getElem?_writeAll_some (∅ : ExtTreeMap String String) hpid hpw
  have hw : nestedWrite info key c
      (writeAll (parentWrite key parents pt result) ∅ (ho.visit parents.rows.keys)) id =
        some (k, q, info.asName) := nestedWrite_some.mpr ⟨rfl, hk, row, val, hrow, hget, hq⟩
  obtain ⟨id', -, o, hwo, hres⟩ := getElem?_writeAll_some result hid hw
  obtain ⟨hclaim, ha⟩ := nestedWrite_claims hpt hkey hc hp hheld hwo
  refine ⟨o.1, hclaim, ?_⟩
  rw [nestedSubquery_eq hpt hkey hc hp, hres, ← ha]

/-- A child nobody claims is left alone. -/
theorem nested_of_unclaimed {ho : HashOrder} (hheld : ∀ x, result.contains x = true ↔ held x)
    (h : ∀ p, ¬ NestedClaims store held info k p) :
    (nestedSubquery ho store result info)[k]? = result[k]? := by
  cases hpt : info.parentTable with
  | none => simp [nestedSubquery, hpt]
  | some pt =>
    cases hkey : info.parentKey with
    | none => simp [nestedSubquery, hkey]
    | some key =>
      cases hc : store.getCollection info.table with
      | none => simp [nestedSubquery, hpt, hkey, hc]
      | some c =>
        cases hp : store.getCollection pt with
        | none => simp [nestedSubquery, hpt, hkey, hp]
        | some parents =>
          rw [nestedSubquery_eq hpt hkey hc hp]
          refine getElem?_writeAll_none ?_
          intro id _ o hw
          exact h o.1 (nestedWrite_claims hpt hkey hc hp hheld hw).1

/-- Any claimant of a child can be the one written last. -/
theorem nested_reaches (h : NestedClaims store held info k p) :
    ∃ ho : HashOrder, ∀ result : SubqueryCache, (∀ x, result.contains x = true ↔ held x) →
      (nestedSubquery ho store result info)[k]? = some (p, info.asName) := by
  obtain ⟨pt, key, c, parents, hpt, hkey, hc, hp, id, row, pid, prow, val, hrow, hprow, hget,
    hpget, hheldp, rfl, rfl⟩ := h
  have hpid : pid ∈ parents.rows.keys := mem_keys_of_getElem? hprow
  have hid : id ∈ c.rows.keys := mem_keys_of_getElem? hrow
  -- the child is written with the parent that the index holds for its value
  have hfinal : ∀ (ho : HashOrder) (result : SubqueryCache) (index : ExtTreeMap String String),
      index[val]? = some (makeKey pt pid) →
      (∀ g : String → Option (String × String),
        g id = some (makeKey pt pid, info.asName) →
        (∀ x, makeKey info.table x ≠ makeKey info.table id → g x = none) →
        ((ho.visit c.rows.keys).filterMap g).getLast? = some (makeKey pt pid, info.asName)) →
      (writeAll (nestedWrite info key c index) result (ho.visit c.rows.keys))[makeKey info.table id]?
        = some (makeKey pt pid, info.asName) := by
    intro ho result index hidx hlast
    have hown : nestedWrite info key c index id =
        some (makeKey info.table id, makeKey pt pid, info.asName) :=
      nestedWrite_some.mpr ⟨rfl, rfl, row, val, hrow, hget, hidx⟩
    rw [getElem?_writeAll, hlast _ (writeTo_eq_some.mpr hown), Option.some_or]
    intro x hx
    cases hw : writeTo (nestedWrite info key c index) (makeKey info.table id) x with
    | none => rfl
    | some o => exact absurd (nestedWrite_some.mp (writeTo_eq_some.mp hw)).2.1.symm hx
  have hpw : ∀ result : SubqueryCache, (∀ x, result.contains x = true ↔ held x) →
      writeTo (parentWrite key parents pt result) val pid = some (makeKey pt pid) :=
    fun result hheld => writeTo_eq_some.mpr
      (parentWrite_some.mpr ⟨rfl, (hheld _).mpr hheldp, prow, hprow, hpget⟩)
  by_cases hself : held (makeKey pt id) ∧
      ∃ r, parents.rows[id]? = some r ∧ r.value.get key.parentField = some (.str val)
  · obtain ⟨hheldi, r, hr, hrget⟩ := hself
    by_cases hsame : makeKey pt id = makeKey pt pid
    · -- the child's own id is a claimant of the same key: it is visited last
      refine ⟨.lastly id id, fun result hheld => ?_⟩
      have hiw : writeTo (parentWrite key parents pt result) val id = some (makeKey pt id) :=
        writeTo_eq_some.mpr (parentWrite_some.mpr ⟨rfl, (hheld _).mpr hheldi, r, hr, hrget⟩)
      have hidp : id ∈ parents.rows.keys := mem_keys_of_getElem? hr
      rw [nestedSubquery_eq hpt hkey hc hp]
      refine hfinal _ result _ ?_ fun g hg _ => ?_
      · rw [getElem?_writeAll]
        simp only [HashOrder.lastly]
        rw [getLast?_moveLast ((moveLast_perm _ _).mem_iff.mpr hidp) hiw, Option.some_or, hsame]
      · exact getLast?_moveLast ((moveLast_perm _ _).mem_iff.mpr hid) hg
    · -- the parent is another record: it is visited last, and writes no such child itself
      refine ⟨.lastly id pid, fun result hheld => ?_⟩
      rw [nestedSubquery_eq hpt hkey hc hp]
      refine hfinal _ result _ ?_ fun g hg hother => ?_
      · rw [getElem?_writeAll]
        simp only [HashOrder.lastly]
        rw [getLast?_moveLast ((moveLast_perm _ _).mem_iff.mpr hpid) (hpw result hheld),
          Option.some_or]
      · have hne : makeKey info.table pid ≠ makeKey info.table id := by
          intro he
          refine hsame ?_
          unfold makeKey
          rw [join_injective he]
        simp only [HashOrder.lastly]
        rw [getLast?_moveLast_none _ (hother pid hne), getLast?_moveLast hid hg]
  · -- the child's own id is no claimant, so it may be visited behind the parent
    refine ⟨.lastly pid id, fun result hheld => ?_⟩
    have hiw : writeTo (parentWrite key parents pt result) val id = none := by
      cases hw : writeTo (parentWrite key parents pt result) val id with
      | none => rfl
      | some q =>
        obtain ⟨-, hcont, r, hr, hrget⟩ := parentWrite_some.mp (writeTo_eq_some.mp hw)
        exact absurd ⟨(hheld _).mp hcont, r, hr, hrget⟩ hself
    rw [nestedSubquery_eq hpt hkey hc hp]
    refine hfinal _ result _ ?_ fun g hg _ => ?_
    · rw [getElem?_writeAll]
      simp only [HashOrder.lastly]
      rw [getLast?_moveLast_none _ hiw, getLast?_moveLast hpid (hpw result hheld), Option.some_or]
    · exact getLast?_moveLast ((moveLast_perm _ _).mem_iff.mpr hid) hg

end Nested

/-! ## Orders and owners -/

/-- A run of the loops under every order against the owners it may leave. -/
structure Realises (own : Ownership) (run : HashOrder → SubqueryCache) : Prop where
  sound : ∀ ho k o, (run ho)[k]? = some o → own k o
  total : ∀ ho k o, own k o → (run ho).contains k = true
  reached : ∀ k o, own k o → ∃ ho, (run ho)[k]? = some o

theorem Realises.contains_iff {own : Ownership} {run : HashOrder → SubqueryCache}
    (h : Realises own run) (ho : HashOrder) (x : String) :
    (run ho).contains x = true ↔ ∃ o, own x o := by
  constructor
  · intro hx
    rw [ExtTreeMap.contains_eq_isSome_getElem?, Option.isSome_iff_exists] at hx
    obtain ⟨o, ho'⟩ := hx
    exact ⟨o, h.sound ho x o ho'⟩
  · rintro ⟨o, ho'⟩
    exact h.total ho x o ho'

section Stages

variable {store : Store} {cache : ZSet} {held : String → Prop} {st : SubqueryStage}
  {k p : String}

theorem run_of_claims (ho : HashOrder) {result : SubqueryCache}
    (hheld : ∀ x, result.contains x = true ↔ held x) (h : st.Claims store cache held k p) :
    ∃ p', st.Claims store cache held k p' ∧
      (st.run ho store cache result)[k]? = some (p', st.info.asName) := by
  obtain ⟨nested, info⟩ := st
  cases nested with
  | true => exact nested_of_claims hheld h
  | false =>
    obtain ⟨keys, g, hrun, hclaims⟩ := rootSubquery_writes store cache info
    obtain ⟨x, hx, hg⟩ := (hclaims k (p, info.asName)).mpr ⟨h, rfl⟩
    obtain ⟨y, hy, o, ho', hres⟩ :=
      getElem?_writeAll_some result ((ho.perm keys).mem_iff.mpr hx) hg
    obtain ⟨hclaim, ha⟩ := (hclaims k o).mp ⟨y, (ho.perm keys).mem_iff.mp hy, ho'⟩
    refine ⟨o.1, hclaim, ?_⟩
    change (rootSubquery ho store cache result info)[k]? = _
    rw [hrun, hres, ← ha]

theorem run_of_unclaimed (ho : HashOrder) {result : SubqueryCache}
    (hheld : ∀ x, result.contains x = true ↔ held x) (h : ∀ p, ¬ st.Claims store cache held k p) :
    (st.run ho store cache result)[k]? = result[k]? := by
  obtain ⟨nested, info⟩ := st
  cases nested with
  | true => exact nested_of_unclaimed hheld h
  | false =>
    obtain ⟨keys, g, hrun, hclaims⟩ := rootSubquery_writes store cache info
    change (rootSubquery ho store cache result info)[k]? = _
    rw [hrun]
    refine getElem?_writeAll_none ?_
    intro x hx o hg
    exact h o.1 ((hclaims k o).mp ⟨x, (ho.perm keys).mem_iff.mp hx, hg⟩).1

theorem run_reaches (h : st.Claims store cache held k p) :
    ∃ ho : HashOrder, ∀ result : SubqueryCache, (∀ x, result.contains x = true ↔ held x) →
      (st.run ho store cache result)[k]? = some (p, st.info.asName) := by
  obtain ⟨nested, info⟩ := st
  cases nested with
  | true => exact nested_reaches h
  | false =>
    obtain ⟨keys, g, hrun, hclaims⟩ := rootSubquery_writes store cache info
    obtain ⟨x, hx, hg⟩ := (hclaims k (p, info.asName)).mpr ⟨h, rfl⟩
    refine ⟨.lastly x x, fun result _ => ?_⟩
    change (rootSubquery (.lastly x x) store cache result info)[k]? = _
    rw [hrun, getElem?_writeAll]
    simp only [HashOrder.lastly]
    rw [getLast?_moveLast ((moveLast_perm _ _).mem_iff.mpr hx) (writeTo_eq_some.mpr hg),
      Option.some_or]

/-- One projection keeps the run and the owners together. -/
theorem Realises.settle {own : Ownership} {run : HashOrder → SubqueryCache}
    (h : Realises own run) (st : SubqueryStage) :
    Realises (st.settle store cache own) fun ho => st.run ho store cache (run ho) where
  sound := by
    intro ho k o hres
    by_cases hc : ∃ p, st.Claims store cache (fun x => ∃ o, own x o) k p
    · obtain ⟨p, hp⟩ := hc
      obtain ⟨p', hp', hres'⟩ := run_of_claims ho (h.contains_iff ho) hp
      rw [hres] at hres'
      cases hres'
      exact .inl ⟨hp', rfl⟩
    · have hno : ∀ p, ¬ st.Claims store cache (fun x => ∃ o, own x o) k p :=
        fun p hp => hc ⟨p, hp⟩
      rw [run_of_unclaimed ho (h.contains_iff ho) hno] at hres
      exact .inr ⟨hno, h.sound ho k o hres⟩
  total := by
    rintro ho k o (⟨hp, -⟩ | ⟨hno, ho'⟩)
    · obtain ⟨p', -, hres⟩ := run_of_claims ho (h.contains_iff ho) hp
      rw [ExtTreeMap.contains_eq_isSome_getElem?, hres]
      rfl
    · rw [ExtTreeMap.contains_eq_isSome_getElem?, run_of_unclaimed ho (h.contains_iff ho) hno,
        ← ExtTreeMap.contains_eq_isSome_getElem?]
      exact h.total ho k o ho'
  reached := by
    rintro k o (⟨hp, ha⟩ | ⟨hno, ho'⟩)
    · obtain ⟨ho, hres⟩ := run_reaches hp
      refine ⟨ho, ?_⟩
      rw [hres (run ho) (h.contains_iff ho), ← ha]
    · obtain ⟨ho, hres⟩ := h.reached k o ho'
      exact ⟨ho, (run_of_unclaimed ho (h.contains_iff ho) hno).trans hres⟩

theorem Realises.foldl {own : Ownership} {run : HashOrder → SubqueryCache}
    (h : Realises own run) (stages : List SubqueryStage) :
    Realises (stages.foldl (SubqueryStage.settle store cache) own)
      fun ho => stages.foldl (SubqueryStage.run ho store cache) (run ho) := by
  induction stages generalizing own run with
  | nil => exact h
  | cons st stages ih => exact ih (h.settle st)

end Stages

theorem realises_owners (store : Store) (v : View) :
    Realises (owners store v) fun ho => computeCurrentSubquerySet ho store v := by
  have hstart : Realises (fun _ _ => False) fun _ => ∅ :=
    ⟨fun _ _ _ h => by simp at h, fun _ _ _ h => h.elim, fun _ _ h => h.elim⟩
  have h : Realises (owners store v) fun ho => v.stages.foldl (SubqueryStage.run ho store v.cache) ∅ :=
    hstart.foldl v.stages
  simpa only [computeCurrentSubquerySet_eq] using h

/-! ## What is compared at a handover -/

/-- `Store::get_record_version_by_key`. -/
def Store.getRecordVersionByKey (s : Store) (key : String) : Option Int :=
  match parseKey key with
  | none => none
  | some (table, id) =>
    (s.collections[table]?.bind fun c => c.rows[rawId id]?).bind Row.rv

/-- Sorted by their keys, which are distinct. -/
def sortByKey {β : Type} (l : List (String × β)) : List (String × β) :=
  sortBy (fun a b => compare a.1 b.1) l

/-- What `membership_hash` feeds to the hash: the rows with their versions, then the children
    with owner and version, each sorted. -/
def membershipRecord (ho : HashOrder) (store : Store) (v : View) :
    List (String × Int) × List (String × (String × String) × Int) :=
  let version := fun key => (store.getRecordVersionByKey key).getD 1
  (sortByKey ((ho.visit v.cache.keys).map fun k => (k, version k)),
    sortByKey ((entriesIn v.subqueryCache (ho.visit v.subqueryCache.keys)).map fun e =>
      (e.1, e.2, version e.1)))

/-- Pairs with distinct keys sort to one list, whatever order they come in. -/
theorem sortByKey_perm {β : Type} {l l' : List (String × β)} (hd : (l.map Prod.fst).Nodup)
    (h : l.Perm l') : sortByKey l = sortByKey l' := by
  have hd' : (l'.map Prod.fst).Nodup := (h.map _).nodup_iff.mp hd
  have hlawful := keys_lawful hd
  have hmem : ∀ x, x ∈ sortByKey l ↔ x ∈ sortByKey l' := by
    intro x
    rw [sortByKey, sortByKey, mem_sortBy, mem_sortBy, h.mem_iff]
  refine increasing_ext hlawful (fun b hb => mem_sortBy.mp hb)
    (increasing_sortBy hlawful (fun b hb => hb) (List.Nodup.of_map _ hd))
    (increasing_sortBy hlawful (fun b hb => h.mem_iff.mpr hb) (List.Nodup.of_map _ hd')) hmem

/-- The record that is hashed does not depend on the order of its own loops. -/
theorem membershipRecord_order (ho ho' : HashOrder) (store : Store) (v : View) :
    membershipRecord ho store v = membershipRecord ho' store v := by
  unfold membershipRecord
  have hperm : ∀ l : List String, (ho.visit l).Perm (ho'.visit l) :=
    fun l => (ho.perm l).trans (ho'.perm l).symm
  have hrows : (((ho.visit v.cache.keys).map
      fun k => (k, (store.getRecordVersionByKey k).getD 1)).map Prod.fst).Nodup := by
    simpa [Function.comp_def] using (ho.perm _).nodup_iff.mpr (nodup_keys v.cache)
  have hchildren : (((entriesIn v.subqueryCache (ho.visit v.subqueryCache.keys)).map
      fun e => (e.1, e.2, (store.getRecordVersionByKey e.1).getD 1)).map Prod.fst).Nodup := by
    rw [List.map_map]
    exact nodup_keys_entriesIn v.subqueryCache
      ((ho.perm _).nodup_iff.mpr (nodup_keys v.subqueryCache))
  have hentries : (entriesIn v.subqueryCache (ho.visit v.subqueryCache.keys)).Perm
      (entriesIn v.subqueryCache (ho'.visit v.subqueryCache.keys)) := (hperm _).filterMap _
  dsimp only
  rw [sortByKey_perm hrows ((hperm _).map _), sortByKey_perm hchildren (hentries.map _)]

/-- The subquery set, and what a handover compares of it, are the same under any two orders. -/
def OrderIndependent (store : Store) (v : View) : Prop :=
  ∀ ho ho' : HashOrder,
    computeCurrentSubquerySet ho store v = computeCurrentSubquerySet ho' store v ∧
    membershipRecord ho store { v with subqueryCache := computeCurrentSubquerySet ho store v } =
      membershipRecord ho' store { v with subqueryCache := computeCurrentSubquerySet ho' store v }

/-- The set depends on no order exactly if every child has one possible owner. -/
theorem orderIndependent_iff (store : Store) (v : View) :
    OrderIndependent store v ↔ OneOwner store v := by
  have hreal := realises_owners store v
  constructor
  · intro h k o o' hown hown'
    obtain ⟨ho, hres⟩ := hreal.reached k o hown
    obtain ⟨ho', hres'⟩ := hreal.reached k o' hown'
    rw [(h ho ho').1, hres'] at hres
    exact (Option.some.inj hres).symm
  · intro h ho ho'
    have heq : computeCurrentSubquerySet ho store v = computeCurrentSubquerySet ho' store v := by
      refine ExtTreeMap.ext_getElem? fun k => ?_
      cases hk : (computeCurrentSubquerySet ho store v)[k]? with
      | none =>
        cases hk' : (computeCurrentSubquerySet ho' store v)[k]? with
        | none => rfl
        | some o =>
          have hc := hreal.total ho k o (hreal.sound ho' k o hk')
          rw [ExtTreeMap.contains_eq_isSome_getElem?] at hc
          rw [hk] at hc
          cases hc
      | some o =>
        have hown := hreal.sound ho k o hk
        have hc := hreal.total ho' k o hown
        rw [ExtTreeMap.contains_eq_isSome_getElem?, Option.isSome_iff_exists] at hc
        obtain ⟨o', hk'⟩ := hc
        rw [hk', h k o o' hown (hreal.sound ho' k o' hk')]
    refine ⟨heq, ?_⟩
    rw [heq]
    exact membershipRecord_order ho ho' store _

/-- Two threads by one user. -/
def threadStore : Store :=
  let row := fun v => (⟨v, 0⟩ : Row)
  (Store.new.setCollection
    { Collection.new "thread" with
      rows := (∅ : ExtTreeMap String Row)
        |>.insert "1" (row (.object [("author", .str "user:1")]))
        |>.insert "2" (row (.object [("author", .str "user:1")])) }).setCollection
    { Collection.new "user" with
      rows := (∅ : ExtTreeMap String Row).insert "1" (row (.object [("name", .str "a")])) }

/-- Both threads in the view, each with its author. -/
def threadView : View :=
  { View.new "q" ⟨"q", .project (.scan "thread")
      [.all, .subquery "author"
        (.filter (.scan "user")
          (.cmp .eq (Path.new "id") (.object [("$param", .str "parent.author")])))
        (some ⟨"id", "author"⟩)]⟩ none ["thread", "user"] "" with
    cache := (∅ : ZSet).insert "thread:1" 1 |>.insert "thread:2" 1 }

/-- The shared author belongs to the thread that is visited last. -/
theorem orderIndependent_shared_author : ¬ OrderIndependent threadStore threadView := by
  intro h
  have heq := (h (.lastly "thread:1" "thread:2") (.lastly "thread:2" "thread:1")).1
  have h2 : (computeCurrentSubquerySet (.lastly "thread:1" "thread:2") threadStore
      threadView)["user:1"]? = some ("thread:2", "author") := by decide +kernel
  have h1 : (computeCurrentSubquerySet (.lastly "thread:2" "thread:1") threadStore
      threadView)["user:1"]? = some ("thread:1", "author") := by decide +kernel
  rw [heq, h1] at h2
  exact absurd h2 (by decide)

end Sp00ky.Ssp
