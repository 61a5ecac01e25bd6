/-
  The row-version floor over whole runs (`circuit/circuit.rs`, `floor_row_version`).

  A version the floor makes up is above every version brought or made up before, and a write that
  changes a stored row raises its version. It is above every stored version only if the floor was
  seeded from the rows before a lower version was brought: the floor is seeded while it is zero,
  and any version in a body moves it off zero (`made_up_below_restored`).
-/
import Sp00ky.Lib.Transition
import Sp00ky.Ssp.Reconcile

namespace Sp00ky.Ssp

open Std Lib

/-! ## Versions of bodies and rows -/

/-- The integer version of a body. -/
def rowVersion (v : Sp00kyValue) : Option Int :=
  match v.get "_00_rv" with
  | some (.int n) => some n
  | _ => none

variable {n m : Int}

/-- Only a positive version counts as brought. -/
theorem incomingVersion_eq_some {v : Sp00kyValue} :
    incomingVersion v = some n ↔ rowVersion v = some n ∧ 0 < n := by
  have hfilter : incomingVersion v = (rowVersion v).filter fun n => decide (0 < n) := by
    unfold incomingVersion rowVersion
    cases v.get "_00_rv" with
    | none => rfl
    | some x =>
      cases x with
      | int m => simp [Option.filter]
      | _ => rfl
  rw [hfilter, Option.filter_eq_some_iff, decide_eq_true_eq]

/-- Every stored version is at most `n`. -/
def Store.VersionsLe (s : Store) (n : Int) : Prop :=
  ∀ t id row v, s.row t id = some row → row.rv = some v → v ≤ n

theorem Store.VersionsLe.mono {s : Store} (h : s.VersionsLe m) (hmn : m ≤ n) :
    s.VersionsLe n := fun t id row v hr hv => Int.le_trans (h t id row v hr hv) hmn

theorem foldl_max_ge {l : List Int} (h : n ≤ m ∨ ∃ k ∈ l, n ≤ k) :
    n ≤ l.foldl max m := by
  induction l generalizing m with
  | nil => simpa using h
  | cons k l ih =>
    refine ih ?_
    rcases h with h | ⟨j, hj, hle⟩
    · exact .inl (by omega)
    · rcases List.mem_cons.mp hj with rfl | hj
      · exact .inl (by omega)
      · exact .inr ⟨j, hj, hle⟩

theorem foldl_max_lt {l : List Int} (hm : m < n) (h : ∀ k ∈ l, k < n) :
    l.foldl max m < n := by
  induction l generalizing m with
  | nil => exact hm
  | cons k l ih =>
    have hk := h k List.mem_cons_self
    exact ih (by omega) (List.forall_mem_cons.mp h).2

/-- The highest stored version is a stored one, or zero. -/
theorem maxRowVersion_lt {s : Store} (hn : 0 < n) (h : s.VersionsLe (n - 1)) :
    maxRowVersion s < n := by
  refine foldl_max_lt hn fun k hk => ?_
  obtain ⟨⟨t, coll⟩, hc, rfl⟩ := List.mem_map.mp hk
  refine foldl_max_lt (by omega) fun v hv => ?_
  obtain ⟨⟨id, row⟩, hr, hrv⟩ := List.mem_filterMap.mp hv
  have hrow : s.row t id = some row := Option.bind_eq_some_iff.mpr
    ⟨coll, ExtTreeMap.mem_toList_iff_getElem?_eq_some.mp hc,
      ExtTreeMap.mem_toList_iff_getElem?_eq_some.mp hr⟩
  have := h t id row v hrow hrv
  omega

theorem versionsLe_max (s : Store) : s.VersionsLe (maxRowVersion s) := by
  intro t id row v hr hv
  obtain ⟨coll, hc, hrow⟩ := Option.bind_eq_some_iff.mp hr
  refine foldl_max_ge (.inr ⟨_, List.mem_map.mpr ⟨(t, coll), ?_, rfl⟩, ?_⟩)
  · exact ExtTreeMap.mem_toList_iff_getElem?_eq_some.mpr hc
  · refine foldl_max_ge (.inr ⟨v, List.mem_filterMap.mpr ⟨(id, row), ?_, hv⟩, Int.le_refl v⟩)
    exact ExtTreeMap.mem_toList_iff_getElem?_eq_some.mpr hrow

/-! ## What the floor does -/

/-- The floor once a body was seen. -/
def seenFloor (floor : Int) (data : Sp00kyValue) : Int :=
  ((incomingVersion data).map (max floor)).getD floor

/-- The version the floor makes up for a stored row. -/
def nextVersion (c : Circuit) (row : Row) (data : Sp00kyValue) : Int :=
  let floor := seenFloor c.rvFloor data
  max (if floor = 0 then max (maxRowVersion c.store) 0 else floor) (row.rv.getD 0) + 1

/-- The body with a version, if it is an object. -/
def stamp (data : Sp00kyValue) (n : Int) : Sp00kyValue :=
  match data with
  | .object fields => .object (fieldsInsert fields "_00_rv" (.int n))
  | v => v

/-- A body is kept, where its row is new or its version advances, or stamped. -/
theorem floorRowVersion_eq (c : Circuit) (table id : String) (data : Sp00kyValue) :
    ((∀ row, c.store.row table (rawId id) = some row →
        versionAdvances (incomingVersion data) row.rv = true) ∧
      floorRowVersion c table id data =
        ({ c with rvFloor := seenFloor c.rvFloor data }, data)) ∨
    ∃ row, c.store.row table (rawId id) = some row ∧
      floorRowVersion c table id data =
        ({ c with
            rvFloor := nextVersion c row data
            synthesizedRowVersions := c.synthesizedRowVersions + 1
            synthesizedRowVersionsMissing :=
              c.synthesizedRowVersionsMissing + if (incomingVersion data).isNone then 1 else 0 },
          stamp data (nextVersion c row data)) := by
  have hrow : (c.store.getCollection table).bind (fun coll => coll.rows[rawId id]?) =
      c.store.row table (rawId id) := rfl
  unfold floorRowVersion
  dsimp only
  split
  next hnone =>
    rw [hrow] at hnone
    refine .inl ⟨fun row h => ?_, rfl⟩
    rw [hnone] at h
    cases h
  next row hsome =>
    rw [hrow] at hsome
    by_cases hadv : versionAdvances (incomingVersion data) row.rv = true
    · rw [if_pos hadv]
      refine .inl ⟨fun row' h => ?_, rfl⟩
      rw [hsome] at h
      obtain rfl := Option.some.inj h
      exact hadv
    · rw [if_neg hadv]
      exact .inr ⟨row, hsome, rfl⟩

theorem rowVersion_stamp {data : Sp00kyValue} {n v : Int} (h : rowVersion (stamp data n) = some v) :
    v = n := by
  unfold stamp at h
  split at h
  next fields =>
    unfold rowVersion at h
    have hget : (Sp00kyValue.object (fieldsInsert fields "_00_rv" (.int n))).get "_00_rv" =
        some (.int n) := lookup_fieldsInsert_self fields "_00_rv" _
    rw [hget] at h
    exact (Option.some.inj h).symm
  next hno =>
    unfold rowVersion at h
    split at h
    next m hm =>
      exfalso
      cases data with
      | object fields => exact hno fields rfl
      | _ => cases hm
    next => cases h

theorem rowVersion_stamp_object (fields : List (String × Sp00kyValue)) (n : Int) :
    rowVersion (stamp (.object fields) n) = some n := by
  have hget : (Sp00kyValue.object (fieldsInsert fields "_00_rv" (.int n))).get "_00_rv" =
      some (.int n) := lookup_fieldsInsert_self fields "_00_rv" _
  unfold stamp rowVersion
  simp only [hget]

/-! ## Runs -/

/-- The version that a change brings. -/
def Circuit.brought (c : Circuit) (ch : Change) : Option Int :=
  rowVersion (c.stripped ch.table ch.data)

/-- The version that the floor makes up for a change: its counter moves, and the floor is the
    version. -/
def Circuit.madeUp (c : Circuit) (ch : Change) : Option Int :=
  let c' := (bodyIn c ch).1
  if c'.synthesizedRowVersions = c.synthesizedRowVersions then none else some c'.rvFloor

/-- What follows phase 1 in a step: the affected queries, and the staged rows dropped. -/
def finish (env : Env) (planning : Planning) (ho : HashOrder) (p : Phase1) : Circuit :=
  let (deltas, content) := (ho.visit p.deltas.keys).foldl (cleanTable ho p.circuit.store)
    (p.deltas, p.content)
  let c := ((p.circuit.affectedQueries p.changedTables).foldl
    (Circuit.stepAffected env planning ho deltas content) (p.circuit, [])).1
  { c with store := c.store.clearPendingDeletedRows }

/-- A step is its changes, one by one, and the rest. -/
theorem step_eq_finish (env : Env) (planning : Planning) (ho : HashOrder) (c : Circuit)
    {changes : List Change} (hne : changes ≠ []) :
    (c.step env planning ho changes).1 =
      finish env planning ho (changes.foldl (applyChange env) ⟨c, ∅, ∅, []⟩) := by
  unfold Circuit.step
  rw [if_neg (by simpa using hne)]
  rfl

/-- A circuit in the middle of a step, and the versions it saw or made up so far. -/
structure Ledger where
  phase : Phase1
  seen : List Int

inductive LedgerAct where
  | change (ch : Change)
  | finish (planning : Planning) (ho : HashOrder)

namespace Ledger

def start (c : Circuit) : Ledger := ⟨⟨c, ∅, ∅, []⟩, []⟩

def circuit (l : Ledger) : Circuit := l.phase.circuit

def step (env : Env) (l : Ledger) : LedgerAct → Option Ledger
  | .change ch => some
      { phase := applyChange env l.phase ch
        seen := (l.circuit.madeUp ch).toList ++ (l.circuit.brought ch).toList ++ l.seen }
  | .finish planning ho => some { l with phase := ⟨Ssp.finish env planning ho l.phase, ∅, ∅, []⟩ }

/-- A made-up version is above every stored one, and every one seen or made up before. -/
def Dominates (c : Circuit) (seen : List Int) (ch : Change) : Prop :=
  ∀ n, c.madeUp ch = some n →
    (∀ t id row v, c.store.row t id = some row → row.rv = some v → v < n) ∧
      (∀ v ∈ seen, v < n) ∧ ∀ v, c.brought ch = some v → v < n

/-- A write that changes a stored row raises its version. -/
def Advances (env : Env) (c : Circuit) (ch : Change) : Prop :=
  ∀ row, c.store.row ch.table (rawId ch.id) = some row →
    (changed env c ch).store.row ch.table (rawId ch.id) ≠ some row →
      ∃ row' n, (changed env c ch).store.row ch.table (rawId ch.id) = some row' ∧
        row'.rv = some n ∧ ∀ v, row.rv = some v → v < n

/-- A create or an update, of a version below `2 ^ 62`. -/
def Puts (c : Circuit) (ch : Change) : Prop :=
  (ch.op = .create ∨ ch.op = .update) ∧ ∀ v, c.brought ch = some v → v < 2 ^ 62

/-- A version brought while the floor is not seeded is below no stored version, but that of the row
    it is for. -/
def Seeds (c : Circuit) (ch : Change) : Prop :=
  c.rvFloor = 0 → ∀ v, c.brought ch = some v → 0 < v →
    c.store.VersionsLe (max v (((c.store.row ch.table (rawId ch.id)).bind Row.rv).getD 0))

/-- A body for a stored row is an object. -/
def Stampable (c : Circuit) (ch : Change) : Prop :=
  (c.store.row ch.table (rawId ch.id)).isSome = true → ∃ fields, ch.data = .object fields

def Allowed (l : Ledger) : LedgerAct → Prop
  | .change ch => Puts l.circuit ch ∧ Seeds l.circuit ch ∧ Stampable l.circuit ch
  | .finish .. => True

end Ledger

/-- A circuit as it starts with the floor on: nothing seen, and versions below `2 ^ 62` stored. -/
structure Circuit.FloorStart (c : Circuit) : Prop where
  on : c.monotonicRowVersions = true
  floor : c.rvFloor = 0
  counter : c.synthesizedRowVersions = 0
  versions : c.store.VersionsLe (2 ^ 62 - 1)

/-! ### One change -/

section

variable {env : Env} {c : Circuit} {ch : Change}

theorem bodyIn_put (hon : c.monotonicRowVersions = true) (hop : ch.op = .create ∨ ch.op = .update) :
    bodyIn c ch = floorRowVersion c ch.table ch.id (c.stripped ch.table ch.data) := by
  unfold bodyIn Circuit.stripped
  rw [if_pos (by rcases hop with h | h <;> simp [hon, h])] <;> rfl

variable (env) in
theorem changed_row (hop : ch.op = .create ∨ ch.op = .update) :
    (changed env c ch).store.row ch.table (rawId ch.id) =
        c.store.row ch.table (rawId ch.id) ∨
      ∃ row, (changed env c ch).store.row ch.table (rawId ch.id) = some row ∧
        row.rv = rowVersion (bodyIn c ch).2 := by
  have hd : ch.op ≠ .delete := by rcases hop with h | h <;> rw [h] <;> decide
  have hm : ch.op ≠ .merge := by rcases hop with h | h <;> rw [h] <;> decide
  have hstaged : staged c ch = c := by
    unfold staged
    rw [if_neg hd]
  have hstore : (changed env c ch).store.row ch.table (rawId ch.id) = _ :=
    applyOwned_put_row env hd hm (staged c ch).store ch.table ch.id
      (bodyIn (staged c ch) ch).2
  rw [hstaged] at hstore
  rw [hstore]
  split
  next => exact .inl rfl
  next =>
    refine .inr ⟨_, rfl, ?_⟩
    unfold Row.rv rowVersion
    rw [project_version] <;> rfl

theorem changed_other (ch : Change) {t id : String} (h : t ≠ ch.table ∨ id ≠ rawId ch.id) :
    (changed env c ch).store.row t id = c.store.row t id :=
  (written_spec env c ch).1.other t id h

/-- Every row a change leaves was there before, or carries the version of the body. -/
theorem changed_rows (hop : ch.op = .create ∨ ch.op = .update) {t id : String} {row : Row}
    (hrow : (changed env c ch).store.row t id = some row) :
    c.store.row t id = some row ∨ row.rv = rowVersion (bodyIn c ch).2 := by
  by_cases hat : t = ch.table ∧ id = rawId ch.id
  · obtain ⟨rfl, rfl⟩ := hat
    rcases changed_row env (c := c) hop with hsame | ⟨row', hrow', hrv⟩
    · exact .inl (hsame ▸ hrow)
    · rw [hrow'] at hrow
      exact .inr (Option.some.inj hrow ▸ hrv)
  · rw [changed_other ch (by tauto)] at hrow
    exact .inl hrow

theorem staged_put (hop : ch.op = .create ∨ ch.op = .update) : staged c ch = c := by
  unfold staged
  rw [if_neg (by rcases hop with h | h <;> rw [h] <;> decide)]

variable (env) in
/-- What a create or an update does to the counters, and the version of the body it writes. -/
theorem put_cases (hon : c.monotonicRowVersions = true) (hop : ch.op = .create ∨ ch.op = .update) :
    (changed env c ch).monotonicRowVersions = true ∧
      (((∀ row, c.store.row ch.table (rawId ch.id) = some row →
          versionAdvances (incomingVersion (c.stripped ch.table ch.data)) row.rv = true) ∧
        c.madeUp ch = none ∧
        (changed env c ch).rvFloor = seenFloor c.rvFloor (c.stripped ch.table ch.data) ∧
        (changed env c ch).synthesizedRowVersions = c.synthesizedRowVersions ∧
        (bodyIn c ch).2 = c.stripped ch.table ch.data) ∨
      ∃ row, c.store.row ch.table (rawId ch.id) = some row ∧
        c.madeUp ch = some (nextVersion c row (c.stripped ch.table ch.data)) ∧
        (changed env c ch).rvFloor = nextVersion c row (c.stripped ch.table ch.data) ∧
        (changed env c ch).synthesizedRowVersions = c.synthesizedRowVersions + 1 ∧
        (bodyIn c ch).2 = stamp (c.stripped ch.table ch.data)
          (nextVersion c row (c.stripped ch.table ch.data))) := by
  unfold changed Circuit.madeUp
  rw [staged_put hop]
  dsimp only
  rw [bodyIn_put hon hop]
  rcases floorRowVersion_eq c ch.table ch.id (c.stripped ch.table ch.data) with
    ⟨hadv, hr⟩ | ⟨row, hrow, hr⟩
  · rw [hr]
    exact ⟨hon, .inl ⟨hadv, if_pos rfl, rfl, rfl, rfl⟩⟩
  · rw [hr]
    refine ⟨hon, .inr ⟨row, hrow, if_neg ?_, rfl, rfl, rfl⟩⟩
    exact Nat.succ_ne_self _

theorem seenFloor_ge (floor : Int) (data : Sp00kyValue) : floor ≤ seenFloor floor data := by
  unfold seenFloor
  cases incomingVersion data with
  | none => exact Int.le_refl _
  | some v => exact Int.le_max_left _ _

variable {data : Sp00kyValue}

/-- The floor is at the versions brought. -/
theorem brought_le_seenFloor {floor v : Int} (hfloor : 0 ≤ floor)
    (h : rowVersion data = some v) : v ≤ seenFloor floor data := by
  by_cases hpos : 0 < v
  · unfold seenFloor
    rw [incomingVersion_eq_some.mpr ⟨h, hpos⟩]
    exact Int.le_max_right _ _
  · exact Int.le_trans (by omega) (seenFloor_ge floor data)

theorem seenFloor_lt {floor m : Int} (hfloor : floor < m)
    (h : ∀ v, rowVersion data = some v → v < m) : seenFloor floor data < m := by
  unfold seenFloor
  cases hv : incomingVersion data with
  | none => exact hfloor
  | some v =>
    have := h v (incomingVersion_eq_some.mp hv).1
    simp only [Option.map_some, Option.getD_some]
    omega

/-- The floor covers the rows as soon as it is seeded. -/
def Circuit.Covered (c : Circuit) : Prop := c.rvFloor = 0 ∨ c.store.VersionsLe c.rvFloor

/-- A made-up version is above the one it replaces. -/
theorem lt_nextVersion {row : Row} {v : Int} (data : Sp00kyValue) (h : row.rv = some v) :
    v < nextVersion c row data := by
  have hown : v ≤ row.rv.getD 0 := by
    rw [h]
    exact Int.le_refl v
  unfold nextVersion
  dsimp only
  omega

/-- A made-up version is above every stored one, and above the floor. -/
theorem nextVersion_gt (hfloor : 0 ≤ c.rvFloor) (hcov : c.Covered) (hseed : Ledger.Seeds c ch)
    {row : Row} (hrow : c.store.row ch.table (rawId ch.id) = some row) :
    c.store.VersionsLe (nextVersion c row (c.stripped ch.table ch.data) - 1) ∧
      seenFloor c.rvFloor (c.stripped ch.table ch.data) <
        nextVersion c row (c.stripped ch.table ch.data) := by
  have hge := seenFloor_ge c.rvFloor (c.stripped ch.table ch.data)
  unfold nextVersion
  dsimp only
  refine ⟨?_, by split <;> omega⟩
  split
  next hzero =>
    exact (versionsLe_max c.store).mono (by omega)
  next hne =>
    by_cases hz : c.rvFloor = 0
    · cases hv : incomingVersion (c.stripped ch.table ch.data) with
      | none =>
        exfalso
        unfold seenFloor at hne
        rw [hv] at hne
        exact hne hz
      | some v =>
        obtain ⟨hb, hpos⟩ := incomingVersion_eq_some.mp hv
        have hle := brought_le_seenFloor hfloor hb
        refine (hseed hz v hb hpos).mono ?_
        rw [hrow, Option.bind_some]
        omega
    · exact (hcov.resolve_left hz).mono (by omega)

variable (ch) in
theorem nextVersion_lt {m : Int} (hm : 0 < m) (hfloor : c.rvFloor < m)
    (hrows : c.store.VersionsLe (m - 1)) (hb : ∀ v, c.brought ch = some v → v < m) {row : Row}
    (hrow : c.store.row ch.table (rawId ch.id) = some row) :
    nextVersion c row (c.stripped ch.table ch.data) < m + 1 := by
  have hseen := seenFloor_lt hfloor hb
  have hmax := maxRowVersion_lt hm hrows
  have hown : row.rv.getD 0 < m := by
    cases hv : row.rv with
    | none => exact hm
    | some v =>
      have := hrows _ _ row v hrow hv
      rw [Option.getD_some]
      omega
  unfold nextVersion
  dsimp only
  split <;> omega

variable (env) in
/-- A change keeps the floor over the rows. -/
theorem covered_changed (hon : c.monotonicRowVersions = true)
    (hop : ch.op = .create ∨ ch.op = .update) (hfloor : 0 ≤ c.rvFloor) (hcov : c.Covered)
    (hseed : Ledger.Seeds c ch) : (changed env c ch).Covered := by
  rcases (put_cases env hon hop).2 with ⟨hadv, -, hf, -, hbody⟩ |
    ⟨row, hrow, -, hf, -, hbody⟩
  · unfold Circuit.Covered
    rw [hf]
    by_cases hz : seenFloor c.rvFloor (c.stripped ch.table ch.data) = 0
    · exact .inl hz
    · refine .inr fun t id row v hr hv => ?_
      rcases changed_rows hop hr with hold | hnew
      · by_cases hz' : c.rvFloor = 0
        · cases hin : incomingVersion (c.stripped ch.table ch.data) with
          | none =>
            exfalso
            unfold seenFloor at hz
            rw [hin] at hz
            exact hz hz'
          | some w =>
            obtain ⟨hb, hpos⟩ := incomingVersion_eq_some.mp hin
            have hle := hseed hz' w hb hpos t id row v hold hv
            have hw := brought_le_seenFloor hfloor hb
            -- The row the change is for is below the version that advances it.
            have hown : ((c.store.row ch.table (rawId ch.id)).bind Row.rv).getD 0 ≤ w := by
              cases hr' : c.store.row ch.table (rawId ch.id) with
              | none => exact Int.le_of_lt hpos
              | some row' =>
                have hadv' := hadv row' hr'
                rw [hin] at hadv'
                rw [Option.bind_some]
                cases hrv : row'.rv with
                | none => exact Int.le_of_lt hpos
                | some u =>
                  rw [hrv] at hadv'
                  exact Int.le_of_lt (of_decide_eq_true hadv')
            omega
        · exact Int.le_trans (hcov.resolve_left hz' t id row v hold hv) (seenFloor_ge _ _)
      · rw [hbody, hv] at hnew
        exact brought_le_seenFloor hfloor hnew.symm
  · refine .inr fun t id row' v hr hv => ?_
    rw [hf]
    obtain ⟨hbelow, -⟩ := nextVersion_gt hfloor hcov hseed hrow
    rcases changed_rows hop hr with hold | hnew
    · have := hbelow t id row' v hold hv
      omega
    · rw [hbody, hv] at hnew
      exact Int.le_of_eq (rowVersion_stamp hnew.symm)

theorem stripPath_object (segs : List String) (fields : List (String × Sp00kyValue)) :
    ∃ fields', stripPath segs (.object fields) = .object fields' := by
  cases segs with
  | nil => exact ⟨_, rfl⟩
  | cons head rest =>
    cases rest with
    | nil | cons => exact ⟨_, rfl⟩

/-- An object without its opaque fields is an object. -/
theorem stripped_object (h : ∃ fields, data = .object fields)
    (table : String) : ∃ fields, c.stripped table data = .object fields := by
  unfold Circuit.stripped
  split
  next opaqueFields _ =>
    unfold stripOpaque
    generalize opaqueFields.toList = l
    induction l generalizing data with
    | nil => exact h
    | cons f l ih =>
      obtain ⟨fields, rfl⟩ := h
      exact ih (stripPath_object _ fields)
  next => exact h

/-- A write that changes a stored row raises its version. -/
theorem advances_changed (hon : c.monotonicRowVersions = true)
    (hop : ch.op = .create ∨ ch.op = .update) (hobj : Ledger.Stampable c ch) :
    Ledger.Advances env c ch := by
  intro row hrow hne
  rcases changed_row env (c := c) hop with hsame | ⟨row', hrow', hrv⟩
  · exact absurd (hsame.trans hrow) hne
  refine ⟨row', ?_⟩
  rcases (put_cases env hon hop).2 with ⟨hadv, -, -, -, hbody⟩ |
    ⟨row₀, hrow₀, -, -, -, hbody⟩
  · have hadv' := hadv row hrow
    rw [hbody] at hrv
    cases hin : incomingVersion (c.stripped ch.table ch.data) with
    | none =>
      rw [hin] at hadv'
      cases hadv'
    | some w =>
      refine ⟨w, hrow', hrv.trans (incomingVersion_eq_some.mp hin).1, fun v hv => ?_⟩
      rw [hin, hv] at hadv'
      exact of_decide_eq_true hadv'
  · rw [hrow] at hrow₀
    obtain rfl := Option.some.inj hrow₀
    obtain ⟨fields, hfields⟩ := stripped_object (hobj (by rw [hrow]; rfl)) ch.table
    rw [hbody, hfields, rowVersion_stamp_object] at hrv
    exact ⟨_, hrow', hrv, fun v hv => lt_nextVersion _ hv⟩

end

/-! ### Every run -/

/-- What a run of allowed changes keeps. -/
structure Ledger.Holds (l : Ledger) : Prop where
  on : l.circuit.monotonicRowVersions = true
  nonneg : 0 ≤ l.circuit.rvFloor
  covered : l.circuit.Covered
  seen : ∀ v ∈ l.seen, v ≤ l.circuit.rvFloor
  floorLt : l.circuit.rvFloor < 2 ^ 62 + l.circuit.synthesizedRowVersions
  versions : l.circuit.store.VersionsLe (2 ^ 62 + l.circuit.synthesizedRowVersions - 1)

theorem Circuit.FloorStart.holds {c : Circuit} (h : c.FloorStart) : (Ledger.start c).Holds where
  on := h.on
  nonneg := Int.le_of_eq h.floor.symm
  covered := .inl h.floor
  seen := fun _ hv => by cases hv
  floorLt := by
    change c.rvFloor < 2 ^ 62 + (c.synthesizedRowVersions : Int)
    rw [h.floor, h.counter]
    decide
  versions := by
    change c.store.VersionsLe (2 ^ 62 + (c.synthesizedRowVersions : Int) - 1)
    rw [h.counter]
    exact h.versions

theorem Ledger.Holds.change {env : Env} {l : Ledger} (h : l.Holds) {ch : Change}
    (hch : l.Allowed (.change ch)) :
    Ledger.Holds ⟨applyChange env l.phase ch,
      (l.circuit.madeUp ch).toList ++ (l.circuit.brought ch).toList ++ l.seen⟩ := by
  obtain ⟨⟨hop, hput⟩, hseed, -⟩ := hch
  have hcov := covered_changed env h.on hop h.nonneg h.covered hseed
  obtain ⟨hon, hcases⟩ := put_cases env h.on hop
  have hcircuit : Ledger.circuit ⟨applyChange env l.phase ch,
      (l.circuit.madeUp ch).toList ++ (l.circuit.brought ch).toList ++ l.seen⟩ =
      changed env l.circuit ch := (applyChange_cases env l.phase ch).1
  have hge := seenFloor_ge l.circuit.rvFloor (l.circuit.stripped ch.table ch.data)
  have hnonneg := h.nonneg
  have hcount : (0 : Int) ≤ l.circuit.synthesizedRowVersions := Int.natCast_nonneg _
  have hb : ∀ v, l.circuit.brought ch = some v →
      v < 2 ^ 62 + (l.circuit.synthesizedRowVersions : Int) := by
    intro v hv
    have := hput v hv
    omega
  have hbrought : ∀ v, l.circuit.brought ch = some v →
      v ≤ seenFloor l.circuit.rvFloor (l.circuit.stripped ch.table ch.data) :=
    fun v hv => brought_le_seenFloor hnonneg hv
  refine ⟨?_, ?_, ?_, ?_, ?_, ?_⟩
  all_goals rw [hcircuit]
  · exact hon
  · rcases hcases with ⟨-, -, hf, -⟩ | ⟨row, hrow, -, hf, -⟩
    · rw [hf]
      omega
    · rw [hf]
      have := (nextVersion_gt hnonneg h.covered hseed hrow).2
      omega
  · exact hcov
  · intro v hv
    rw [List.mem_append, List.mem_append, Option.mem_toList, Option.mem_toList] at hv
    rcases hcases with ⟨-, hnone, hf, -⟩ | ⟨row, hrow, hmade, hf, -⟩
    · rw [hf]
      rcases hv with (hv | hv) | hv
      · rw [hnone] at hv
        cases hv
      · exact hbrought v hv
      · exact Int.le_trans (h.seen v hv) hge
    · rw [hf]
      have hgt := (nextVersion_gt hnonneg h.covered hseed hrow).2
      rcases hv with (hv | hv) | hv
      · rw [hmade] at hv
        exact Int.le_of_eq (Option.some.inj hv).symm
      · have := hbrought v hv
        omega
      · have := h.seen v hv
        omega
  · rcases hcases with ⟨-, -, hf, hcnt, -⟩ | ⟨row, hrow, -, hf, hcnt, -⟩
    · rw [hf, hcnt]
      exact seenFloor_lt h.floorLt hb
    · rw [hf, hcnt]
      have := nextVersion_lt ch (by omega) h.floorLt h.versions hb hrow
      omega
  · intro t id row' v hr hv
    rcases hcases with ⟨-, -, -, hcnt, hbody⟩ | ⟨row, hrow, -, -, hcnt, hbody⟩
    · rw [hcnt]
      rcases changed_rows hop hr with hold | hnew
      · exact h.versions t id row' v hold hv
      · rw [hbody, hv] at hnew
        have := hb v hnew.symm
        omega
    · rw [hcnt]
      rcases changed_rows hop hr with hold | hnew
      · have := h.versions t id row' v hold hv
        omega
      · rw [hbody, hv] at hnew
        have := nextVersion_lt ch (by omega) h.floorLt h.versions hb hrow
        have := rowVersion_stamp hnew.symm
        omega

theorem finish_frame (env : Env) (planning : Planning) (ho : HashOrder) (p : Phase1) :
    (finish env planning ho p).monotonicRowVersions = p.circuit.monotonicRowVersions ∧
      (finish env planning ho p).rvFloor = p.circuit.rvFloor ∧
      (finish env planning ho p).synthesizedRowVersions = p.circuit.synthesizedRowVersions ∧
      ∀ t id, (finish env planning ho p).store.row t id = p.circuit.store.row t id := by
  unfold finish
  dsimp only
  rw [foldl_stepAffected_frame]
  exact ⟨rfl, rfl, rfl, fun _ _ => rfl⟩

theorem Ledger.Holds.step {env : Env} {l l' : Ledger} {a : LedgerAct} (h : l.Holds)
    (ha : l.Allowed a) (hstep : l.step env a = some l') : l'.Holds := by
  cases a with
  | change ch =>
    obtain rfl := Option.some.inj hstep
    exact h.change ha
  | finish planning ho =>
    obtain rfl := Option.some.inj hstep
    obtain ⟨hon, hf, hcnt, hrow⟩ := finish_frame env planning ho l.phase
    have hle : ∀ n, l.circuit.store.VersionsLe n →
        (finish env planning ho l.phase).store.VersionsLe n := by
      intro n hn t id row v hr hv
      rw [hrow] at hr
      exact hn t id row v hr hv
    refine ⟨hon.trans h.on, ?_, ?_, ?_, ?_, ?_⟩
    · exact hf ▸ h.nonneg
    · rcases h.covered with hz | hc
      · exact .inl (hf.trans hz)
      · exact .inr (by rw [show Ledger.circuit _ = finish env planning ho l.phase from rfl, hf]; exact hle _ hc)
    · intro v hv
      exact hf ▸ h.seen v hv
    · exact hf ▸ hcnt ▸ h.floorLt
    · exact hcnt ▸ hle _ h.versions

/-- **The row-version floor**: in every run whose changes seed it, a version it makes up is above
    every stored version and every version seen or made up before, and inside `i64` for as long as
    fewer than `2 ^ 62` were made up; and a write that changes a stored row raises its version. -/
theorem made_up_dominates (env : Env) (c : Circuit) (hc : c.FloorStart) (l : Ledger)
    (h : Run (Ledger.step env) Ledger.Allowed (Ledger.start c) l) (ch : Change)
    (hch : l.Allowed (.change ch)) :
    Ledger.Dominates l.circuit l.seen ch ∧ Ledger.Advances env l.circuit ch ∧
      ∀ n, l.circuit.madeUp ch = some n → n ≤ 2 ^ 62 + l.circuit.synthesizedRowVersions := by
  have hl : l.Holds := h.invariant hc.holds fun _ _ _ hl ha hstep => hl.step ha hstep
  obtain ⟨⟨hop, hput⟩, hseed, hobj⟩ := hch
  refine ⟨?_, advances_changed hl.on hop hobj, ?_⟩
  · intro n hn
    rcases (put_cases env hl.on hop).2 with ⟨-, hnone, -⟩ | ⟨row, hrow, hmade, -⟩
    · rw [hnone] at hn
      cases hn
    · obtain rfl : _ = n := Option.some.inj (hmade.symm.trans hn)
      obtain ⟨hbelow, hgt⟩ := nextVersion_gt hl.nonneg hl.covered hseed hrow
      refine ⟨fun t id row' v hr hv => ?_, fun v hv => ?_, fun v hv => ?_⟩
      · have := hbelow t id row' v hr hv
        omega
      · have := hl.seen v hv
        have := seenFloor_ge l.circuit.rvFloor (l.circuit.stripped ch.table ch.data)
        omega
      · have : v ≤ _ := brought_le_seenFloor hl.nonneg hv
        omega
  · intro n hn
    rcases (put_cases env hl.on hop).2 with ⟨-, hnone, -⟩ | ⟨row, hrow, hmade, -⟩
    · rw [hnone] at hn
      cases hn
    · obtain rfl : _ = n := Option.some.inj (hmade.symm.trans hn)
      have hcount : (0 : Int) ≤ l.circuit.synthesizedRowVersions := Int.natCast_nonneg _
      have := nextVersion_lt ch (by omega) hl.floorLt hl.versions
        (fun v hv => by have := hput v hv; omega) hrow
      omega

/-! ### A restored circuit -/

/-- Two rows come back, at versions 100 and 1. -/
def restoredRows : Circuit :=
  { Circuit.new.load Env.sample
      [⟨"t", "a", .object [("_00_rv", .int 100)]⟩, ⟨"t", "b", .object [("_00_rv", .int 1)]⟩] with
    monotonicRowVersions := true }

/-- An update without a version. -/
def unversioned (id : String) : Change := ⟨"t", .update, id, .object [("x", .int 7)]⟩

theorem restoredRows_start : restoredRows.FloorStart where
  on := rfl
  floor := rfl
  counter := rfl
  versions := (versionsLe_max _).mono (by decide +kernel)

theorem unversioned_allowed {l : Ledger} {id : String}
    (h : l.circuit.brought (unversioned id) = none) : l.Allowed (.change (unversioned id)) := by
  refine ⟨⟨.inr rfl, fun v hv => ?_⟩, fun _ v hv => ?_, fun _ => ⟨_, rfl⟩⟩
  · rw [h] at hv
    cases hv
  · rw [h] at hv
    cases hv

/-- The first version made up seeds the floor from the rows. -/
theorem made_up_dominates_restored :
    ∃ l : Ledger, l.circuit.madeUp (unversioned "b") = some 102 ∧
      Ledger.Dominates l.circuit l.seen (unversioned "b") ∧
      Ledger.Advances Env.sample l.circuit (unversioned "b") ∧
      ∀ n, l.circuit.madeUp (unversioned "b") = some n →
        n ≤ 2 ^ 62 + l.circuit.synthesizedRowVersions := by
  have hfirst : (Ledger.start restoredRows).Allowed (.change (unversioned "a")) :=
    unversioned_allowed (by decide +kernel)
  refine ⟨_, ?_, made_up_dominates Env.sample restoredRows restoredRows_start _
    (Run.start.next hfirst rfl) (unversioned "b") (unversioned_allowed ?_)⟩
  · decide +kernel
  · decide +kernel

/-- A new row's version 5 takes the floor off zero before the rows were looked at. The next version
    made up is 6, below the restored row's 100. -/
theorem made_up_below_restored :
    ¬ ∀ c : Circuit, c.FloorStart → ∀ l, Run (Ledger.step Env.sample)
      (fun l a => ∀ ch, a = .change ch → Ledger.Puts l.circuit ch) (Ledger.start c) l →
      ∀ ch, Ledger.Puts l.circuit ch →
        Ledger.Dominates l.circuit l.seen ch ∧ Ledger.Advances Env.sample l.circuit ch := by
  intro hall
  let first : Change := ⟨"t", .create, "c", .object [("_00_rv", .int 5)]⟩
  have hbrought : restoredRows.brought first = some 5 := by decide +kernel
  have hfirst : ∀ ch, LedgerAct.change first = .change ch →
      Ledger.Puts (Ledger.start restoredRows).circuit ch := by
    intro ch heq
    obtain rfl := (LedgerAct.change.inj heq).symm
    refine ⟨.inl rfl, fun v hv => ?_⟩
    obtain rfl : 5 = v := Option.some.inj (hbrought.symm.trans hv)
    decide
  obtain ⟨l, hl⟩ : ∃ l, (Ledger.start restoredRows).step Env.sample (.change first) = some l :=
    ⟨_, rfl⟩
  have hnext : l.circuit.madeUp (unversioned "b") = some 6 ∧
      l.circuit.brought (unversioned "b") = none ∧
      (l.circuit.store.row "t" "a").bind Row.rv = some 100 := by
    obtain rfl := Option.some.inj hl
    decide +kernel
  obtain ⟨hmade, hnone, hrv⟩ := hnext
  obtain ⟨row, hrow, hrv⟩ := Option.bind_eq_some_iff.mp hrv
  have hdom := (hall restoredRows restoredRows_start l (Run.start.next hfirst hl)
    (unversioned "b") ⟨.inr rfl, fun v hv => by rw [hnone] at hv; cases hv⟩).1 6 hmade
  exact absurd (hdom.1 "t" "a" row 100 hrow hrv) (by decide)

end Sp00ky.Ssp
