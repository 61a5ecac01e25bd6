/-
  Rendering a query (`packages/core/src/query/materialize.saga.ts`, `query/render-set.ts`,
  `client/runtime.ts`).

  `materialize` reads the state, waits for the local store, reads the entry again, writes the rows
  and hands them out; other sagas run in every gap. Writing the rows takes the query's mark away,
  whatever moved meanwhile, so `settled` can hold over rows of a membership that was replaced
  (`settled_stale`). It does not as long as nothing a render read moves before its rows are written,
  a commit takes no acknowledged write away from another query's table, and a read that fails had
  nothing new to draw (`settled_shown`).
-/
import Sp00ky.Core.Dirt

namespace Sp00ky.Core.Screen

open Client (RecordVersionArray QueryPhase firsts sortsBefore)
open Function (update update_apply update_of_ne update_self)
open Sagas (transition)
open Lib

/-! ## A render -/

/-- The local store: the one read of a query's rows, of some ids or by its own predicate, which may
    fail; and the record id of a row. A query's text and parameters go with its hash. -/
structure Env (Store Row : Type) where
  select : Store → String → Option (List String) → Option (List Row)
  rowKey : Row → Option String

/-- What `materialize` reads first; `known` are the ids the durable views vouch for. -/
structure Reading (Row : Type) where
  entry : QueryEntry Row
  overlay : Overlay
  known : String → Bool
  complete : Bool

/-- `resolveMembership`. -/
def resolveMembership (phase : QueryPhase) (remoteArray localArray : RecordVersionArray)
    (isWindow : Bool) : Option RecordVersionArray :=
  if phase ≠ .cold then some remoteArray
  else if isWindow then some localArray
  else none

/-- `paintsCold`. -/
def paintsCold (id : String) (known : String → Bool) (overlay : Overlay) : Bool :=
  id.startsWith "_00_" || known id || overlay.writes id

/-- `buildRenderIds`. -/
def buildRenderIds (membership localView : RecordVersionArray) (overlay : Overlay)
    (hasExplicitOrder isWindow : Bool) : List String :=
  let shown := (membership.map (·.1)).filter fun id => !overlay.deletes id
  let written := (localView.map (·.1)).filter fun id => overlay.writes id && !overlay.deletes id
  let ordered := firsts [] (shown ++ written)
  if hasExplicitOrder || isWindow then ordered else ordered.mergeSort sortsBefore

namespace Reading

variable {Store Row : Type}

/-- A row may paint: one without an id always does. -/
def paints (r : Reading Row) (id : Option String) : Bool :=
  id.all fun id => paintsCold id r.known r.overlay

/-- The ids to draw, or none for a scan by the query's predicate. -/
def ids (r : Reading Row) : Option (List String) :=
  let e := r.entry
  let localArray := if e.lifecycle.phase = .cold ∧ e.isWindow = true then
    e.localArray.filter fun row => r.paints (some row.1) else e.localArray
  (resolveMembership e.lifecycle.phase e.remoteArray localArray e.isWindow).map fun membership =>
    buildRenderIds membership e.localArray r.overlay e.hasExplicitOrder e.isWindow

/-- The rows the store answers with; a scan leaves out what may not paint. -/
def draw (env : Env Store Row) (r : Reading Row) (store : Store) (hash : String) :
    Option (List Row) :=
  (env.select store hash r.ids).map fun rows =>
    if r.ids.isSome then rows
    else rows.filter fun row => r.paints (env.rowKey row) &&
      !(env.rowKey row).any fun key => r.overlay.deletes key

end Reading

/-- `materialize`, by the request it waits for. -/
inductive Render (Row : Type) where
  /-- The local read is out. -/
  | reading (r : Reading Row)
  | read (r : Reading Row) (rows : List Row)
  /-- The entry was read again. -/
  | checked (r : Reading Row) (rows : List Row) (changed answered flips : Bool)
  /-- The rows are in the state and are to be handed out. -/
  | telling (rows : List Row) (changed flips : Bool)

/-- What a render draws, until its rows are written. -/
def Render.drawing {Row : Type} : Render Row → Option (Reading Row)
  | .reading r | .read r _ | .checked r _ _ _ _ => some r
  | .telling .. => none

/-- A render whose rows are the entry's. -/
structure Drawn (Row : Type) where
  reading : Reading Row
  rows : List Row

/-- A tab: its state and store, at most one render of a query, the rows its subscribers were handed
    last, and whether they were told that these are known. `drawn` notes the render that the
    entry's rows are of. -/
structure Tab (Store Row : Type) where
  client : ClientState Row
  store : Store
  renders : String → Option (Render Row)
  emitted : String → List Row
  authority : String → Bool
  drawn : String → Option (Drawn Row)
  nextRef : Nat

/-- What happens in a tab. -/
inductive TabAct (Store : Type) where
  | change (a : Change)
  /-- The store is written. -/
  | write (store : Store)
  /-- `materialize` starts; some ids are vouched for. -/
  | materialize (hash : String) (known : String → Bool)
  /-- The store answers. -/
  | land (hash : String)
  /-- The entry is read again. -/
  | current (hash : String)
  /-- `setRecords`. -/
  | paint (hash : String)
  /-- `query:records`, then `query:authority`. -/
  | tell (hash : String)

namespace Tab

variable {Store Row : Type}

def fresh (store : Store) : Tab Store Row :=
  ⟨ClientState.empty, store, fun _ => none, fun _ => [], fun _ => false, fun _ => none, 0⟩

/-- A query that registers has handed out and drawn nothing. -/
def emittedAfter (t : Tab Store Row) : Change → String → List Row
  | .putQuery hash .. => update t.emitted hash []
  | _ => t.emitted

def drawnAfter (t : Tab Store Row) : Change → String → Option (Drawn Row)
  | .putQuery hash .. => update t.drawn hash none
  | _ => t.drawn

def setRender (t : Tab Store Row) (hash : String) (r : Option (Render Row)) : Tab Store Row :=
  { t with renders := update t.renders hash r }

section

variable [DecidableEq Row] (env : Env Store Row)

/-- `setRecords`, of an entry. -/
def withRecords (e : QueryEntry Row) (rows : List Row) (changed answered : Bool) : QueryEntry Row :=
  { e with
    records := if changed then rows else e.records
    lifecycle := { e.lifecycle with
      notified := true
      answered := e.lifecycle.answered || answered && e.lifecycle.phase ≠ .cold } }

/-- `setRecords`, which takes the mark away. -/
def setRecords (hash : String) (rows : List Row) (changed answered : Bool) (s : ClientState Row) :
    ClientState Row :=
  match s.queries hash with
  | none => s
  | some e => { s with
      queries := update s.queries hash (some (withRecords e rows changed answered))
      dirty := update s.dirty hash false }

def step (t : Tab Store Row) : TabAct Store → Option (Tab Store Row)
  | .change a => (a.run t.nextRef t.client).map fun client =>
      { t with
        client
        emitted := t.emittedAfter a
        drawn := t.drawnAfter a
        nextRef := t.nextRef + 1 }
  | .write store => some { t with store }
  | .materialize hash known =>
    match t.renders hash, t.client.queries hash with
    | none, some entry => some (t.setRender hash (some (.reading
        { entry, overlay := t.client.overlay, known
          complete := (t.client.needed hash).isEmpty })))
    | _, _ => none
  | .land hash =>
    match t.renders hash with
    | some (.reading r) =>
      match r.draw env t.store hash with
      | some rows => some (t.setRender hash (some (.read r rows)))
      -- `recordError` and `clearDirty`.
      | none => some ({ t with client := t.client.clearDirty hash }.setRender hash none)
    | _ => none
  | .current hash =>
    match t.renders hash with
    | some (.read r rows) =>
      match t.client.queries hash with
      | none => some (t.setRender hash none)
      | some e =>
        let answered := r.complete && decide (r.entry.lifecycle.phase ≠ .cold) &&
          decide (e.lifecycle.phase ≠ .cold) && decide (e.arrayRef = r.entry.arrayRef)
        some (t.setRender hash (some (.checked r rows (decide (rows ≠ e.records)) answered
          (answered && !e.lifecycle.answered))))
    | _ => none
  | .paint hash =>
    match t.renders hash with
    | some (.checked r rows changed answered flips) =>
      some { t with
        client := setRecords hash rows changed answered t.client
        drawn := update t.drawn hash (some ⟨r, rows⟩)
        renders := update t.renders hash (some (.telling rows changed flips)) }
    | _ => none
  | .tell hash =>
    match t.renders hash with
    | some (.telling rows changed flips) =>
      some { t with
        renders := update t.renders hash none
        emitted := if changed then update t.emitted hash rows else t.emitted
        authority := if flips then update t.authority hash true else t.authority }
    | _ => none

end

/-! ## Settled means shown -/

/-- The rows a query's subscribers were handed last, the hand-over under way included. -/
def handed (t : Tab Store Row) (hash : String) : List Row :=
  match t.renders hash with
  | some (.telling rows true _) => rows
  | _ => t.emitted hash

variable (env : Env Store Row)

/-- The entry's rows are those of a render with the entry's membership, if it has one, and with
    the overlay that stands on its table. -/
def Shows (t : Tab Store Row) (hash : String) (e : QueryEntry Row) : Prop :=
  ∃ d store, t.drawn hash = some d ∧ d.reading.draw env store hash = some d.rows ∧
    e.records = d.rows ∧ d.reading.entry.remoteArray = e.remoteArray ∧
    (d.reading.entry.lifecycle.phase = .cold ↔ e.lifecycle.phase = .cold) ∧
    Overlay.AgreesOn e.tableName d.reading.overlay t.client.overlay

/-- What `settled` says: the rows are those of a render of the membership and overlay in state. -/
def SettledShown (t : Tab Store Row) (hash : String) : Prop :=
  t.client.settled hash = true → ∃ e, t.client.queries hash = some e ∧
    e.lifecycle.phase ≠ .cold ∧ t.Shows env hash e

/-- What an answer says: the rows handed out are those of the membership in state, of which no body
    is missing. -/
def AnswerShown (t : Tab Store Row) (hash : String) : Prop :=
  ∃ e, t.client.queries hash = some e ∧ e.lifecycle.phase ≠ .cold ∧ t.Shows env hash e ∧
    t.handed hash = e.records ∧ t.client.needed hash = []

/-- A query turns answered. -/
def Answers (t u : Tab Store Row) (hash : String) : Prop :=
  (∃ e, u.client.queries hash = some e ∧ e.lifecycle.answered = true) ∧
    ∀ e, t.client.queries hash = some e → e.lifecycle.answered = false

/-- A render's inputs stay until its rows are written, and no query registers while one of its hash
    is out. -/
def Spares (t : Tab Store Row) (s' : ClientState Row) (hash : String) (rd : Render Row) : Prop :=
  (t.client.queries hash = none → s'.queries hash = none) ∧
    (rd.drawing.isSome = true → ∀ e e', t.client.queries hash = some e →
      s'.queries hash = some e' → SameInputs t.client s' e e' ∧
        (t.client.needed hash = [] → s'.needed hash = []))

/-- Nothing a render reads moves before its rows are written; a commit moves the overlay on
    another query's table only where that query is marked; a read that fails draws nothing that
    the last render did not draw. -/
def Quiet (t : Tab Store Row) : TabAct Store → Prop
  | .change a => ∀ s', a.run t.nextRef t.client = some s' → ∀ hash,
      (∀ rd, t.renders hash = some rd → t.Spares s' hash rd) ∧
      (CommitsOther hash a → ∀ e, t.client.queries hash = some e →
        t.client.dirty hash = false → Overlay.AgreesOn e.tableName t.client.overlay s'.overlay)
  | .land hash => ∀ r, t.renders hash = some (.reading r) → r.draw env t.store hash = none →
      ∃ d, t.drawn hash = some d ∧ d.reading.entry.remoteArray = r.entry.remoteArray ∧
        (d.reading.entry.lifecycle.phase = .cold ↔ r.entry.lifecycle.phase = .cold) ∧
        Overlay.AgreesOn r.entry.tableName d.reading.overlay r.overlay
  | _ => True

/-! ## What a quiet tab keeps -/

/-- What a render read is still so. -/
structure Current (s : ClientState Row) (hash : String) (r : Reading Row) (e : QueryEntry Row) :
    Prop where
  tableName : r.entry.tableName = e.tableName
  remoteArray : r.entry.remoteArray = e.remoteArray
  cold : r.entry.lifecycle.phase = .cold ↔ e.lifecycle.phase = .cold
  overlay : Overlay.AgreesOn e.tableName r.overlay s.overlay
  complete : r.complete = true → s.needed hash = []

/-- What is known of a render's rows. -/
def RowsOf (s : ClientState Row) (hash : String) : Render Row → Prop
  | .read r rows => ∃ store, r.draw env store hash = some rows
  | .checked r rows changed answered _ => (∃ store, r.draw env store hash = some rows) ∧
      (answered = true → r.complete = true ∧ r.entry.lifecycle.phase ≠ .cold) ∧
      (changed = false → ∀ e, s.queries hash = some e → e.records = rows)
  | _ => True

structure Holds (t : Tab Store Row) : Prop where
  nodup : (t.client.outbox.map (·.id)).Nodup
  shows : ∀ hash e, t.client.queries hash = some e → e.lifecycle.notified = true →
    t.client.dirty hash = false → t.Shows env hash e
  current : ∀ hash rd r e, t.renders hash = some rd → rd.drawing = some r →
    t.client.queries hash = some e → Current t.client hash r e
  rows : ∀ hash rd, t.renders hash = some rd → RowsOf env t.client hash rd
  handed : ∀ hash e, t.client.queries hash = some e → t.handed hash = e.records
  drawn : ∀ hash e d, t.client.queries hash = some e → t.drawn hash = some d →
    e.records = d.rows ∧ ∃ store, d.reading.draw env store hash = some d.rows

variable {env} {hash : String}

theorem Shows.congr {t u : Tab Store Row} {e e' : QueryEntry Row}
    (h : t.Shows env hash e) (hd : u.drawn hash = t.drawn hash)
    (htable : e'.tableName = e.tableName) (hrec : e'.records = e.records)
    (hin : SameInputs t.client u.client e e') : u.Shows env hash e' := by
  obtain ⟨d, store, hdrawn, hrows, hrecords, hremote, hcold, hover⟩ := h
  refine ⟨d, store, hd.trans hdrawn, hrows, hrec.trans hrecords,
    hremote.trans hin.remoteArray.symm, hcold.trans hin.cold.symm, ?_⟩
  rw [htable]
  exact hover.trans hin.overlay

theorem Current.congr {s s' : ClientState Row} {r : Reading Row}
    {e e' : QueryEntry Row} (h : Current s hash r e) (htable : e'.tableName = e.tableName)
    (hin : SameInputs s s' e e') (hneeded : s.needed hash = [] → s'.needed hash = []) :
    Current s' hash r e' := by
  refine ⟨h.tableName.trans htable.symm, h.remoteArray.trans hin.remoteArray.symm,
    h.cold.trans hin.cold.symm, ?_, fun hc => hneeded (h.complete hc)⟩
  rw [htable]
  exact h.overlay.trans hin.overlay

/-- What was handed out depends on the query's render and on what was emitted. -/
theorem handed_congr {t u : Tab Store Row} (hr : u.renders hash = t.renders hash)
    (he : u.emitted hash = t.emitted hash) : u.handed hash = t.handed hash := by
  unfold handed
  rw [hr, he]

variable {a : Change}

theorem emittedAfter_of_not_registers (t : Tab Store Row)
    (h : ¬ Registers hash a) : t.emittedAfter a hash = t.emitted hash := by
  cases a with
  | putQuery h' => exact update_of_ne (fun heq => h heq.symm) _ _
  | _ => rfl

theorem drawnAfter_of_not_registers (t : Tab Store Row)
    (h : ¬ Registers hash a) : t.drawnAfter a hash = t.drawn hash := by
  cases a with
  | putQuery h' => exact update_of_ne (fun heq => h heq.symm) _ _
  | _ => rfl

theorem drawnAfter_of_registers (t : Tab Store Row)
    (h : Registers hash a) : t.drawnAfter a hash = none := by
  cases a with
  | putQuery h' =>
    obtain rfl : h' = hash := h
    exact update_self ..
  | _ => exact h.elim

theorem emittedAfter_of_registers (t : Tab Store Row)
    (h : Registers hash a) : t.emittedAfter a hash = [] := by
  cases a with
  | putQuery h' =>
    obtain rfl : h' = hash := h
    exact update_self ..
  | _ => exact h.elim

@[simp] theorem setRender_renders (t : Tab Store Row) (hash : String) (rd : Option (Render Row)) :
    (t.setRender hash rd).renders = update t.renders hash rd := rfl

/-- Only the hand-over under way counts as handed out before it is emitted. -/
theorem handed_eq_emitted {t : Tab Store Row}
    (h : ∀ rows flips, t.renders hash ≠ some (.telling rows true flips)) :
    t.handed hash = t.emitted hash := by
  unfold handed
  split
  next rows flips heq => exact absurd heq (h rows flips)
  next => rfl

theorem handed_setRender {t : Tab Store Row} {rd : Option (Render Row)}
    (h : ∀ rows flips, t.renders hash ≠ some (.telling rows true flips))
    (h' : ∀ rows flips, rd ≠ some (.telling rows true flips)) :
    (t.setRender hash rd).handed hash = t.handed hash := by
  rw [handed_eq_emitted h, handed_eq_emitted]
  · rfl
  · intro rows flips
    rw [setRender_renders, update_self]
    exact h' rows flips

/-- A step that leaves the state alone and touches one render. -/
theorem Holds.withRender {t : Tab Store Row} (h : t.Holds env) {rd : Option (Render Row)}
    (hcurrent : ∀ rd', rd = some rd' → ∀ r e, rd'.drawing = some r →
      t.client.queries hash = some e → Current t.client hash r e)
    (hrows : ∀ rd', rd = some rd' → RowsOf env t.client hash rd')
    (hhanded : ∀ e, t.client.queries hash = some e →
      (t.setRender hash rd).handed hash = t.handed hash) : (t.setRender hash rd).Holds env := by
  refine ⟨h.nodup, h.shows, ?_, ?_, ?_, h.drawn⟩
  · intro h' rd' r e hrd hr he
    by_cases heq : h' = hash
    · subst heq
      rw [setRender_renders, update_self] at hrd
      exact hcurrent rd' hrd r e hr he
    · rw [setRender_renders, update_of_ne heq] at hrd
      exact h.current h' rd' r e hrd hr he
  · intro h' rd' hrd
    by_cases heq : h' = hash
    · subst heq
      rw [setRender_renders, update_self] at hrd
      exact hrows rd' hrd
    · rw [setRender_renders, update_of_ne heq] at hrd
      exact h.rows h' rd' hrd
  · intro h' e he
    by_cases heq : h' = hash
    · subst heq
      exact (hhanded e he).trans (h.handed h' e he)
    · have hsame := @handed_congr Store Row h' t (t.setRender hash rd)
        (update_of_ne heq _ _) rfl
      exact hsame.trans (h.handed h' e he)

theorem setRecords_queries (hash : String) (rows : List Row) (changed answered : Bool)
    (s : ClientState Row) (h' : String) :
    (setRecords hash rows changed answered s).queries h' =
      if h' = hash then (s.queries hash).map fun e => withRecords e rows changed answered
      else s.queries h' := by
  unfold setRecords
  split
  next hnone =>
    split
    next heq => rw [heq, hnone, Option.map_none]
    next => rfl
  next e he =>
    simp only [update_apply]
    split
    next => rw [he, Option.map_some]
    next => rfl

theorem setRecords_rest (hash : String) (rows : List Row) (changed answered : Bool)
    (s : ClientState Row) : (setRecords hash rows changed answered s).outbox = s.outbox ∧
      (setRecords hash rows changed answered s).overlay = s.overlay ∧
      ∀ h', h' ≠ hash → (setRecords hash rows changed answered s).dirty h' = s.dirty h' := by
  unfold setRecords
  split
  next => exact ⟨rfl, rfl, fun _ _ => rfl⟩
  next => exact ⟨rfl, rfl, fun h' hne => update_of_ne hne _ _⟩

/-- Writing rows makes no body missing. -/
theorem setRecords_needed (hash : String) (rows : List Row) (changed answered : Bool)
    (s : ClientState Row) (h' : String) :
    (setRecords hash rows changed answered s).needed h' = s.needed h' := by
  unfold setRecords
  split
  next => rfl
  next e he =>
    unfold ClientState.needed
    simp only [update_apply]
    by_cases heq : h' = hash
    · subst heq
      rw [if_pos rfl, he]
      rfl
    · rw [if_neg heq]
      rfl

/-- The rows a render writes. -/
theorem withRecords_records {e : QueryEntry Row} {rows : List Row} {changed answered : Bool}
    (h : changed = false → e.records = rows) :
    (withRecords e rows changed answered).records = rows := by
  cases changed with
  | true => rfl
  | false => exact h rfl

section

variable [DecidableEq Row] {t u : Tab Store Row}

theorem Holds.change (h : t.Holds env) {a : Change} (hq : t.Quiet env (.change a))
    (hstep : t.step env (.change a) = some u) : u.Holds env := by
  obtain ⟨s', hrun, rfl⟩ := Option.map_eq_some_iff.mp hstep
  have hquiet := hq s' hrun
  have hacc : ∀ hash e', s'.queries hash = some e' → Accounted a t.client s' hash e' :=
    fun hash e' he' => run_accounted h.nodup hrun he'
  have hnot : ∀ {hash e}, t.client.queries hash = some e → ¬ Registers hash a := by
    intro hash e he hreg
    rw [hreg.queries hrun] at he
    cases he
  refine ⟨run_nodup h.nodup hrun, ?_, ?_, ?_, ?_, ?_⟩
  · intro hash e' he' hnotified hclean
    rcases hacc hash e' he' with ⟨-, -, hdirty, -⟩ | ⟨e, he, hc, hin⟩
    · exact absurd hdirty (by rw [hclean]; exact Bool.false_ne_true)
    · have hclean₀ : t.client.dirty hash = false := by
        cases hd : t.client.dirty hash with
        | false => rfl
        | true => exact absurd (hc.dirty hd) (by rw [hclean]; exact Bool.false_ne_true)
      have hshows := h.shows hash e he (hc.notified hnotified) hclean₀
      have hdrawn := drawnAfter_of_not_registers t (hnot he)
      rcases hin with hsame | hdirty | ⟨hother, rfl, -⟩
      · exact hshows.congr hdrawn hc.tableName hc.records hsame
      · exact absurd hdirty (by rw [hclean]; exact Bool.false_ne_true)
      · exact hshows.congr hdrawn rfl rfl
          ⟨rfl, Iff.rfl, (hquiet hash).2 hother e' he hclean₀⟩
  · intro hash rd r e' hrd hr he'
    obtain ⟨hnone, hspare⟩ := (hquiet hash).1 rd hrd
    rcases hacc hash e' he' with ⟨-, hnew, -⟩ | ⟨e, he, hc, -⟩
    · rw [hnone hnew] at he'
      cases he'
    · obtain ⟨hsame, hneeded⟩ := hspare (by rw [hr]; rfl) e e' he he'
      exact (h.current hash rd r e hrd hr he).congr hc.tableName hsame hneeded
  · intro hash rd hrd
    have hrows := h.rows hash rd hrd
    cases rd with
    | checked r rows changed answered flips =>
      refine ⟨hrows.1, hrows.2.1, fun hch e' he' => ?_⟩
      obtain ⟨hnone, -⟩ := (hquiet hash).1 _ hrd
      rcases hacc hash e' he' with ⟨-, hnew, -⟩ | ⟨e, he, hc, -⟩
      · rw [hnone hnew] at he'
        cases he'
      · exact hc.records.trans (hrows.2.2 hch e he)
    | _ => exact hrows
  · intro hash e' he'
    rcases hacc hash e' he' with ⟨hreg, hnew, -, hrecords, -⟩ | ⟨e, he, hc, -⟩
    · -- No render of a query that registers is out.
      have hnorender : t.renders hash = none := by
        cases hrd : t.renders hash with
        | none => rfl
        | some rd =>
          rw [((hquiet hash).1 rd hrd).1 hnew] at he'
          cases he'
      unfold Tab.handed
      simp only [hnorender]
      rw [emittedAfter_of_registers t hreg, hrecords]
    · have hsame := @handed_congr Store Row _ t { t with
        client := s', emitted := t.emittedAfter a, drawn := t.drawnAfter a
        nextRef := t.nextRef + 1 } rfl (emittedAfter_of_not_registers t (hnot he))
      rw [hsame, h.handed hash e he, hc.records]
  · intro hash e' d he' hd
    rcases hacc hash e' he' with ⟨hreg, -⟩ | ⟨e, he, hc, -⟩
    · have hnone := (drawnAfter_of_registers t hreg).symm.trans hd
      cases hnone
    · replace hd := (drawnAfter_of_not_registers t (hnot he)).symm.trans hd
      rw [hc.records]
      exact h.drawn hash e d he hd

variable {hash : String}

theorem Holds.materialize (h : t.Holds env) {known : String → Bool}
    (hstep : t.step env (.materialize hash known) = some u) : u.Holds env := by
  unfold step at hstep
  simp only at hstep
  split at hstep
  next entry hnone he =>
    obtain rfl := Option.some.inj hstep
    refine h.withRender ?_ ?_ ?_
    · intro rd' hrd' r e hr he'
      obtain rfl := Option.some.inj hrd'
      obtain rfl := Option.some.inj hr
      rw [he] at he'
      obtain rfl := Option.some.inj he'
      exact ⟨rfl, rfl, Iff.rfl, Overlay.AgreesOn.refl _ _, fun hc => List.isEmpty_iff.mp hc⟩
    · intro rd' hrd'
      obtain rfl := Option.some.inj hrd'
      trivial
    · intro e _
      refine handed_setRender (fun _ _ => ?_) ?_
      · rw [hnone]
        exact fun hc => by cases hc
      · exact fun _ _ hc => by cases hc
  next => cases hstep

theorem Holds.land (h : t.Holds env) (hq : t.Quiet env (.land hash))
    (hstep : t.step env (.land hash) = some u) : u.Holds env := by
  unfold step at hstep
  simp only at hstep
  split at hstep
  next r hr =>
    split at hstep
    next rows hrows =>
      obtain rfl := Option.some.inj hstep
      refine h.withRender ?_ ?_ ?_
      · intro rd' hrd' r' e hr' he
        obtain rfl := Option.some.inj hrd'
        obtain rfl := Option.some.inj hr'
        exact h.current hash _ r e hr rfl he
      · intro rd' hrd'
        obtain rfl := Option.some.inj hrd'
        exact ⟨t.store, hrows⟩
      · intro e _
        refine handed_setRender (fun _ _ => ?_) ?_
        · rw [hr]
          exact fun hc => by cases hc
        · exact fun _ _ hc => by cases hc
    next hfail =>
      obtain rfl := Option.some.inj hstep
      -- The mark goes, and the rows are of a render of what was read.
      have hclear : Holds env { t with client := t.client.clearDirty hash } := by
        refine ⟨h.nodup, ?_, fun h' rd r e hrd hr he => (h.current h' rd r e hrd hr he).congr rfl
          ⟨rfl, Iff.rfl, fun _ _ => rfl⟩ fun hn => hn, h.rows, h.handed, h.drawn⟩
        intro h' e he hnotified hclean
        by_cases heq : h' = hash
        · subst heq
          obtain ⟨d, hd, hremote, hcold, hover⟩ := hq r hr hfail
          obtain ⟨hrecords, store, hdraw⟩ := h.drawn h' e d he hd
          have hcur := h.current h' _ r e hr rfl he
          refine ⟨d, store, hd, hdraw, hrecords, hremote.trans hcur.remoteArray,
            hcold.trans hcur.cold, ?_⟩
          rw [hcur.tableName] at hover
          exact hover.trans hcur.overlay
        · refine h.shows h' e he hnotified ?_
          exact (update_of_ne heq _ _).symm.trans hclean
      refine hclear.withRender (fun _ hc => by cases hc) (fun _ hc => by cases hc) ?_
      intro e _
      refine handed_setRender (fun _ _ => ?_) (fun _ _ hc => by cases hc)
      change t.renders hash ≠ _
      rw [hr]
      exact fun hc => by cases hc
  next => cases hstep

theorem Holds.currentRead (h : t.Holds env)
    (hstep : t.step env (.current hash) = some u) : u.Holds env := by
  unfold step at hstep
  simp only at hstep
  split at hstep
  next r rows hr =>
    have hplain : ∀ rows flips, t.renders hash ≠ some (.telling rows true flips) := by
      intro _ _
      rw [hr]
      exact fun hc => by cases hc
    split at hstep
    next hnone =>
      obtain rfl := Option.some.inj hstep
      exact h.withRender (fun _ hc => by cases hc) (fun _ hc => by cases hc)
        fun _ _ => handed_setRender hplain fun _ _ hc => by cases hc
    next e he =>
      obtain rfl := Option.some.inj hstep
      refine h.withRender ?_ ?_ fun _ _ => handed_setRender hplain fun _ _ hc => by cases hc
      · intro rd' hrd' r' e' hr' he'
        obtain rfl := Option.some.inj hrd'
        obtain rfl := Option.some.inj hr'
        exact h.current hash _ r e' hr rfl he'
      · intro rd' hrd'
        obtain rfl := Option.some.inj hrd'
        refine ⟨h.rows hash _ hr, ?_, ?_⟩
        · intro hanswered
          simp only [Bool.and_eq_true, decide_eq_true_eq] at hanswered
          exact ⟨hanswered.1.1.1, hanswered.1.1.2⟩
        · intro hchanged e' he'
          rw [he] at he'
          obtain rfl := Option.some.inj he'
          have := of_decide_eq_false hchanged
          exact (not_not.mp this).symm
  next => cases hstep

theorem Holds.paint (h : t.Holds env)
    (hstep : t.step env (.paint hash) = some u) : u.Holds env := by
  unfold step at hstep
  simp only at hstep
  split at hstep
  next r rows changed answered flips hr =>
    obtain rfl := Option.some.inj hstep
    obtain ⟨hdrawn, -, hsame⟩ : (∃ store, r.draw env store hash = some rows) ∧ _ ∧ _ :=
      h.rows hash _ hr
    obtain ⟨houtbox, hover, hdirty⟩ := setRecords_rest hash rows changed answered t.client
    have hother : ∀ {h' e'}, h' ≠ hash →
        (setRecords hash rows changed answered t.client).queries h' = some e' →
          t.client.queries h' = some e' := by
      intro h' e' hne he'
      rw [setRecords_queries, if_neg hne] at he'
      exact he'
    have hself : ∀ {e'}, (setRecords hash rows changed answered t.client).queries hash = some e' →
        ∃ e, t.client.queries hash = some e ∧ e' = withRecords e rows changed answered := by
      intro e' he'
      rw [setRecords_queries, if_pos rfl] at he'
      obtain ⟨e, he, rfl⟩ := Option.map_eq_some_iff.mp he'
      exact ⟨e, he, rfl⟩
    have hsameInputs : ∀ e, SameInputs t.client (setRecords hash rows changed answered t.client) e e :=
      fun e => ⟨rfl, Iff.rfl, by rw [hover]; exact Overlay.AgreesOn.refl _ _⟩
    refine ⟨by rw [houtbox]; exact h.nodup, ?_, ?_, ?_, ?_, ?_⟩
    · intro h' e' he' hnotified hclean
      by_cases heq : h' = hash
      · subst heq
        obtain ⟨e, he, rfl⟩ := hself he'
        obtain ⟨store, hdraw⟩ := hdrawn
        have hcur := h.current h' _ r e hr rfl he
        refine ⟨⟨r, rows⟩, store, update_self .., hdraw,
          withRecords_records fun hc => hsame hc e he, hcur.remoteArray, hcur.cold, ?_⟩
        change Overlay.AgreesOn e.tableName r.overlay _
        rw [hover]
        exact hcur.overlay
      · have he := hother heq he'
        rw [hdirty h' heq] at hclean
        exact (h.shows h' e' he hnotified hclean).congr (update_of_ne heq _ _) rfl rfl
          (hsameInputs e')
    · intro h' rd' r' e' hrd hr' he'
      by_cases heq : h' = hash
      · subst heq
        simp only [update_self] at hrd
        obtain rfl := Option.some.inj hrd
        cases hr'
      · simp only [update_of_ne heq] at hrd
        exact (h.current h' rd' r' e' hrd hr' (hother heq he')).congr rfl (hsameInputs e')
          fun hn => (setRecords_needed ..).trans hn
    · intro h' rd' hrd
      by_cases heq : h' = hash
      · subst heq
        simp only [update_self] at hrd
        obtain rfl := Option.some.inj hrd
        trivial
      · simp only [update_of_ne heq] at hrd
        have hrows := h.rows h' rd' hrd
        cases rd' with
        | checked r' rows' changed' answered' flips' =>
          exact ⟨hrows.1, hrows.2.1, fun hc e' he' => hrows.2.2 hc e' (hother heq he')⟩
        | _ => exact hrows
    · intro h' e' he'
      by_cases heq : h' = hash
      · subst heq
        obtain ⟨e, he, rfl⟩ := hself he'
        rw [withRecords_records fun hc => hsame hc e he]
        unfold Tab.handed
        simp only [update_self]
        cases changed with
        | true => rfl
        | false =>
          have hhanded := h.handed h' e he
          rw [handed_eq_emitted (by rw [hr]; exact fun _ _ hc => by cases hc)] at hhanded
          exact hhanded.trans (hsame rfl e he)
      · have hcongr := @handed_congr Store Row _ t { t with
          client := setRecords hash rows changed answered t.client
          drawn := update t.drawn hash (some ⟨r, rows⟩)
          renders := update t.renders hash (some (.telling rows changed flips)) }
          (update_of_ne heq _ _) rfl
        exact hcongr.trans (h.handed h' e' (hother heq he'))
    · intro h' e' d he' hd
      by_cases heq : h' = hash
      · subst heq
        obtain ⟨e, he, rfl⟩ := hself he'
        simp only [update_self] at hd
        obtain rfl := Option.some.inj hd
        exact ⟨withRecords_records fun hc => hsame hc e he, hdrawn⟩
      · simp only [update_of_ne heq] at hd
        exact h.drawn h' e' d (hother heq he') hd
  next => cases hstep

theorem Holds.tell (h : t.Holds env)
    (hstep : t.step env (.tell hash) = some u) : u.Holds env := by
  unfold step at hstep
  simp only at hstep
  split at hstep
  next rows changed flips hr =>
    obtain rfl := Option.some.inj hstep
    refine ⟨h.nodup, h.shows, ?_, ?_, ?_, h.drawn⟩
    · intro h' rd r e hrd hr' he
      by_cases heq : h' = hash
      · subst heq
        simp only [update_self] at hrd
        cases hrd
      · simp only [update_of_ne heq] at hrd
        exact h.current h' rd r e hrd hr' he
    · intro h' rd hrd
      by_cases heq : h' = hash
      · subst heq
        simp only [update_self] at hrd
        cases hrd
      · simp only [update_of_ne heq] at hrd
        exact h.rows h' rd hrd
    · intro h' e he
      have hhanded := h.handed h' e he
      by_cases heq : h' = hash
      · subst heq
        unfold Tab.handed at hhanded ⊢
        rw [hr] at hhanded
        simp only [update_self]
        cases changed with
        | true => exact (update_self ..).trans hhanded
        | false => exact hhanded
      · refine Eq.trans ?_ hhanded
        refine handed_congr (update_of_ne heq _ _) ?_
        cases changed with
        | true => exact update_of_ne heq _ _
        | false => rfl
  next => cases hstep

theorem Holds.step (h : t.Holds env) {a : TabAct Store} (hq : t.Quiet env a)
    (hstep : t.step env a = some u) : u.Holds env := by
  cases a with
  | change a => exact h.change hq hstep
  | write store =>
    obtain rfl := Option.some.inj hstep
    exact ⟨h.nodup, h.shows, h.current, h.rows, h.handed, h.drawn⟩
  | materialize hash known => exact h.materialize hstep
  | land hash => exact h.land hq hstep
  | current hash => exact h.currentRead hstep
  | paint hash => exact h.paint hstep
  | tell hash => exact h.tell hstep

end

theorem holds_fresh (store : Store) : (fresh store : Tab Store Row).Holds env := by
  refine ⟨List.nodup_nil, ?_, ?_, ?_, ?_, ?_⟩
  · exact fun _ _ he => nomatch he
  · exact fun _ _ _ _ hrd => nomatch hrd
  · exact fun _ _ hrd => nomatch hrd
  · exact fun _ _ he => nomatch he
  · exact fun _ _ _ he => nomatch he

theorem holds_of_run [DecidableEq Row] {store : Store} {t : Tab Store Row}
    (h : Run (Tab.step env) (Tab.Quiet env) (Tab.fresh store) t) : t.Holds env :=
  h.invariant (holds_fresh store) fun _ _ _ ht hq hstep => ht.step hq hstep

theorem Holds.settled {t : Tab Store Row} (h : t.Holds env) (hash : String) :
    t.SettledShown env hash := by
  intro hs
  unfold ClientState.settled at hs
  split at hs
  next => cases hs
  next e he =>
    simp only [Bool.and_eq_true, decide_eq_true_eq, Bool.not_eq_true'] at hs
    obtain ⟨⟨⟨hlive, -⟩, hclean⟩, hnotified⟩ := hs
    refine ⟨e, he, ?_, h.shows hash e he hnotified hclean⟩
    rw [hlive]
    exact fun hc => by cases hc

/-- Only changes and the writing of rows touch the queries. -/
theorem step_queries [DecidableEq Row] {t u : Tab Store Row} {a : TabAct Store}
    (hstep : t.step env a = some u) : (∃ c, a = .change c) ∨ (∃ hash, a = .paint hash) ∨
      u.client.queries = t.client.queries := by
  cases a with
  | change c => exact .inl ⟨c, rfl⟩
  | paint hash => exact .inr (.inl ⟨hash, rfl⟩)
  | write store =>
    obtain rfl := Option.some.inj hstep
    exact .inr (.inr rfl)
  | _ =>
    refine .inr (.inr ?_)
    unfold step at hstep
    simp only at hstep
    split at hstep
    all_goals try split at hstep
    all_goals cases hstep <;> rfl

/-- Only the writing of rows answers a query. -/
theorem Answers.paint [DecidableEq Row] {t u : Tab Store Row} {a : TabAct Store}
    (h : t.Holds env) (hstep : t.step env a = some u) (ha : Answers t u hash) :
    a = .paint hash := by
  obtain ⟨⟨e', he', hanswered⟩, hbefore⟩ := ha
  have hsame : t.client.queries hash ≠ some e' := by
    intro he
    rw [hbefore e' he] at hanswered
    cases hanswered
  rcases step_queries hstep with ⟨c, rfl⟩ | ⟨h', rfl⟩ | hqueries
  · obtain ⟨s', hrun, rfl⟩ := Option.map_eq_some_iff.mp hstep
    rcases run_accounted h.nodup hrun he' with ⟨-, -, -, -, -, hnot⟩ | ⟨e, he, hc, -⟩
    · rw [hnot] at hanswered
      cases hanswered
    · rw [hc.answered, hbefore e he] at hanswered
      cases hanswered
  · by_cases heq : h' = hash
    · rw [heq]
    · unfold step at hstep
      simp only at hstep
      split at hstep
      next =>
        obtain rfl := Option.some.inj hstep
        simp only [setRecords_queries, if_neg fun hc => heq (Eq.symm hc)] at he'
        exact absurd he' hsame
      next => cases hstep
  · rw [hqueries] at he'
    exact absurd he' hsame

theorem Holds.answer [DecidableEq Row] {t u : Tab Store Row} {a : TabAct Store}
    (h : t.Holds env) (hstep : t.step env a = some u) (ha : Answers t u hash) :
    u.AnswerShown env hash := by
  obtain rfl := ha.paint h hstep
  have hu := h.paint hstep
  obtain ⟨⟨e', he', hanswered⟩, hbefore⟩ := ha
  unfold Tab.step at hstep
  simp only at hstep
  split at hstep
  next r rows changed answered flips hr =>
    obtain rfl := Option.some.inj hstep
    have hq := he'
    simp only [setRecords_queries, if_pos] at hq
    obtain ⟨e, he, rfl⟩ := Option.map_eq_some_iff.mp hq
    have hcur := h.current hash _ r e hr rfl he
    have hrows : _ ∧ _ ∧ _ := h.rows hash _ hr
    have hmade : answered = true ∧ e.lifecycle.phase ≠ .cold := by
      simpa [withRecords, hbefore e he] using hanswered
    obtain ⟨hcomplete, -⟩ := hrows.2.1 hmade.1
    refine ⟨_, he', hmade.2, hu.shows hash _ he' rfl ?_, hu.handed hash _ he', ?_⟩
    · unfold setRecords
      simp only [he, update_self]
    · exact (setRecords_needed ..).trans (hcur.complete hcomplete)
  next => cases hstep

/-- **Settled means shown**, as long as a tab is quiet. -/
theorem settled_shown [DecidableEq Row] (env : Env Store Row) (store : Store) (t : Tab Store Row)
    (h : Run (Tab.step env) (Tab.Quiet env) (Tab.fresh store) t) :
    (∀ hash, t.SettledShown env hash) ∧
      ∀ a u hash, t.Quiet env a → t.step env a = some u → Answers t u hash →
        u.AnswerShown env hash := by
  have hholds := holds_of_run h
  exact ⟨hholds.settled, fun a u hash _ hstep ha => hholds.answer hstep ha⟩

/-! ### Two runs -/

/-- A store that answers with the ids it is asked for. -/
def echo : Env Unit String := ⟨fun _ _ ids => some (ids.getD []), some⟩

/-- A query comes back with the membership it had. -/
def registered : Change := .putQuery "q" "t" false false true [("t:1", 1)] []

/-- Where no render is out, only a commit beside an unmarked query is not quiet. -/
theorem quiet_change {t : Tab Store Row} (hr : ∀ hash, t.renders hash = none)
    (hc : ∀ hash, CommitsOther hash a → t.client.queries hash = none) :
    t.Quiet env (.change a) := by
  intro s' _ hash
  refine ⟨fun rd hrd => ?_, fun hother e he _ => ?_⟩
  · rw [hr hash] at hrd
    cases hrd
  · rw [hc hash hother] at he
    cases he

theorem change_client [DecidableEq Row] {t u : Tab Store Row}
    (h : t.step env (.change a) = some u) :
    a.run t.nextRef t.client = some u.client ∧ u.renders = t.renders := by
  obtain ⟨s', hrun, rfl⟩ := Option.map_eq_some_iff.mp h
  exact ⟨hrun, rfl⟩

/-- An act that moves no input, and a read that does not fail. -/
def calm (t : Tab Unit String) : TabAct Unit → Bool
  | .change _ => false
  | .land hash => (t.renders hash).all fun
    | .reading r => (r.draw echo t.store hash).isSome
    | _ => true
  | _ => true

theorem quiet_of_calm {t : Tab Unit String} {a : TabAct Unit} (h : t.calm a = true) :
    t.Quiet echo a := by
  cases a with
  | change => cases h
  | land hash =>
    intro r hr hnone
    unfold calm at h
    simp only [hr, Option.all_some, hnone, Option.isSome_none] at h
    cases h
  | _ => trivial

theorem settled_shown_once : ∃ t : Tab Unit String, t.client.settled "q" = true ∧
    (∀ hash, t.SettledShown echo hash) ∧
      ∀ a u hash, t.Quiet echo a → t.step echo a = some u → Answers t u hash →
        u.AnswerShown echo hash := by
  have hrun : (((fresh () : Tab Unit String).step echo (.change registered)).bind fun t =>
      (t.step echo (.change (.commitMembership "q" [("t:2", 1)] true))).bind fun t =>
        (t.step echo (.change (.setVersions [("t:2", 1)]))).bind fun t =>
          runAll (Tab.step echo) calm t
            [.materialize "q" fun _ => false, .land "q", .current "q", .paint "q"]).any
      (fun t => t.client.settled "q") = true := by decide +kernel
  obtain ⟨t, ht, hsettled⟩ := (Option.any_eq_true _ _).mp hrun
  obtain ⟨t₁, h₁, ht⟩ := Option.bind_eq_some_iff.mp ht
  obtain ⟨t₂, h₂, ht⟩ := Option.bind_eq_some_iff.mp ht
  obtain ⟨t₃, h₃, ht⟩ := Option.bind_eq_some_iff.mp ht
  have hcalm := (run_of_runAll ht).mono fun _ _ => quiet_of_calm
  obtain ⟨hs₁, hr₁⟩ := change_client h₁
  obtain ⟨-, hr₂⟩ := change_client h₂
  have hq₁ : (fresh () : Tab Unit String).Quiet echo (.change registered) :=
    quiet_change (fun _ => rfl) fun _ hc => False.elim hc
  have hq₂ : t₁.Quiet echo (.change (.commitMembership "q" [("t:2", 1)] true)) := by
    refine quiet_change (fun hash => by rw [hr₁]; rfl) fun hash hne => ?_
    rw [← Option.some.inj hs₁]
    exact update_of_ne (Ne.symm hne) _ _
  have hq₃ : t₂.Quiet echo (.change (.setVersions [("t:2", 1)])) :=
    quiet_change (fun hash => by rw [hr₂, hr₁]; rfl) fun _ hc => False.elim hc
  have hall := (((Run.start.next hq₁ h₁).next hq₂ h₂).next hq₃ h₃).trans hcalm
  exact ⟨t, hsettled, settled_shown echo () t hall⟩

/-- A commit lands while the read of a render is out. The rows are written and the mark goes: the
    query is settled over the rows of the membership it had. -/
theorem settled_stale : ¬ ∀ t, Run (Tab.step echo) (fun _ _ => True) (fresh ()) t →
    (∀ hash, t.SettledShown echo hash) ∧
      ∀ a u hash, t.step echo a = some u → Answers t u hash → u.AnswerShown echo hash := by
  intro hall
  have hrun : (runAll (Tab.step echo) (fun _ _ => true) (fresh ())
      [.change registered, .materialize "q" fun _ => false,
        .change (.commitMembership "q" [] true), .land "q", .current "q", .paint "q"]).any
      (fun t => t.client.settled "q" && (t.client.queries "q").all fun e =>
        (t.drawn "q").all fun d => decide (d.reading.entry.remoteArray ≠ e.remoteArray)) = true := by
    decide +kernel
  obtain ⟨t, ht, hstale⟩ := exists_freeRun hrun
  obtain ⟨hsettled, hother⟩ := Bool.and_eq_true_iff.mp hstale
  obtain ⟨e, he, -, d, store, hd, -, -, hremote, -⟩ :=
    (hall t ht).1 "q" hsettled
  rw [he, Option.all_some, hd, Option.all_some] at hother
  exact of_decide_eq_true hother hremote

end Tab

end Sp00ky.Core.Screen
