/-
  A replay that overlaps itself.

  A bootstrap replays the global buffer and then the SSP's own, and the two may overlap: the tail of
  a history is applied twice. Both the scheduler's projection (`project_table_rows`) and the
  circuit (`Collection::apply`) end where one pass ends. Under one id the circuit's writes settle:
  a write whose digest is stored already leaves the row alone, whatever body it has.
-/
import Sp00ky.Lib.Settle
import Sp00ky.Scheduler.Replica

namespace Sp00ky.Scheduler

open Std Lib Ssp

/-! ## The projection -/

/-- One event of `project_table_rows`. -/
def projectEvent (table : String) (rows : ExtTreeMap String Json) (ev : RecordUpdate) :
    ExtTreeMap String Json :=
  let raw := stripTable table ev.recordId
  match ev.operation with
  | .create | .update =>
    match ev.data with
    | some data => rows.insert raw data
    | none => rows
  | .delete => rows.erase raw

/-- `project_table_rows`; of two seed rows with one id the later one stays. -/
def projectTableRows (table : String) (seed : List (String × Json)) (events : List RecordUpdate) :
    ExtTreeMap String Json :=
  events.foldl (projectEvent table) (seed.foldl (fun rows r => rows.insert r.1 r.2) ∅)

/-- What an event writes: a row, no row, or nothing at all. -/
def projectWrite (table : String) (ev : RecordUpdate) : Option (String × Option Json) :=
  match ev.operation with
  | .create | .update => ev.data.map fun data => (stripTable table ev.recordId, some data)
  | .delete => some (stripTable table ev.recordId, none)

theorem settle_id {α : Type} [DecidableEq α] (x r : α) : settle id x r = r := by
  unfold settle
  split
  next h => exact h
  next => rfl

theorem projectEvent_look (table : String) [DecidableEq (Option Json)]
    (rows : ExtTreeMap String Json) (ev : RecordUpdate) (k : String) :
    (projectEvent table rows ev)[k]? = (projectWrite table ev).elim rows[k]? fun w =>
      if w.1 = k then settle id rows[k]? w.2 else rows[k]? := by
  have hput : ∀ o : Option Json, (put rows (stripTable table ev.recordId) o)[k]? =
      if stripTable table ev.recordId = k then settle id rows[k]? o else rows[k]? := by
    intro o
    rw [settle_id]
    by_cases h : stripTable table ev.recordId = k
    · subst h
      rw [if_pos rfl]
      exact getElem?_put_self rows _ o
    · rw [if_neg h]
      have hne : compare (stripTable table ev.recordId) k ≠ .eq := by simpa using h
      cases o with
      | some data => exact (ExtTreeMap.getElem?_insert).trans (if_neg hne)
      | none => exact (ExtTreeMap.getElem?_erase).trans (if_neg hne)
  unfold projectEvent projectWrite
  cases ev.operation with
  | delete => exact hput none
  | create | update =>
    cases ev.data with
    | some data => exact hput (some data)
    | none => rfl

/-! ## The circuit -/

/-- An event as the circuit takes it: never a merge. -/
structure CircuitEvent where
  operation : RecordOp
  id : String
  data : Sp00kyValue

/-- The circuit's operation of an event. -/
def RecordOp.toOperation : RecordOp → Operation
  | .create => .create
  | .update => .update
  | .delete => .delete

/-- `Collection::apply` of an event. -/
def applyEvent (env : Env) (c : Ssp.Collection) (ev : CircuitEvent) : Ssp.Collection :=
  (c.apply env ev.operation.toOperation ev.id ev.data).1

/-- A collection that retains `keep`, to project with. -/
def projecting (keep : Option (ExtTreeSet String)) : Ssp.Collection := ⟨"", ∅, 0, keep, 0⟩

/-- The row an event leaves: its projected body with its digest, or none. -/
def circuitWrite (env : Env) (keep : Option (ExtTreeSet String)) (ev : CircuitEvent) : Option Row :=
  match ev.operation with
  | .delete => none
  | _ =>
    let body := (projecting keep).project ev.data
    some ⟨body, env.digest (rawId ev.id) body⟩

theorem project_congr {c c' : Ssp.Collection} (h : c.retained = c'.retained) (value : Sp00kyValue) :
    c.project value = c'.project value := by
  unfold Collection.project
  rw [h]

theorem apply_retained_env (env : Env) (c : Ssp.Collection) (op : Operation) (id : String)
    (data : Sp00kyValue) : (c.apply env op id data).1.retained = c.retained := by
  unfold Collection.apply
  dsimp only
  split
  · split <;> rfl
  · split <;> rfl

/-- The hash and the rows change together. -/
theorem apply_xor (env : Env) (c : Ssp.Collection) (op : Operation) (id : String)
    (data : Sp00kyValue) :
    (c.apply env op id data).1.catchupXor ^^^ xorDigests (c.apply env op id data).1.rows =
      c.catchupXor ^^^ xorDigests c.rows := by
  have hcancel : ∀ a x d : Digest, a ^^^ d ^^^ (x ^^^ d) = a ^^^ x := by
    intro a x d
    rw [BitVec.xor_assoc, BitVec.xor_comm x d, ← BitVec.xor_assoc d, BitVec.xor_self,
      BitVec.zero_xor]
  unfold Collection.apply
  dsimp only
  split
  · split
    · rfl
    · next old hold =>
      dsimp only
      rw [xorDigests_erase hold, BitVec.xor_assoc, BitVec.xor_comm old.digest]
  · split
    · rfl
    · dsimp only
      rw [xorDigests_write, hcancel, hcancel]

theorem settle_row (old r : Row) : settle (Option.map Row.digest) (some old) (some r) =
    if old.digest = r.digest then some old else some r := by
  unfold settle
  simp only [Option.map_some, Option.some.injEq]

theorem settle_row_none (r : Row) : settle (Option.map Row.digest) none (some r) = some r := rfl

/-- Under an id, an event settles the row by its digest. -/
theorem applyEvent_look (env : Env) {keep : Option (ExtTreeSet String)} (c : Ssp.Collection)
    (ev : CircuitEvent) (k : String) (hkeep : c.retained = keep) :
    (applyEvent env c ev).rows[k]? =
      if rawId ev.id = k then settle (Option.map Row.digest) c.rows[k]? (circuitWrite env keep ev)
      else c.rows[k]? := by
  by_cases h : rawId ev.id = k
  · subst h
    rw [if_pos rfl]
    have hbody : ∀ op, op ≠ .merge → c.incoming op (rawId ev.id) ev.data =
        (projecting keep).project ev.data := by
      intro op hop
      unfold Collection.incoming
      rw [if_neg hop]
      exact project_congr hkeep _
    have hwrite : ∀ op, op ≠ .merge → op ≠ .delete →
        (c.apply env op ev.id ev.data).1.rows[rawId ev.id]? =
          settle (Option.map Row.digest) c.rows[rawId ev.id]?
            (some ⟨(projecting keep).project ev.data, env.digest (rawId ev.id)
              ((projecting keep).project ev.data)⟩) := by
      intro op hmerge hdelete
      unfold Collection.apply
      dsimp only
      rw [if_neg hdelete, hbody op hmerge]
      cases hrow : c.rows[rawId ev.id]? with
      | none =>
        rw [settle_row_none]
        simp
      | some old =>
        rw [settle_row]
        by_cases hd : old.digest = env.digest (rawId ev.id)
            ((projecting keep).project ev.data)
        · rw [if_pos hd]
          simp [hd, hrow]
        · rw [if_neg hd]
          simp [hd]
    unfold applyEvent circuitWrite
    cases ev.operation with
    | create => exact hwrite .create (by decide) (by decide)
    | update => exact hwrite .update (by decide) (by decide)
    | delete =>
      refine ((apply_row env c .delete ev.id ev.data).2.2.2.1 rfl).trans ?_
      unfold settle
      cases c.rows[rawId ev.id]? with
      | none => rfl
      | some old => rfl
  · rw [if_neg h]
    unfold applyEvent
    rw [apply_rows, if_neg (Ne.symm h)]

theorem applyEvent_retained (env : Env) (c : Ssp.Collection) (ev : CircuitEvent) :
    (applyEvent env c ev).retained = c.retained :=
  apply_retained_env env c _ _ _

/-! ## Applying a suffix once more -/

/-- Replaying a suffix of the events after all of them gives the rows of one pass, in the projection
    and in the circuit, and the circuit's catch-up hash. -/
theorem replay_suffix_harmless (table : String) (seed : List (String × Json))
    (events : List RecordUpdate) (env : Env) (c : Ssp.Collection) (changes : List CircuitEvent)
    (i : Nat) :
    projectTableRows table seed (events ++ events.drop i) = projectTableRows table seed events ∧
      ((changes ++ changes.drop i).foldl (applyEvent env) c).rows =
        (changes.foldl (applyEvent env) c).rows ∧
      ((changes ++ changes.drop i).foldl (applyEvent env) c).catchupXor =
        (changes.foldl (applyEvent env) c).catchupXor := by
  have hrows : ((changes ++ changes.drop i).foldl (applyEvent env) c).rows =
      (changes.foldl (applyEvent env) c).rows := by
    refine ExtTreeMap.ext_getElem? fun k => ?_
    rw [List.foldl_append]
    exact @look_replay_suffix _ _ _ _ _ _ _ (Option.map Row.digest) (applyEvent env)
      (fun c' k => c'.rows[k]?) (fun ev => some (rawId ev.id, circuitWrite env c.retained ev))
      (fun c' => c'.retained = c.retained) (fun c' ev k hc' => applyEvent_look env c' ev k hc')
      (fun c' ev hc' => (applyEvent_retained env c' ev).trans hc') changes i c rfl k
  refine ⟨?_, hrows, ?_⟩
  · refine ExtTreeMap.ext_getElem? fun k => ?_
    unfold projectTableRows
    rw [List.foldl_append]
    exact @look_replay_suffix _ _ _ _ _ instDecidableEqString (Classical.decEq (Option Json)) id
      (projectEvent table) (fun rows k => rows[k]?) (projectWrite table) (fun _ => True)
      (fun rows ev k _ => @projectEvent_look table (Classical.decEq _) rows ev k)
      (fun _ _ _ => trivial) events i _ trivial k
  · have hxor : ∀ (l : List CircuitEvent) (c : Ssp.Collection),
        (l.foldl (applyEvent env) c).catchupXor ^^^ xorDigests (l.foldl (applyEvent env) c).rows =
          c.catchupXor ^^^ xorDigests c.rows := by
      intro l
      induction l with
      | nil => exact fun _ => rfl
      | cons ev l ih => exact fun c => (ih _).trans (apply_xor env c _ _ _)
    have htwice := hxor (changes ++ changes.drop i) c
    rw [hrows, ← hxor changes c] at htwice
    exact (BitVec.xor_left_inj _).mp htwice

end Sp00ky.Scheduler
