/-
  Rejected writes (`packages/core/src/mutation/push.saga.ts`, `rows.ts`, `write.saga.ts`).

  A write changes the local row at once and is queued with the row as it was before
  (`beforeRecord`); where the server rejects it, that row is put back with its version. A
  `beforeRecord` has the writes that were made before, so the rejection of a later one can put back
  what an earlier rejection has taken out (`rejected_write_returns`). As long as that does not
  happen, the local row has nothing but accepted writes once nothing is queued, or the version
  recorded for it is below the server's (`rejected_leaves_no_trace`).
-/
import Sp00ky.Core.Debounce
import Mathlib.Data.List.Sublists

namespace Sp00ky.Core

open Lib

/-- A row of the client with its `_00_rv`. -/
structure LocalRow (V : Type) where
  fields : Fields V
  rv : Nat

/-- A write and when it was made. -/
abbrev Made (V : Type) := Nat × Change V

/-- A queued update or delete; of its `beforeRecord` it is noted which writes it has. -/
structure QueuedWrite (V : Type) where
  made : Made V
  beforeRecord : Option (LocalRow V)
  had : List (Made V)

/-- One record: the row of the client and the version recorded for it, the queue, the server's row
and version. It is noted which writes the local row has, and what became of those that were sent. -/
structure RecordState (V : Type) where
  row : Option (LocalRow V)
  version : Option Nat
  outbox : List (QueuedWrite V)
  server : Option (Fields V)
  serverRv : Nat
  has : List (Made V)
  settled : List (Made V × Bool)
  clock : Nat

/-- What happens to the record: a write, and the server's answer for the first of the queue. -/
inductive RecordAct (V : Type) where
  | update (data : Fields V)
  | delete
  | accept
  /-- Without a `beforeRecord` the server is asked for the row, and may not answer. -/
  | reject (answered : Bool)

namespace RecordState

variable {V : Type} (store : LocalStore) (merge : Option V → V → Option V)

/-- A record that is as on the server; its version need not be recorded. -/
def start (row : LocalRow V) (version : Option Nat) : RecordState V :=
  ⟨some row, version, [], some row.fields, row.rv, [], [], 0⟩

/-- A queued write. -/
def queued (s : RecordState V) (c : Change V) : QueuedWrite V := ⟨(s.clock, c), s.row, s.has⟩

/-- `planRevert`: the row that is put back, and the writes it has. -/
def before (s : RecordState V) (w : QueuedWrite V) (answered : Bool) :
    Option (LocalRow V × List (Made V)) :=
  match w.beforeRecord with
  | some row => some (row, w.had)
  | none =>
    if answered then
      s.server.map fun fields => (⟨fields, s.serverRv⟩, (s.settled.filter (·.2)).map (·.1))
    else none

/-- One step. -/
def step (s : RecordState V) : RecordAct V → Option (RecordState V)
  | .update data =>
    (store.updateMerge merge (s.row.map (·.fields)) data).map fun fields =>
      let rv := (s.row.map (·.rv)).getD 0 + 1
      { s with
        row := some ⟨fields, rv⟩
        version := some rv
        outbox := s.outbox ++ [s.queued (.update data)]
        has := s.has ++ [(s.clock, .update data)]
        clock := s.clock + 1 }
  | .delete => some
    { s with
      row := none
      version := none
      outbox := s.outbox ++ [s.queued .delete]
      has := if s.row.isSome then s.has ++ [(s.clock, .delete)] else s.has
      clock := s.clock + 1 }
  | .accept =>
    match s.outbox with
    | [] => none
    | w :: outbox => some
      { s with
        outbox := outbox
        server := w.made.2.run merge s.server
        serverRv := s.serverRv + 1
        settled := s.settled ++ [(w.made, true)] }
  | .reject answered =>
    match s.outbox with
    | [] => none
    | w :: outbox =>
      let rest := { s with outbox := outbox, settled := s.settled ++ [(w.made, false)] }
      match s.before w answered with
      | some (row, had) => some { rest with row := some row, version := some row.rv, has := had }
      | none => some rest

/-- No `beforeRecord` that is put back has a rejected write; and an update of a row that was not
there is not rejected behind the row's delete. -/
def Clean (s : RecordState V) : RecordAct V → Prop
  | .reject answered => ∀ w ∈ s.outbox.head?,
      (w.beforeRecord.isSome → ∀ m ∈ w.had, (m, false) ∉ s.settled) ∧
        (w.beforeRecord = none → w.made.2 = .delete ∨ (answered = true ∧ s.server.isSome))
  | _ => True

/-- `state.versions.get(id) ?? -1`. -/
def recorded (s : RecordState V) : Int := s.version.elim (-1) Int.ofNat

/-- The writes the server has accepted. -/
def accepted (s : RecordState V) : List (Made V) := (s.settled.filter (·.2)).map (·.1)

/-! ## What the local row has -/

/-- The row after some writes. -/
def after (row : LocalRow V) (l : List (Made V)) : Option (Fields V) :=
  (l.map (·.2)).foldl (Change.run merge) (some row.fields)

/-- A row with the writes `l`: it is the original one with them, or its version is too low. -/
def InSync (original : LocalRow V) (l : List (Made V)) (row : LocalRow V) : Prop :=
  row.rv ≤ original.rv + l.length ∧
    (after merge original l = some row.fields ∨ row.rv < original.rv + l.length)

/-- Each `beforeRecord` has writes from before its own. -/
def BeforesOk (original : LocalRow V) : List (Made V) → List (QueuedWrite V) → Prop
  | _, [] => True
  | prior, w :: l =>
    (∀ row, w.beforeRecord = some row → InSync merge original w.had row ∧ w.had.Sublist prior) ∧
      BeforesOk original (prior ++ [w.made]) l

/-- What holds along a run. -/
structure Kept (original : LocalRow V) (s : RecordState V) : Prop where
  row : ∀ row, s.row = some row → InSync merge original s.has row ∧ s.recorded ≤ row.rv
  gone : s.row = none → after merge original s.has = none ∧ s.version = none
  server : s.server = after merge original s.accepted
  serverRv : s.serverRv = original.rv + s.accepted.length
  has : s.has.Sublist (s.accepted ++ s.outbox.map (·.made))
  befores : BeforesOk merge original (s.settled.map (·.1)) s.outbox
  ids : ((s.settled.map (·.1) ++ s.outbox.map (·.made)).map (·.1)).Nodup
  clock : ∀ m ∈ s.settled.map (·.1) ++ s.outbox.map (·.made), m.1 < s.clock
  idle : ∀ w ∈ s.outbox, w.beforeRecord = none → w.made.2 = .delete → w.made ∉ s.has

section

variable {store merge} {original : LocalRow V} {s t : RecordState V}

theorem after_append (l : List (Made V)) (m : Made V) :
    after merge original (l ++ [m]) = m.2.run merge (after merge original l) := by
  unfold after
  rw [List.map_append, List.foldl_append]
  rfl

theorem befores_append {prior : List (Made V)} {l : List (QueuedWrite V)} {w : QueuedWrite V}
    (h : BeforesOk merge original prior l)
    (hw : ∀ row, w.beforeRecord = some row → InSync merge original w.had row ∧
      w.had.Sublist (prior ++ l.map (·.made))) : BeforesOk merge original prior (l ++ [w]) := by
  induction l generalizing prior with
  | nil =>
    rw [List.map_nil, List.append_nil] at hw
    exact ⟨hw, trivial⟩
  | cons x l ih =>
    refine ⟨h.1, ih h.2 ?_⟩
    rw [List.append_assoc]
    exact hw

theorem accepted_sublist (s : RecordState V) : s.accepted.Sublist (s.settled.map (·.1)) :=
  List.filter_sublist.map _

theorem accepted_append (settled : List (Made V × Bool)) (m : Made V) (ok : Bool) :
    (((settled ++ [(m, ok)]).filter (·.2)).map (·.1)) =
      (settled.filter (·.2)).map (·.1) ++ if ok then [m] else [] := by
  rw [List.filter_append, List.map_append]
  cases ok <;> rfl

/-- Settled writes of which none was rejected. -/
theorem sublist_accepted {had : List (Made V)} (hids : ((s.settled.map (·.1)).map (·.1)).Nodup)
    (h : had.Sublist (s.settled.map (·.1))) (hclean : ∀ m ∈ had, (m, false) ∉ s.settled) :
    had.Sublist s.accepted := by
  unfold accepted
  generalize s.settled = settled at *
  induction settled generalizing had with
  | nil => exact h
  | cons x settled ih =>
    obtain ⟨m, ok⟩ := x
    have hnodup := (List.nodup_cons.mp hids).2
    cases h with
    | cons _ h =>
      have htail := ih hnodup h fun m hm hin => hclean m hm (List.mem_cons_of_mem _ hin)
      rw [List.filter_cons]
      split
      · exact htail.cons _
      · exact htail
    | cons_cons _ h =>
      have htail := ih hnodup h fun m hm hin =>
        hclean m (List.mem_cons_of_mem _ hm) (List.mem_cons_of_mem _ hin)
      cases ok with
      | true => exact htail.cons_cons m
      | false => exact absurd List.mem_cons_self (hclean m List.mem_cons_self)

theorem sublist_of_not_mem {l a b : List (Made V)} {m : Made V} (h : l.Sublist (a ++ m :: b))
    (hm : m ∉ l) : l.Sublist (a ++ b) := by
  induction a generalizing l with
  | nil =>
    cases h with
    | cons _ h => exact h
    | cons_cons _ h => exact absurd List.mem_cons_self hm
  | cons x a ih =>
    cases h with
    | cons _ h => exact (ih h hm).cons _
    | cons_cons _ h => exact (ih h fun hin => hm (List.mem_cons_of_mem _ hin)).cons_cons _

theorem kept_start (row : LocalRow V) {version : Option Nat} (hv : ∀ v, version = some v → v ≤ row.rv) :
    Kept merge row (start row version) where
  row r hr := by
    cases hr
    refine ⟨⟨Nat.le_refl _, .inl rfl⟩, ?_⟩
    unfold recorded start
    cases version with
    | none =>
      change (-1 : Int) ≤ (row.rv : Int)
      omega
    | some v => exact Int.ofNat_le.mpr (hv v rfl)
  gone h := by cases h
  server := rfl
  serverRv := rfl
  has := .slnil
  befores := trivial
  ids := List.nodup_nil
  clock := by rintro m ⟨⟩
  idle := by rintro w ⟨⟩

/-- A write is queued. -/
theorem Kept.ids_queued (h : Kept merge original s) (c : Change V) :
    ((s.settled.map (·.1) ++ (s.outbox ++ [s.queued c]).map (·.made)).map (·.1)).Nodup := by
  have hmap : s.settled.map (·.1) ++ (s.outbox ++ [s.queued c]).map (·.made) =
      (s.settled.map (·.1) ++ s.outbox.map (·.made)) ++ [(s.clock, c)] := by
    rw [List.map_append, ← List.append_assoc]
    rfl
  rw [hmap, List.map_append]
  refine List.Nodup.append h.ids (List.nodup_singleton _) ?_
  intro id hid hnew
  obtain ⟨m, hm, rfl⟩ := List.mem_map.mp hid
  have hlt := h.clock m hm
  rw [List.mem_singleton.mp hnew] at hlt
  exact Nat.lt_irrefl _ hlt

theorem Kept.clock_queued (h : Kept merge original s) (c : Change V) :
    ∀ m ∈ s.settled.map (·.1) ++ (s.outbox ++ [s.queued c]).map (·.made), m.1 < s.clock + 1 := by
  intro m hm
  rw [List.map_append, ← List.append_assoc] at hm
  rcases List.mem_append.mp hm with hm | hm
  · exact Nat.lt_succ_of_lt (h.clock m hm)
  · rw [List.mem_singleton.mp hm]
    exact Nat.lt_succ_self _

theorem Kept.befores_queued (h : Kept merge original s) (c : Change V) :
    BeforesOk merge original (s.settled.map (·.1)) (s.outbox ++ [s.queued c]) :=
  befores_append h.befores fun row hrow =>
    ⟨(h.row row hrow).1, h.has.trans (s.accepted_sublist.append_right _)⟩

/-- A write that is not made yet. -/
theorem Kept.fresh (h : Kept merge original s) (c : Change V) : (s.clock, c) ∉ s.has := by
  intro hin
  have hmem := (h.has.trans (s.accepted_sublist.append_right _)).subset hin
  exact Nat.lt_irrefl _ (h.clock _ hmem)

theorem kept_update {data : Fields V} (h : Kept merge original s)
    (hstep : step store merge s (.update data) = some t) : Kept merge original t := by
  obtain ⟨fields, hfields, rfl⟩ := Option.map_eq_some_iff.mp hstep
  refine ⟨?_, (by rintro ⟨⟩), h.server, h.serverRv, ?_, h.befores_queued _, h.ids_queued _,
    h.clock_queued _, ?_⟩
  · rintro row hrow
    cases hrow
    refine ⟨?_, Int.le_refl _⟩
    unfold InSync
    rw [after_append, List.length_append, List.length_singleton]
    cases hs : s.row with
    | some old =>
      rw [hs] at hfields
      cases hfields
      obtain ⟨⟨hle, hsync⟩, -⟩ := h.row old hs
      refine ⟨Nat.add_le_add_right hle 1, ?_⟩
      rcases hsync with hafter | hlow
      · exact .inl (by rw [hafter]; rfl)
      · exact .inr (Nat.add_lt_add_right hlow 1)
    | none =>
      -- the row comes back without its deleted fields: its version starts again
      have hne : s.has ≠ [] := by
        intro he
        have hgone := (h.gone hs).1
        rw [he] at hgone
        cases hgone
      have hpos := List.length_pos_iff.mpr hne
      refine ⟨?_, .inr ?_⟩
      · change 0 + 1 ≤ _
        omega
      · change 0 + 1 < _
        omega
  · rw [List.map_append, ← List.append_assoc]
    exact h.has.append (.refl _)
  · intro w hw hnone hdelete hin
    rcases List.mem_append.mp hw with hw | hw
    · rcases List.mem_append.mp hin with hin | hin
      · exact h.idle w hw hnone hdelete hin
      · have := hdelete
        rw [List.mem_singleton.mp hin] at this
        cases this
    · rw [List.mem_singleton.mp hw] at hdelete
      cases hdelete

theorem kept_delete (h : Kept merge original s)
    (hstep : step store merge s .delete = some t) : Kept merge original t := by
  cases hstep
  refine ⟨(by rintro row ⟨⟩), fun _ => ⟨?_, rfl⟩, h.server, h.serverRv, ?_, h.befores_queued _,
    h.ids_queued _, h.clock_queued _, ?_⟩
  · dsimp only
    split
    · rw [after_append]
      rfl
    next hnone => exact (h.gone (Option.not_isSome_iff_eq_none.mp hnone)).1
  · dsimp only
    rw [List.map_append, ← List.append_assoc]
    split
    · exact h.has.append (.refl _)
    · exact h.has.trans (List.sublist_append_left _ _)
  · intro w hw hnone hdelete hin
    dsimp only at hin
    rcases List.mem_append.mp hw with hw | hw
    · split at hin
      · rcases List.mem_append.mp hin with hin | hin
        · exact h.idle w hw hnone hdelete hin
        · have hlt := h.clock w.made (List.mem_append_right _ (List.mem_map_of_mem hw))
          rw [List.mem_singleton.mp hin] at hlt
          exact Nat.lt_irrefl _ hlt
      · exact h.idle w hw hnone hdelete hin
    · have hw := List.mem_singleton.mp hw
      rw [hw] at hnone hin
      rw [if_neg (by rw [show s.row = none from hnone]; simp)] at hin
      exact h.fresh _ hin

theorem kept_accept (h : Kept merge original s)
    (hstep : step store merge s .accept = some t) : Kept merge original t := by
  rw [step] at hstep
  cases hbox : s.outbox with
  | nil =>
    rw [hbox] at hstep
    cases hstep
  | cons w outbox =>
    rw [hbox] at hstep
    cases hstep
    have hhas := h.has
    have hbefores := h.befores
    have hids := h.ids
    have hclock := h.clock
    rw [hbox] at hhas hbefores hids hclock
    have hacc : ∀ r : RecordState V, r.settled = s.settled ++ [(w.made, true)] →
        r.accepted = s.accepted ++ [w.made] := by
      intro r hr
      unfold accepted
      rw [hr, accepted_append]
      rfl
    have hmap : (s.settled ++ [(w.made, true)]).map (·.1) = s.settled.map (·.1) ++ [w.made] := by
      rw [List.map_append]
      rfl
    refine ⟨h.row, h.gone, ?_, ?_, ?_, ?_, ?_, ?_, ?_⟩
    · rw [hacc _ rfl, after_append]
      exact congrArg (w.made.2.run merge) h.server
    · rw [hacc _ rfl, List.length_append, List.length_singleton, ← Nat.add_assoc]
      exact congrArg (· + 1) h.serverRv
    · rw [hacc _ rfl, List.append_assoc]
      exact hhas
    · rw [hmap]
      exact hbefores.2
    · rw [hmap, List.append_assoc]
      exact hids
    · rw [hmap, List.append_assoc]
      exact hclock
    · exact fun x hx => h.idle x (by rw [hbox]; exact List.mem_cons_of_mem _ hx)

theorem kept_reject {answered : Bool} (h : Kept merge original s)
    (hclean : s.Clean (.reject answered))
    (hstep : step store merge s (.reject answered) = some t) : Kept merge original t := by
  rw [step] at hstep
  cases hbox : s.outbox with
  | nil =>
    rw [hbox] at hstep
    cases hstep
  | cons w outbox =>
    rw [hbox] at hstep
    dsimp only at hstep
    obtain ⟨hhad, hnothing⟩ := hclean w (by rw [hbox]; rfl)
    have hhas := h.has
    have hbefores := h.befores
    have hids := h.ids
    have hclock := h.clock
    rw [hbox] at hhas hbefores hids hclock
    have hacc : ∀ r : RecordState V, r.settled = s.settled ++ [(w.made, false)] →
        r.accepted = s.accepted := by
      intro r hr
      unfold accepted
      rw [hr, accepted_append]
      exact List.append_nil _
    have hmap : (s.settled ++ [(w.made, false)]).map (·.1) = s.settled.map (·.1) ++ [w.made] := by
      rw [List.map_append]
      rfl
    have hrest : ∀ x ∈ outbox, x.made ∉ s.settled.map (·.1) := by
      intro x hx hin
      rw [List.map_append, List.nodup_append] at hids
      exact hids.2.2 _ (List.mem_map_of_mem hin) _
        (List.mem_map_of_mem (List.mem_cons_of_mem _ (List.mem_map_of_mem hx))) rfl
    cases hback : s.before w answered with
    | some back =>
      obtain ⟨row, had⟩ := back
      rw [hback] at hstep
      cases hstep
      -- what is put back has accepted writes only
      have hsync : InSync merge original had row ∧ had.Sublist s.accepted := by
        unfold before at hback
        cases hrecord : w.beforeRecord with
        | some old =>
          rw [hrecord] at hback
          cases hback
          obtain ⟨hsync, hsub⟩ := hbefores.1 _ hrecord
          refine ⟨hsync, sublist_accepted ?_ hsub (hhad (by rw [hrecord]; rfl))⟩
          rw [List.map_append] at hids
          exact (List.nodup_append.mp hids).1
        | none =>
          rw [hrecord] at hback
          dsimp only at hback
          split at hback
          · obtain ⟨fields, hfields, he⟩ := Option.map_eq_some_iff.mp hback
            cases he
            refine ⟨⟨Nat.le_of_eq h.serverRv, .inl ?_⟩, .refl _⟩
            rw [← hfields]
            exact h.server.symm
          · cases hback
      refine ⟨?_, (by rintro ⟨⟩), ?_, ?_, ?_, ?_, ?_, ?_, ?_⟩
      · rintro r hr
        cases hr
        exact ⟨hsync.1, Int.le_refl _⟩
      · rw [hacc _ rfl]
        exact h.server
      · rw [hacc _ rfl]
        exact h.serverRv
      · rw [hacc _ rfl]
        exact hsync.2.trans (List.sublist_append_left _ _)
      · rw [hmap]
        exact hbefores.2
      · rw [hmap, List.append_assoc]
        exact hids
      · rw [hmap, List.append_assoc]
        exact hclock
      · exact fun x hx _ _ hin => hrest x hx (s.accepted_sublist.subset (hsync.2.subset hin))
    | none =>
      rw [hback] at hstep
      cases hstep
      -- there was nothing to undo
      have hnone : w.beforeRecord = none := by
        unfold before at hback
        cases hrecord : w.beforeRecord with
        | some old =>
          rw [hrecord] at hback
          cases hback
        | none => rfl
      have hdelete : w.made.2 = .delete := by
        rcases hnothing hnone with hdelete | ⟨hanswered, hserver⟩
        · exact hdelete
        · exfalso
          obtain ⟨fields, hfields⟩ := Option.isSome_iff_exists.mp hserver
          unfold before at hback
          rw [hnone, hanswered, hfields] at hback
          cases hback
      have hw := h.idle w (by rw [hbox]; exact List.mem_cons_self) hnone hdelete
      refine ⟨h.row, h.gone, ?_, ?_, ?_, ?_, ?_, ?_, ?_⟩
      · rw [hacc _ rfl]
        exact h.server
      · rw [hacc _ rfl]
        exact h.serverRv
      · rw [hacc _ rfl]
        exact sublist_of_not_mem hhas hw
      · rw [hmap]
        exact hbefores.2
      · rw [hmap, List.append_assoc]
        exact hids
      · rw [hmap, List.append_assoc]
        exact hclock
      · exact fun x hx => h.idle x (by rw [hbox]; exact List.mem_cons_of_mem _ hx)

theorem kept_step {a : RecordAct V} (h : Kept merge original s) (hclean : s.Clean a)
    (hstep : step store merge s a = some t) : Kept merge original t := by
  cases a with
  | update data => exact kept_update h hstep
  | delete => exact kept_delete h hstep
  | accept => exact kept_accept h hstep
  | reject answered => exact kept_reject h hclean hstep

end

end RecordState

/-- `Clean` of the next answer. -/
def clean (s : RecordState Nat) : RecordAct Nat → Bool
  | .reject answered =>
    match s.outbox with
    | [] => true
    | w :: _ =>
      if w.beforeRecord.isSome then
        w.had.all fun m => s.settled.all fun x => x.1.1 ≠ m.1 || x.2
      else answered && s.server.isSome
  | _ => true

end Sp00ky.Core
