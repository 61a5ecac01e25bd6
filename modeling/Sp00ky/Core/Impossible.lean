/-
  When a saga makes `transition` throw (`packages/core/src/query/membership.saga.ts`).

  A set of ids is taken as it comes, but a lost view takes it only with its row. A query whose view
  is lost, and whose row is still missing as a set that names an id is read, is left as it is, and
  what was read with it is not applied (`impossible_transition`). Nothing else throws
  (`transition_throws_only_without_row`).
-/
import Sp00ky.Core.Lifecycle

namespace Sp00ky.Core.Sagas

open Lib Client

/-! ## Quiet sagas -/

/-- The lifecycle of a query. -/
def Tab.lifecycleOf (hash : String) (s : Tab) : Option QueryLifecycle :=
  (s.query hash).map (·.lifecycle)

theorem Tab.withEntry_thrown (s : Tab) (hash : String) (f : QueryEntry → QueryEntry) :
    (s.withEntry hash f).thrown = s.thrown := by
  unfold Tab.withEntry
  split <;> rfl

theorem Tab.query_withEntry (s : Tab) (hash : String) (f : QueryEntry → QueryEntry) :
    (s.withEntry hash f).query hash = (s.query hash).map f := by
  unfold Tab.withEntry
  cases h : s.query hash with
  | none => exact h
  | some entry =>
    unfold Tab.query
    dsimp only
    rw [EntryMap.get_set, if_pos rfl]
    rfl

theorem quiet_update (hash : String) (f : QueryEntry → QueryEntry) :
    (update hash f).Quiet Tab.thrown :=
  Throwing.Quiet.modify fun s => s.withEntry_thrown hash f

/-- An event that no lost view refuses is quiet. -/
theorem quiet_applyLifecycle (hash : String) {ev : LifecycleEvent}
    (h : ev ≠ .membershipApplied false) : (applyLifecycle hash ev).Quiet Tab.thrown := by
  refine Throwing.Quiet.bind Throwing.Quiet.get fun s => ?_
  cases hq : s.query hash with
  | none => exact Throwing.Quiet.pure ()
  | some entry =>
    dsimp only
    cases ht : transition entry.lifecycle ev with
    | ok lifecycle => exact quiet_update hash _
    | error e => exact absurd ((transition_error_iff _ _).mp ⟨e, ht⟩).2 h

theorem quiet_noteMeta (hash : String) (rowMeta : Option ServerViewMeta) :
    (noteMeta hash rowMeta).Quiet fun s => (s.thrown, s.lifecycleOf hash) := by
  cases rowMeta with
  | none => exact Throwing.Quiet.pure ()
  | some m =>
    refine Throwing.Quiet.modify fun s => Prod.ext (s.withEntry_thrown hash _) ?_
    change ((s.withEntry hash _).query hash).map _ = (s.query hash).map _
    rw [s.query_withEntry, Option.map_map]
    refine congrArg (fun g => (s.query hash).map g) (funext fun e => ?_)
    dsimp only [Function.comp]
    split <;> rfl

theorem quiet_applyLifecycleIf (c : Bool) (hash : String) {ev : LifecycleEvent}
    (h : ev ≠ .membershipApplied false) : (applyLifecycleIf c hash ev).Quiet Tab.thrown :=
  Throwing.Quiet.ite (fun _ => quiet_applyLifecycle hash h) fun _ => Throwing.Quiet.pure ()

theorem quiet_loseView (hash : String) (entry : QueryEntry) (now : Nat) :
    (loseView hash entry now).Quiet Tab.thrown := by
  refine Throwing.Quiet.bind (quiet_applyLifecycleIf _ hash (by simp)) fun _ => ?_
  refine Throwing.Quiet.ite (fun _ => Throwing.Quiet.pure ()) fun _ => ?_
  refine Throwing.Quiet.ite (fun _ => ?_) fun _ => quiet_update hash _
  exact Throwing.Quiet.bind (quiet_update hash _) fun _ =>
    quiet_applyLifecycleIf _ hash (by simp)

theorem quiet_recoverLostView (hash : String) : (recoverLostView hash).Quiet Tab.thrown := by
  refine Throwing.Quiet.bind Throwing.Quiet.get fun s => ?_
  cases s.query hash with
  | none => exact Throwing.Quiet.pure ()
  | some entry =>
    refine Throwing.Quiet.ite (fun _ => Throwing.Quiet.pure ()) fun _ => ?_
    exact Throwing.Quiet.bind (quiet_update hash _) fun _ =>
      quiet_applyLifecycleIf _ hash (by simp)

theorem quiet_registerBegin (hash : String) (background : Bool) :
    (registerBegin hash background).Quiet Tab.thrown :=
  Throwing.Quiet.bind (quiet_applyLifecycle hash (by simp)) fun _ =>
    quiet_applyLifecycle hash (by simp)

theorem quiet_registerFailed (r : Registration) (notAllowlisted : Bool) :
    (registerFailed r notAllowlisted).Quiet Tab.thrown := by
  refine Throwing.Quiet.bind Throwing.Quiet.get fun s => ?_
  cases s.query r.hash with
  | none => exact Throwing.Quiet.pure ()
  | some current =>
    refine Throwing.Quiet.ite (fun _ => Throwing.Quiet.pure ()) fun _ => ?_
    refine Throwing.Quiet.ite (fun _ => ?_) fun _ => ?_
    · exact Throwing.Quiet.bind (quiet_applyLifecycle r.hash (by simp)) fun _ =>
        quiet_applyLifecycle r.hash (by simp)
    · refine Throwing.Quiet.bind (quiet_update r.hash _) fun _ => ?_
      exact Throwing.Quiet.bind (quiet_applyLifecycleIf _ r.hash (by simp)) fun _ =>
        quiet_applyLifecycle r.hash (by simp)

theorem quiet_registerDone (r : Registration) : (registerDone r).Quiet Tab.thrown :=
  Throwing.Quiet.bind (quiet_applyLifecycle r.hash (by simp)) fun _ =>
    Throwing.Quiet.bind (quiet_update r.hash _) fun _ => quiet_applyLifecycle r.hash (by simp)

/-! ## A set of ids -/

/-- The view is lost, the row is missing, and the set names an id. -/
def Unexplained (entry : QueryEntry) (remoteArray : RecordVersionArray)
    (rowMeta : Option ServerViewMeta) : Bool :=
  entry.lifecycle.phase = .viewLost && !rowMeta.all (·.present) && !remoteArray.isEmpty

/-- How a saga that takes a set of ids ends: it throws as the set is unexplained. -/
def Ends {α : Type} (throws : Bool) (m : Saga α) (s : Tab) : Prop :=
  if throws then ∃ e t, m.exec s = (.error e, t) ∧ t.thrown = s.thrown ++ [e]
  else ∃ a t, m.exec s = (.ok a, t) ∧ t.thrown = s.thrown

theorem Ends.of_quiet {α : Type} {m : Saga α} (h : m.Quiet Tab.thrown) (s : Tab) :
    Ends false m s := h s

/-- What runs after a quiet program ends as it does from there. -/
theorem Ends.after {α β γ : Type} {throws : Bool} {m : Saga α} {k : α → Saga β} {s : Tab}
    {f : Tab → γ} (hm : m.Quiet fun s => (s.thrown, f s))
    (hk : ∀ a t, f t = f s → Ends throws (k a) t) : Ends throws (m >>= k) s := by
  obtain ⟨a, t, hs, ht⟩ := hm s
  obtain ⟨hthrown, hf⟩ := Prod.mk.inj ht
  have := hk a t hf
  unfold Ends at this ⊢
  rw [Throwing.exec_bind_ok hs]
  rwa [hthrown] at this

/-- A lost view throws for a membership without its row. -/
theorem ends_commitMembership (hash : String) (remoteArray : RecordVersionArray) (present : Bool)
    {s : Tab} {l : QueryLifecycle} (hl : s.lifecycleOf hash = some l) :
    Ends (l.phase = .viewLost && !present) (commitMembership hash remoteArray present) s := by
  obtain ⟨entry, hentry, rfl⟩ := Option.map_eq_some_iff.mp hl
  cases ht : transition entry.lifecycle (.membershipApplied present) with
  | ok lifecycle =>
    have hno : ¬ (entry.lifecycle.phase = .viewLost ∧ present = false) := by
      rintro ⟨hp, rfl⟩
      obtain ⟨e, he⟩ := (transition_error_iff entry.lifecycle _).mpr ⟨hp, rfl⟩
      rw [ht] at he
      cases he
    have hfalse : (decide (entry.lifecycle.phase = .viewLost) && !present) = false := by
      simpa using hno
    rw [hfalse]
    have happly : (applyLifecycle hash (.membershipApplied present)).exec s =
        (.ok (), s.withEntry hash fun e => { e with lifecycle }) := by
      refine (Throwing.exec_bind_ok (show (get : Saga Tab).exec s = (.ok s, s) from rfl)).trans ?_
      rw [hentry]
      dsimp only
      rw [ht]
      rfl
    refine ⟨(), _, Throwing.exec_bind_ok happly, ?_⟩
    rw [Tab.withEntry_thrown, Tab.withEntry_thrown]
  | error e =>
    obtain ⟨hp, hev⟩ := (transition_error_iff entry.lifecycle _).mp ⟨e, ht⟩
    have hpresent : present = false := by simpa using hev
    have htrue : (decide (entry.lifecycle.phase = .viewLost) && !present) = true := by
      simp [hp, hpresent]
    rw [htrue]
    have happly : (applyLifecycle hash (.membershipApplied present)).exec s =
        (.error e, { s with thrown := s.thrown ++ [e] }) := by
      refine (Throwing.exec_bind_ok (show (get : Saga Tab).exec s = (.ok s, s) from rfl)).trans ?_
      rw [hentry]
      dsimp only
      rw [ht]
      rfl
    exact ⟨e, _, Throwing.exec_bind_error happly, rfl⟩

/-- A set that names an id is applied. -/
theorem isEmpty_of_not_applied {phase : QueryPhase} {held : Nat} {remoteArray : RecordVersionArray}
    {rowMeta : Option ServerViewMeta}
    (h : decideMembershipOutcome phase held remoteArray rowMeta ≠ .applied) :
    remoteArray.isEmpty = true := by
  by_contra hne
  refine h ?_
  unfold decideMembershipOutcome
  rw [if_pos (by simpa using hne)]

/-- An empty set is applied only with its row. -/
theorem present_of_applied {phase : QueryPhase} {held : Nat} {remoteArray : RecordVersionArray}
    {rowMeta : Option ServerViewMeta} (he : remoteArray.isEmpty = true)
    (h : decideMembershipOutcome phase held remoteArray rowMeta = .applied) :
    rowMeta.all (·.present) = true := by
  cases rowMeta with
  | none => rfl
  | some m =>
    by_contra hp
    unfold decideMembershipOutcome at h
    rw [he, if_neg (by simp), Option.filter_some_neg (by simpa using hp)] at h
    dsimp only at h
    split at h <;> cases h

/-- The server's answer for a query is applied, unless it is unexplained. -/
theorem ends_applyMembership (hash : String) (remoteArray : RecordVersionArray)
    (rowMeta : Option ServerViewMeta) (now : Nat) {s : Tab} {entry : QueryEntry}
    (hentry : s.query hash = some entry) :
    Ends (Unexplained entry remoteArray rowMeta) (applyMembership hash remoteArray rowMeta now)
      s := by
  have hget : (applyMembership hash remoteArray rowMeta now).exec s = _ :=
    Throwing.exec_bind_ok (show (get : Saga Tab).exec s = (.ok s, s) from rfl)
  unfold Ends
  rw [hget, hentry]
  change Ends _ (noteMeta hash rowMeta >>= fun _ => _) s
  refine Ends.after (quiet_noteMeta hash rowMeta) fun _ t hlife => ?_
  have hl : t.lifecycleOf hash = some entry.lifecycle := by
    rw [hlife]
    exact congrArg _ hentry
  have hquiet : remoteArray.isEmpty = true → ∀ {m : Saga Unit}, m.Quiet Tab.thrown →
      Ends (Unexplained entry remoteArray rowMeta) m t := by
    intro hids m hm
    rw [show Unexplained entry remoteArray rowMeta = false by simp [Unexplained, hids]]
    exact Ends.of_quiet hm t
  cases hd : decideMembershipOutcome entry.lifecycle.phase entry.remoteArray.length remoteArray
    rowMeta with
  | ignored => exact hquiet (isEmpty_of_not_applied (by rw [hd]; simp)) (Throwing.Quiet.pure ())
  | viewLost => exact hquiet (isEmpty_of_not_applied (by rw [hd]; simp)) (quiet_loseView _ _ _)
  | applied =>
    have hsame : Unexplained entry remoteArray rowMeta =
        (entry.lifecycle.phase = .viewLost && !rowMeta.all (·.present)) := by
      cases hids : remoteArray.isEmpty with
      | true => simp [Unexplained, present_of_applied hids hd]
      | false => simp [Unexplained, hids]
    rw [hsame]
    exact ends_commitMembership hash remoteArray _ hl

/-- A live query takes deltas. -/
theorem ends_applyEdgeDeltas (hash : String) (deltas : RecordVersionArray) (now : Nat) (s : Tab) :
    Ends false (applyEdgeDeltas hash deltas now) s := by
  have hget : (applyEdgeDeltas hash deltas now).exec s = _ :=
    Throwing.exec_bind_ok (show (get : Saga Tab).exec s = (.ok s, s) from rfl)
  unfold Ends
  rw [hget]
  cases hentry : s.query hash with
  | none => exact Ends.of_quiet (Throwing.Quiet.pure ()) s
  | some entry =>
    change Ends false (if _ then _ else _ : Saga Unit) s
    split
    next => exact Ends.of_quiet (Throwing.Quiet.pure ()) s
    next =>
      split
      next => exact Ends.of_quiet (Throwing.Quiet.pure ()) s
      next =>
        split
        next => exact Ends.of_quiet (Throwing.Quiet.pure ()) s
        next =>
          have := ends_applyMembership hash (withDeltas entry.remoteArray deltas) none now hentry
          rwa [show Unexplained entry (withDeltas entry.remoteArray deltas) none = false by
            simp [Unexplained]] at this

theorem ends_takeSnapshot (a : Asked) (snap : ListRefSnapshot) (now : Nat) {s : Tab}
    {current : QueryEntry} (hcurrent : s.query a.hash = some current) :
    Ends (isNews current (rebaseRead snap.primary a.before current.remoteArray) snap.rowMeta &&
      Unexplained current (rebaseRead snap.primary a.before current.remoteArray)
        (some snap.rowMeta)) (takeSnapshot a snap now) s := by
  have hget : (takeSnapshot a snap now).exec s = _ :=
    Throwing.exec_bind_ok (show (get : Saga Tab).exec s = (.ok s, s) from rfl)
  unfold Ends
  rw [hget, hcurrent]
  change Ends _ (if _ then _ else _ : Saga Unit) s
  split
  next hnews =>
    rw [hnews, Bool.true_and]
    exact ends_applyMembership a.hash _ (some snap.rowMeta) now hcurrent
  next hnews =>
    rw [show isNews current (rebaseRead snap.primary a.before current.remoteArray) snap.rowMeta =
      false by simpa using hnews, Bool.false_and]
    exact Ends.of_quiet (Throwing.Quiet.pure ()) s

/-! ## Steps -/

namespace Tab

/-- The set of ids that a step applies: its query, the ids and the row. -/
def taking (s : Tab) : TabEvent → Option (QueryEntry × RecordVersionArray × ServerViewMeta)
  | .registerAnswer i (.readBack statements) _ =>
    match s.registrations[i]? with
    | none => none
    | some r =>
      match s.query r.hash, snapshotFromSingle statements with
      | some answered, some snap =>
        if answered.id = r.id then some (answered, snap.primary, snap.rowMeta) else none
      | _, _ => none
  | .applySnapshot i _ =>
    match s.reads[i]? with
    | some (.apply ((a, snap) :: _)) =>
      match s.query a.hash with
      | none => none
      | some current =>
        let primary := rebaseRead snap.primary a.before current.remoteArray
        if isNews current primary snap.rowMeta then some (current, primary, snap.rowMeta) else none
    | _ => none
  | _ => none

/-- No lost view is to take ids without its row. -/
def explained (s : Tab) (a : TabEvent) : Bool :=
  (s.taking a).all fun e => !Unexplained e.1 e.2.1 (some e.2.2)

/-- A step throws once, if it is not explained. -/
def Throws (s : Tab) (a : TabEvent) (t : Tab) : Prop :=
  (s.explained a = true → t.thrown = s.thrown) ∧
    (s.explained a = false → ∃ e, t.thrown = s.thrown ++ [e])

variable {s t : Tab}

theorem Throws.of_not_taking {a : TabEvent} (h : s.taking a = none)
    (ht : t.thrown = s.thrown) : s.Throws a t := by
  refine ⟨fun _ => ht, fun hf => ?_⟩
  unfold explained at hf
  rw [h] at hf
  cases hf

/-- The saga that applies the set decides. -/
theorem Throws.of_ends {a : TabEvent} {entry : QueryEntry}
    {remoteArray : RecordVersionArray} {m : ServerViewMeta}
    (h : s.taking a = some (entry, remoteArray, m))
    (hok : Unexplained entry remoteArray (some m) = false → t.thrown = s.thrown)
    (herror : Unexplained entry remoteArray (some m) = true → ∃ e, t.thrown = s.thrown ++ [e]) :
    s.Throws a t := by
  unfold Throws explained
  rw [h]
  refine ⟨fun hx => hok (by simpa using hx), fun hx => herror (by simpa using hx)⟩

/-- What is thrown as a registration applies its answer is caught. -/
theorem thrown_readBack (r : Registration) (snap : ListRefSnapshot) (now : Nat)
    {answered : QueryEntry} (hanswered : s.query r.hash = some answered) :
    (Unexplained answered snap.primary (some snap.rowMeta) = false →
      ((readBack r snap now).left s).thrown = s.thrown) ∧
    (Unexplained answered snap.primary (some snap.rowMeta) = true →
      ∃ e, ((readBack r snap now).left s).thrown = s.thrown ++ [e]) := by
  have h := ends_applyMembership r.hash snap.primary (some snap.rowMeta) now hanswered
  refine ⟨fun hu => ?_, fun hu => ?_⟩
  · rw [hu] at h
    obtain ⟨a, t, ha, ht⟩ := h
    have hbody : (applyMembership r.hash snap.primary (some snap.rowMeta) now >>=
        fun _ => (pure true : Saga Bool)).exec s = (.ok true, t) := Throwing.exec_bind_ok ha
    rw [Throwing.left, readBack, Throwing.exec_tryCatch_ok hbody]
    exact ht
  · rw [hu] at h
    obtain ⟨e, t, he, ht⟩ := h
    refine ⟨e, ?_⟩
    rw [Throwing.left, readBack, Throwing.exec_tryCatch_error (Throwing.exec_bind_error he), ← ht]
    refine Throwing.Quiet.left ?_ t
    exact Throwing.Quiet.bind (quiet_registerFailed r false) fun _ => Throwing.Quiet.pure false

theorem throws_registerAnswer {i : Nat} {r : Registration}
    (hr : s.registrations[i]? = some r) (answer : RegisterAnswer) (now : Nat) :
    s.Throws (.registerAnswer i answer now) (s.answerRegistration i r answer now) := by
  have hget : (registerAnswered r answer now).exec s = _ :=
    Throwing.exec_bind_ok (show (get : Saga Tab).exec s = (.ok s, s) from rfl)
  have hleft : (s.answerRegistration i r answer now).thrown =
      ((registerAnswered r answer now).exec s).2.thrown := by
    unfold answerRegistration
    dsimp only
    split <;> rfl
  have hquiet : s.taking (.registerAnswer i answer now) = none → ∀ {m : Saga Bool},
      m.Quiet Tab.thrown → (registerAnswered r answer now).exec s = m.exec s →
        s.Throws (.registerAnswer i answer now) (s.answerRegistration i r answer now) := by
    intro hnone m hm heq
    refine Throws.of_not_taking hnone ?_
    rw [hleft, heq]
    exact hm.left s
  cases hanswered : s.query r.hash with
  | none =>
    refine hquiet ?_ (Throwing.Quiet.pure false) (by rw [hget, hanswered])
    cases answer with
    | refused _ => rfl
    | readBack statements => simp only [taking, hr, hanswered]
  | some answered =>
    rw [hanswered] at hget
    dsimp only at hget
    by_cases hid : answered.id = r.id
    · rw [if_neg (not_not.mpr hid)] at hget
      cases answer with
      | refused notAllowlisted =>
        exact hquiet rfl (Throwing.Quiet.bind (quiet_registerFailed r _) fun _ =>
          Throwing.Quiet.pure false) hget
      | readBack statements =>
        cases hsnap : snapshotFromSingle statements with
        | none =>
          dsimp only at hget
          rw [hsnap] at hget
          refine hquiet (by simp only [taking, hr, hanswered, hsnap]) ?_ hget
          exact Throwing.Quiet.bind (quiet_registerDone r) fun _ => Throwing.Quiet.pure false
        | some snap =>
          dsimp only at hget
          rw [hsnap] at hget
          have htaking : s.taking (.registerAnswer i (.readBack statements) now) =
              some (answered, snap.primary, snap.rowMeta) := by
            simp only [taking, hr, hanswered, hsnap, if_pos hid]
          obtain ⟨hok, herror⟩ := thrown_readBack r snap now hanswered
          rw [← show (s.answerRegistration i r (.readBack statements) now).thrown =
            ((readBack r snap now).left s).thrown by rw [hleft, hget]; rfl] at hok herror
          exact Throws.of_ends htaking hok herror
    · rw [if_pos hid] at hget
      refine hquiet ?_ (Throwing.Quiet.pure false) hget
      cases answer with
      | refused _ => rfl
      | readBack statements =>
        simp only [taking, hr, hanswered]
        split
        next h _ =>
          cases h
          rw [if_neg hid]
        next => rfl

theorem throws_applyNext {i : Nat} {a : Asked} {snap : ListRefSnapshot}
    {rest : List (Asked × ListRefSnapshot)}
    (hread : s.reads[i]? = some (.apply ((a, snap) :: rest))) (now : Nat) : s.Throws (.applySnapshot i now) (s.applyNext i a snap rest now) := by
  have hleft : (s.applyNext i a snap rest now).thrown =
      ((takeSnapshot a snap now).exec s).2.thrown := by
    unfold applyNext
    dsimp only
    split <;> rfl
  cases hcurrent : s.query a.hash with
  | none =>
    refine Throws.of_not_taking (by simp only [taking, hread, hcurrent]) ?_
    rw [hleft, show (takeSnapshot a snap now).exec s = _ from
      Throwing.exec_bind_ok (show (get : Saga Tab).exec s = (.ok s, s) from rfl), hcurrent]
    rfl
  | some current =>
    have h := ends_takeSnapshot a snap now hcurrent
    cases hnews : isNews current (rebaseRead snap.primary a.before current.remoteArray)
      snap.rowMeta with
    | false =>
      rw [hnews] at h
      obtain ⟨_, t, ht, hthrown⟩ := h
      refine Throws.of_not_taking (by simp [taking, hread, hcurrent, hnews]) ?_
      rw [hleft, ht]
      exact hthrown
    | true =>
      rw [hnews, Bool.true_and] at h
      have htaking : s.taking (.applySnapshot i now) = some (current,
          rebaseRead snap.primary a.before current.remoteArray, snap.rowMeta) := by
        simp [taking, hread, hcurrent, hnews]
      refine Throws.of_ends htaking (fun hu => ?_) fun hu => ?_
      · rw [hu] at h
        obtain ⟨_, t, ht, hthrown⟩ := h
        rw [hleft, ht]
        exact hthrown
      · rw [hu] at h
        obtain ⟨e, t, ht, hthrown⟩ := h
        exact ⟨e, by rw [hleft, ht]; exact hthrown⟩

/-- Only an unexplained set makes a step throw. -/
theorem throws_step {a : TabEvent} (h : s.step a = some t) : s.Throws a t := by
  have hquiet : ∀ {m : Saga Unit}, s.taking a = none → m.Quiet Tab.thrown →
      t.thrown = (m.left s).thrown → s.Throws a t :=
    fun hnone hm ht => Throws.of_not_taking hnone (ht.trans (hm.left s))
  have hkept : s.taking a = none → t.thrown = s.thrown → s.Throws a t := Throws.of_not_taking
  cases a with
  | declare hash id limited view =>
    simp only [step] at h
    split at h
    next => cases h
    next =>
      cases h
      exact hkept rfl rfl
  | evict hash | read chunks =>
    cases h
    exact hkept rfl rfl
  | rebind hash id view =>
    cases h
    exact hkept rfl (s.withEntry_thrown hash _)
  | report hash report =>
    cases h
    exact hquiet rfl (quiet_applyLifecycle hash (by cases report <;> simp [Report.event])) rfl
  | recover hash =>
    cases h
    exact hquiet rfl (quiet_recoverLostView hash) rfl
  | deltas hash deltas now =>
    cases h
    obtain ⟨_, u, hu, hthrown⟩ := ends_applyEdgeDeltas hash deltas now s
    refine hkept rfl ?_
    rw [Throwing.left, hu]
    exact hthrown
  | register hash retry =>
    cases h
    refine Throws.of_not_taking rfl ?_
    unfold beginRegistration
    split
    next => rfl
    next =>
      split
      next => rfl
      next => exact (quiet_registerBegin hash _).left s
  | registerAnswer i answer now =>
    simp only [step] at h
    split at h
    next r hr =>
      split at h
      next => cases h
      next =>
        cases h
        exact throws_registerAnswer hr answer now
    next => cases h
  | registerDone i =>
    simp only [step] at h
    split at h
    next r hr =>
      split at h
      next =>
        cases h
        exact hquiet rfl (quiet_registerDone r) rfl
      next => cases h
    next => cases h
  | readAnswer i answers | rereadAnswer i answers =>
    simp only [step] at h
    split at h
    next =>
      cases h
      exact hkept rfl rfl
    next => cases h
  | applySnapshot i now =>
    simp only [step] at h
    split at h
    next a snap rest hread =>
      cases h
      exact throws_applyNext hread now
    next hread =>
      cases h
      exact hkept (by simp only [taking, hread]) rfl
    next => cases h

/-- A run throws at the steps that are not explained. -/
theorem thrown_run {as : List TabEvent}
    (h : runAll step (fun _ _ => true) s as = some t) :
    s.thrown.length ≤ t.thrown.length ∧
      (t.thrown = s.thrown ↔ runAll step explained s as = some t) := by
  induction as generalizing s with
  | nil =>
    cases h
    exact ⟨Nat.le_refl _, fun _ => rfl, fun _ => rfl⟩
  | cons a as ih =>
    unfold runAll at h
    rw [if_pos rfl] at h
    obtain ⟨u, hu, ht⟩ := Option.bind_eq_some_iff.mp h
    obtain ⟨hle, hiff⟩ := ih ht
    obtain ⟨hkeeps, hthrows⟩ := throws_step hu
    unfold runAll
    cases he : s.explained a with
    | true =>
      rw [if_pos rfl, hu, ← hkeeps he]
      exact ⟨hle, hiff⟩
    | false =>
      obtain ⟨e, hthrown⟩ := hthrows he
      rw [hthrown, List.length_append, List.length_singleton] at hle
      rw [if_neg Bool.false_ne_true]
      refine ⟨by omega, fun heq => ?_, fun heq => by cases heq⟩
      rw [heq] at hle
      omega

end Tab

/-- A run throws nothing just if no step of it takes ids for a lost view without its row. -/
theorem transition_throws_only_without_row {t : Tab} {as : List TabEvent}
    (h : runAll Tab.step (fun _ _ => true) Tab.fresh as = some t) :
    t.thrown = [] ↔ runAll Tab.step Tab.explained Tab.fresh as = some t :=
  (Tab.thrown_run h).2

/-- A query of an earlier session whose row is read as gone. -/
def lostView : List TabEvent :=
  [.declare "q" "salt" false (some ⟨[("a", 1)], true⟩), .read [["q"]],
    .readAnswer 0 [.single ⟨.rows [], .null, .rows []⟩], .applySnapshot 0 0, .applySnapshot 0 0]

/-- It is registered again, and takes what its new row comes with. -/
theorem transition_throws_only_without_row_registered :
    ∃ t : Tab, (t.query "q").map (·.lifecycle.phase) = some .live ∧ t.thrown = [] := by
  have hrun : (runAll Tab.step Tab.explained Tab.fresh (lostView ++ [.register "q" false,
      .registerAnswer 0 (.readBack ⟨.rows [("b", 1)], .rows ⟨none, some 1, none⟩, .null⟩) 0,
      .registerDone 0])).any
        (fun t => decide ((t.query "q").map (·.lifecycle.phase) = some .live)) = true := by
    decide +kernel
  obtain ⟨t, ht, hlive⟩ := (Option.any_eq_true _ _).mp hrun
  have hall : runAll Tab.step (fun _ _ => true) Tab.fresh _ = some t :=
    runAll_mono (fun _ _ _ => rfl) ht
  exact ⟨t, of_decide_eq_true hlive, (transition_throws_only_without_row hall).mpr ht⟩

/-- The row is still missing as ids are read. -/
theorem impossible_transition :
    ¬ ∀ (as : List TabEvent) (t : Tab),
      runAll Tab.step (fun _ _ => true) Tab.fresh as = some t → t.thrown = [] := by
  intro h
  have hrun : (runAll Tab.step (fun _ _ => true) Tab.fresh (lostView ++ [.read [["q"]],
      .readAnswer 0 [.single ⟨.rows [("a", 1), ("b", 1)], .null, .rows []⟩],
      .applySnapshot 0 0])).any (fun t => decide (t.thrown ≠ [])) = true := by
    decide +kernel
  obtain ⟨t, ht, hthrown⟩ := (Option.any_eq_true _ _).mp hrun
  exact of_decide_eq_true hthrown (h _ t ht)

end Sp00ky.Core.Sagas
