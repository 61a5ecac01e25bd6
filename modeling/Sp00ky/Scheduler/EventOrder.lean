/-
  The orders in which the events of one record are seen.

  A drain applies events in buffer order, the SSPs get them in the order they are handed to
  the fan-out queue, and a recovery replays them in the order of their numbers. The three
  agree on a record as long as no call on it is overtaken on its way to the buffer or to the
  queue (`ordered`).
-/
import Sp00ky.Scheduler.Durability

namespace Sp00ky.Scheduler

open Lib Ssp

/-- The record an event is about; its id may be spelled with the table or without. -/
def BufferedEvent.record (e : BufferedEvent) : String × String :=
  (e.update.table, match splitOnce e.update.recordId with
    | some (table, id) => if table = e.update.table then id else e.update.recordId
    | none => e.update.recordId)

/-- What the drain under way applies, in order. -/
def State.batch (s : State) : List BufferedEvent := (s.drain.map Drain.batch).getD []

/-- Buffer order, the order of the drain under way, fan-out order, and the order of a recovery. -/
def State.orders (s : State) : List (List BufferedEvent) :=
  [s.pushed, s.batch, s.submitted, (recoverWalBacklog s.snapshotSeq s.wal.reopen).1]

/-- No two orders see two events of a record differently, and two that hold the same events of a
    record hold the same list of them. -/
structure State.OrdersAgree (s : State) : Prop where
  pair : ∀ l ∈ s.orders, ∀ l' ∈ s.orders, ∀ a b : BufferedEvent, a.record = b.record →
    [a, b].Sublist l → ¬ [b, a].Sublist l'
  record : ∀ l ∈ s.orders, ∀ l' ∈ s.orders, ∀ r : String × String,
    (l.filter fun e => e.record = r).Perm (l'.filter fun e => e.record = r) →
      (l.filter fun e => e.record = r) = l'.filter fun e => e.record = r

/-- The condition on a step: an event is pushed to the buffer, or handed to the fan-out, only once
    the calls with smaller numbers on its record have that step behind them. -/
def ordered (s : State) : Action → Bool
  | .push i => s.calls[i]?.all fun c => s.calls.all fun c' =>
      c'.stage == .buffered || c'.event.record != c.event.record ||
        decide (c.event.seq ≤ c'.event.seq)
  | .submit i => s.calls[i]?.all fun c => s.calls.all fun c' =>
      c'.event.record != c.event.record || decide (c.event.seq ≤ c'.event.seq)
  | _ => true

/-! ## The invariant -/

/-- The events of each record are in the order of their numbers. -/
def InSeqOrder (l : List BufferedEvent) : Prop :=
  l.Pairwise fun a b => a.record = b.record → a.seq < b.seq

structure State.Ordered (s : State) : Prop where
  calls : s.calls.Pairwise fun c c' => c.event.seq < c'.event.seq
  below : ∀ c ∈ s.calls, c.event.seq ≤ s.seqCounter
  contents : (s.wal.contents.map BufferedEvent.seq).Nodup
  contentsBelow : ∀ e ∈ s.wal.contents, e.seq ≤ s.seqCounter
  unlogged : ∀ c ∈ s.calls, c.stage = .numbered → ∀ e ∈ s.wal.contents, e.seq ≠ c.event.seq
  pushed : InSeqOrder s.pushed
  unpushed : ∀ c ∈ s.calls, c.stage ≠ .buffered → ∀ e ∈ s.pushed, e.record = c.event.record →
    e.seq < c.event.seq
  pushedBelow : ∀ e ∈ s.pushed, e.seq ≤ s.seqCounter
  queued : (s.batch ++ s.eventBuffer).Sublist s.pushed
  submitted : InSeqOrder s.submitted
  unsubmitted : ∀ c ∈ s.calls, ∀ e ∈ s.submitted, e.record = c.event.record →
    e.seq < c.event.seq
  submittedBelow : ∀ e ∈ s.submitted, e.seq ≤ s.seqCounter

theorem ordered_new (segmentBytes : Nat) : (State.new segmentBytes).Ordered where
  calls := .nil
  below := fun c hc => by cases hc
  contents := .nil
  contentsBelow := fun e he => by cases he
  unlogged := fun c hc => by cases hc
  pushed := .nil
  unpushed := fun c hc => by cases hc
  pushedBelow := fun e he => by cases he
  queued := .slnil
  submitted := .nil
  unsubmitted := fun c hc => by cases hc
  submittedBelow := fun e he => by cases he

section Steps

variable {frameLen : BufferedEvent → Nat} {s t : State} {i : Nat}

/-- Replacing an element by one with the same image. -/
theorem map_set_same {α β : Type} {l : List α} {a b : α} {f : α → β}
    (h : l[i]? = some a) (hf : f b = f a) : (l.set i b).map f = l.map f := by
  refine List.ext_getElem? fun j => ?_
  rw [List.getElem?_map, List.getElem?_map, List.getElem?_set]
  split
  next hij =>
    subst hij
    obtain ⟨hlt, -⟩ := List.getElem?_eq_some_iff.mp h
    rw [if_pos hlt, h, Option.map_some, Option.map_some, hf]
  next => rfl

variable {e : BufferedEvent}

theorem calls_set {l : List Call} {st st' : Stage}
    (h : l[i]? = some ⟨e, st⟩) (hl : l.Pairwise fun c c' => c.event.seq < c'.event.seq) :
    (l.set i ⟨e, st'⟩).Pairwise fun c c' => c.event.seq < c'.event.seq := by
  have hmap : (l.set i ⟨e, st'⟩).map (fun c => c.event.seq) = l.map fun c => c.event.seq :=
    map_set_same h rfl
  rw [← List.pairwise_map (f := fun c : Call => c.event.seq) (R := (· < ·))] at hl ⊢
  rw [hmap]
  exact hl

/-- The numbers of two calls at different places differ. -/
theorem seq_ne {l : List Call} (hl : l.Pairwise fun c c' => c.event.seq < c'.event.seq) {i j : Nat}
    {c c' : Call} (hc : l[i]? = some c) (hc' : l[j]? = some c') (hij : j ≠ i) :
    c'.event.seq ≠ c.event.seq := by
  obtain ⟨hi, rfl⟩ := List.getElem?_eq_some_iff.mp hc
  obtain ⟨hj, rfl⟩ := List.getElem?_eq_some_iff.mp hc'
  rw [List.pairwise_iff_getElem] at hl
  rcases Nat.lt_or_gt_of_ne hij with h | h
  · exact Nat.ne_of_lt (hl j i hj hi h)
  · exact Nat.ne_of_gt (hl i j hi hj h)

/-- A call of the list with one of them replaced is the new one or another one. -/
theorem mem_set_call {l : List Call} {c c' : Call} (h : c' ∈ l.set i c) :
    c' = c ∨ ∃ j, j ≠ i ∧ l[j]? = some c' := by
  obtain ⟨j, hj⟩ := List.mem_iff_getElem?.mp h
  rw [List.getElem?_set] at hj
  split at hj
  next =>
    split at hj
    · exact .inl (Option.some.inj hj).symm
    · cases hj
  next hne => exact .inr ⟨j, Ne.symm hne, hj⟩

theorem inSeqOrder_append {l : List BufferedEvent} (hl : InSeqOrder l)
    (he : ∀ a ∈ l, a.record = e.record → a.seq < e.seq) : InSeqOrder (l ++ [e]) := by
  unfold InSeqOrder
  rw [List.pairwise_append]
  refine ⟨hl, List.pairwise_singleton _ _, fun a ha b hb hab => ?_⟩
  obtain rfl : b = e := by simpa using hb
  exact he a ha hab

theorem ordered_begin (h : s.Ordered) (hseq : e.seq = s.seqCounter + 1) :
    State.Ordered
      { s with seqCounter := s.seqCounter + 1, calls := s.calls ++ [⟨e, .numbered⟩] } := by
  have hsplit : ∀ c, c ∈ s.calls ++ [⟨e, .numbered⟩] → c ∈ s.calls ∨ c = ⟨e, .numbered⟩ := by
    intro c hc
    simpa using hc
  refine ⟨?_, fun c hc => ?_, h.contents, fun e he => Nat.le_succ_of_le (h.contentsBelow e he),
    fun c hc hst e' he' => ?_, h.pushed,
    fun c hc hst e' he' hr => ?_, fun e he => Nat.le_succ_of_le (h.pushedBelow e he), h.queued,
    h.submitted, fun c hc e' he' hr => ?_, fun e he => Nat.le_succ_of_le (h.submittedBelow e he)⟩
  · rw [List.pairwise_append]
    refine ⟨h.calls, List.pairwise_singleton _ _, fun c hc c' hc' => ?_⟩
    obtain rfl : c' = ⟨e, .numbered⟩ := by simpa using hc'
    show c.event.seq < e.seq
    have := h.below c hc
    omega
  · rcases hsplit c hc with hc | rfl
    · exact Nat.le_succ_of_le (h.below c hc)
    · exact Nat.le_of_eq hseq
  · rcases hsplit c hc with hc | rfl
    · exact h.unlogged c hc hst e' he'
    · show e'.seq ≠ e.seq
      have := h.contentsBelow e' he'
      omega
  · rcases hsplit c hc with hc | rfl
    · exact h.unpushed c hc hst e' he' hr
    · show e'.seq < e.seq
      have := h.pushedBelow e' he'
      omega
  · rcases hsplit c hc with hc | rfl
    · exact h.unsubmitted c hc e' he' hr
    · show e'.seq < e.seq
      have := h.submittedBelow e' he'
      omega

theorem ordered_log (h : s.Ordered) {wal : EventWal}
    (hcall : s.calls[i]? = some ⟨e, .numbered⟩) (hwal : s.wal.append frameLen e = some wal) :
    State.Ordered { s with wal := wal, calls := s.calls.set i ⟨e, .logged⟩ } := by
  have hcontents : wal.contents = s.wal.contents ++ [e] := EventWal.contents_append hwal
  have hmem := List.mem_of_getElem? hcall
  have hsplit : ∀ e', e' ∈ wal.contents → e' ∈ s.wal.contents ∨ e' = e := by
    intro e' he'
    rw [hcontents] at he'
    simpa using he'
  refine ⟨calls_set hcall h.calls, fun c hc => ?_, ?_, fun e' he' => ?_,
    fun c hc hst e' he' => ?_, h.pushed, fun c hc hst => ?_, h.pushedBelow, h.queued, h.submitted,
    fun c hc => ?_, h.submittedBelow⟩
  · rcases mem_set_call hc with rfl | ⟨j, -, hj⟩
    · exact h.below ⟨e, .numbered⟩ hmem
    · exact h.below c (List.mem_of_getElem? hj)
  · show (wal.contents.map BufferedEvent.seq).Nodup
    rw [hcontents, List.map_append, List.nodup_append]
    refine ⟨h.contents, by simp, fun a ha b hb hab => ?_⟩
    obtain ⟨e', he', rfl⟩ := List.mem_map.mp ha
    obtain rfl : b = e.seq := by simpa using hb
    exact h.unlogged _ hmem rfl e' he' hab
  · rcases hsplit e' he' with he' | rfl
    · exact h.contentsBelow e' he'
    · exact h.below ⟨e', .numbered⟩ hmem
  · rcases mem_set_call hc with rfl | ⟨j, hij, hj⟩
    · cases hst
    · rcases hsplit e' he' with he' | rfl
      · exact h.unlogged c (List.mem_of_getElem? hj) hst e' he'
      · exact Ne.symm (seq_ne h.calls hcall hj hij)
  · rcases mem_set_call hc with rfl | ⟨j, -, hj⟩
    · exact h.unpushed ⟨e, .numbered⟩ hmem (by simp)
    · exact h.unpushed c (List.mem_of_getElem? hj) hst
  · rcases mem_set_call hc with rfl | ⟨j, -, hj⟩
    · exact h.unsubmitted ⟨e, .numbered⟩ hmem
    · exact h.unsubmitted c (List.mem_of_getElem? hj)

theorem ordered_refuse (h : s.Ordered) (i : Nat) :
    State.Ordered { s with calls := s.calls.eraseIdx i } :=
  ⟨h.calls.sublist (List.eraseIdx_sublist _ _), fun c hc => h.below c (List.mem_of_mem_eraseIdx hc),
    h.contents, h.contentsBelow,
    fun c hc => h.unlogged c (List.mem_of_mem_eraseIdx hc), h.pushed,
    fun c hc => h.unpushed c (List.mem_of_mem_eraseIdx hc), h.pushedBelow, h.queued, h.submitted,
    fun c hc => h.unsubmitted c (List.mem_of_mem_eraseIdx hc), h.submittedBelow⟩

theorem ordered_push (h : s.Ordered)
    (hcall : s.calls[i]? = some ⟨e, .logged⟩) (hok : ordered s (.push i) = true) :
    State.Ordered
      { s with
        eventBuffer := s.eventBuffer ++ [e]
        pushed := s.pushed ++ [e]
        calls := s.calls.set i ⟨e, .buffered⟩ } := by
  have hmem := List.mem_of_getElem? hcall
  -- the condition: the other calls on the record that are not buffered come later
  have hlater : ∀ c ∈ s.calls, c.stage ≠ .buffered → c.event.record = e.record →
      e.seq ≤ c.event.seq := by
    intro c hc hst hr
    simp only [ordered, hcall, Option.all_some, List.all_eq_true] at hok
    have := hok c hc
    simp only [Bool.or_eq_true, beq_iff_eq, bne_iff_ne, decide_eq_true_eq] at this
    rcases this with (hb | hne) | hle
    · exact absurd hb hst
    · exact absurd hr hne
    · exact hle
  refine ⟨calls_set hcall h.calls, fun c hc => ?_, h.contents, h.contentsBelow,
    fun c hc hst => ?_, inSeqOrder_append h.pushed fun a ha hr => h.unpushed ⟨e, .logged⟩ hmem (by simp) a ha hr,
    fun c hc hst e' he' hr => ?_, fun e' he' => ?_, ?_, h.submitted, fun c hc => ?_,
    h.submittedBelow⟩
  · rcases mem_set_call hc with rfl | ⟨j, -, hj⟩
    · exact h.below ⟨e, .logged⟩ hmem
    · exact h.below c (List.mem_of_getElem? hj)
  · rcases mem_set_call hc with rfl | ⟨j, -, hj⟩
    · cases hst
    · exact h.unlogged c (List.mem_of_getElem? hj) hst
  · rcases mem_set_call hc with rfl | ⟨j, hij, hj⟩
    · exact absurd rfl hst
    · have hcm := List.mem_of_getElem? hj
      rcases List.mem_append.mp he' with he' | he'
      · exact h.unpushed c hcm hst e' he' hr
      · obtain rfl : e' = e := by simpa using he'
        have hne := seq_ne h.calls hcall hj hij
        have hle := hlater c hcm hst hr.symm
        exact Nat.lt_of_le_of_ne hle (Ne.symm hne)
  · rcases List.mem_append.mp he' with he' | he'
    · exact h.pushedBelow e' he'
    · obtain rfl : e' = e := by simpa using he'
      exact h.below ⟨e', .logged⟩ hmem
  · show (s.batch ++ (s.eventBuffer ++ [e])).Sublist (s.pushed ++ [e])
    rw [← List.append_assoc]
    exact h.queued.append_right [e]
  · rcases mem_set_call hc with rfl | ⟨j, -, hj⟩
    · exact h.unsubmitted ⟨e, .logged⟩ hmem
    · exact h.unsubmitted c (List.mem_of_getElem? hj)

theorem ordered_submit (h : s.Ordered)
    (hcall : s.calls[i]? = some ⟨e, .buffered⟩) (hok : ordered s (.submit i) = true) :
    State.Ordered
      { s with
        submitted := s.submitted ++ [e]
        acked := s.acked ++ [e]
        calls := s.calls.eraseIdx i } := by
  have hmem := List.mem_of_getElem? hcall
  have hlater : ∀ c ∈ s.calls, c.event.record = e.record → e.seq ≤ c.event.seq := by
    intro c hc hr
    simp only [ordered, hcall, Option.all_some, List.all_eq_true] at hok
    have := hok c hc
    simp only [Bool.or_eq_true, bne_iff_ne, decide_eq_true_eq] at this
    rcases this with hne | hle
    · exact absurd hr hne
    · exact hle
  have hrest := ordered_refuse h i
  refine ⟨hrest.calls, hrest.below, hrest.contents, hrest.contentsBelow,
    hrest.unlogged, hrest.pushed, hrest.unpushed, hrest.pushedBelow, hrest.queued,
    inSeqOrder_append h.submitted fun a ha hr => h.unsubmitted _ hmem a ha hr,
    fun c hc e' he' hr => ?_, fun e' he' => ?_⟩
  · rcases List.mem_append.mp he' with he' | he'
    · exact hrest.unsubmitted c hc e' he' hr
    · obtain rfl : e' = e := by simpa using he'
      obtain ⟨j, hij, hj⟩ := List.mem_eraseIdx_iff_getElem?.mp hc
      have hne := seq_ne h.calls hcall hj hij
      have hle := hlater c (List.mem_of_getElem? hj) hr.symm
      exact Nat.lt_of_le_of_ne hle (Ne.symm hne)
  · rcases List.mem_append.mp he' with he' | he'
    · exact h.submittedBelow e' he'
    · obtain rfl : e' = e := by simpa using he'
      exact h.below _ hmem

/-- A step of a drain changes no call and adds nothing to the log or the buffer. -/
theorem ordered_frame (h : s.Ordered) (hcalls : t.calls = s.calls)
    (hcount : t.seqCounter = s.seqCounter) (hwal : t.wal.contents.Sublist s.wal.contents)
    (hqueued : (t.batch ++ t.eventBuffer).Sublist s.pushed) (hpushed : t.pushed = s.pushed)
    (hsubmitted : t.submitted = s.submitted) : t.Ordered := by
  constructor
  case calls => rw [hcalls]; exact h.calls
  case below => rw [hcalls, hcount]; exact h.below
  case contents => exact h.contents.sublist (hwal.map _)
  case contentsBelow => rw [hcount]; exact fun e he => h.contentsBelow e (hwal.subset he)
  case unlogged =>
    rw [hcalls]
    exact fun c hc hst e he => h.unlogged c hc hst e (hwal.subset he)
  case pushed => rw [hpushed]; exact h.pushed
  case unpushed => rw [hcalls, hpushed]; exact h.unpushed
  case pushedBelow => rw [hcount, hpushed]; exact h.pushedBelow
  case queued => rw [hpushed]; exact hqueued
  case submitted => rw [hsubmitted]; exact h.submitted
  case unsubmitted => rw [hcalls, hsubmitted]; exact h.unsubmitted
  case submittedBelow => rw [hcount, hsubmitted]; exact h.submittedBelow

/-- A recovery of events with different numbers is in their order. -/
theorem inSeqOrder_backlog {w : EventWal} (h : (w.contents.map BufferedEvent.seq).Nodup) (n : Nat) :
    InSeqOrder (recoverWalBacklog n w.reopen).1 := by
  have hnodup : (w.reopen.recover.map BufferedEvent.seq).Nodup := by
    unfold EventWal.recover
    rw [((List.mergeSort_perm _ _).map BufferedEvent.seq).nodup_iff, EventWal.contents_reopen]
    exact h.sublist (List.filter_sublist.map _)
  have hlt : w.reopen.recover.Pairwise fun a b => a.seq < b.seq := by
    have hne : w.reopen.recover.Pairwise fun a b => a.seq ≠ b.seq := List.pairwise_map.mp hnodup
    exact (EventWal.pairwise_recover w.reopen).imp₂ (fun _ _ h1 h2 => Nat.lt_of_le_of_ne h1 h2) hne
  have hfilter : (recoverWalBacklog n w.reopen).1.Pairwise fun a b => a.seq < b.seq :=
    hlt.sublist List.filter_sublist
  refine hfilter.imp ?_
  intro a b hab _
  exact hab

theorem State.Ordered.reboot (h : s.Ordered) : s.reboot.Ordered := by
  have hbuffer : ∀ e ∈ s.reboot.eventBuffer, e ∈ s.wal.contents := fun e he =>
    (mem_reboot_buffer.mp he).1
  refine ⟨.nil, fun c hc => (by cases hc), ?_, fun e he => ?_, fun c hc => (by cases hc),
    inSeqOrder_backlog h.contents _, fun c hc => (by cases hc),
    fun e he => reboot_seq (hbuffer e he), .refl _, .nil, fun c hc => (by cases hc),
    fun e he => (by cases he)⟩
  · show (s.wal.reopen.contents.map BufferedEvent.seq).Nodup
    rw [EventWal.contents_reopen]
    exact h.contents
  · have he : e ∈ s.wal.reopen.contents := he
    rw [EventWal.contents_reopen] at he
    exact reboot_seq he

theorem ordered_step {a : Action} (h : s.Ordered) (hok : ordered s a = true)
    (hstep : Step frameLen s a t) : t.Ordered := by
  cases hstep with
  | begin e hseq => exact ordered_begin h hseq
  | log hcall hwal => exact ordered_log h hcall hwal
  | refuse hcall => exact ordered_refuse h _
  | push hcall => exact ordered_push h hcall hok
  | submit hcall => exact ordered_submit h hcall hok
  | takeNothing => exact h
  | takeDirty hdrain =>
    refine ordered_frame h rfl rfl (.refl _) ?_ rfl rfl
    exact (List.sublist_append_right _ _).trans h.queued
  | take hdrain hlast =>
    refine ordered_frame h rfl rfl (.refl _) ?_ rfl rfl
    show (s.eventBuffer ++ []).Sublist s.pushed
    rw [List.append_nil]
    exact (List.sublist_append_right _ _).trans h.queued
  | apply hdrain hdone | commit hdrain hcommitted =>
    refine ordered_frame h rfl rfl (.refl _) ?_ rfl rfl
    have hq := h.queued
    rw [State.batch, hdrain] at hq
    exact hq
  | truncate hdrain hcommitted =>
    refine ordered_frame h rfl rfl (EventWal.contents_truncate_sublist s.wal _) ?_ rfl rfl
    exact (List.sublist_append_right _ _).trans h.queued
  | crash => exact h.reboot

end Steps

/-! ## The orders agree -/

theorem State.Ordered.orders {s : State} (h : s.Ordered) : ∀ l ∈ s.orders, InSeqOrder l := by
  intro l hl
  unfold State.orders at hl
  simp only [List.mem_cons, List.not_mem_nil, or_false] at hl
  rcases hl with rfl | rfl | rfl | rfl
  · exact h.pushed
  · exact h.pushed.sublist ((List.sublist_append_left _ _).trans h.queued)
  · exact h.submitted
  · exact inSeqOrder_backlog h.contents _

theorem State.Ordered.agree {s : State} (h : s.Ordered) : s.OrdersAgree := by
  refine ⟨fun l hl l' hl' a b hab hl1 hl2 => ?_, fun l hl l' hl' r hperm => ?_⟩
  · have h1 : a.seq < b.seq := by
      have := (h.orders l hl).sublist hl1
      simpa [hab] using this
    have h2 : b.seq < a.seq := by
      have := (h.orders l' hl').sublist hl2
      simpa [hab] using this
    exact Nat.lt_asymm h1 h2
  · -- two lists of the same events, both in the order of their numbers
    have hlt : ∀ l, InSeqOrder l →
        (l.filter fun e => e.record = r).Pairwise fun a b => a.seq < b.seq := by
      intro l hl
      refine (hl.sublist List.filter_sublist).imp_of_mem fun ha hb hseq => hseq ?_
      rw [of_decide_eq_true (List.mem_filter.mp ha).2, of_decide_eq_true (List.mem_filter.mp hb).2]
    exact hperm.eq_of_pairwise (fun a b _ _ h1 h2 => absurd h1 (Nat.lt_asymm h2))
      (hlt l (h.orders l hl)) (hlt l' (h.orders l' hl'))

/-- In every state of a run in which no call is overtaken by a later one on its record, the orders
    agree. -/
theorem orders_agree (frameLen : BufferedEvent → Nat) (segmentBytes : Nat) {s : State}
    (h : Run (State.step frameLen) (fun s a => ordered s a = true) (State.new segmentBytes) s) :
    s.OrdersAgree := by
  have hinv : s.Ordered := h.invariant (ordered_new segmentBytes) fun t a u ht hok hstep =>
    ordered_step ht hok (step_cases hstep)
  exact hinv.agree

/-- Three calls, the second of another record. It overtakes the first one everywhere; the third one
    waits for the first at the buffer and at the queue. -/
def overtakingOthers : List Action :=
  [aCall "a", aCall "b", aCall "T:a", .log 1, .push 1, .submit 1, .log 1, .log 0, .push 0, .push 1,
    .submit 0, .submit 0]

/-- The orders of the run agree, although events pass each other. -/
theorem orders_agree_overtaking : ∃ s,
    runAll (State.step fun _ => 100) ordered (State.new 0) overtakingOthers = some s ∧
      s.pushed.map BufferedEvent.seq = [2, 1, 3] ∧ s.OrdersAgree := by
  have hsome : (runAll (State.step fun _ => 100) ordered (State.new 0)
      overtakingOthers).isSome = true := by decide +kernel
  obtain ⟨s, hs⟩ := Option.isSome_iff_exists.mp hsome
  have hpushed : (runAll (State.step fun _ => 100) ordered (State.new 0) overtakingOthers).map
      (fun s => s.pushed.map BufferedEvent.seq) = some [2, 1, 3] := by decide +kernel
  rw [hs, Option.map_some, Option.some.injEq] at hpushed
  exact ⟨s, hs, hpushed, orders_agree (fun _ => 100) 0 (run_of_runAll hs)⟩

/-- Two calls on one record; the second one is the first to reach the buffer. -/
def bufferedAhead : List Action :=
  [aCall "a", aCall "a", .log 0, .log 1, .push 1, .push 0]

/-- An event of `bufferedAhead`. -/
def anEvent (seq : Nat) : BufferedEvent := ⟨seq, ⟨"T", .create, "a", some .null, seq, none⟩, 0, 0⟩

/-- The drain applies the second event first, a recovery applies it last. -/
theorem orders_disagree : ¬ ∀ s,
    Run (State.step fun _ => 100) (fun _ _ => True) (State.new 0) s → s.OrdersAgree := by
  intro hall
  have hrun : (runAll (State.step fun _ => 100) (fun _ _ => true) (State.new 0) bufferedAhead).map
      (fun s => (s.pushed, s.wal.reopen, s.snapshotSeq)) = some ([anEvent 2, anEvent 1],
        ⟨64 * 1024, [⟨1, [anEvent 1, anEvent 2]⟩], none, 0⟩, 0) := by rfl
  obtain ⟨s, hs, hview⟩ := Option.map_eq_some_iff.mp hrun
  rw [Prod.mk.injEq, Prod.mk.injEq] at hview
  obtain ⟨hpushed, hwal, hsnap⟩ := hview
  have hrecover : (recoverWalBacklog s.snapshotSeq s.wal.reopen).1 = [anEvent 1, anEvent 2] := by
    rw [hwal, hsnap]
    unfold recoverWalBacklog EventWal.recover
    rw [List.mergeSort_of_pairwise (by decide)]
    rfl
  have hagree := hall s (freeRun hs)
  have hmem : (recoverWalBacklog s.snapshotSeq s.wal.reopen).1 ∈ s.orders :=
    .tail _ (.tail _ (.tail _ (.head _)))
  refine hagree.pair s.pushed List.mem_cons_self _ hmem (anEvent 2) (anEvent 1) rfl ?_ ?_
  · rw [hpushed] <;> exact .refl _
  · rw [hrecover] <;> exact .refl _

end Sp00ky.Scheduler
