/-
  Acknowledged events and crashes.

  A drain commits the number of the last event it took and truncates the log up to it, and a
  recovery leaves out what is numbered at or below it. An event survives if the drains that
  commit while it is under way commit a smaller number (`InOrder`); numbers are handed out
  before the log and the buffer are reached, so nothing in the code ensures that.
-/
import Sp00ky.Scheduler.Ingest

namespace Sp00ky.Scheduler

open Lib

/-! ## The property -/

/-- The event was handed to `Replica::apply` by a committed drain, or is in a drain's batch, or is
    in the event buffer. -/
def State.Keeps (s : State) (e : BufferedEvent) : Prop :=
  e ∈ s.applied ∨ (∃ d, s.drain = some d ∧ e ∈ d.batch) ∨ e ∈ s.eventBuffer

/-- Every acknowledged event of a table the replica stores is kept. -/
def State.Survives (s : State) : Prop :=
  ∀ e ∈ s.acked, tableExcludedFromSync e.update.table = false → s.Keeps e

/-- The number a drain commits is not below the committed one and below every event that is still
    on its way to the buffer or went into it after the drain took it. -/
def Drain.ahead (d : Drain) (s : State) : Bool :=
  decide (s.snapshotSeq ≤ d.maxSeq) &&
    (s.calls.all fun c => c.stage == .buffered || decide (d.maxSeq < c.event.seq)) &&
    s.eventBuffer.all fun e => decide (d.maxSeq < e.seq)

/-- The condition on a step: a commit is ahead of nothing. -/
def inOrder (s : State) : Action → Bool
  | .commit => s.drain.all fun d => d.ahead s
  | _ => true

/-! ## The invariant -/

/-- An event that a crash would bring back. -/
structure State.Logged (s : State) (e : BufferedEvent) : Prop where
  above : s.snapshotSeq < e.seq
  below : e.seq ≤ s.seqCounter
  onDisk : e ∈ s.wal.contents

structure State.Durable (s : State) : Prop where
  snapshot : s.snapshotSeq ≤ s.seqCounter
  contents : ∀ e ∈ s.wal.contents, e.seq ≤ s.seqCounter
  numbered : ∀ c ∈ s.calls, c.stage ≠ .buffered →
    s.snapshotSeq < c.event.seq ∧ c.event.seq ≤ s.seqCounter
  logged : ∀ c ∈ s.calls, c.stage = .logged → c.event ∈ s.wal.contents
  buffered : ∀ c ∈ s.calls, c.stage = .buffered →
    tableExcludedFromSync c.event.update.table = false → s.Keeps c.event
  buffer : ∀ e ∈ s.eventBuffer, s.Logged e
  batch : ∀ d, s.drain = some d → d.maxSeq ≤ s.seqCounter ∧
    (d.committed = false → ∀ e ∈ d.batch, s.Logged e) ∧
    (d.committed = true → d.maxSeq ≤ s.snapshotSeq ∧
      ∀ e ∈ d.batch, tableExcludedFromSync e.update.table = false → e ∈ s.applied)
  acked : s.Survives

theorem durable_new (segmentBytes : Nat) : (State.new segmentBytes).Durable where
  snapshot := Nat.le_refl _
  contents := fun e he => by cases he
  numbered := fun c hc => by cases hc
  logged := fun c hc => by cases hc
  buffered := fun c hc => by cases hc
  buffer := fun e he => by cases he
  batch := fun d hd => by cases hd
  acked := fun e he => by cases he

section Steps

variable {frameLen : BufferedEvent → Nat} {s t : State} {e : BufferedEvent}

/-- What is kept stays kept when nothing leaves. -/
theorem State.Keeps.mono (h : s.Keeps e) (happlied : ∀ e ∈ s.applied, e ∈ t.applied)
    (hbatch : ∀ d e, s.drain = some d → e ∈ d.batch → ∃ d', t.drain = some d' ∧ e ∈ d'.batch)
    (hbuffer : ∀ e ∈ s.eventBuffer, e ∈ t.eventBuffer) : t.Keeps e := by
  rcases h with h | ⟨d, hd, h⟩ | h
  · exact .inl (happlied e h)
  · exact .inr (.inl (hbatch d e hd h))
  · exact .inr (.inr (hbuffer e h))

/-- A recovered number is at or below the number the counter resumes from. -/
theorem reboot_seq (he : e ∈ s.wal.contents) :
    e.seq ≤ s.reboot.seqCounter := by
  show e.seq ≤ max _ _
  by_cases hz : e.seq = 0
  · omega
  · have hmem : e ∈ s.wal.reopen.recover := by
      rw [EventWal.mem_recover, EventWal.contents_reopen]
      exact ⟨he, Nat.pos_of_ne_zero hz⟩
    refine Nat.le_trans ?_ (Nat.le_max_left _ _)
    have hsorted := EventWal.pairwise_recover s.wal.reopen
    generalize s.wal.reopen.recover = l at hmem hsorted
    rcases List.eq_nil_or_concat l with rfl | ⟨l, last, rfl⟩
    · cases hmem
    · rw [List.concat_eq_append] at hmem hsorted ⊢
      rw [List.getLast?_concat, Option.map_some, Option.getD_some]
      rcases List.mem_append.mp hmem with hm | hm
      · exact (List.pairwise_append.mp hsorted).2.2 e hm last List.mem_cons_self
      · obtain rfl : e = last := by simpa using hm
        exact Nat.le_refl _

theorem mem_reboot_buffer :
    e ∈ s.reboot.eventBuffer ↔ e ∈ s.wal.contents ∧ s.snapshotSeq < e.seq := by
  show e ∈ List.filter _ _ ↔ _
  rw [List.mem_filter, EventWal.mem_recover, EventWal.contents_reopen, decide_eq_true_eq]
  constructor
  · rintro ⟨⟨hc, -⟩, hs⟩
    exact ⟨hc, hs⟩
  · rintro ⟨hc, hs⟩
    exact ⟨⟨hc, Nat.lt_of_le_of_lt (Nat.zero_le _) hs⟩, hs⟩

theorem State.Durable.reboot (h : s.Durable) : s.reboot.Durable := by
  have hkeep : ∀ e, tableExcludedFromSync e.update.table = false → s.Keeps e →
      s.reboot.Keeps e := by
    rintro e hex (ha | ⟨d, hd, he⟩ | hb)
    · exact .inl ha
    · obtain ⟨-, hopen, hdone⟩ := h.batch d hd
      cases hc : d.committed with
      | false =>
        have hl := hopen hc e he
        exact .inr (.inr (mem_reboot_buffer.mpr ⟨hl.onDisk, hl.above⟩))
      | true => exact .inl ((hdone hc).2 e he hex)
    · have hl := h.buffer e hb
      exact .inr (.inr (mem_reboot_buffer.mpr ⟨hl.onDisk, hl.above⟩))
  refine ⟨Nat.le_max_right _ _, fun e he => ?_, fun c hc => (by cases hc), fun c hc => (by cases hc),
    fun c hc => (by cases hc), fun e he => ?_, fun d hd => (by cases hd),
    fun e he hex => hkeep e hex (h.acked e he hex)⟩
  · have he : e ∈ s.wal.reopen.contents := he
    rw [EventWal.contents_reopen] at he
    exact reboot_seq he
  · obtain ⟨hc, hs⟩ := mem_reboot_buffer.mp he
    refine ⟨hs, reboot_seq hc, ?_⟩
    show e ∈ s.wal.reopen.contents
    rw [EventWal.contents_reopen]
    exact hc

/-- An event that is on disk and above the snapshot number stays so while the disk only grows and
    the counter moves on. -/
theorem State.Logged.mono (h : s.Logged e)
    (hsnap : t.snapshotSeq = s.snapshotSeq) (hcount : s.seqCounter ≤ t.seqCounter)
    (hdisk : ∀ e ∈ s.wal.contents, e ∈ t.wal.contents) : t.Logged e :=
  ⟨by rw [hsnap]; exact h.above, Nat.le_trans h.below hcount, hdisk e h.onDisk⟩

theorem durable_begin (h : s.Durable) (hseq : e.seq = s.seqCounter + 1) :
    State.Durable
      { s with seqCounter := s.seqCounter + 1, calls := s.calls ++ [⟨e, .numbered⟩] } := by
  have hsplit : ∀ c, c ∈ s.calls ++ [⟨e, .numbered⟩] → c ∈ s.calls ∨ c = ⟨e, .numbered⟩ := by
    intro c hc
    simpa using hc
  refine ⟨Nat.le_succ_of_le h.snapshot, fun e he => Nat.le_succ_of_le (h.contents e he), ?_, ?_, ?_,
    fun e he => (h.buffer e he).mono rfl (Nat.le_succ _) fun _ he => he, fun d hd => ?_, h.acked⟩
  · intro c hc hst
    rcases hsplit c hc with hc | rfl
    · obtain ⟨h1, h2⟩ := h.numbered c hc hst
      exact ⟨h1, Nat.le_succ_of_le h2⟩
    · refine ⟨?_, Nat.le_of_eq hseq⟩
      show s.snapshotSeq < e.seq
      have := h.snapshot
      omega
  · intro c hc hst
    rcases hsplit c hc with hc | rfl
    · exact h.logged c hc hst
    · cases hst
  · intro c hc hst
    rcases hsplit c hc with hc | rfl
    · exact h.buffered c hc hst
    · cases hst
  · obtain ⟨h1, h2, h3⟩ := h.batch d hd
    exact ⟨Nat.le_succ_of_le h1,
      fun hc e he => (h2 hc e he).mono rfl (Nat.le_succ _) fun _ he => he, h3⟩

theorem durable_log (h : s.Durable) {i : Nat} {wal : EventWal}
    (hcall : s.calls[i]? = some ⟨e, .numbered⟩) (hwal : s.wal.append frameLen e = some wal) :
    State.Durable { s with wal := wal, calls := s.calls.set i ⟨e, .logged⟩ } := by
  have hcontents : wal.contents = s.wal.contents ++ [e] := EventWal.contents_append hwal
  have hmono : ∀ e' ∈ s.wal.contents, e' ∈ wal.contents := by
    intro e' he'
    rw [hcontents]
    exact List.mem_append_left _ he'
  obtain ⟨habove, hbelow⟩ := h.numbered _ (List.mem_of_getElem? hcall) (by simp)
  refine ⟨h.snapshot, fun e' he' => ?_, ?_, ?_, ?_,
    fun e he => (h.buffer e he).mono rfl (Nat.le_refl _) hmono, fun d hd => ?_, h.acked⟩
  · have he' : e' ∈ wal.contents := he'
    rw [hcontents, List.mem_append] at he'
    rcases he' with he' | he'
    · exact h.contents e' he'
    · obtain rfl : e' = e := by simpa using he'
      exact hbelow
  · intro c hc hst
    rcases List.mem_or_eq_of_mem_set hc with hc | rfl
    · exact h.numbered c hc hst
    · exact ⟨habove, hbelow⟩
  · intro c hc hst
    rcases List.mem_or_eq_of_mem_set hc with hc | rfl
    · exact hmono _ (h.logged c hc hst)
    · show e ∈ wal.contents
      rw [hcontents]
      exact List.mem_append_right _ List.mem_cons_self
  · intro c hc hst
    rcases List.mem_or_eq_of_mem_set hc with hc | rfl
    · exact h.buffered c hc hst
    · cases hst
  · obtain ⟨h1, h2, h3⟩ := h.batch d hd
    exact ⟨h1, fun hc e he => (h2 hc e he).mono rfl (Nat.le_refl _) hmono, h3⟩

theorem durable_refuse (h : s.Durable) (i : Nat) :
    State.Durable { s with calls := s.calls.eraseIdx i } := by
  refine ⟨h.snapshot, h.contents, fun c hc => h.numbered c (List.mem_of_mem_eraseIdx hc),
    fun c hc => h.logged c (List.mem_of_mem_eraseIdx hc),
    fun c hc => h.buffered c (List.mem_of_mem_eraseIdx hc), ?_, ?_, h.acked⟩
  · exact fun e he => (h.buffer e he).mono rfl (Nat.le_refl _) fun _ he => he
  · intro d hd
    obtain ⟨h1, h2, h3⟩ := h.batch d hd
    exact ⟨h1, fun hc e he => (h2 hc e he).mono rfl (Nat.le_refl _) fun _ he => he, h3⟩

theorem durable_push (h : s.Durable) {i : Nat} (hcall : s.calls[i]? = some ⟨e, .logged⟩) :
    State.Durable
      { s with
        eventBuffer := s.eventBuffer ++ [e]
        pushed := s.pushed ++ [e]
        calls := s.calls.set i ⟨e, .buffered⟩ } := by
  have hmem := List.mem_of_getElem? hcall
  obtain ⟨habove, hbelow⟩ := h.numbered _ hmem (by simp)
  have hkeep : ∀ e', s.Keeps e' → State.Keeps
      { s with
        eventBuffer := s.eventBuffer ++ [e]
        pushed := s.pushed ++ [e]
        calls := s.calls.set i ⟨e, .buffered⟩ } e' := fun e' he' =>
    he'.mono (fun _ h => h) (fun d _ hd hb => ⟨d, hd, hb⟩) fun _ h => List.mem_append_left _ h
  refine ⟨h.snapshot, h.contents, ?_, ?_, ?_, fun e' he' => ?_, fun d hd => ?_,
    fun e' he' hex => hkeep e' (h.acked e' he' hex)⟩
  · intro c hc hst
    rcases List.mem_or_eq_of_mem_set hc with hc | rfl
    · exact h.numbered c hc hst
    · exact absurd rfl hst
  · intro c hc hst
    rcases List.mem_or_eq_of_mem_set hc with hc | rfl
    · exact h.logged c hc hst
    · cases hst
  · intro c hc hst hex
    rcases List.mem_or_eq_of_mem_set hc with hc | rfl
    · exact hkeep _ (h.buffered c hc hst hex)
    · exact .inr (.inr (List.mem_append_right _ List.mem_cons_self))
  · rcases List.mem_append.mp he' with he' | he'
    · exact (h.buffer e' he').mono rfl (Nat.le_refl _) fun _ he => he
    · obtain rfl : e' = e := by simpa using he'
      exact ⟨habove, hbelow, h.logged _ hmem rfl⟩
  · obtain ⟨h1, h2, h3⟩ := h.batch d hd
    exact ⟨h1, fun hc e he => (h2 hc e he).mono rfl (Nat.le_refl _) fun _ he => he, h3⟩

theorem durable_submit (h : s.Durable) {i : Nat} (hcall : s.calls[i]? = some ⟨e, .buffered⟩) :
    State.Durable
      { s with
        submitted := s.submitted ++ [e]
        acked := s.acked ++ [e]
        calls := s.calls.eraseIdx i } := by
  have hrest := durable_refuse h i
  refine ⟨hrest.snapshot, hrest.contents, hrest.numbered, hrest.logged, hrest.buffered, ?_, ?_, ?_⟩
  · exact fun e he => (hrest.buffer e he).mono rfl (Nat.le_refl _) fun _ he => he
  · intro d hd
    obtain ⟨h1, h2, h3⟩ := hrest.batch d hd
    exact ⟨h1, fun hc e he => (h2 hc e he).mono rfl (Nat.le_refl _) fun _ he => he, h3⟩
  · intro e' he' hex
    rcases List.mem_append.mp he' with he' | he'
    · exact h.acked e' he' hex
    · obtain rfl : e' = e := by simpa using he'
      exact h.buffered _ (List.mem_of_getElem? hcall) rfl hex

theorem durable_take (h : s.Durable) (hdrain : s.drain = none) {batch : List BufferedEvent}
    {maxSeq : Nat} (hbatch : ∀ e ∈ batch, e ∈ s.eventBuffer) (hmax : maxSeq ≤ s.seqCounter)
    {rest : List BufferedEvent} (hrest : ∀ e ∈ rest, e ∈ s.eventBuffer)
    (hall : ∀ e ∈ s.eventBuffer, e ∈ batch ∨ e ∈ rest) :
    State.Durable { s with eventBuffer := rest, drain := some ⟨batch, 0, maxSeq, false⟩ } := by
  have hkeep : ∀ e, s.Keeps e → State.Keeps
      { s with eventBuffer := rest, drain := some ⟨batch, 0, maxSeq, false⟩ } e := by
    rintro e (ha | ⟨d, hd, -⟩ | hb)
    · exact .inl ha
    · rw [hdrain] at hd
      cases hd
    · rcases hall e hb with hb | hb
      · exact .inr (.inl ⟨_, rfl, hb⟩)
      · exact .inr (.inr hb)
  refine ⟨h.snapshot, h.contents, h.numbered, h.logged,
    fun c hc hst hex => hkeep _ (h.buffered c hc hst hex),
    fun e he => (h.buffer e (hrest e he)).mono rfl (Nat.le_refl _) fun _ he => he, fun d hd => ?_,
    fun e he hex => hkeep e (h.acked e he hex)⟩
  obtain rfl := Option.some.inj hd
  exact ⟨hmax, fun _ e he => (h.buffer e (hbatch e he)).mono rfl (Nat.le_refl _) fun _ he => he,
    fun hc => by cases hc⟩

theorem durable_apply (h : s.Durable) {d : Drain} (hdrain : s.drain = some d) :
    State.Durable { s with drain := some { d with done := d.done + 1 } } := by
  have hkeep : ∀ e, s.Keeps e →
      State.Keeps { s with drain := some { d with done := d.done + 1 } } e := by
    refine fun e he => he.mono (fun _ h => h) (fun d' e hd hb => ?_) fun _ h => h
    rw [hdrain] at hd
    obtain rfl := Option.some.inj hd
    exact ⟨_, rfl, hb⟩
  refine ⟨h.snapshot, h.contents, h.numbered, h.logged,
    fun c hc hst hex => hkeep _ (h.buffered c hc hst hex),
    fun e he => (h.buffer e he).mono rfl (Nat.le_refl _) fun _ he => he, fun d' hd => ?_,
    fun e he hex => hkeep e (h.acked e he hex)⟩
  obtain rfl := Option.some.inj hd
  obtain ⟨h1, h2, h3⟩ := h.batch d hdrain
  exact ⟨h1, fun hc e he => (h2 hc e he).mono rfl (Nat.le_refl _) fun _ he => he, h3⟩

theorem Drain.ahead_iff {d : Drain} : d.ahead s = true ↔ s.snapshotSeq ≤ d.maxSeq ∧
    (∀ c ∈ s.calls, c.stage ≠ .buffered → d.maxSeq < c.event.seq) ∧
    ∀ e ∈ s.eventBuffer, d.maxSeq < e.seq := by
  unfold Drain.ahead
  simp only [Bool.and_eq_true, List.all_eq_true, Bool.or_eq_true, decide_eq_true_eq, beq_iff_eq,
    and_assoc, or_iff_not_imp_left, ne_eq]

theorem durable_commit (h : s.Durable) {d : Drain} (hdrain : s.drain = some d)
    (hahead : d.ahead s = true) :
    State.Durable
      { s with
        snapshotSeq := d.maxSeq
        applied := s.applied ++ d.batch.filter fun e => !tableExcludedFromSync e.update.table
        drain := some { d with committed := true } } := by
  obtain ⟨-, hcalls, hbuffer⟩ := Drain.ahead_iff.mp hahead
  obtain ⟨hmax, -, -⟩ := h.batch d hdrain
  have hkeep : ∀ e, s.Keeps e → State.Keeps
      { s with
        snapshotSeq := d.maxSeq
        applied := s.applied ++ d.batch.filter fun e => !tableExcludedFromSync e.update.table
        drain := some { d with committed := true } } e := by
    refine fun e he => he.mono (fun _ h => List.mem_append_left _ h) (fun d' e hd hb => ?_) fun _ h => h
    rw [hdrain] at hd
    obtain rfl := Option.some.inj hd
    exact ⟨_, rfl, hb⟩
  refine ⟨hmax, h.contents, fun c hc hst => ⟨hcalls c hc hst, (h.numbered c hc hst).2⟩, h.logged,
    fun c hc hst hex => hkeep _ (h.buffered c hc hst hex),
    fun e he => ⟨hbuffer e he, (h.buffer e he).below, (h.buffer e he).onDisk⟩, fun d' hd => ?_,
    fun e he hex => hkeep e (h.acked e he hex)⟩
  obtain rfl := Option.some.inj hd
  refine ⟨hmax, fun hc => (by cases hc), fun _ => ⟨Nat.le_refl _, fun e he hex => ?_⟩⟩
  refine List.mem_append_right _ (List.mem_filter.mpr ⟨he, ?_⟩)
  rw [hex]
  rfl

theorem durable_truncate (h : s.Durable) {d : Drain} (hdrain : s.drain = some d)
    (hcommitted : d.committed = true) :
    State.Durable { s with wal := s.wal.truncate d.maxSeq, drain := none } := by
  obtain ⟨-, -, hdone⟩ := h.batch d hdrain
  obtain ⟨hmax, hbatch⟩ := hdone hcommitted
  have hdisk : ∀ e, s.snapshotSeq < e.seq → e ∈ s.wal.contents →
      e ∈ (s.wal.truncate d.maxSeq).contents := fun e hlt he =>
    EventWal.mem_contents_truncate.2 he (Nat.lt_of_le_of_lt hmax hlt)
  have hkeep : ∀ e, tableExcludedFromSync e.update.table = false → s.Keeps e → State.Keeps
      { s with wal := s.wal.truncate d.maxSeq, drain := none } e := by
    rintro e hex (ha | ⟨d', hd, hb⟩ | hb)
    · exact .inl ha
    · rw [hdrain] at hd
      obtain rfl := Option.some.inj hd
      exact .inl (hbatch e hb hex)
    · exact .inr (.inr hb)
  refine ⟨h.snapshot, fun e he => h.contents e (EventWal.mem_contents_truncate.1 he), h.numbered, ?_,
    fun c hc hst hex => hkeep _ hex (h.buffered c hc hst hex), fun e he => ?_,
    fun d' hd => (by cases hd), fun e he hex => hkeep e hex (h.acked e he hex)⟩
  · intro c hc hst
    exact hdisk _ (h.numbered c hc (by rw [hst]; decide)).1 (h.logged c hc hst)
  · have hl := h.buffer e he
    exact ⟨hl.above, hl.below, hdisk e hl.above hl.onDisk⟩

theorem durable_step {a : Action} (h : s.Durable) (hok : inOrder s a = true)
    (hstep : Step frameLen s a t) : t.Durable := by
  cases hstep with
  | begin e hseq => exact durable_begin h hseq
  | log hcall hwal => exact durable_log h hcall hwal
  | refuse hcall => exact durable_refuse h _
  | push hcall => exact durable_push h hcall
  | submit hcall => exact durable_submit h hcall
  | takeNothing => exact h
  | takeDirty hdrain =>
    exact durable_take h hdrain (fun e he => by cases he) h.snapshot (fun _ he => he)
      fun _ he => .inr he
  | take hdrain hlast =>
    exact durable_take h hdrain (fun _ he => he) (h.buffer _ (List.mem_of_getLast? hlast)).below
      (fun e he => by cases he) fun _ he => .inl he
  | apply hdrain hdone => exact durable_apply h hdrain
  | commit hdrain hcommitted =>
    unfold inOrder at hok
    rw [hdrain] at hok
    exact durable_commit h hdrain hok
  | truncate hdrain hcommitted => exact durable_truncate h hdrain hcommitted
  | crash => exact h.reboot

/-- A step that is in order does not take the snapshot number back. -/
theorem snapshotSeq_step {a : Action} (hok : inOrder s a = true) (hstep : Step frameLen s a t) :
    s.snapshotSeq ≤ t.snapshotSeq := by
  cases hstep with
  | commit hdrain hcommitted =>
    unfold inOrder at hok
    rw [hdrain] at hok
    exact (Drain.ahead_iff.mp hok).1
  | _ => exact Nat.le_refl _

end Steps

/-! ## Runs -/

/-- In every run of concurrent calls, drains and crashes whose commits are in order, every
    acknowledged event is kept in every state, and the snapshot number never decreases. -/
theorem acked_survive (frameLen : BufferedEvent → Nat) (segmentBytes : Nat) {s t : State}
    (h : Run (State.step frameLen) (fun s a => inOrder s a = true) (State.new segmentBytes) s)
    (h' : Run (State.step frameLen) (fun s a => inOrder s a = true) s t) :
    t.Survives ∧ s.snapshotSeq ≤ t.snapshotSeq := by
  have hstep : ∀ (s : State) (a : Action) (t : State), s.Durable → inOrder s a = true →
      s.step frameLen a = some t → t.Durable := fun s a t hs hok h =>
    durable_step hs hok (step_cases h)
  have hs := h.invariant (durable_new segmentBytes) hstep
  exact ⟨(h'.invariant hs hstep).acked,
    h'.monotone hs hstep fun s a t _ hok h => snapshotSeq_step hok (step_cases h)⟩

/-- A call for a record of the table `T`. -/
def aCall (id : String) : Action := .begin "T" .create id .null 0 0

/-- The second call overtakes the first up to its acknowledgement, in order: the drain waits for
    the first one to be buffered. -/
def overtaking : List Action :=
  [aCall "a", aCall "b", .log 1, .push 1, .submit 1, .log 0, .push 0, .submit 0, .take false, .apply,
    .apply, .crash]

/-- Both events of the overtaking run survive its crash. -/
theorem acked_survive_overtaking : ∃ t,
    runAll (State.step fun _ => 100) inOrder (State.new 0) overtaking = some t ∧
      t.acked.map BufferedEvent.seq = [2, 1] ∧ t.Survives ∧ 0 ≤ t.snapshotSeq := by
  have hsome : (runAll (State.step fun _ => 100) inOrder (State.new 0) overtaking).isSome = true := by
    decide +kernel
  obtain ⟨t, ht⟩ := Option.isSome_iff_exists.mp hsome
  have hacked : (runAll (State.step fun _ => 100) inOrder (State.new 0) overtaking).map
      (fun t => t.acked.map BufferedEvent.seq) = some [2, 1] := by decide +kernel
  rw [ht, Option.map_some, Option.some.injEq] at hacked
  obtain ⟨h1, h2⟩ := acked_survive (fun _ => 100) 0 .start (run_of_runAll ht)
  exact ⟨t, ht, hacked, h1, h2⟩

/-- In every such run a crash brings back what is buffered and what a drain holds that has not
    committed, acknowledged or not, and no number of the log is given out again. -/
theorem crash_restores_buffer (frameLen : BufferedEvent → Nat) (segmentBytes : Nat) {s : State}
    (h : Run (State.step frameLen) (fun s a => inOrder s a = true) (State.new segmentBytes) s) :
    (∀ e ∈ s.eventBuffer, e ∈ s.reboot.eventBuffer) ∧
      (∀ d, s.drain = some d → d.committed = false → ∀ e ∈ d.batch, e ∈ s.reboot.eventBuffer) ∧
      ∀ e ∈ s.wal.contents, e.seq ≤ s.reboot.seqCounter := by
  have hs := h.invariant (durable_new segmentBytes) fun s a t hs hok h =>
    durable_step hs hok (step_cases h)
  have hback : ∀ e, s.Logged e → e ∈ s.reboot.eventBuffer := fun e hl =>
    mem_reboot_buffer.mpr ⟨hl.onDisk, hl.above⟩
  exact ⟨fun e he => hback e (hs.buffer e he),
    fun d hd hopen e he => hback e ((hs.batch d hd).2.1 hopen e he), fun e he => reboot_seq he⟩

/-- Both events of the overtaking run are buffered when the first one is acknowledged. -/
theorem crash_restores_buffer_overtaking : ∃ s : State, s.eventBuffer.map BufferedEvent.seq = [2, 1] ∧
    ∀ e ∈ s.eventBuffer, e ∈ s.reboot.eventBuffer := by
  obtain ⟨s, hs, hbuffer⟩ := exists_run (show (runAll (State.step fun _ => 100) inOrder (State.new 0)
    (overtaking.take 8)).any (fun s => s.eventBuffer.map BufferedEvent.seq = [2, 1]) = true by
      decide +kernel)
  exact ⟨s, of_decide_eq_true hbuffer, (crash_restores_buffer (fun _ => 100) 0 hs).1⟩

/-- The second call is numbered, logged, buffered, acknowledged and drained while the first one
    has its number only. -/
def drainedAhead : List Action :=
  [aCall "a", aCall "b", .log 1, .push 1, .submit 1, .take false, .apply, .commit, .truncate, .log 0,
    .push 0, .submit 0, .crash]

/-- The first event is acknowledged with a number below the committed one, and the recovery after
    the crash leaves it out. -/
theorem acked_lost : ¬ ∀ t, Run (State.step fun _ => 100) (fun _ _ => True) (State.new 0) t →
    t.Survives := by
  intro hall
  have hsome : (runAll (State.step fun _ => 100) (fun _ _ => true) (State.new 0)
      drainedAhead).isSome = true := by decide +kernel
  obtain ⟨t, ht⟩ := Option.isSome_iff_exists.mp hsome
  have hview : (runAll (State.step fun _ => 100) (fun _ _ => true) (State.new 0) drainedAhead).map
      (fun t => (t.acked.map fun e => (e.seq, e.update.table), t.applied.map BufferedEvent.seq,
        t.drain.isNone, t.eventBuffer.map BufferedEvent.seq)) =
        some ([(2, "T"), (1, "T")], [2], true, []) := by decide +kernel
  rw [ht, Option.map_some, Option.some.injEq, Prod.mk.injEq, Prod.mk.injEq, Prod.mk.injEq] at hview
  obtain ⟨hacked, happlied, hdrain, hbuffer⟩ := hview
  obtain ⟨e, he, hseq⟩ := List.mem_map.mp (show (1, "T") ∈ t.acked.map _ by rw [hacked]; decide)
  rw [Prod.mk.injEq] at hseq
  have hex : tableExcludedFromSync e.update.table = false := by rw [hseq.2]; decide
  rcases hall t (freeRun ht) e he hex with h | ⟨d, hd, -⟩ | h
  · have hm := List.mem_map_of_mem (f := BufferedEvent.seq) h
    rw [happlied, hseq.1] at hm
    revert hm
    decide
  · rw [hd] at hdrain
    cases hdrain
  · rw [List.map_eq_nil_iff] at hbuffer
    rw [hbuffer] at h
    cases h

end Sp00ky.Scheduler
