/-
  Appends that fail half way (`apps/scheduler/src/wal.rs`).

  A failed append leaves a part of its frame at the end of the active segment, and the segment stays
  in use. A later frame stands behind that part, where no scan gets to: its append returned `Ok` and
  its event is lost (`failed_append_hides_later`). As long as nothing is written behind a part of a
  frame, every event that was taken and not truncated is recovered, once
  (`recover_exact_unless_behind_tear`). A rotation, a truncation and a reopening each start a new
  segment, so only the appends right after a failed one are at risk. A segment that was cut at any
  byte gives the events whose frames it has whole (`scanSegment_take`).
-/
import Sp00ky.Scheduler.WalDisk

namespace Sp00ky.Scheduler

open Std Lib Ssp

/-- The log with what was promised of it: the events whose append returned `Ok`, and the highest
    bound of a truncation. -/
structure WalRun where
  wal : FileWal
  log : List BufferedEvent
  bound : Nat

/-- What is done to the log. Each call has the removals that succeed, and an append the number of
    bytes it gets through when it fails. -/
inductive WalAct (env : WalEnv) where
  | append (e : LogEvent env) (fails : Option Nat) (unlinks : Nat → Bool)
  | truncate (upToSeq : Nat) (unlinks : Nat → Bool)
  | reopen (segmentBytes : Nat) (unlinks : Nat → Bool)

namespace WalRun

/-- A write that fails leaves out a part of its frame. -/
def cutsShort (env : WalEnv) (e : BufferedEvent) (fails : Option Nat) : Bool :=
  fails.all fun n => (encodeFrame env e).all fun f => decide (n < f.length)

/-- One call. -/
def step (env : WalEnv) (s : WalRun) : WalAct env → Option WalRun
  | .append e fails unlinks =>
    if cutsShort env e.1 fails then
      let out := s.wal.append env unlinks fails e.1
      some ⟨out.1, s.log ++ if out.2 then [e.1] else [], s.bound⟩
    else none
  | .truncate upToSeq unlinks =>
    some ⟨s.wal.truncate unlinks upToSeq, s.log, max s.bound upToSeq⟩
  | .reopen segmentBytes unlinks =>
    some ⟨FileWal.scanDir env unlinks segmentBytes s.wal.dir, s.log, s.bound⟩

/-- A new log. -/
def start (env : WalEnv) (segmentBytes : Nat) : WalRun :=
  ⟨FileWal.scanDir env (fun _ => true) segmentBytes ∅, [], 0⟩

/-- The call writes nothing behind a part of a frame. -/
def NotBehindTear (env : WalEnv) (s : WalRun) : WalAct env → Prop
  | .append e fails _ =>
    s.wal.behindTear env = true → fails = some 0 ∨ encodeFrame env e.1 = none
  | _ => True

instance (env : WalEnv) (s : WalRun) (a : WalAct env) : Decidable (NotBehindTear env s a) := by
  cases a <;> unfold NotBehindTear <;> infer_instance

/-- The events past every truncation. -/
def past (s : WalRun) (events : List BufferedEvent) : List BufferedEvent :=
  events.filter fun e => decide (s.bound < e.seq)

/-- A recovery gives the events that were taken and not truncated, each once. -/
def RecoversAll (env : WalEnv) (s : WalRun) : Prop :=
  ∃ events, s.wal.recover env = some events ∧ (s.past events).Perm (s.past s.log)

/-- The log is as its process knows it, and has what was promised. -/
structure Kept (env : WalEnv) (s : WalRun) : Prop where
  sound : s.wal.Sound env
  retired : s.wal.retiredUpTo ≤ s.bound
  contents : (s.past (s.wal.contents env)).Perm (s.past s.log)

variable {env : WalEnv} {s s' : WalRun}

theorem Kept.recovers (h : Kept env s) : RecoversAll env s := by
  obtain ⟨events, hrecover, hperm⟩ := FileWal.recover_eq h.sound
  refine ⟨events, hrecover, (hperm.filter _).trans ?_⟩
  -- what recovery hides was truncated
  have hfilter : ((s.wal.contents env).filter fun e => decide (s.wal.retiredUpTo < e.seq)).filter
      (fun e => decide (s.bound < e.seq)) = s.past (s.wal.contents env) := by
    rw [List.filter_filter]
    refine List.filter_congr fun e _ => ?_
    have := h.retired
    by_cases hb : s.bound < e.seq
    · simp [hb, this.trans_lt hb]
    · simp [hb]
  rw [hfilter]
  exact h.contents

theorem kept_start (segmentBytes : Nat) : Kept env (start env segmentBytes) := by
  have hfiles : ∀ (name : Nat) (bytes : Bytes), (∅ : WalDir)[name]? = some bytes →
      ∃ es tail, Written env bytes es tail := by
    intro name bytes h
    rw [ExtTreeMap.getElem?_empty] at h
    cases h
  have hopened := @FileWal.scanDir_spec env (fun _ => true) ∅ hfiles segmentBytes
  have hempty : Held env ∅ [] := by
    refine ⟨hfiles, List.nodup_nil, ?_, fun name hne => absurd (eventsAt_none ?_) hne⟩
    · rintro s ⟨⟩
    · exact ExtTreeMap.getElem?_empty
  refine ⟨hopened.sound, Nat.le_of_eq hopened.retired, ?_⟩
  exact hopened.contents_perm hempty _

/-- What one call keeps. -/
theorem kept_step {a : WalAct env} (h : Kept env s) (hok : NotBehindTear env s a)
    (hstep : s.step env a = some s') : Kept env s' := by
  cases a with
  | append e fails unlinks =>
    rw [step] at hstep
    split at hstep
    next hcut =>
      cases hstep
      have hfails : ∀ n f, fails = some n → encodeFrame env e.1 = some f → n < f.length := by
        rintro n f rfl hf
        unfold cutsShort at hcut
        rw [Option.all_some, hf, Option.all_some] at hcut
        exact of_decide_eq_true hcut
      have hspec := @FileWal.append_spec env s.wal unlinks e.1 fails h.sound e.2 hfails hok
      refine ⟨hspec.sound, hspec.retired.le.trans h.retired, ?_⟩
      refine (hspec.contents.filter _).trans ?_
      unfold past
      rw [List.filter_append, List.filter_append]
      exact h.contents.append_right _
    next => cases hstep
  | truncate upToSeq unlinks =>
    cases hstep
    obtain ⟨hsound, hperm⟩ := @FileWal.truncate_spec env s.wal unlinks h.sound upToSeq
    refine ⟨hsound, ?_, ?_⟩
    · change (s.wal.truncate unlinks upToSeq).retiredUpTo ≤ max s.bound upToSeq
      rw [FileWal.truncate_retired]
      exact max_le_max_right _ h.retired
    · refine (hperm _ (Nat.le_max_right s.bound upToSeq)).trans ?_
      have hsub : ∀ es : List BufferedEvent,
          (s.past es).filter (fun e => decide (max s.bound upToSeq < e.seq)) =
            es.filter fun e => decide (max s.bound upToSeq < e.seq) := by
        intro es
        unfold past
        rw [List.filter_filter]
        refine List.filter_congr fun e _ => ?_
        by_cases hb : max s.bound upToSeq < e.seq
        · simp [hb, (Nat.le_max_left _ _).trans_lt hb]
        · simp [hb]
      have := h.contents.filter fun e => decide (max s.bound upToSeq < e.seq)
      rw [hsub, hsub] at this
      exact this
  | reopen segmentBytes unlinks =>
    cases hstep
    have hopened := @FileWal.scanDir_spec env unlinks s.wal.dir h.sound.files segmentBytes
    refine ⟨hopened.sound, ?_, ?_⟩
    · change (FileWal.scanDir env unlinks segmentBytes s.wal.dir).retiredUpTo ≤ s.bound
      rw [hopened.retired]
      exact Nat.zero_le _
    · exact (hopened.contents_perm h.sound _).trans h.contents

end WalRun

/-! ## Failing writes -/

/-- CRC-32 with the polynomial of Ethernet, bit by bit. -/
def crc32 (bytes : Bytes) : BitVec 32 :=
  ~~~(bytes.foldl (fun crc b => (List.range 8).foldl (fun crc _ =>
    if crc.getLsbD 0 then (crc >>> 1) ^^^ 0xEDB88320 else crc >>> 1)
      (crc ^^^ BitVec.ofNat 32 b.toNat)) 0xFFFFFFFF)

/-- The libraries for events without records. -/
def deletesEnv : WalEnv := ⟨crc32, fun _ => [], fun _ => none⟩

/-- The deletion of a row. -/
def deletion (seq : Nat) (id : String) : BufferedEvent :=
  ⟨seq, ⟨"t", .delete, id, none, seq, none⟩, 0, 0⟩

def deleteA : LogEvent deletesEnv :=
  ⟨deletion 1 "t:a", by decide, by decide, by decide, rfl, rfl, fun _ h => nomatch h⟩

def deleteB : LogEvent deletesEnv :=
  ⟨deletion 2 "t:b", by decide, by decide, by decide, rfl, rfl, fun _ h => nomatch h⟩

def deleteC : LogEvent deletesEnv :=
  ⟨deletion 3 "t:c", by decide, by decide, by decide, rfl, rfl, fun _ h => nomatch h⟩

/-- The second of three appends fails after one byte. -/
def shortWrite : List (WalAct deletesEnv) :=
  [.append deleteA none fun _ => true, .append deleteB (some 1) fun _ => true,
    .append deleteC none fun _ => true]

/-- The same with the log reopened after the failure. -/
def shortWriteReopened : List (WalAct deletesEnv) :=
  [.append deleteA none fun _ => true, .append deleteB (some 1) fun _ => true,
    .reopen 0 fun _ => true, .append deleteC none fun _ => true]

example : crc32 (strBytes "123456789") = 0xCBF43926 := by decide +kernel

/-- As long as no call writes behind a part of a frame, a recovery gives every event that was taken
    and lies past the truncations, once. -/
theorem recover_exact_unless_behind_tear (env : WalEnv) (segmentBytes : Nat) (s : WalRun)
    (h : Run (WalRun.step env) (WalRun.NotBehindTear env) (WalRun.start env segmentBytes) s) :
    s.RecoversAll env :=
  (h.invariant (P := WalRun.Kept env) (WalRun.kept_start segmentBytes)
    fun _ _ _ hkept hok hstep => WalRun.kept_step hkept hok hstep).recovers

/-- With the log reopened, both events that were taken are recovered. -/
theorem recover_exact_reopened : ∃ s,
    runAll (WalRun.step deletesEnv) (fun s a => decide (WalRun.NotBehindTear deletesEnv s a))
        (WalRun.start deletesEnv 0) shortWriteReopened = some s ∧
      s.log.map BufferedEvent.seq = [1, 3] ∧ s.RecoversAll deletesEnv := by
  have hsome : (runAll (WalRun.step deletesEnv)
      (fun s a => decide (WalRun.NotBehindTear deletesEnv s a)) (WalRun.start deletesEnv 0)
      shortWriteReopened).isSome = true := by decide +kernel
  obtain ⟨s, hs⟩ := Option.isSome_iff_exists.mp hsome
  have hlog : (runAll (WalRun.step deletesEnv)
      (fun s a => decide (WalRun.NotBehindTear deletesEnv s a)) (WalRun.start deletesEnv 0)
      shortWriteReopened).map (fun s => s.log.map BufferedEvent.seq) = some [1, 3] := by
    decide +kernel
  rw [hs, Option.map_some, Option.some.injEq] at hlog
  exact ⟨s, hs, hlog, recover_exact_unless_behind_tear deletesEnv 0 s
    ((run_of_runAll hs).mono fun _ _ hok => of_decide_eq_true hok)⟩

/-- The third append returned `Ok`, and its event is not recovered. -/
theorem failed_append_hides_later : ¬ ∀ (env : WalEnv) (segmentBytes : Nat) (s : WalRun),
    Run (WalRun.step env) (fun _ _ => True) (WalRun.start env segmentBytes) s →
      s.RecoversAll env := by
  intro hall
  have hsome : (runAll (WalRun.step deletesEnv) (fun _ _ => true) (WalRun.start deletesEnv 0)
      shortWrite).isSome = true := by decide +kernel
  obtain ⟨s, hs⟩ := Option.isSome_iff_exists.mp hsome
  have hview : (runAll (WalRun.step deletesEnv) (fun _ _ => true) (WalRun.start deletesEnv 0)
      shortWrite).map (fun s => ((s.log.map BufferedEvent.seq, s.bound),
        (FileWal.readAll deletesEnv s.wal.dir s.wal.tracked).map fun es =>
          es.map BufferedEvent.seq)) = some (([1, 3], 0), some [1]) := by decide +kernel
  rw [hs, Option.map_some, Option.some.injEq, Prod.mk.injEq, Prod.mk.injEq] at hview
  obtain ⟨⟨hlog, hbound⟩, hread⟩ := hview
  obtain ⟨events, hevents, hperm⟩ := hall deletesEnv 0 s (freeRun hs)
  obtain ⟨es, hes, hseqs⟩ := Option.map_eq_some_iff.mp hread
  unfold FileWal.recover at hevents
  rw [hes, Option.map_some, Option.some.injEq] at hevents
  -- one event is read and two were taken
  have hlen : (s.past events).length ≤ es.length := by
    rw [← hevents]
    refine (List.length_filter_le _ _).trans ?_
    rw [List.length_mergeSort]
    exact List.length_filter_le _ _
  have hone : es.length = 1 := by
    rw [← List.length_map (f := BufferedEvent.seq), hseqs]
    rfl
  have htwo : (s.past s.log).length = 2 := by
    have hpast : ∀ e ∈ s.log, decide (s.bound < e.seq) = true := by
      intro e he
      have hmem : e.seq ∈ [1, 3] := by
        rw [← hlog]
        exact List.mem_map_of_mem he
      simp only [List.mem_cons, List.not_mem_nil, or_false] at hmem
      rw [hbound, decide_eq_true_eq]
      omega
    unfold WalRun.past
    rw [List.filter_eq_self.mpr hpast, ← List.length_map (f := BufferedEvent.seq), hlog]
    rfl
  have := hperm.length_eq
  omega

/-! ## Cuts -/

variable {env : WalEnv} {es : List BufferedEvent} {frames : List Bytes}

/-- A cut of whole frames leaves those that lie inside it, and a part of the next. -/
theorem take_frames (h : List.Forall₂ (Framed env) es frames) {n : Nat}
    (hn : n ≤ frames.flatten.length) :
    ∃ k ≤ es.length, ∃ tail, frames.flatten.take n = (frames.take k).flatten ++ tail ∧
      (tail = [] ∨ Torn env tail) ∧
      ∀ i ≤ es.length, (frames.take i).flatten.length ≤ n ↔ i ≤ k := by
  induction h generalizing n with
  | nil =>
    obtain rfl : n = 0 := Nat.le_zero.mp hn
    exact ⟨0, Nat.le_refl 0, [], rfl, .inl rfl, fun i hi => by simp_all⟩
  | @cons e f es frames hef h ih =>
    rw [List.flatten_cons, List.length_append] at hn
    have hlen : ∀ i, ((f :: frames).take (i + 1)).flatten.length =
        f.length + (frames.take i).flatten.length := fun i => by simp
    by_cases hf : f.length ≤ n
    · obtain ⟨k, hk, tail, htake, htail, hinside⟩ := ih (n := n - f.length) (by omega)
      refine ⟨k + 1, Nat.succ_le_succ hk, tail, ?_, htail, ?_⟩
      · rw [List.flatten_cons, List.take_append, List.take_of_length_le hf, htake]
        simp
      · rintro (_ | i) hi
        · simp
        · have := hinside i (Nat.le_of_succ_le_succ hi)
          rw [hlen]
          omega
    · refine ⟨0, Nat.zero_le _, f.take n, ?_, .inr ⟨e, f, n, hef.frame, by omega, rfl⟩, ?_⟩
      · rw [List.flatten_cons, List.take_append_of_le_length (by omega)]
        rfl
      · rintro (_ | i) hi
        · simp
        · rw [hlen]
          omega

/-- A segment that was cut anywhere behind its header gives the events whose frames lie inside, and
    reports a tear off the boundaries of its frames. -/
theorem scanSegment_take (h : List.Forall₂ (Framed env) es frames) {firstSeq n : Nat}
    (hlow : EventWal.segmentHeaderLen ≤ n)
    (hhigh : n ≤ (segmentHeader firstSeq ++ frames.flatten).length) :
    ∃ k torn, scanSegment env ((segmentHeader firstSeq ++ frames.flatten).take n) =
        some (es.take k, torn) ∧
      (∀ i ≤ es.length, EventWal.segmentHeaderLen + (frames.take i).flatten.length ≤ n ↔ i ≤ k) ∧
      (torn = true ↔
        ∀ i ≤ es.length, EventWal.segmentHeaderLen + (frames.take i).flatten.length ≠ n) := by
  have hlen := length_segmentHeader firstSeq
  rw [List.length_append, hlen] at hhigh
  obtain ⟨k, hk, tail, htake, htail, hinside⟩ :=
    take_frames h (n := n - EventWal.segmentHeaderLen) (by omega)
  have hn := congrArg List.length htake
  rw [List.length_take, List.length_append] at hn
  refine ⟨k, !tail.isEmpty, ?_, fun i hi => by rw [← hinside i hi]; omega, ?_⟩
  · refine scanSegment_written ⟨htail, firstSeq, frames.take k, List.forall₂_take k h, ?_⟩
    rw [List.take_append, List.take_of_length_le (by omega), hlen, htake, List.append_assoc]
  · rw [Bool.not_eq_true', List.isEmpty_eq_false_iff]
    constructor
    · intro hne i hi heq
      have hik := (hinside i hi).mp (by omega)
      have hle := (List.take_sublist_take_left (l := frames) hik).flatten.length_le
      exact hne (List.eq_nil_of_length_eq_zero (by omega))
    · rintro hno rfl
      rw [List.length_nil] at hn
      exact hno k hk (by omega)

/-- A deletion, cut inside its frame. -/
theorem scanSegment_take_deletion : ∃ f k torn, encodeFrame deletesEnv deleteA.1 = some f ∧
    scanSegment deletesEnv ((segmentHeader 1 ++ [f].flatten).take 20) =
      some ([deleteA.1].take k, torn) := by
  obtain ⟨f, hf⟩ : ∃ f, encodeFrame deletesEnv deleteA.1 = some f := ⟨_, rfl⟩
  obtain ⟨k, torn, h, -⟩ := @scanSegment_take deletesEnv _ _ (.cons ⟨deleteA.2, hf⟩ .nil) 1 20
    (by decide) (by
      simp [length_segmentHeader, length_frame hf, EventWal.segmentHeaderLen]
      omega)
  exact ⟨f, k, torn, hf, h⟩

end Sp00ky.Scheduler
