/-
  The write-ahead log of the scheduler (`apps/scheduler/src/wal.rs`).

  The log is a directory of segment files. An append goes to the active segment, which is
  rotated once it is full; a truncation closes it and unlinks every closed segment whose
  highest number it covers; a recovery reads all segments and sorts by number. Frames are
  written whole and files keep what was written, so a segment is the list of its events;
  `frameLen` stands for the bytes a frame takes.
-/
import Mathlib.Data.List.Flatten
import Sp00ky.Ssp.Types

namespace Sp00ky.Scheduler

open Ssp

/-- `RecordOp`. -/
inductive RecordOp where
  | create | update | delete
deriving DecidableEq, Repr

/-- `RecordUpdate`. -/
structure RecordUpdate where
  table : String
  operation : RecordOp
  recordId : String
  data : Option Json
  version : Nat
  jobAssignee : Option String
deriving Repr

/-- `BufferedEvent`. -/
structure BufferedEvent where
  seq : Nat
  update : RecordUpdate
  receivedAt : Nat
  versionstamp : Nat
deriving Repr

/-- A segment file: the number in its name and its events. -/
structure Segment where
  firstSeq : Nat
  events : List BufferedEvent
deriving Repr

/-- `max_seq` of a segment. -/
def Segment.maxSeq (s : Segment) : Nat := (s.events.map BufferedEvent.seq).foldl max 0

/-- The segment appends go to, with the bytes written to it. -/
structure Active where
  segment : Segment
  bytes : Nat
deriving Repr

/-- `EventWal`. -/
structure EventWal where
  segmentBytes : Nat
  closed : List Segment
  active : Option Active
  retiredUpTo : Nat
deriving Repr

namespace EventWal

/-- `SEGMENT_HEADER_LEN`. -/
def segmentHeaderLen : Nat := 16

/-- The segment files on disk. -/
def files (w : EventWal) : List Segment := w.closed ++ (w.active.map Active.segment).toList

/-- Every event on disk. -/
def contents (w : EventWal) : List BufferedEvent := w.files.flatMap Segment.events

/-- `close_active`: an empty segment is removed. -/
def closeActive (w : EventWal) : EventWal :=
  { w with
      closed := w.closed ++ ((w.active.map Active.segment).filter fun s => !s.events.isEmpty).toList
      active := none }

/-- `open_segment`: it fails on a name that exists. -/
def openSegment (w : EventWal) (firstSeq : Nat) : Option Active :=
  if w.files.any fun s => s.firstSeq == firstSeq then none
  else some ⟨⟨firstSeq, []⟩, segmentHeaderLen⟩

/-- The active segment is full, or there is none. -/
def rotates (w : EventWal) : Bool := w.active.all fun a => decide (w.segmentBytes ≤ a.bytes)

/-- `append`. -/
def append (frameLen : BufferedEvent → Nat) (w : EventWal) (e : BufferedEvent) : Option EventWal :=
  let rotated : Option EventWal :=
    if w.rotates then
      let w1 := w.closeActive
      (w1.openSegment e.seq).map fun a => { w1 with active := some a }
    else some w
  rotated.map fun w1 =>
    { w1 with
        active := w1.active.map fun a =>
          ⟨⟨a.segment.firstSeq, a.segment.events ++ [e]⟩, a.bytes + frameLen e⟩ }

/-- `truncate`. -/
def truncate (w : EventWal) (upToSeq : Nat) : EventWal :=
  let w1 := w.closeActive
  { w1 with
      closed := w1.closed.filter fun s => !decide (s.maxSeq ≤ upToSeq)
      retiredUpTo := max w1.retiredUpTo upToSeq }

/-- `recover`: what was not retired, in the order of the numbers. -/
def recover (w : EventWal) : List BufferedEvent :=
  (w.contents.filter fun e => decide (w.retiredUpTo < e.seq)).mergeSort fun a b => a.seq ≤ b.seq

/-- `open` on the directory of `w`: every segment with events is closed. -/
def reopen (w : EventWal) : EventWal where
  segmentBytes := w.segmentBytes
  closed := w.files.filter fun s => !s.events.isEmpty
  active := none
  retiredUpTo := 0

/-- The log of a new directory; segments take at least 64 KiB. -/
def new (segmentBytes : Nat) : EventWal := ⟨max segmentBytes (64 * 1024), [], none, 0⟩

/-! ## What stays on disk -/

variable {e : BufferedEvent}

theorem mem_contents {w : EventWal} :
    e ∈ w.contents ↔ ∃ s ∈ w.files, e ∈ s.events := List.mem_flatMap

theorem contents_closeActive (w : EventWal) : w.closeActive.contents = w.contents := by
  unfold contents files closeActive
  cases w.active with
  | none => simp
  | some a =>
    cases he : a.segment.events with
    | nil | cons e es => simp [he, Option.filter_some]

/-- An append adds its event at the end. -/
theorem contents_append {frameLen : BufferedEvent → Nat} {w w' : EventWal}
    (h : w.append frameLen e = some w') : w'.contents = w.contents ++ [e] := by
  have hadd : ∀ (w1 : EventWal) (a : Active), w1.active = some a →
      contents { w1 with active := w1.active.map fun a =>
        ⟨⟨a.segment.firstSeq, a.segment.events ++ [e]⟩, a.bytes + frameLen e⟩ } =
          w1.contents ++ [e] := by
    intro w1 a ha
    simp [contents, files, ha]
  unfold append at h
  dsimp only at h
  obtain ⟨w1, hw1, rfl⟩ := Option.map_eq_some_iff.mp h
  split at hw1
  next =>
    obtain ⟨a, ha, rfl⟩ := Option.map_eq_some_iff.mp hw1
    have hempty : a.segment.events = [] := by
      unfold openSegment at ha
      split at ha
      · cases ha
      · cases ha
        rfl
    rw [hadd _ a rfl, ← contents_closeActive w]
    congr 1
    have hclosed : w.closeActive.active = none := rfl
    simp [contents, files, hempty, hclosed]
  next hrot =>
    cases hw1
    cases ha : w.active with
    | none =>
      unfold rotates at hrot
      rw [ha] at hrot
      exact absurd rfl hrot
    | some a => rw [← ha]; exact hadd w a ha

theorem seq_le_maxSeq {s : Segment} (h : e ∈ s.events) : e.seq ≤ s.maxSeq := by
  have hfold : ∀ (l : List Nat) (m : Nat), m ≤ l.foldl max m ∧ ∀ n ∈ l, n ≤ l.foldl max m := by
    intro l
    induction l with
    | nil => exact fun m => ⟨Nat.le_refl _, fun n hn => by cases hn⟩
    | cons k l ih =>
      intro m
      obtain ⟨h1, h2⟩ := ih (max m k)
      rw [List.foldl_cons]
      refine ⟨Nat.le_trans (Nat.le_max_left m k) h1, fun n hn => ?_⟩
      rcases List.mem_cons.mp hn with rfl | hn
      · exact Nat.le_trans (Nat.le_max_right m n) h1
      · exact h2 n hn
  exact (hfold _ 0).2 _ (List.mem_map_of_mem h)

/-- A truncation keeps what is above its bound and adds nothing. -/
theorem mem_contents_truncate {w : EventWal} {upToSeq : Nat} :
    (e ∈ (w.truncate upToSeq).contents → e ∈ w.contents) ∧
      (e ∈ w.contents → upToSeq < e.seq → e ∈ (w.truncate upToSeq).contents) := by
  have hclosed : w.closeActive.active = none := rfl
  have hfiles : (w.truncate upToSeq).files =
      w.closeActive.files.filter fun s => !decide (s.maxSeq ≤ upToSeq) := by
    unfold files truncate
    simp [hclosed]
  rw [mem_contents, ← contents_closeActive w, mem_contents, hfiles]
  constructor
  · rintro ⟨s, hs, he⟩
    exact ⟨s, (List.mem_filter.mp hs).1, he⟩
  · rintro ⟨s, hs, he⟩ hlt
    refine ⟨s, List.mem_filter.mpr ⟨hs, ?_⟩, he⟩
    have := seq_le_maxSeq he
    simp
    omega

/-- What a truncation leaves is a part of what there was. -/
theorem contents_truncate_sublist (w : EventWal) (upToSeq : Nat) :
    (w.truncate upToSeq).contents.Sublist w.contents := by
  have hclosed : w.closeActive.active = none := rfl
  have hfiles : (w.truncate upToSeq).files =
      w.closeActive.files.filter fun s => !decide (s.maxSeq ≤ upToSeq) := by
    unfold files truncate
    simp [hclosed]
  rw [← contents_closeActive w]
  unfold contents
  rw [hfiles]
  exact List.filter_sublist.flatMap _

theorem contents_reopen (w : EventWal) : w.reopen.contents = w.contents := by
  have hfilter : ∀ l : List Segment,
      (l.filter fun s => !s.events.isEmpty).flatMap Segment.events = l.flatMap Segment.events := by
    intro l
    induction l with
    | nil => rfl
    | cons s l ih =>
      rw [List.filter_cons, List.flatMap_cons]
      split
      · rw [List.flatMap_cons, ih]
      next h =>
        have : s.events = [] := by simpa using h
        rw [ih, this, List.nil_append]
  unfold contents reopen files
  simp only [Option.map_none, Option.toList_none, List.append_nil]
  exact hfilter _

/-- A recovery reads what is above the retired numbers. -/
theorem mem_recover {w : EventWal} :
    e ∈ w.recover ↔ e ∈ w.contents ∧ w.retiredUpTo < e.seq := by
  unfold recover
  rw [List.mem_mergeSort, List.mem_filter, decide_eq_true_eq]

/-- A recovery reads in the order of the numbers. -/
theorem pairwise_recover (w : EventWal) : w.recover.Pairwise fun a b => a.seq ≤ b.seq := by
  have h := @List.pairwise_mergeSort _ (fun a b : BufferedEvent => decide (a.seq ≤ b.seq))
    (fun a b c hab hbc => by simp at *; omega) (fun a b => by simp; omega)
    (w.contents.filter fun e => decide (w.retiredUpTo < e.seq))
  exact h.imp fun hab => by simpa using hab

end EventWal

end Sp00ky.Scheduler
