/-
  The write-ahead log over its directory (`apps/scheduler/src/wal.rs`).

  A segment is known to the process by its name, its highest number and its count; what it holds is
  in its file. The name is the number of the event it was opened for, and a file is created only
  under a new name. A write may stop early and a removal may fail. What holds throughout is `Held`:
  every file is a segment of whole frames and a torn tail, and every file with events is one the
  process knows.
-/
import Sp00ky.Lib.Maps
import Sp00ky.Lib.Transition
import Sp00ky.Scheduler.WalCodec

namespace Sp00ky.Scheduler

open Std Lib Ssp

/-- The segment files by the number in their name. -/
abbrev WalDir := ExtTreeMap Nat Bytes

/-- `Segment`: what the process knows of a segment file. -/
structure Tracked where
  name : Nat
  maxSeq : Nat
  events : Nat
deriving DecidableEq, Repr

/-- `Active`: the segment appends go to, and the bytes it has by count. -/
structure ActiveFile where
  segment : Tracked
  bytes : Nat
deriving DecidableEq, Repr

/-- `EventWal` with its directory. -/
structure FileWal where
  dir : WalDir
  segmentBytes : Nat
  closed : List Tracked
  active : Option ActiveFile
  lastSeq : Nat
  retiredUpTo : Nat

namespace FileWal

/-- `fs::remove_file`, which may fail. -/
def unlink (unlinks : Nat → Bool) (dir : WalDir) (name : Nat) : WalDir :=
  if unlinks name then dir.erase name else dir

/-- A write at the end of a file. -/
def writeTo (dir : WalDir) (name : Nat) (bytes : Bytes) : WalDir :=
  dir.modify name (· ++ bytes)

/-- `close_active`: a segment without events is removed. -/
def closeActive (unlinks : Nat → Bool) (w : FileWal) : FileWal :=
  match w.active with
  | none => w
  | some a =>
    if 0 < a.segment.events then { w with closed := w.closed ++ [a.segment], active := none }
    else { w with dir := unlink unlinks w.dir a.segment.name, active := none }

/-- `open_segment`: it fails on a name that exists. -/
def openSegment (w : FileWal) (firstSeq : Nat) : FileWal × Option ActiveFile :=
  if w.dir.contains firstSeq then (w, none)
  else
    let a : ActiveFile := ⟨⟨firstSeq, 0, 0⟩, EventWal.segmentHeaderLen⟩
    ({ w with dir := w.dir.insert firstSeq (segmentHeader firstSeq), active := some a }, some a)

/-- The segment an append goes to: a new one when there is none or it is full. -/
def rotate (unlinks : Nat → Bool) (w : FileWal) (seq : Nat) : FileWal × Option ActiveFile :=
  match w.active with
  | some a =>
    if a.bytes < w.segmentBytes then (w, some a) else (w.closeActive unlinks).openSegment seq
  | none => w.openSegment seq

/-- `append`, with whether it returned `Ok`. `fails` is the number of bytes a failing write got
    through. -/
def append (env : WalEnv) (unlinks : Nat → Bool) (fails : Option Nat) (w : FileWal)
    (e : BufferedEvent) : FileWal × Bool :=
  match encodeFrame env e with
  | none => (w, false)
  | some frame =>
    match w.rotate unlinks e.seq with
    | (w, none) => (w, false)
    | (w, some a) =>
      match fails with
      | some n => ({ w with dir := writeTo w.dir a.segment.name (frame.take n) }, false)
      | none =>
        ({ w with
            dir := writeTo w.dir a.segment.name frame
            active := some ⟨⟨a.segment.name, max a.segment.maxSeq e.seq, a.segment.events + 1⟩,
              a.bytes + frame.length⟩
            lastSeq := max w.lastSeq e.seq }, true)

/-- `truncate`: a segment that cannot be removed stays known. -/
def truncate (unlinks : Nat → Bool) (w : FileWal) (upToSeq : Nat) : FileWal :=
  let w := w.closeActive unlinks
  let gone := w.closed.filter fun s => decide (s.maxSeq ≤ upToSeq)
  let kept := w.closed.filter fun s => !decide (s.maxSeq ≤ upToSeq)
  { w with
      dir := gone.foldl (fun dir s => unlink unlinks dir s.name) w.dir
      closed := (kept ++ gone.filter fun s => !unlinks s.name).mergeSort fun a b => a.name ≤ b.name
      retiredUpTo := max w.retiredUpTo upToSeq }

/-- The segments `recover` reads. -/
def tracked (w : FileWal) : List Tracked := w.closed ++ (w.active.map ActiveFile.segment).toList

/-- The events of the segments in a directory; none when one cannot be read. -/
def readAll (env : WalEnv) (dir : WalDir) : List Tracked → Option (List BufferedEvent)
  | [] => some []
  | s :: rest => do
    let bytes ← dir[s.name]?
    let scanned ← scanSegment env bytes
    let events ← readAll env dir rest
    some (scanned.1 ++ events)

/-- `recover`. -/
def recover (env : WalEnv) (w : FileWal) : Option (List BufferedEvent) :=
  (readAll env w.dir w.tracked).map fun events =>
    (events.filter fun e => decide (w.retiredUpTo < e.seq)).mergeSort fun a b => a.seq ≤ b.seq

/-- One file of `scan_dir`: unreadable ones are left, empty ones removed. -/
def scanFile (env : WalEnv) (unlinks : Nat → Bool) (w : FileWal) (file : Nat × Bytes) : FileWal :=
  match scanSegment env file.2 with
  | none => w
  | some (events, _) =>
    if events.isEmpty then { w with dir := unlink unlinks w.dir file.1 }
    else
      let maxSeq := (events.map BufferedEvent.seq).foldl max 0
      { w with
          closed := w.closed ++ [⟨file.1, maxSeq, events.length⟩]
          lastSeq := max w.lastSeq maxSeq }

/-- `scan_dir`, in the order of the names. -/
def scanDir (env : WalEnv) (unlinks : Nat → Bool) (segmentBytes : Nat) (dir : WalDir) : FileWal :=
  dir.toList.foldl (scanFile env unlinks) ⟨dir, max segmentBytes (64 * 1024), [], none, 0, 0⟩

end FileWal

/-! ## What the files hold -/

/-- The highest of some numbers. -/
def maxSeqOf (es : List BufferedEvent) : Nat := (es.map BufferedEvent.seq).foldl max 0

/-- The events of a file. -/
def eventsAt (env : WalEnv) (dir : WalDir) (name : Nat) : List BufferedEvent :=
  ((dir[name]?.bind (scanSegment env)).map Prod.fst).getD []

/-- The events of some segments. -/
def eventsOf (env : WalEnv) (dir : WalDir) (segs : List Tracked) : List BufferedEvent :=
  segs.flatMap fun s => eventsAt env dir s.name

theorem eventsAt_written {env : WalEnv} {dir : WalDir} {name : Nat} {bytes : Bytes}
    {es : List BufferedEvent} {tail : Bytes} (hdir : dir[name]? = some bytes)
    (h : Written env bytes es tail) : eventsAt env dir name = es := by
  unfold eventsAt
  rw [hdir, Option.bind_some, scanSegment_written h]
  rfl

/-- The segment as the process knows it. -/
structure Knows (env : WalEnv) (dir : WalDir) (s : Tracked) : Prop where
  file : ∃ bytes tail, dir[s.name]? = some bytes ∧ Written env bytes (eventsAt env dir s.name) tail
  maxSeq : s.maxSeq = maxSeqOf (eventsAt env dir s.name)
  events : s.events = (eventsAt env dir s.name).length

/-- Every file is a segment, and every one with events is known, once and as it is. -/
structure Held (env : WalEnv) (dir : WalDir) (segs : List Tracked) : Prop where
  files : ∀ (name : Nat) (bytes : Bytes), dir[name]? = some bytes → ∃ es tail, Written env bytes es tail
  nodup : (segs.map Tracked.name).Nodup
  known : ∀ s ∈ segs, Knows env dir s
  rest : ∀ name, eventsAt env dir name ≠ [] → ∃ s ∈ segs, s.name = name

section

variable {env : WalEnv} {dir dir' : WalDir} {segs segs' : List Tracked} {s s' : Tracked}

theorem eventsAt_congr {name : Nat} (h : dir'[name]? = dir[name]?) :
    eventsAt env dir' name = eventsAt env dir name := by
  unfold eventsAt
  rw [h]

theorem eventsAt_none {name : Nat} (h : dir[name]? = none) : eventsAt env dir name = [] := by
  unfold eventsAt
  rw [h]
  rfl

theorem eventsOf_congr (h : ∀ s ∈ segs, dir'[s.name]? = dir[s.name]?) :
    eventsOf env dir' segs = eventsOf env dir segs := by
  unfold eventsOf
  exact List.flatMap_congr fun s hs => eventsAt_congr (h s hs)

theorem eventsOf_perm (h : segs.Perm segs') :
    (eventsOf env dir segs).Perm (eventsOf env dir segs') :=
  h.flatMap_right _

theorem Knows.congr (hk : Knows env dir s) (h : dir'[s.name]? = dir[s.name]?) :
    Knows env dir' s := by
  obtain ⟨hfile, hmax, hevents⟩ := hk
  refine ⟨?_, ?_, ?_⟩
  · rw [eventsAt_congr h, h]
    exact hfile
  · rw [eventsAt_congr h]
    exact hmax
  · rw [eventsAt_congr h]
    exact hevents

/-- A segment as it is known from its file. -/
theorem Knows.of_written {bytes : Bytes} {es : List BufferedEvent} {tail : Bytes}
    (hdir : dir[s.name]? = some bytes) (h : Written env bytes es tail) (hmax : s.maxSeq = maxSeqOf es)
    (hevents : s.events = es.length) : Knows env dir s := by
  have heq := eventsAt_written hdir h
  refine ⟨⟨bytes, tail, hdir, ?_⟩, ?_, ?_⟩
  · rw [heq]
    exact h
  · rw [heq]
    exact hmax
  · rw [heq]
    exact hevents

namespace Held

theorem perm (h : Held env dir segs) (hp : segs.Perm segs') : Held env dir segs' where
  files := h.files
  nodup := (hp.map _).nodup_iff.mp h.nodup
  known s hs := h.known s (hp.mem_iff.mpr hs)
  rest name hne := by
    obtain ⟨s, hs, hname⟩ := h.rest name hne
    exact ⟨s, hp.mem_iff.mp hs, hname⟩

theorem name_ne (h : Held env dir (s :: segs)) {t : Tracked} (ht : t ∈ segs) : t.name ≠ s.name := by
  have hnodup := h.nodup
  rw [List.map_cons, List.nodup_cons] at hnodup
  intro heq
  exact hnodup.1 (heq ▸ List.mem_map_of_mem ht)

/-- The file of a known segment is written. -/
theorem replace (h : Held env dir (s :: segs)) (hother : ∀ k, k ≠ s.name → dir'[k]? = dir[k]?)
    (hname : s'.name = s.name) (hk : Knows env dir' s') :
    Held env dir' (s' :: segs) ∧
      eventsOf env dir' (s' :: segs) = eventsAt env dir' s.name ++ eventsOf env dir segs := by
  have hsegs : ∀ t ∈ segs, dir'[t.name]? = dir[t.name]? := fun t ht => hother _ (h.name_ne ht)
  refine ⟨⟨?_, ?_, ?_, ?_⟩, ?_⟩
  · intro name bytes hbytes
    by_cases heq : name = s.name
    · obtain ⟨bytes', tail, hdir, hw⟩ := hk.file
      rw [hname, ← heq, hbytes] at hdir
      cases hdir
      exact ⟨_, tail, hw⟩
    · rw [hother name heq] at hbytes
      exact h.files name bytes hbytes
  · have := h.nodup
    rw [List.map_cons] at this ⊢
    rw [hname]
    exact this
  · intro t ht
    rcases List.mem_cons.mp ht with rfl | ht
    · exact hk
    · exact (h.known t (List.mem_cons_of_mem _ ht)).congr (hsegs t ht)
  · intro name hne
    by_cases heq : name = s.name
    · exact ⟨s', List.mem_cons_self, by rw [hname, heq]⟩
    · rw [eventsAt_congr (hother name heq)] at hne
      obtain ⟨t, ht, htname⟩ := h.rest name hne
      rcases List.mem_cons.mp ht with rfl | ht
      · exact absurd htname.symm heq
      · exact ⟨t, List.mem_cons_of_mem _ ht, htname⟩
  · change eventsAt env dir' s'.name ++ eventsOf env dir' segs = _
    rw [hname, eventsOf_congr hsegs]

/-- A segment is forgotten with its file, or leaves a file without events. -/
theorem forget (h : Held env dir (s :: segs)) (hother : ∀ k, k ≠ s.name → dir'[k]? = dir[k]?)
    (hgone : dir'[s.name]? = none ∨
      dir'[s.name]? = dir[s.name]? ∧ eventsAt env dir s.name = []) :
    Held env dir' segs ∧ eventsOf env dir' segs = eventsOf env dir segs := by
  have hsegs : ∀ t ∈ segs, dir'[t.name]? = dir[t.name]? := fun t ht => hother _ (h.name_ne ht)
  refine ⟨⟨?_, ?_, ?_, ?_⟩, eventsOf_congr hsegs⟩
  · intro name bytes hbytes
    by_cases heq : name = s.name
    · rw [heq] at hbytes
      rcases hgone with hnone | ⟨hsame, -⟩
      · rw [hnone] at hbytes
        cases hbytes
      · rw [hsame] at hbytes
        exact h.files _ bytes hbytes
    · rw [hother name heq] at hbytes
      exact h.files name bytes hbytes
  · have := h.nodup
    rw [List.map_cons, List.nodup_cons] at this
    exact this.2
  · intro t ht
    exact (h.known t (List.mem_cons_of_mem _ ht)).congr (hsegs t ht)
  · intro name hne
    have hnot : name ≠ s.name := by
      rintro rfl
      rcases hgone with hnone | ⟨hsame, hempty⟩
      · exact hne (eventsAt_none hnone)
      · rw [eventsAt_congr hsame] at hne
        exact hne hempty
    rw [eventsAt_congr (hother name hnot)] at hne
    obtain ⟨t, ht, htname⟩ := h.rest name hne
    rcases List.mem_cons.mp ht with rfl | ht
    · exact absurd htname.symm hnot
    · exact ⟨t, ht, htname⟩

/-- A segment is created under a new name. -/
theorem create (h : Held env dir segs) {name : Nat} (hnew : dir[name]? = none) :
    Held env (dir.insert name (segmentHeader name)) (⟨name, 0, 0⟩ :: segs) ∧
      eventsOf env (dir.insert name (segmentHeader name)) (⟨name, 0, 0⟩ :: segs) =
        eventsOf env dir segs := by
  have hw := Written.header env name
  have hself : (dir.insert name (segmentHeader name))[name]? = some (segmentHeader name) :=
    ExtTreeMap.getElem?_insert_self
  have hother : ∀ k, k ≠ name → (dir.insert name (segmentHeader name))[k]? = dir[k]? := by
    intro k hk
    rw [ExtTreeMap.getElem?_insert, if_neg (by simpa using Ne.symm hk)]
  have hsegs : ∀ t ∈ segs, t.name ≠ name := by
    rintro t ht rfl
    obtain ⟨bytes, tail, hdir, -⟩ := (h.known t ht).file
    rw [hnew] at hdir
    cases hdir
  have hempty := eventsAt_written hself hw
  refine ⟨⟨?_, ?_, ?_, ?_⟩, ?_⟩
  · intro k bytes hbytes
    by_cases heq : k = name
    · rw [heq, hself] at hbytes
      cases hbytes
      exact ⟨[], [], hw⟩
    · rw [hother k heq] at hbytes
      exact h.files k bytes hbytes
  · rw [List.map_cons, List.nodup_cons]
    refine ⟨?_, h.nodup⟩
    intro hmem
    obtain ⟨t, ht, htname⟩ := List.mem_map.mp hmem
    exact hsegs t ht htname
  · intro t ht
    rcases List.mem_cons.mp ht with rfl | ht
    · exact Knows.of_written hself hw rfl rfl
    · exact (h.known t ht).congr (hother _ (hsegs t ht))
  · intro k hne
    by_cases heq : k = name
    · exact ⟨_, List.mem_cons_self, heq.symm⟩
    · rw [eventsAt_congr (hother k heq)] at hne
      obtain ⟨t, ht, htname⟩ := h.rest k hne
      exact ⟨t, List.mem_cons_of_mem _ ht, htname⟩
  · change eventsAt env (dir.insert name (segmentHeader name)) name ++ _ = _
    rw [hempty, List.nil_append]
    exact eventsOf_congr fun t ht => hother _ (hsegs t ht)

/-- The names under which something is found. -/
theorem flatMap_names {β : Type} (f : Nat → List β) (names : List Nat) :
    names.flatMap f = (names.filter fun n => !(f n).isEmpty).flatMap f := by
  induction names with
  | nil => rfl
  | cons n names ih =>
    cases hn : f n with
    | nil | cons b bs => simp [hn, ih]

/-- Two directories with the same events of a kind, each as its process knows it. -/
theorem filter_perm (h : Held env dir segs) (h' : Held env dir' segs') {p : BufferedEvent → Bool}
    (heq : ∀ name, (eventsAt env dir' name).filter p = (eventsAt env dir name).filter p) :
    ((eventsOf env dir' segs').filter p).Perm ((eventsOf env dir segs).filter p) := by
  have hnames : ∀ (d : WalDir) (l : List Tracked), (eventsOf env d l).filter p =
      (l.map Tracked.name).flatMap fun n => (eventsAt env d n).filter p := by
    intro d l
    unfold eventsOf
    rw [List.filter_flatMap, List.flatMap_map]
  rw [hnames, hnames, funext heq, flatMap_names, flatMap_names _ (segs.map Tracked.name)]
  refine List.Perm.flatMap_right _ ?_
  refine (List.perm_ext_iff_of_nodup (h'.nodup.filter _) (h.nodup.filter _)).mpr fun n => ?_
  rw [List.mem_filter, List.mem_filter]
  have hmem : ∀ {d : WalDir} {l : List Tracked}, Held env d l →
      (eventsAt env d n).filter p ≠ [] → n ∈ l.map Tracked.name := by
    intro d l hl hne
    obtain ⟨s, hs, hname⟩ := hl.rest n fun hnil => hne (by rw [hnil]; rfl)
    exact List.mem_map.mpr ⟨s, hs, hname⟩
  constructor
  · rintro ⟨-, hne⟩
    exact ⟨hmem h (by simpa using hne), hne⟩
  · rintro ⟨-, hne⟩
    refine ⟨hmem h' ?_, hne⟩
    rw [heq]
    simpa using hne

end Held

end

theorem eventsOf_cons (env : WalEnv) (dir : WalDir) (s : Tracked) (segs : List Tracked) :
    eventsOf env dir (s :: segs) = eventsAt env dir s.name ++ eventsOf env dir segs := rfl

/-! ## The operations -/

namespace FileWal

variable {env : WalEnv} {w : FileWal} {unlinks : Nat → Bool}

theorem getElem?_unlink_other (dir : WalDir) {name k : Nat} (h : k ≠ name) :
    (unlink unlinks dir name)[k]? = dir[k]? := by
  unfold unlink
  split
  · rw [ExtTreeMap.getElem?_erase, if_neg (by simpa using Ne.symm h)]
  · rfl

theorem getElem?_unlink_self (dir : WalDir) (name : Nat) :
    (unlink unlinks dir name)[name]? = if unlinks name then none else dir[name]? := by
  unfold unlink
  split
  · exact ExtTreeMap.getElem?_erase_self
  · rfl

theorem getElem?_writeTo_other (dir : WalDir) {name k : Nat} (bytes : Bytes) (h : k ≠ name) :
    (writeTo dir name bytes)[k]? = dir[k]? := by
  unfold writeTo
  rw [ExtTreeMap.getElem?_modify, if_neg (by simpa using Ne.symm h)]

variable {dir : WalDir}

theorem getElem?_writeTo_self {name : Nat} {old : Bytes} (bytes : Bytes)
    (h : dir[name]? = some old) : (writeTo dir name bytes)[name]? = some (old ++ bytes) := by
  unfold writeTo
  rw [ExtTreeMap.getElem?_modify_self, h]
  rfl

/-- The log is as the process knows it. -/
def Sound (env : WalEnv) (w : FileWal) : Prop := Held env w.dir w.tracked

/-- All events of the log's segments. -/
def contents (env : WalEnv) (w : FileWal) : List BufferedEvent := eventsOf env w.dir w.tracked

theorem readAll_eq {segs : List Tracked} (h : ∀ s ∈ segs, Knows env dir s) :
    readAll env dir segs = some (eventsOf env dir segs) := by
  induction segs with
  | nil => rfl
  | cons s segs ih =>
    obtain ⟨bytes, tail, hdir, hw⟩ := (h s List.mem_cons_self).file
    unfold readAll
    rw [hdir, ih (List.forall_mem_cons.mp h).2]
    refine (bind_of_eq rfl _).trans ((bind_of_eq (scanSegment_written hw) _).trans ?_)
    rfl

/-- A recovery succeeds and reads the events past the retired bound. -/
theorem recover_eq (h : w.Sound env) :
    ∃ events, w.recover env = some events ∧
      events.Perm ((w.contents env).filter fun e => decide (w.retiredUpTo < e.seq)) := by
  unfold recover
  rw [readAll_eq h.known]
  exact ⟨_, rfl, List.mergeSort_perm _ _⟩

theorem closeActive_spec (h : w.Sound env) :
    (w.closeActive unlinks).Sound env ∧
      ((w.closeActive unlinks).contents env).Perm (w.contents env) ∧
      (w.closeActive unlinks).active = none := by
  unfold Sound contents closeActive at *
  cases ha : w.active with
  | none => exact ⟨h, List.Perm.refl _, ha⟩
  | some a =>
    have htracked : w.tracked = w.closed ++ [a.segment] := by
      unfold tracked
      rw [ha]
      rfl
    dsimp only
    split
    next =>
      have hsame : FileWal.tracked { w with closed := w.closed ++ [a.segment], active := none } =
          w.tracked := by
        rw [htracked]
        exact List.append_nil _
      rw [hsame]
      exact ⟨h, List.Perm.refl _, rfl⟩
    next hzero =>
      have hhead : Held env w.dir (a.segment :: w.closed) := by
        rw [htracked] at h
        exact h.perm (List.perm_append_singleton _ _)
      have hempty : eventsAt env w.dir a.segment.name = [] := by
        have := (hhead.known _ List.mem_cons_self).events
        exact List.length_eq_zero_iff.mp (by omega)
      have hgone : (unlink unlinks w.dir a.segment.name)[a.segment.name]? = none ∨
          (unlink unlinks w.dir a.segment.name)[a.segment.name]? = w.dir[a.segment.name]? ∧
            eventsAt env w.dir a.segment.name = [] := by
        rw [getElem?_unlink_self]
        split
        · exact .inl rfl
        · exact .inr ⟨rfl, hempty⟩
      obtain ⟨hheld, hevents⟩ :=
        hhead.forget (fun k hk => getElem?_unlink_other w.dir hk) hgone
      have hclosed : FileWal.tracked
          { w with dir := unlink unlinks w.dir a.segment.name, active := none } = w.closed :=
        List.append_nil _
      rw [hclosed]
      refine ⟨hheld, ?_, rfl⟩
      rw [hevents, htracked]
      refine List.Perm.trans ?_ (eventsOf_perm (List.perm_append_singleton _ _)).symm
      rw [eventsOf_cons, hempty]
      exact List.Perm.refl _

theorem closeActive_retired : (w.closeActive unlinks).retiredUpTo = w.retiredUpTo := by
  unfold closeActive
  split
  · rfl
  · split <;> rfl

theorem closeActive_lastSeq : (w.closeActive unlinks).lastSeq = w.lastSeq := by
  unfold closeActive
  split
  · rfl
  · split <;> rfl

/-- The segment an append goes to is known, and the events are the same. -/
structure Rotated (env : WalEnv) (w : FileWal) (out : FileWal × Option ActiveFile) : Prop where
  sound : out.1.Sound env
  contents : (out.1.contents env).Perm (w.contents env)
  retired : out.1.retiredUpTo = w.retiredUpTo
  lastSeq : out.1.lastSeq = w.lastSeq
  active : out.2 = none ∨ out.1.active = out.2

theorem openSegment_spec (h : w.Sound env) (hnone : w.active = none) (seq : Nat) :
    Rotated env w (w.openSegment seq) ∧
      (w.dir[seq]? = none → ∃ a, w.openSegment seq = ({ w with
          dir := w.dir.insert seq (segmentHeader seq), active := some a }, some a) ∧
        a.segment = ⟨seq, 0, 0⟩) := by
  have htracked : w.tracked = w.closed := by
    unfold tracked
    rw [hnone]
    exact List.append_nil _
  unfold openSegment
  split
  next hin =>
    refine ⟨⟨h, List.Perm.refl _, rfl, rfl, .inl rfl⟩, ?_⟩
    intro hnew
    rw [ExtTreeMap.contains_eq_isSome_getElem?, hnew] at hin
    cases hin
  next hout =>
    have hnew : w.dir[seq]? = none := by
      rw [ExtTreeMap.contains_eq_isSome_getElem?] at hout
      simpa using hout
    have hclosed : Held env w.dir w.closed := by
      rw [← htracked]
      exact h
    obtain ⟨hheld, hevents⟩ := hclosed.create hnew
    have hperm := (List.perm_append_singleton (⟨seq, 0, 0⟩ : Tracked) w.closed).symm
    refine ⟨⟨hheld.perm hperm, ?_, rfl, rfl, .inr rfl⟩, fun _ => ⟨_, rfl, rfl⟩⟩
    refine (eventsOf_perm hperm).symm.trans ?_
    unfold contents
    rw [hevents, htracked]

theorem rotate_spec (h : w.Sound env) (seq : Nat) : Rotated env w (w.rotate unlinks seq) := by
  unfold rotate
  split
  next a ha =>
    split
    next => exact ⟨h, List.Perm.refl _, rfl, rfl, .inr ha⟩
    next =>
      obtain ⟨hsound, hperm, hnone⟩ := @closeActive_spec env w unlinks h
      have hopen := (openSegment_spec hsound hnone seq).1
      exact ⟨hopen.sound, hopen.contents.trans hperm, hopen.retired.trans closeActive_retired,
        hopen.lastSeq.trans closeActive_lastSeq, hopen.active⟩
  next hnone => exact (openSegment_spec h hnone seq).1

/-! ## Appends -/

/-- A file has something behind its last whole frame. -/
def tornAt (env : WalEnv) (dir : WalDir) (name : Nat) : Bool :=
  (dir[name]?.bind (scanSegment env)).any Prod.snd

/-- The next append goes to a file with something behind its last whole frame. -/
def behindTear (env : WalEnv) (w : FileWal) : Bool :=
  w.active.any fun a => decide (a.bytes < w.segmentBytes) && tornAt env w.dir a.segment.name

theorem tornAt_written {name : Nat} {bytes : Bytes} {es : List BufferedEvent}
    {tail : Bytes} (hdir : dir[name]? = some bytes) (h : Written env bytes es tail) :
    tornAt env dir name = !tail.isEmpty := by
  unfold tornAt
  rw [hdir, Option.bind_some, scanSegment_written h]
  rfl

theorem rotate_clean {seq : Nat} {w' : FileWal} {a : ActiveFile}
    (hclean : w.behindTear env = false) (h : w.rotate unlinks seq = (w', some a)) :
    tornAt env w'.dir a.segment.name = false := by
  have hopened : ∀ {v : FileWal}, v.openSegment seq = (w', some a) →
      tornAt env w'.dir a.segment.name = false := by
    intro v hv
    unfold openSegment at hv
    split at hv
    next => cases hv
    next =>
      cases hv
      exact tornAt_written ExtTreeMap.getElem?_insert_self (Written.header env seq)
  unfold rotate at h
  split at h
  next b hb =>
    split at h
    next hroom =>
      cases h
      unfold behindTear at hclean
      rw [hb, Option.any_some, Bool.and_eq_false_iff] at hclean
      rcases hclean with hfull | hclean
      · exact absurd hroom (of_decide_eq_false hfull)
      · exact hclean
    next => exact hopened h
  next => exact hopened h

/-- A write to the active segment. -/
theorem write_spec {a : ActiveFile} (h : w.Sound env) (ha : w.active = some a) {bytes more : Bytes}
    {new : List BufferedEvent} {tail : Bytes} (hdir : w.dir[a.segment.name]? = some bytes)
    (hw : Written env (bytes ++ more) (eventsAt env w.dir a.segment.name ++ new) tail)
    {s : Tracked} (hname : s.name = a.segment.name)
    (hmax : s.maxSeq = maxSeqOf (eventsAt env w.dir a.segment.name ++ new))
    (hevents : s.events = (eventsAt env w.dir a.segment.name ++ new).length) (n lastSeq : Nat) :
    let w' : FileWal := { w with
      dir := writeTo w.dir a.segment.name more, active := some ⟨s, n⟩, lastSeq := lastSeq }
    w'.Sound env ∧ (w'.contents env).Perm (w.contents env ++ new) := by
  intro w'
  have htracked : w.tracked = w.closed ++ [a.segment] := by
    unfold tracked
    rw [ha]
    rfl
  have hfile := getElem?_writeTo_self more hdir
  have hhead : Held env w.dir (a.segment :: w.closed) := by
    unfold Sound at h
    rw [htracked] at h
    exact h.perm (List.perm_append_singleton _ _)
  have hfile' : (writeTo w.dir a.segment.name more)[s.name]? = some (bytes ++ more) := by
    rw [hname]
    exact hfile
  have hk : Knows env (writeTo w.dir a.segment.name more) s := .of_written hfile' hw hmax hevents
  obtain ⟨hheld, hcontents⟩ :=
    hhead.replace (fun k hk => getElem?_writeTo_other w.dir more hk) hname hk
  refine ⟨hheld.perm (List.perm_append_singleton _ _).symm, ?_⟩
  refine (eventsOf_perm (List.perm_append_singleton s w.closed)).trans ?_
  rw [hcontents, eventsAt_written hfile hw]
  have hold : (w.contents env).Perm
      (eventsAt env w.dir a.segment.name ++ eventsOf env w.dir w.closed) := by
    unfold contents
    rw [htracked]
    exact eventsOf_perm (List.perm_append_singleton a.segment w.closed)
  refine List.Perm.trans ?_ (hold.append_right new).symm
  rw [List.append_assoc, List.append_assoc]
  exact List.Perm.append_left _ List.perm_append_comm

theorem maxSeqOf_append (es : List BufferedEvent) (e : BufferedEvent) :
    maxSeqOf (es ++ [e]) = max (maxSeqOf es) e.seq := by
  unfold maxSeqOf
  rw [List.map_append, List.foldl_append]
  rfl

/-- What an append may do to the log. -/
structure Appended (env : WalEnv) (w : FileWal) (e : BufferedEvent) (out : FileWal × Bool) :
    Prop where
  sound : out.1.Sound env
  contents : (out.1.contents env).Perm (w.contents env ++ if out.2 then [e] else [])
  retired : out.1.retiredUpTo = w.retiredUpTo
  lastSeq : out.1.lastSeq = if out.2 then max w.lastSeq e.seq else w.lastSeq

/-- An append that does not write behind a torn tail adds its event, or nothing. -/
theorem append_spec {e : BufferedEvent} {fails : Option Nat} (h : w.Sound env) (hl : Loggable env e)
    (hfails : ∀ n f, fails = some n → encodeFrame env e = some f → n < f.length)
    (hok : w.behindTear env = true → fails = some 0 ∨ encodeFrame env e = none) :
    Appended env w e (w.append env unlinks fails e) := by
  have hnothing : (w.contents env).Perm (w.contents env ++ []) := by rw [List.append_nil]
  unfold append
  split
  next => exact ⟨h, hnothing, rfl, rfl⟩
  next f hf =>
    have hrot := @rotate_spec env w unlinks h e.seq
    split
    next w' hw' =>
      rw [hw'] at hrot
      refine ⟨hrot.sound, ?_, hrot.retired, hrot.lastSeq⟩
      have := hrot.contents
      simpa using this
    next w' a hw' =>
      rw [hw'] at hrot
      have hactive : w'.active = some a := by
        rcases hrot.active with hnone | hsome
        · cases hnone
        · exact hsome
      have hmem : a.segment ∈ w'.tracked := by
        unfold tracked
        rw [hactive]
        simp
      have hknows := hrot.sound.known _ hmem
      obtain ⟨bytes, tail, hdir, hwritten⟩ := hknows.file
      have hclean : w.behindTear env = false → tail = [] := by
        intro hb
        have htorn := rotate_clean hb hw'
        rw [tornAt_written hdir hwritten] at htorn
        simpa using htorn
      split
      next n =>
        -- a failing write that got nothing through leaves the file as it was
        have hcut : ∃ tail', Written env (bytes ++ f.take n) (eventsAt env w'.dir a.segment.name)
            tail' := by
          cases hb : w.behindTear env with
          | false =>
            rw [hclean hb] at hwritten
            exact ⟨_, hwritten.cutShort hf (hfails n f rfl hf)⟩
          | true =>
            rcases hok hb with hzero | hnone
            · cases hzero
              refine ⟨tail, ?_⟩
              simpa using hwritten
            · rw [hf] at hnone
              cases hnone
        obtain ⟨tail', hwritten'⟩ := hcut
        have hsame : eventsAt env w'.dir a.segment.name ++ [] =
            eventsAt env w'.dir a.segment.name := List.append_nil _
        obtain ⟨hsound, hcontents⟩ := @write_spec env w' a hrot.sound hactive bytes (f.take n) []
          tail' hdir (by rw [hsame]; exact hwritten') a.segment rfl
          (by rw [hsame]; exact hknows.maxSeq) (by rw [hsame]; exact hknows.events) a.bytes
          w'.lastSeq
        have hrecord : ({ w' with
            dir := writeTo w'.dir a.segment.name (f.take n), active := some ⟨a.segment, a.bytes⟩,
            lastSeq := w'.lastSeq } : FileWal) =
            { w' with dir := writeTo w'.dir a.segment.name (f.take n) } := by
          change ({ w' with
            dir := writeTo w'.dir a.segment.name (f.take n), active := some a } : FileWal) = _
          rw [← hactive]
        rw [hrecord] at hsound hcontents
        exact ⟨hsound, hcontents.trans (hrot.contents.append_right []), hrot.retired, hrot.lastSeq⟩
      next =>
        have hframed : Framed env e f := ⟨hl, hf⟩
        have hwritten' : Written env (bytes ++ f) (eventsAt env w'.dir a.segment.name ++ [e]) [] := by
          cases hb : w.behindTear env with
          | false =>
            rw [hclean hb] at hwritten
            exact hwritten.frame hframed
          | true =>
            rcases hok hb with hzero | hnone
            · cases hzero
            · rw [hf] at hnone
              cases hnone
        obtain ⟨hsound, hcontents⟩ := @write_spec env w' a hrot.sound hactive bytes f [e] [] hdir
          hwritten' ⟨a.segment.name, max a.segment.maxSeq e.seq, a.segment.events + 1⟩ rfl
          (by rw [maxSeqOf_append, ← hknows.maxSeq])
          (by rw [List.length_append, ← hknows.events]; rfl) (a.bytes + f.length)
          (max w'.lastSeq e.seq)
        exact ⟨hsound, hcontents.trans (hrot.contents.append_right [e]), hrot.retired,
          congrArg (max · e.seq) hrot.lastSeq⟩

/-! ## Truncations -/

theorem getElem?_unlinkAll (segs : List Tracked) (dir : WalDir) (k : Nat) :
    (segs.foldl (fun dir s => unlink unlinks dir s.name) dir)[k]? =
      if (∃ s ∈ segs, s.name = k) ∧ unlinks k then none else dir[k]? := by
  induction segs generalizing dir with
  | nil => simp
  | cons s segs ih =>
    rw [List.foldl_cons, ih]
    by_cases hk : s.name = k
    · subst hk
      rw [getElem?_unlink_self]
      by_cases hu : unlinks s.name <;> simp [hu]
    · rw [getElem?_unlink_other dir (Ne.symm hk)]
      simp [hk]

theorem le_maxSeqOf {es : List BufferedEvent} {e : BufferedEvent} (h : e ∈ es) :
    e.seq ≤ maxSeqOf es := by
  have hfold : ∀ (l : List Nat) (m n : Nat), n = m ∨ n ∈ l → n ≤ l.foldl max m := by
    intro l
    induction l with
    | nil =>
      intro m n h
      rcases h with rfl | h
      · exact Nat.le_refl _
      · cases h
    | cons x l ih =>
      intro m n h
      rw [List.foldl_cons]
      have hle := ih (max m x) (max m x) (.inl rfl)
      rcases h with rfl | h
      · exact (Nat.le_max_left _ _).trans hle
      · rcases List.mem_cons.mp h with rfl | h
        · exact (Nat.le_max_right _ _).trans hle
        · exact ih _ _ (.inr h)
  exact hfold _ _ _ (.inr (List.mem_map_of_mem h))

theorem tracked_of_none (h : w.active = none) : w.tracked = w.closed := by
  unfold tracked
  rw [h]
  exact List.append_nil _

/-- A truncation keeps the events past its bound. -/
theorem truncate_spec (h : w.Sound env) (upToSeq : Nat) :
    (w.truncate unlinks upToSeq).Sound env ∧
      ∀ bound, upToSeq ≤ bound →
        (((w.truncate unlinks upToSeq).contents env).filter fun e => decide (bound < e.seq)).Perm
          ((w.contents env).filter fun e => decide (bound < e.seq)) := by
  obtain ⟨hclosed, hperm, hnone⟩ := @closeActive_spec env w unlinks h
  have hheld : Held env (w.closeActive unlinks).dir (w.closeActive unlinks).closed := by
    rw [← tracked_of_none hnone]
    exact hclosed
  set v := w.closeActive unlinks with hv
  set gone := v.closed.filter fun s => decide (s.maxSeq ≤ upToSeq) with hgone
  set kept := v.closed.filter fun s => !decide (s.maxSeq ≤ upToSeq) with hkept
  set left := gone.filter fun s => !unlinks s.name with hleft
  set dir := gone.foldl (fun dir s => unlink unlinks dir s.name) v.dir with hdir
  have hout : w.truncate unlinks upToSeq = { v with
      dir := dir, closed := (kept ++ left).mergeSort fun a b => a.name ≤ b.name
      retiredUpTo := max v.retiredUpTo upToSeq } := rfl
  have hlook : ∀ k, dir[k]? =
      if (∃ s ∈ gone, s.name = k) ∧ unlinks k then none else v.dir[k]? :=
    fun k => getElem?_unlinkAll gone v.dir k
  have hsplit : (kept ++ gone).Perm v.closed :=
    List.perm_append_comm.trans (List.filter_append_perm _ _)
  have hsub : (kept ++ left).Sublist (kept ++ gone) :=
    (List.filter_sublist).append_left kept
  have hmem : ∀ s ∈ kept ++ left, s ∈ v.closed := fun s hs => hsplit.mem_iff.mp (hsub.subset hs)
  have hunique : ∀ s ∈ v.closed, ∀ t ∈ v.closed, s.name = t.name → s = t :=
    fun s hs t ht => List.inj_on_of_nodup_map hheld.nodup hs ht
  have hstays : ∀ s ∈ kept ++ left, dir[s.name]? = v.dir[s.name]? := by
    intro s hs
    rw [hlook, if_neg]
    rintro ⟨⟨t, ht, hname⟩, hunlinks⟩
    have htv := List.mem_of_mem_filter ht
    have hts := hunique t htv s (hmem s hs) hname
    subst hts
    rcases List.mem_append.mp hs with hs | hs
    · simp [hkept, hgone] at hs ht
      omega
    · rw [hleft, List.mem_filter, hunlinks] at hs
      simp at hs
  have hfiles : ∀ (name : Nat) (bytes : Bytes), dir[name]? = some bytes → v.dir[name]? = some bytes := by
    intro name bytes hbytes
    rw [hlook] at hbytes
    split at hbytes
    · cases hbytes
    · exact hbytes
  have hnow : Held env dir (kept ++ left) := by
    refine ⟨?_, ?_, ?_, ?_⟩
    · intro name bytes hbytes
      exact hheld.files name bytes (hfiles name bytes hbytes)
    · exact ((hsplit.map _).nodup_iff.mpr hheld.nodup).sublist (hsub.map _)
    · intro s hs
      exact (hheld.known s (hmem s hs)).congr (hstays s hs)
    · intro name hne
      have hne' : dir[name]? = v.dir[name]? := by
        cases hd : dir[name]? with
        | none => exact absurd (eventsAt_none hd) hne
        | some bytes => exact (hfiles name bytes hd).symm
      rw [eventsAt_congr hne'] at hne
      obtain ⟨s, hs, hname⟩ := hheld.rest name hne
      refine ⟨s, ?_, hname⟩
      have hs' := hsplit.mem_iff.mpr hs
      rcases List.mem_append.mp hs' with hs' | hs'
      · exact List.mem_append_left _ hs'
      · refine List.mem_append_right _ (List.mem_filter.mpr ⟨hs', ?_⟩)
        by_contra hunlinks
        have hgone' : dir[name]? = none := by
          rw [hlook, if_pos ⟨⟨s, hs', hname⟩, by rw [← hname]; simpa using hunlinks⟩]
        rw [hgone'] at hne'
        exact hne (eventsAt_none hne'.symm)
  have htracked : (w.truncate unlinks upToSeq).tracked =
      (kept ++ left).mergeSort fun a b => a.name ≤ b.name := by
    rw [hout]
    exact tracked_of_none hnone
  have hsorted := List.mergeSort_perm (kept ++ left) fun a b => decide (a.name ≤ b.name)
  have hsound : (w.truncate unlinks upToSeq).Sound env := by
    unfold Sound
    rw [htracked]
    exact hnow.perm hsorted.symm
  refine ⟨hsound, fun bound hbound => ?_⟩
  have hevents : ∀ name, (eventsAt env dir name).filter (fun e => decide (bound < e.seq)) =
      (eventsAt env v.dir name).filter fun e => decide (bound < e.seq) := by
    intro name
    have hl := hlook name
    split at hl
    next hdrop =>
      obtain ⟨⟨s, hs, rfl⟩, -⟩ := hdrop
      have hold : (eventsAt env v.dir s.name).filter (fun e => decide (bound < e.seq)) = [] := by
        rw [List.filter_eq_nil_iff]
        intro e he
        have hle := le_maxSeqOf he
        have hmax := (hheld.known s (List.mem_of_mem_filter hs)).maxSeq
        have hcovered : s.maxSeq ≤ upToSeq := by
          have := (List.mem_filter.mp hs).2
          simpa using this
        simp only [decide_eq_true_eq]
        omega
      rw [hold, eventsAt_none hl]
      rfl
    next => rw [eventsAt_congr hl]
  have hvsound : Held env v.dir v.tracked := hclosed
  exact (hvsound.filter_perm hsound hevents).trans (hperm.filter _)

theorem truncate_retired (upToSeq : Nat) :
    (w.truncate unlinks upToSeq).retiredUpTo = max w.retiredUpTo upToSeq := by
  change max (w.closeActive unlinks).retiredUpTo upToSeq = _
  rw [closeActive_retired]

theorem truncate_lastSeq (upToSeq : Nat) : (w.truncate unlinks upToSeq).lastSeq = w.lastSeq :=
  closeActive_lastSeq

/-! ## Opening -/

/-- The directory while it is scanned: the files still to come, and the segments found. -/
structure Scanning (env : WalEnv) (unlinks : Nat → Bool) (w : FileWal)
    (rest : List (Nat × Bytes)) : Prop where
  files : ∀ (name : Nat) (bytes : Bytes), w.dir[name]? = some bytes →
    ∃ es tail, Written env bytes es tail
  nodup : (w.closed.map Tracked.name ++ rest.map Prod.fst).Nodup
  known : ∀ s ∈ w.closed, Knows env w.dir s
  coming : ∀ file ∈ rest, w.dir[file.1]? = some file.2
  all : ∀ name, eventsAt env w.dir name ≠ [] →
    (∃ s ∈ w.closed, s.name = name) ∨ ∃ file ∈ rest, file.1 = name
  left : ∀ (name : Nat) (bytes : Bytes), w.dir[name]? = some bytes →
    eventsAt env w.dir name ≠ [] ∨ (∃ file ∈ rest, file.1 = name) ∨ unlinks name = false
  active : w.active = none
  retired : w.retiredUpTo = 0
  lastSeq : ∀ s ∈ w.closed, s.maxSeq ≤ w.lastSeq

theorem scanFile_spec {file : Nat × Bytes} {rest : List (Nat × Bytes)}
    (h : Scanning env unlinks w (file :: rest)) :
    Scanning env unlinks (scanFile env unlinks w file) rest ∧
      ∀ name, eventsAt env (scanFile env unlinks w file).dir name = eventsAt env w.dir name := by
  obtain ⟨name, bytes⟩ := file
  have hdir : w.dir[name]? = some bytes := h.coming _ List.mem_cons_self
  obtain ⟨es, tail, hw⟩ := h.files _ _ hdir
  have hes := eventsAt_written hdir hw
  have hnodup : (w.closed.map Tracked.name ++ name :: rest.map Prod.fst).Nodup := h.nodup
  have hswap : (name :: (w.closed.map Tracked.name ++ rest.map Prod.fst)).Nodup :=
    List.perm_middle.nodup_iff.mp hnodup
  obtain ⟨hnew, hrest⟩ := List.nodup_cons.mp hswap
  unfold scanFile
  rw [scanSegment_written hw]
  dsimp only
  split
  next hempty =>
    rw [List.isEmpty_iff] at hempty
    have hother : ∀ k, k ≠ name → (unlink unlinks w.dir name)[k]? = w.dir[k]? :=
      fun k hk => getElem?_unlink_other w.dir hk
    have hfiles : ∀ (k : Nat) (bytes : Bytes), (unlink unlinks w.dir name)[k]? = some bytes →
        w.dir[k]? = some bytes := by
      intro k bytes' hk
      by_cases heq : k = name
      · subst heq
        rw [getElem?_unlink_self] at hk
        split at hk
        · cases hk
        · exact hk
      · rw [hother k heq] at hk
        exact hk
    have hsame : ∀ k, eventsAt env (unlink unlinks w.dir name) k = eventsAt env w.dir k := by
      intro k
      by_cases heq : k = name
      · subst heq
        cases hk : (unlink unlinks w.dir k)[k]? with
        | none => rw [eventsAt_none hk, hes, hempty]
        | some bytes' => exact eventsAt_congr (hk.trans (hfiles k bytes' hk).symm)
      · exact eventsAt_congr (hother k heq)
    refine ⟨⟨fun k b hk => h.files k b (hfiles k b hk), hrest, ?_, ?_, ?_, ?_, h.active, h.retired,
      h.lastSeq⟩, hsame⟩
    · intro s hs
      refine (h.known s hs).congr (hother _ ?_)
      rintro rfl
      exact hnew (List.mem_append_left _ (List.mem_map_of_mem hs))
    · intro file hfile
      refine (hother _ ?_).trans (h.coming file (List.mem_cons_of_mem _ hfile))
      rintro rfl
      exact hnew (List.mem_append_right _ (List.mem_map_of_mem hfile))
    · intro k hne
      rw [hsame] at hne
      rcases h.all k hne with hs | ⟨file, hfile, hk⟩
      · exact .inl hs
      · rcases List.mem_cons.mp hfile with rfl | hfile
        · rw [← hk, hes] at hne
          exact absurd hempty hne
        · exact .inr ⟨file, hfile, hk⟩
    · intro k bytes' hk
      rcases h.left k bytes' (hfiles k bytes' hk) with hne | ⟨file, hfile, hname⟩ | hstays
      · refine .inl ?_
        rw [hsame]
        exact hne
      · rcases List.mem_cons.mp hfile with rfl | hfile
        · subst hname
          rw [getElem?_unlink_self] at hk
          split at hk
          · cases hk
          next hstays => exact .inr (.inr (by simpa using hstays))
        · exact .inr (.inl ⟨file, hfile, hname⟩)
      · exact .inr (.inr hstays)
  next hnonempty =>
    refine ⟨⟨h.files, ?_, ?_, ?_, ?_, ?_, h.active, h.retired, ?_⟩, fun _ => rfl⟩
    · rw [List.map_append, List.append_assoc]
      exact hnodup
    · intro s hs
      rcases List.mem_append.mp hs with hs | hs
      · exact h.known s hs
      · rw [List.mem_singleton] at hs
        subst hs
        exact .of_written hdir hw rfl rfl
    · exact (List.forall_mem_cons.mp h.coming).2
    · intro k hne
      rcases h.all k hne with ⟨s, hs, hk⟩ | ⟨file, hfile, hk⟩
      · exact .inl ⟨s, List.mem_append_left _ hs, hk⟩
      · rcases List.mem_cons.mp hfile with rfl | hfile
        · exact .inl ⟨_, List.mem_append_right _ List.mem_cons_self, hk⟩
        · exact .inr ⟨file, hfile, hk⟩
    · intro k bytes' hk
      rcases h.left k bytes' hk with hne | ⟨file, hfile, hname⟩ | hstays
      · exact .inl hne
      · rcases List.mem_cons.mp hfile with rfl | hfile
        · subst hname
          refine .inl fun hnil => hnonempty ?_
          rw [hes] at hnil
          rw [hnil]
          rfl
        · exact .inr (.inl ⟨file, hfile, hname⟩)
      · exact .inr (.inr hstays)
    · intro s hs
      rcases List.mem_append.mp hs with hs | hs
      · exact (h.lastSeq s hs).trans (Nat.le_max_left _ _)
      · rw [List.mem_singleton] at hs
        subst hs
        exact Nat.le_max_right _ _

theorem scanFiles_spec {files : List (Nat × Bytes)} (h : Scanning env unlinks w files) :
    Scanning env unlinks (files.foldl (scanFile env unlinks) w) [] ∧
      ∀ name, eventsAt env (files.foldl (scanFile env unlinks) w).dir name =
        eventsAt env w.dir name := by
  induction files generalizing w with
  | nil => exact ⟨h, fun _ => rfl⟩
  | cons file files ih =>
    obtain ⟨hnext, hsame⟩ := @scanFile_spec env w unlinks file files h
    obtain ⟨hlast, hall⟩ := ih hnext
    exact ⟨hlast, fun name => (hall name).trans (hsame name)⟩

/-- What opening a directory of segments comes to. -/
structure Opened (env : WalEnv) (unlinks : Nat → Bool) (dir : WalDir) (w : FileWal) : Prop where
  sound : w.Sound env
  active : w.active = none
  retired : w.retiredUpTo = 0
  events : ∀ name, eventsAt env w.dir name = eventsAt env dir name
  left : ∀ (name : Nat) (bytes : Bytes), w.dir[name]? = some bytes → unlinks name = true →
    eventsAt env w.dir name ≠ []
  lastSeq : ∀ s ∈ w.closed, s.maxSeq ≤ w.lastSeq

theorem scanDir_spec (hfiles : ∀ (name : Nat) (bytes : Bytes),
    dir[name]? = some bytes → ∃ es tail, Written env bytes es tail) (segmentBytes : Nat) :
    Opened env unlinks dir (scanDir env unlinks segmentBytes dir) := by
  have hstart : Scanning env unlinks ⟨dir, max segmentBytes (64 * 1024), [], none, 0, 0⟩ dir.toList := by
    refine ⟨hfiles, ?_, ?_, ?_, ?_, ?_, rfl, rfl, ?_⟩
    · rw [ExtTreeMap.map_fst_toList_eq_keys]
      exact nodup_keys dir
    · rintro s ⟨⟩
    · rintro ⟨name, bytes⟩ hfile
      exact ExtTreeMap.mem_toList_iff_getElem?_eq_some.mp hfile
    · intro name hne
      cases hdir : dir[name]? with
      | none => exact absurd (eventsAt_none hdir) hne
      | some bytes =>
        exact .inr ⟨(name, bytes), ExtTreeMap.mem_toList_iff_getElem?_eq_some.mpr hdir, rfl⟩
    · intro name bytes hdir
      exact .inr (.inl ⟨(name, bytes), ExtTreeMap.mem_toList_iff_getElem?_eq_some.mpr hdir, rfl⟩)
    · rintro s ⟨⟩
  obtain ⟨hlast, hsame⟩ := @scanFiles_spec env _ unlinks _ hstart
  refine ⟨?_, hlast.active, hlast.retired, hsame, ?_, hlast.lastSeq⟩
  swap
  · intro name bytes hdir hunlinks
    rcases hlast.left name bytes hdir with hne | ⟨file, hfile, -⟩ | hstays
    · exact hne
    · cases hfile
    · rw [hunlinks] at hstays
      cases hstays
  have hnodup := hlast.nodup
  rw [List.map_nil, List.append_nil] at hnodup
  unfold Sound scanDir
  rw [tracked_of_none hlast.active]
  refine ⟨hlast.files, hnodup, hlast.known, fun name hne => ?_⟩
  rcases hlast.all name hne with hs | ⟨file, hfile, -⟩
  · exact hs
  · cases hfile

/-- A log opened from a directory has its events. -/
theorem Opened.contents_perm {segs : List Tracked} (h : Opened env unlinks dir w)
    (hheld : Held env dir segs) (p : BufferedEvent → Bool) :
    ((w.contents env).filter p).Perm ((eventsOf env dir segs).filter p) :=
  hheld.filter_perm h.sound fun name => by rw [h.events]

end FileWal

end Sp00ky.Scheduler
