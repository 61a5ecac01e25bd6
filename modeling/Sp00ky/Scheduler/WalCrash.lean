/-
  Crashes of the write-ahead log (`apps/scheduler/src/wal.rs`).

  Every operation changes the disk in a list of steps; a crash does the first of them, and a part of
  the next one when that is a write. Two places are not safe. A file whose header was cut short is
  skipped but left in place, and the next append under its number fails on the name
  (`cut_header_blocks_append`). A migration that is run again finds the segments of its first run
  and cannot open. Everywhere else the log opens again, takes the next event and has every durable
  one once (`reopens_after_crashes`).
-/
import Sp00ky.Scheduler.WalFailures

namespace Sp00ky.Scheduler

open Std Lib Ssp

/-! ## Steps on the disk -/

/-- The segment files, and the log of the previous format if it is there. -/
structure WalFiles where
  dir : WalDir
  legacy : Option Bytes

/-- One step on the disk. -/
inductive Effect where
  | create (name : Nat)
  | header (name : Nat)
  | frame (name : Nat) (bytes : Bytes)
  | unlink (name : Nat)
  | retire

namespace Effect

def apply (d : WalFiles) : Effect → WalFiles
  | .create name => { d with dir := d.dir.insert name [] }
  | .header name => { d with dir := FileWal.writeTo d.dir name (segmentHeader name) }
  | .frame name bytes => { d with dir := FileWal.writeTo d.dir name bytes }
  | .unlink name => { d with dir := d.dir.erase name }
  | .retire => { d with legacy := none }

/-- The first bytes of a step that writes. -/
def begin (n : Nat) (d : WalFiles) : Effect → WalFiles
  | .header name => { d with dir := FileWal.writeTo d.dir name ((segmentHeader name).take n) }
  | .frame name bytes => { d with dir := FileWal.writeTo d.dir name (bytes.take n) }
  | _ => d

/-- A write is not done with these bytes. -/
def cutsShort (n : Nat) : Effect → Bool
  | .header _ => decide (n < EventWal.segmentHeaderLen)
  | .frame _ bytes => decide (n < bytes.length)
  | _ => true

def isCreate : Effect → Bool
  | .create _ => true
  | _ => false

def isFrame : Effect → Bool
  | .frame .. => true
  | _ => false

def isRetire : Effect → Bool
  | .retire => true
  | _ => false

end Effect

/-- What a crash leaves after `k` steps and `n` bytes of the next one. -/
def crashAt (effects : List Effect) (k n : Nat) (d : WalFiles) : WalFiles :=
  let d := (effects.take k).foldl Effect.apply d
  effects[k]?.elim d (Effect.begin n d)

/-- The next step is not done. -/
def cutsShortAt (effects : List Effect) (k n : Nat) : Bool := effects[k]?.all (Effect.cutsShort n)

/-- Removals succeed. -/
def removes : Nat → Bool := fun _ => true

namespace FileWal

/-- The steps of `close_active`. -/
def closeEffects (w : FileWal) : List Effect :=
  match w.active with
  | none => []
  | some a => if 0 < a.segment.events then [] else [.unlink a.segment.name]

/-- The steps of `open_segment`. -/
def openEffects (w : FileWal) (firstSeq : Nat) : List Effect :=
  if w.dir.contains firstSeq then [] else [.create firstSeq, .header firstSeq]

/-- The steps of a rotation. -/
def rotateEffects (w : FileWal) (seq : Nat) : List Effect :=
  match w.active with
  | some a =>
    if a.bytes < w.segmentBytes then []
    else w.closeEffects ++ (w.closeActive removes).openEffects seq
  | none => w.openEffects seq

/-- The steps of `append`. -/
def appendEffects (env : WalEnv) (w : FileWal) (e : BufferedEvent) : List Effect :=
  match encodeFrame env e with
  | none => []
  | some frame =>
    w.rotateEffects e.seq ++
      ((w.rotate removes e.seq).2.map fun a => Effect.frame a.segment.name frame).toList

/-- The steps of `truncate`. -/
def truncateEffects (w : FileWal) (upToSeq : Nat) : List Effect :=
  w.closeEffects ++ ((w.closeActive removes).closed.filter fun s => decide (s.maxSeq ≤ upToSeq)).map
    fun s => .unlink s.name

/-- The files `scan_dir` removes. -/
def emptyFiles (env : WalEnv) (files : List (Nat × Bytes)) : List Nat :=
  (files.filter fun file => (scanSegment env file.2).any fun r => r.1.isEmpty).map Prod.fst

/-- The loop of `migrate_legacy`, with whether it got through. -/
def migrate (env : WalEnv) (w : FileWal) : List BufferedEvent → FileWal × Bool
  | [] => (w.closeActive removes, true)
  | e :: es =>
    match w.append env removes none e with
    | (w', true) => migrate env w' es
    | (w', false) => (w', false)

/-- The steps of `migrate_legacy`. -/
def migrateEffects (env : WalEnv) (w : FileWal) : List BufferedEvent → List Effect
  | [] => w.closeEffects ++ [.retire]
  | e :: es =>
    w.appendEffects env e ++
      match w.append env removes none e with
      | (w', true) => migrateEffects env w' es
      | (_, false) => []

/-- The events of a log in the previous format, by what a line of it says; none for a file that is no
    text. -/
def legacyEvents (parseLine : String → Option BufferedEvent) (bytes : Bytes) :
    Option (List BufferedEvent) :=
  (strOf bytes).map fun text =>
    (text.toList.splitOn '\n').filterMap fun line => parseLine (String.ofList line)

variable (env : WalEnv) (parseLine : String → Option BufferedEvent) (segmentBytes : Nat)

/-- `EventWal::open`: none when it returns an error. -/
def openLog (d : WalFiles) : WalFiles × Option FileWal :=
  let w := scanDir env removes segmentBytes d.dir
  match d.legacy with
  | none => (⟨w.dir, none⟩, some w)
  | some bytes =>
    match legacyEvents parseLine bytes with
    | none => (⟨w.dir, some bytes⟩, none)
    | some events =>
      match migrate env w events with
      | (w', true) => (⟨w'.dir, none⟩, some w')
      | (w', false) => (⟨w'.dir, some bytes⟩, none)

/-- The steps of `migrate_legacy` on the log that is there. -/
def legacyEffects (w : FileWal) (legacy : Option Bytes) : List Effect :=
  match legacy.bind (legacyEvents parseLine) with
  | none => []
  | some events => migrateEffects env w events

/-- The steps of `open`. -/
def openLogEffects (d : WalFiles) : List Effect :=
  (emptyFiles env d.dir.toList).map .unlink ++
    legacyEffects env parseLine (scanDir env removes segmentBytes d.dir) d.legacy

end FileWal

/-! ## Runs with crashes -/

/-- The disk, the process if one runs, the durable events and the highest bound of a truncation. -/
structure CrashRun where
  files : WalFiles
  wal : Option FileWal
  log : List BufferedEvent
  bound : Nat

/-- An operation, or one that a crash ends after `k` steps and `n` bytes. -/
inductive CrashAct (env : WalEnv) where
  | reopen
  | append (e : LogEvent env)
  | truncate (upToSeq : Nat)
  | crash
  | crashInOpen (k n : Nat)
  | crashInAppend (e : LogEvent env) (k n : Nat)
  | crashInTruncate (upToSeq k : Nat)

namespace CrashRun

variable (env : WalEnv) (parseLine : String → Option BufferedEvent) (segmentBytes : Nat)

/-- The log of the previous format, and no segment. -/
def start (legacy : Option Bytes) : CrashRun :=
  ⟨⟨∅, legacy⟩, none, (legacy.bind (FileWal.legacyEvents parseLine)).getD [], 0⟩

/-- One operation. An event is durable when its frame is. -/
def step (s : CrashRun) : CrashAct env → Option CrashRun
  | .reopen =>
    match s.wal with
    | some _ => none
    | none =>
      let out := FileWal.openLog env parseLine segmentBytes s.files
      some ⟨out.1, out.2, s.log, s.bound⟩
  | .append e => s.wal.map fun w =>
    let out := w.append env removes none e.1
    ⟨{ s.files with dir := out.1.dir }, some out.1, s.log ++ if out.2 then [e.1] else [], s.bound⟩
  | .truncate upToSeq => s.wal.map fun w =>
    let w' := w.truncate removes upToSeq
    ⟨{ s.files with dir := w'.dir }, some w', s.log, max s.bound upToSeq⟩
  | .crash => s.wal.map fun _ => { s with wal := none }
  | .crashInOpen k n =>
    let effects := FileWal.openLogEffects env parseLine segmentBytes s.files
    match s.wal with
    | some _ => none
    | none =>
      if cutsShortAt effects k n then some { s with files := crashAt effects k n s.files } else none
  | .crashInAppend e k n => s.wal.bind fun w =>
    let effects := w.appendEffects env e.1
    let durable := (w.append env removes none e.1).2 && decide (effects.length ≤ k)
    if cutsShortAt effects k n then
      some ⟨crashAt effects k n s.files, none, s.log ++ if durable then [e.1] else [], s.bound⟩
    else none
  | .crashInTruncate upToSeq k => s.wal.map fun w =>
    ⟨crashAt (w.truncateEffects upToSeq) k 0 s.files, none, s.log, max s.bound upToSeq⟩

/-- The last step that was done does not leave a file without its header. -/
def headerDone (done : List Effect) : Bool := !done.getLast?.any Effect.isCreate

/-- No event was moved, or all were. -/
def movedAllOrNone (done : List Effect) : Bool :=
  !done.any Effect.isFrame || done.any Effect.isRetire

/-- A crash falls neither between the creation of a file and the end of its header, nor between the
    first frame of a migration and its rename. -/
def Safe (s : CrashRun) : CrashAct env → Prop
  | .crashInOpen k _ =>
    let done := (FileWal.openLogEffects env parseLine segmentBytes s.files).take k
    headerDone done = true ∧ movedAllOrNone done = true
  | .crashInAppend e k _ => ∀ w, s.wal = some w → headerDone ((w.appendEffects env e.1).take k) = true
  | _ => True

instance (s : CrashRun) (a : CrashAct env) : Decidable (s.Safe env parseLine segmentBytes a) := by
  cases a with
  | crashInAppend e k n =>
    change Decidable (∀ w, s.wal = some w → _)
    cases h : s.wal with
    | none => exact .isTrue fun _ hw => nomatch hw
    | some v =>
      exact decidable_of_iff (headerDone ((v.appendEffects env e.1).take k) = true)
        ⟨fun hd w hw => Option.some.inj hw ▸ hd, fun hd => hd v rfl⟩
  | _ => unfold Safe; infer_instance

/-- The events past every truncation. -/
def past (s : CrashRun) (events : List BufferedEvent) : List BufferedEvent :=
  events.filter fun e => decide (s.bound < e.seq)

/-- The log opens, takes an event with a new number, and has the durable events once. -/
def Reopens (s : CrashRun) : Prop :=
  ∃ w, (FileWal.openLog env parseLine segmentBytes s.files).2 = some w ∧
    (∀ e, (encodeFrame env e).isSome → w.lastSeq < e.seq → (w.append env removes none e).2 = true) ∧
    ∃ events, w.recover env = some events ∧ (s.past events).Perm (s.past s.log)

end CrashRun

/-- The numbers a migration opens segments under, from the bytes of the active one. -/
def segmentStarts (env : WalEnv) (segmentBytes : Nat) : Option Nat → List BufferedEvent → List Nat
  | _, [] => []
  | bytes, e :: es =>
    let frame := ((encodeFrame env e).map List.length).getD 0
    if bytes.any fun b => decide (b < segmentBytes) then
      segmentStarts env segmentBytes (bytes.map (· + frame)) es
    else e.seq :: segmentStarts env segmentBytes (some (EventWal.segmentHeaderLen + frame)) es

/-- The log of the previous format can be moved: it is text, the log can hold its events, and no two
    segments get one number. -/
structure Movable (env : WalEnv) (parseLine : String → Option BufferedEvent) (segmentBytes : Nat)
    (bytes : Bytes) (events : List BufferedEvent) : Prop where
  text : FileWal.legacyEvents parseLine bytes = some events
  framed : ∀ e ∈ events, Loggable env e ∧ (encodeFrame env e).isSome
  starts : (segmentStarts env (max segmentBytes (64 * 1024)) none events).Nodup

/-! ## What an append does -/

namespace FileWal

variable {env : WalEnv} {w : FileWal}

theorem writeTo_insert (dir : WalDir) (name : Nat) (bytes more : Bytes) :
    writeTo (dir.insert name bytes) name more = dir.insert name (bytes ++ more) := by
  refine ExtTreeMap.ext_getElem? fun k => ?_
  by_cases hk : k = name
  · subst hk
    rw [getElem?_writeTo_self more ExtTreeMap.getElem?_insert_self, ExtTreeMap.getElem?_insert_self]
  · rw [getElem?_writeTo_other _ more hk, ExtTreeMap.getElem?_insert, ExtTreeMap.getElem?_insert]
    simp [Ne.symm hk]

/-- The active segment has events. -/
def Busy (w : FileWal) : Prop := ∀ a, w.active = some a → 0 < a.segment.events

theorem Busy.closeActive_dir (h : w.Busy) : (w.closeActive removes).dir = w.dir := by
  unfold closeActive
  split
  · rfl
  next a ha => rw [if_pos (h a ha)]

theorem Busy.closeEffects_eq (h : w.Busy) : w.closeEffects = [] := by
  unfold closeEffects
  split
  · rfl
  next a ha => rw [if_pos (h a ha)]

/-- There is room in the active segment. -/
def HasRoom (w : FileWal) (a : ActiveFile) : Prop :=
  w.active = some a ∧ a.bytes < w.segmentBytes

/-- The ways an append goes, with its steps. -/
inductive AppendCase (env : WalEnv) (w : FileWal) (e : BufferedEvent) :
    FileWal × Bool → List Effect → Prop
  | tooLarge (h : encodeFrame env e = none) : AppendCase env w e (w, false) []
  | room (f : Bytes) (a : ActiveFile) (hf : encodeFrame env e = some f) (ha : w.HasRoom a) :
      AppendCase env w e
        ({ w with
            dir := writeTo w.dir a.segment.name f
            active := some ⟨⟨a.segment.name, max a.segment.maxSeq e.seq, a.segment.events + 1⟩,
              a.bytes + f.length⟩
            lastSeq := max w.lastSeq e.seq }, true)
        [.frame a.segment.name f]
  | taken (f : Bytes) (hf : encodeFrame env e = some f) (hfull : ∀ a, ¬ w.HasRoom a)
      (htaken : w.dir[e.seq]? ≠ none) : AppendCase env w e (w.closeActive removes, false) []
  | fresh (f : Bytes) (hf : encodeFrame env e = some f) (hfull : ∀ a, ¬ w.HasRoom a)
      (hfresh : w.dir[e.seq]? = none) :
      AppendCase env w e
        ({ w.closeActive removes with
            dir := w.dir.insert e.seq (segmentHeader e.seq ++ f)
            active := some ⟨⟨e.seq, e.seq, 1⟩, EventWal.segmentHeaderLen + f.length⟩
            lastSeq := max w.lastSeq e.seq }, true)
        [.create e.seq, .header e.seq, .frame e.seq f]

theorem append_cases (hbusy : w.Busy) (e : BufferedEvent) :
    AppendCase env w e (w.append env removes none e) (w.appendEffects env e) := by
  have hclosed := hbusy.closeActive_dir
  cases hf : encodeFrame env e with
  | none =>
    simp only [append, appendEffects, hf]
    exact .tooLarge hf
  | some f =>
    -- a new segment, from the closed log
    have hnew : (∀ a, ¬ w.HasRoom a) →
        w.rotate removes e.seq = (w.closeActive removes).openSegment e.seq →
        w.rotateEffects e.seq = (w.closeActive removes).openEffects e.seq →
        AppendCase env w e (w.append env removes none e) (w.appendEffects env e) := by
      intro hfull hrot heffects
      simp only [append, appendEffects, hf, heffects, hrot]
      unfold openSegment openEffects
      rw [hclosed]
      by_cases hin : w.dir.contains e.seq
      · rw [if_pos hin, if_pos hin]
        refine .taken f hf hfull ?_
        rw [ExtTreeMap.contains_eq_isSome_getElem?] at hin
        intro hnone
        rw [hnone] at hin
        cases hin
      · rw [if_neg hin, if_neg hin]
        have hfresh : w.dir[e.seq]? = none := by
          rw [ExtTreeMap.contains_eq_isSome_getElem?] at hin
          simpa using hin
        have hcase := @AppendCase.fresh env w e f hf hfull hfresh
        rw [← writeTo_insert, ← Nat.zero_max e.seq] at hcase
        rw [← @closeActive_lastSeq w removes] at hcase
        simpa using hcase
    cases ha : w.active with
    | none =>
      have hsame : w.closeActive removes = w := by
        unfold closeActive
        rw [ha]
      refine hnew ?_ ?_ ?_
      · rintro a ⟨hsome, -⟩
        rw [ha] at hsome
        cases hsome
      · unfold rotate
        rw [ha, hsame]
      · unfold rotateEffects
        rw [ha, hsame]
    | some a =>
      by_cases hroom : a.bytes < w.segmentBytes
      · have hrot : w.rotate removes e.seq = (w, some a) := by
          unfold rotate
          rw [ha]
          exact if_pos hroom
        have heffects : w.rotateEffects e.seq = [] := by
          unfold rotateEffects
          rw [ha]
          exact if_pos hroom
        simp only [append, appendEffects, hf, heffects, hrot]
        exact .room f a hf ⟨ha, hroom⟩
      · refine hnew ?_ ?_ ?_
        · rintro b ⟨hsome, hb⟩
          rw [ha] at hsome
          cases hsome
          exact hroom hb
        · unfold rotate
          rw [ha]
          exact if_neg hroom
        · unfold rotateEffects
          rw [ha, hbusy.closeEffects_eq]
          exact if_neg hroom

/-! ## What the disk holds -/

/-- Every file is a segment. -/
def SegmentFiles (env : WalEnv) (dir : WalDir) : Prop :=
  ∀ (name : Nat) (bytes : Bytes), dir[name]? = some bytes → ∃ es tail, Written env bytes es tail

/-- A file with events has the one it was opened for. -/
def Named (env : WalEnv) (dir : WalDir) : Prop :=
  ∀ name, eventsAt env dir name ≠ [] → ∃ e ∈ eventsAt env dir name, e.seq = name

/-- The files as segments. -/
def segmentsOf (env : WalEnv) (dir : WalDir) : List Tracked :=
  dir.keys.map fun name => ⟨name, maxSeqOf (eventsAt env dir name), (eventsAt env dir name).length⟩

/-- The events of all files. -/
def diskEvents (env : WalEnv) (dir : WalDir) : List BufferedEvent :=
  eventsOf env dir (segmentsOf env dir)

theorem held_segmentsOf {dir : WalDir} (h : SegmentFiles env dir) :
    Held env dir (segmentsOf env dir) := by
  have hfile : ∀ {name : Nat}, name ∈ dir.keys → ∃ bytes, dir[name]? = some bytes := by
    intro name hname
    rw [ExtTreeMap.mem_keys] at hname
    exact ⟨_, ExtTreeMap.getElem?_eq_some_getElem hname⟩
  have hkeys : ∀ {name : Nat} {bytes : Bytes}, dir[name]? = some bytes → name ∈ dir.keys := by
    intro name bytes hbytes
    rw [ExtTreeMap.mem_keys, ExtTreeMap.mem_iff_isSome_getElem?, hbytes]
    rfl
  refine ⟨h, ?_, ?_, ?_⟩
  · unfold segmentsOf
    rw [List.map_map]
    exact (List.map_id dir.keys).symm ▸ nodup_keys dir
  · intro s hs
    obtain ⟨name, hname, rfl⟩ := List.mem_map.mp hs
    obtain ⟨bytes, hbytes⟩ := hfile hname
    obtain ⟨es, tail, hw⟩ := h name bytes hbytes
    have hes := eventsAt_written hbytes hw
    exact .of_written hbytes hw (congrArg maxSeqOf hes) (congrArg List.length hes)
  · intro name hne
    cases hdir : dir[name]? with
    | none => exact absurd (eventsAt_none hdir) hne
    | some bytes => exact ⟨_, List.mem_map_of_mem (hkeys hdir), rfl⟩

/-- The second directory has the events of the first; some files may be gone, without events of a
    kind. -/
structure Keeps (env : WalEnv) (p : BufferedEvent → Bool) (dir dir' : WalDir) : Prop where
  files : SegmentFiles env dir'
  events : ∀ name, eventsAt env dir' name = eventsAt env dir name ∨
    eventsAt env dir' name = [] ∧ (eventsAt env dir name).filter p = []

namespace Keeps

variable {dir dir' : WalDir} {p : BufferedEvent → Bool}

theorem refl (h : SegmentFiles env dir) : Keeps env p dir dir := ⟨h, fun _ => .inl rfl⟩

theorem trans {dir'' : WalDir} (h : Keeps env p dir dir') (h' : Keeps env p dir' dir'') :
    Keeps env p dir dir'' := by
  refine ⟨h'.files, fun name => ?_⟩
  rcases h'.events name with heq | ⟨hnil, hgone⟩
  · rw [heq]
    exact h.events name
  · refine .inr ⟨hnil, ?_⟩
    rcases h.events name with heq | ⟨-, hgone'⟩
    · rw [← heq]
      exact hgone
    · exact hgone'

theorem named (h : Keeps env p dir dir') (hn : Named env dir) : Named env dir' := by
  intro name hne
  rcases h.events name with heq | ⟨hnil, -⟩
  · rw [heq] at hne ⊢
    exact hn name hne
  · exact absurd hnil hne

theorem perm (h : Keeps env p dir dir') {segs segs' : List Tracked} (hd : Held env dir segs)
    (hd' : Held env dir' segs') :
    ((eventsOf env dir' segs').filter p).Perm ((eventsOf env dir segs).filter p) := by
  refine hd.filter_perm hd' fun name => ?_
  rcases h.events name with heq | ⟨hnil, hgone⟩
  · rw [heq]
  · rw [hnil, hgone]
    rfl

/-- A file that gets no event. -/
theorem write (h : SegmentFiles env dir) {name : Nat} {bytes tail : Bytes}
    (hw : Written env bytes (eventsAt env dir name) tail) (hself : dir'[name]? = some bytes)
    (hother : ∀ k, k ≠ name → dir'[k]? = dir[k]?) : Keeps env p dir dir' := by
  refine ⟨?_, ?_⟩
  · intro k b hk
    by_cases heq : k = name
    · subst heq
      rw [hself] at hk
      cases hk
      exact ⟨_, _, hw⟩
    · rw [hother k heq] at hk
      exact h k b hk
  · intro k
    by_cases heq : k = name
    · subst heq
      exact .inl (eventsAt_written hself hw)
    · exact .inl (eventsAt_congr (hother k heq))

/-- Files are gone. -/
theorem erase (h : SegmentFiles env dir) {names : List Nat}
    (hlook : ∀ k : Nat, dir'[k]? = if k ∈ names then none else dir[k]?)
    (hnames : ∀ k ∈ names, (eventsAt env dir k).filter p = []) : Keeps env p dir dir' := by
  refine ⟨?_, ?_⟩
  · intro k b hk
    rw [hlook] at hk
    split at hk
    · cases hk
    · exact h k b hk
  · intro k
    have hk := hlook k
    split at hk
    next hmem => exact .inr ⟨eventsAt_none hk, hnames k hmem⟩
    next => exact .inl (eventsAt_congr hk)

end Keeps

/-- The running log: what its process knows, and what makes it safe to open again. -/
structure Running (env : WalEnv) (w : FileWal) : Prop where
  sound : w.Sound env
  named : Named env w.dir
  full : ∀ (name : Nat) (bytes : Bytes), w.dir[name]? = some bytes → eventsAt env w.dir name ≠ []
  clean : ∀ a, w.active = some a → tornAt env w.dir a.segment.name = false
  upper : ∀ e ∈ w.contents env, e.seq ≤ w.lastSeq

variable {name k : Nat} {e : BufferedEvent}

theorem mem_contents (h : w.Sound env) (he : e ∈ eventsAt env w.dir name) : e ∈ w.contents env := by
  have hne : eventsAt env w.dir name ≠ [] := List.ne_nil_of_mem he
  obtain ⟨s, hs, rfl⟩ := h.rest name hne
  exact List.mem_flatMap.mpr ⟨s, hs, he⟩

theorem active_mem {a : ActiveFile} (ha : w.active = some a) : a.segment ∈ w.tracked := by
  unfold tracked
  rw [ha]
  simp

theorem Running.busy (h : Running env w) : w.Busy := by
  intro a ha
  have hk := h.sound.known _ (active_mem ha)
  obtain ⟨bytes, tail, hdir, -⟩ := hk.file
  rw [hk.events]
  exact List.length_pos_of_ne_nil (h.full _ _ hdir)

theorem Running.notBehind (h : Running env w) : w.behindTear env = false := by
  unfold behindTear
  cases ha : w.active with
  | none => rfl
  | some a => rw [Option.any_some, h.clean a ha, Bool.and_false]

/-- The file of the active segment ends in a whole frame. -/
theorem Running.active_file (h : Running env w) {a : ActiveFile} (ha : w.active = some a) :
    ∃ bytes, w.dir[a.segment.name]? = some bytes ∧
      Written env bytes (eventsAt env w.dir a.segment.name) [] := by
  obtain ⟨bytes, tail, hdir, hw⟩ := (h.sound.known _ (active_mem ha)).file
  have hclean := h.clean a ha
  rw [tornAt_written hdir hw] at hclean
  have htail : tail = [] := by simpa using hclean
  exact ⟨bytes, hdir, htail ▸ hw⟩

/-- A number past the last one names no file. -/
theorem Running.fresh (h : Running env w) {seq : Nat} (hseq : w.lastSeq < seq) :
    w.dir[seq]? = none := by
  cases hdir : w.dir[seq]? with
  | none => rfl
  | some bytes =>
    obtain ⟨e, he, rfl⟩ := h.named seq (h.full seq bytes hdir)
    have := h.upper e (mem_contents h.sound he)
    omega

variable {es : List BufferedEvent}

/-- A file written to, and the rest. -/
theorem named_write {dir dir' : WalDir}
    (hn : Named env dir) (hname : e.seq = name ∨ eventsAt env dir name ≠ [])
    (hself : eventsAt env dir' name = eventsAt env dir name ++ es) (he : e ∈ es)
    (hother : ∀ k, k ≠ name → dir'[k]? = dir[k]?) : Named env dir' := by
  intro k hne
  by_cases heq : k = name
  · subst heq
    rw [hself]
    rcases hname with hseq | hold
    · exact ⟨e, List.mem_append_right _ he, hseq⟩
    · obtain ⟨e', he', hseq⟩ := hn k hold
      exact ⟨e', List.mem_append_left _ he', hseq⟩
  · rw [eventsAt_congr (hother k heq)] at hne ⊢
    exact hn k hne

theorem full_write {dir dir' : WalDir}
    (hfull : ∀ (name : Nat) (bytes : Bytes), dir[name]? = some bytes → eventsAt env dir name ≠ [])
    (hself : eventsAt env dir' name ≠ []) (hother : ∀ k, k ≠ name → dir'[k]? = dir[k]?) :
    ∀ (name : Nat) (bytes : Bytes), dir'[name]? = some bytes → eventsAt env dir' name ≠ [] := by
  intro k bytes hk
  by_cases heq : k = name
  · subst heq
    exact hself
  · rw [eventsAt_congr (hother k heq)]
    rw [hother k heq] at hk
    exact hfull k bytes hk

theorem getElem?_insert_other (dir : WalDir) (bytes : Bytes) (h : k ≠ name) :
    (dir.insert name bytes)[k]? = dir[k]? := by
  rw [ExtTreeMap.getElem?_insert, if_neg (by simpa using Ne.symm h)]

theorem written_first {f : Bytes} (hf : Framed env e f) :
    Written env (segmentHeader e.seq ++ f) [e] [] := (Written.header env e.seq).frame hf

/-- An append keeps the log running. -/
theorem Running.append (h : Running env w) (hl : Loggable env e) :
    Running env (w.append env removes none e).1 ∧
      ((w.append env removes none e).1.contents env).Perm
        (w.contents env ++ if (w.append env removes none e).2 then [e] else []) := by
  have hspec := @append_spec env w removes e none h.sound hl (fun _ _ hn => nomatch hn)
    (fun hb => absurd hb (by rw [h.notBehind]; decide))
  have hupper : ∀ e' ∈ (w.append env removes none e).1.contents env,
      e'.seq ≤ (w.append env removes none e).1.lastSeq := by
    intro e' he'
    have hmem := hspec.contents.mem_iff.mp he'
    rw [hspec.lastSeq]
    split at hmem
    next hok =>
      rw [if_pos hok]
      rcases List.mem_append.mp hmem with hmem | hmem
      · exact (h.upper e' hmem).trans (Nat.le_max_left _ _)
      · rw [List.mem_singleton.mp hmem]
        exact Nat.le_max_right _ _
    next hfail =>
      rw [if_neg hfail]
      rw [List.append_nil] at hmem
      exact h.upper e' hmem
  have hrest : Named env (w.append env removes none e).1.dir ∧
      (∀ (name : Nat) (bytes : Bytes), (w.append env removes none e).1.dir[name]? = some bytes →
        eventsAt env (w.append env removes none e).1.dir name ≠ []) ∧
      ∀ a, (w.append env removes none e).1.active = some a →
        tornAt env (w.append env removes none e).1.dir a.segment.name = false := by
    have hcase := @append_cases env w h.busy e
    generalize w.append env removes none e = out at hcase
    generalize w.appendEffects env e = effects at hcase
    cases hcase with
    | tooLarge => exact ⟨h.named, h.full, h.clean⟩
    | taken f hf hfull htaken =>
      refine ⟨?_, ?_, ?_⟩
      · rw [h.busy.closeActive_dir]
        exact h.named
      · rw [h.busy.closeActive_dir]
        exact h.full
      · intro a ha
        rw [(@closeActive_spec env w removes h.sound).2.2] at ha
        cases ha
    | room f a hf ha =>
      obtain ⟨bytes, hdir, hw⟩ := h.active_file ha.1
      have hw' := hw.frame ⟨hl, hf⟩
      have hself := getElem?_writeTo_self f hdir
      have hevents := eventsAt_written hself hw'
      have hother : ∀ k, k ≠ a.segment.name →
          (writeTo w.dir a.segment.name f)[k]? = w.dir[k]? :=
        fun k hk => getElem?_writeTo_other w.dir f hk
      refine ⟨named_write h.named (.inr (h.full _ _ hdir)) hevents (List.mem_singleton_self e)
        hother, full_write h.full (by rw [hevents]; simp) hother, ?_⟩
      rintro b ⟨⟩
      exact tornAt_written hself hw'
    | fresh f hf hfull hfresh =>
      have hw' := written_first ⟨hl, hf⟩
      have hself : (w.dir.insert e.seq (segmentHeader e.seq ++ f))[e.seq]? =
          some (segmentHeader e.seq ++ f) := ExtTreeMap.getElem?_insert_self
      have hevents : eventsAt env (w.dir.insert e.seq (segmentHeader e.seq ++ f)) e.seq =
          eventsAt env w.dir e.seq ++ [e] := by
        rw [eventsAt_written hself hw', eventsAt_none hfresh]
        rfl
      have hother : ∀ k, k ≠ e.seq →
          (w.dir.insert e.seq (segmentHeader e.seq ++ f))[k]? = w.dir[k]? :=
        fun k hk => getElem?_insert_other w.dir _ hk
      refine ⟨named_write h.named (.inl rfl) hevents (List.mem_singleton_self e) hother,
        full_write h.full (by rw [hevents]; simp) hother, ?_⟩
      rintro b ⟨⟩
      exact tornAt_written hself hw'
  exact ⟨⟨hspec.sound, hrest.1, hrest.2.1, hrest.2.2, hupper⟩, hspec.contents⟩

/-! ## Crashes in an append and in a truncation -/

theorem crashAt_all {effects : List Effect} (h : effects.length ≤ k) (n : Nat)
    (d : WalFiles) : crashAt effects k n d = effects.foldl Effect.apply d := by
  unfold crashAt
  rw [List.take_of_length_le h, List.getElem?_eq_none h]
  rfl

/-- A crash in an append leaves all of it, or nothing that counts. -/
theorem crash_append (h : Running env w) {k n : Nat}
    (hcut : cutsShortAt (w.appendEffects env e) k n = true)
    (hsafe : CrashRun.headerDone ((w.appendEffects env e).take k) = true) (legacy : Option Bytes) :
    ((w.appendEffects env e).length ≤ k ∧
      crashAt (w.appendEffects env e) k n ⟨w.dir, legacy⟩ =
        ⟨(w.append env removes none e).1.dir, legacy⟩) ∨
    (k < (w.appendEffects env e).length ∧ ∃ dir,
      crashAt (w.appendEffects env e) k n ⟨w.dir, legacy⟩ = ⟨dir, legacy⟩ ∧
        ∀ p, Keeps env p w.dir dir) := by
  have hcase := @append_cases env w h.busy e
  generalize w.append env removes none e = out at hcase
  generalize w.appendEffects env e = effects at hcase hcut hsafe
  cases hcase with
  | tooLarge => exact .inl ⟨Nat.zero_le _, crashAt_all (Nat.zero_le _) n _⟩
  | taken f hf hfull htaken =>
    refine .inl ⟨Nat.zero_le _, (crashAt_all (Nat.zero_le _) n _).trans ?_⟩
    rw [h.busy.closeActive_dir]
    rfl
  | room f a hf ha =>
    cases k with
    | zero =>
      obtain ⟨bytes, hdir, hw⟩ := h.active_file ha.1
      have hn : n < f.length := of_decide_eq_true hcut
      exact .inr ⟨Nat.zero_lt_one, _, rfl, fun p => .write h.sound.files (hw.cutShort hf hn)
        (getElem?_writeTo_self _ hdir) fun k hk => getElem?_writeTo_other w.dir _ hk⟩
    | succ k => exact .inl ⟨by simp, crashAt_all (by simp) n _⟩
  | fresh f hf hfull hfresh =>
    match k with
    | 0 => exact .inr ⟨by simp, _, rfl, fun p => .refl h.sound.files⟩
    | 1 => cases hsafe
    | 2 =>
      have hn : n < f.length := of_decide_eq_true hcut
      have hw : Written env (segmentHeader e.seq ++ f.take n) (eventsAt env w.dir e.seq)
          (f.take n) := by
        rw [eventsAt_none hfresh]
        exact (Written.header env e.seq).cutShort hf hn
      refine .inr ⟨by simp, w.dir.insert e.seq (segmentHeader e.seq ++ f.take n), ?_, fun p =>
        .write h.sound.files hw ExtTreeMap.getElem?_insert_self
          fun k hk => getElem?_insert_other w.dir _ hk⟩
      change (⟨writeTo (writeTo (w.dir.insert e.seq []) e.seq (segmentHeader e.seq)) e.seq
        (f.take n), legacy⟩ : WalFiles) = _
      rw [writeTo_insert, writeTo_insert, List.nil_append]
    | k + 3 =>
      refine .inl ⟨by simp, (crashAt_all (by simp) n _).trans ?_⟩
      change (⟨writeTo (writeTo (w.dir.insert e.seq []) e.seq (segmentHeader e.seq)) e.seq f,
        legacy⟩ : WalFiles) = _
      rw [writeTo_insert, writeTo_insert, List.nil_append]

theorem getElem?_eraseAll (names : List Nat) (dir : WalDir) (k : Nat) :
    (names.foldl (fun dir name => dir.erase name) dir)[k]? =
      if k ∈ names then none else dir[k]? := by
  induction names generalizing dir with
  | nil => simp
  | cons name names ih =>
    rw [List.foldl_cons, ih, ExtTreeMap.getElem?_erase]
    by_cases hk : name = k
    · subst hk
      simp
    · simp [hk, Ne.symm hk]

theorem applyAll_unlink (names : List Nat) (d : WalFiles) :
    (names.map Effect.unlink).foldl Effect.apply d =
      { d with dir := names.foldl (fun dir name => dir.erase name) d.dir } := by
  induction names generalizing d with
  | nil => rfl
  | cons name names ih =>
    rw [List.map_cons, List.foldl_cons, ih]
    rfl

theorem crashAt_unlink (names : List Nat) (k n : Nat) (d : WalFiles) :
    crashAt (names.map Effect.unlink) k n d =
      { d with dir := (names.take k).foldl (fun dir name => dir.erase name) d.dir } := by
  unfold crashAt
  rw [← List.map_take, applyAll_unlink, List.getElem?_map]
  cases names[k]? <;> rfl

/-- The files a truncation removes have no event past its bound. -/
theorem covered_names (h : Running env w) {upToSeq bound : Nat} (hbound : upToSeq ≤ bound) :
    ∀ name ∈ ((w.closeActive removes).closed.filter fun s => decide (s.maxSeq ≤ upToSeq)).map
      Tracked.name, (eventsAt env w.dir name).filter (fun e => decide (bound < e.seq)) = [] := by
  intro name hname
  obtain ⟨s, hs, rfl⟩ := List.mem_map.mp hname
  obtain ⟨hclosed, -, hnone⟩ := @closeActive_spec env w removes h.sound
  have hmem : s ∈ (w.closeActive removes).tracked := by
    rw [tracked_of_none hnone]
    exact List.mem_of_mem_filter hs
  have hmax := (hclosed.known s hmem).maxSeq
  rw [h.busy.closeActive_dir] at hmax
  have hle : s.maxSeq ≤ upToSeq := of_decide_eq_true (List.mem_filter.mp hs).2
  rw [List.filter_eq_nil_iff]
  intro e he
  have := le_maxSeqOf he
  simp only [decide_eq_true_eq]
  omega

theorem truncate_dir (h : w.Busy) (upToSeq : Nat) (k : Nat) :
    (w.truncate removes upToSeq).dir[k]? =
      if k ∈ ((w.closeActive removes).closed.filter fun s => decide (s.maxSeq ≤ upToSeq)).map
        Tracked.name then none else w.dir[k]? := by
  change ((((w.closeActive removes).closed.filter fun s => decide (s.maxSeq ≤ upToSeq))).foldl
    (fun dir s => unlink removes dir s.name) (w.closeActive removes).dir)[k]? = _
  rw [getElem?_unlinkAll, h.closeActive_dir]
  refine if_congr ?_ rfl rfl
  rw [List.mem_map]
  simp [removes]

/-- A truncation keeps the log running. -/
theorem Running.truncate (h : Running env w) (upToSeq : Nat) :
    Running env (w.truncate removes upToSeq) ∧ ∀ bound, upToSeq ≤ bound →
      Keeps env (fun e => decide (bound < e.seq)) w.dir (w.truncate removes upToSeq).dir := by
  have hspec := @truncate_spec env w removes h.sound upToSeq
  have hkeeps : ∀ bound, upToSeq ≤ bound →
      Keeps env (fun e => decide (bound < e.seq)) w.dir (w.truncate removes upToSeq).dir :=
    fun bound hbound => .erase h.sound.files (truncate_dir h.busy upToSeq) (covered_names h hbound)
  have hsame : ∀ (name : Nat) (bytes : Bytes),
      (w.truncate removes upToSeq).dir[name]? = some bytes →
        w.dir[name]? = some bytes ∧
          eventsAt env (w.truncate removes upToSeq).dir name = eventsAt env w.dir name := by
    intro name bytes hname
    have hlook := truncate_dir h.busy upToSeq name
    split at hlook
    · rw [hlook] at hname
      cases hname
    · exact ⟨hlook ▸ hname, eventsAt_congr hlook⟩
  have hnone : (w.truncate removes upToSeq).active = none :=
    (@closeActive_spec env w removes h.sound).2.2
  refine ⟨⟨hspec.1, (hkeeps upToSeq (Nat.le_refl _)).named h.named, ?_, ?_, ?_⟩, hkeeps⟩
  · intro name bytes hname
    obtain ⟨hold, hevents⟩ := hsame name bytes hname
    rw [hevents]
    exact h.full name bytes hold
  · intro a ha
    rw [hnone] at ha
    cases ha
  · intro e he
    obtain ⟨s, hs, hes⟩ := List.mem_flatMap.mp he
    obtain ⟨bytes, -, hdir, -⟩ := (hspec.1.known s hs).file
    rw [(hsame _ _ hdir).2] at hes
    rw [truncate_lastSeq]
    exact h.upper e (mem_contents h.sound hes)

/-- A crash in a truncation leaves the events past its bound. -/
theorem crash_truncate (h : Running env w) (upToSeq k : Nat) (legacy : Option Bytes) :
    ∃ dir, crashAt (w.truncateEffects upToSeq) k 0 ⟨w.dir, legacy⟩ = ⟨dir, legacy⟩ ∧
      ∀ bound, upToSeq ≤ bound → Keeps env (fun e => decide (bound < e.seq)) w.dir dir := by
  have heffects : w.truncateEffects upToSeq =
      (((w.closeActive removes).closed.filter fun s => decide (s.maxSeq ≤ upToSeq)).map
        Tracked.name).map Effect.unlink := by
    unfold truncateEffects
    rw [h.busy.closeEffects_eq, List.map_map]
    rfl
  rw [heffects, crashAt_unlink]
  refine ⟨_, rfl, fun bound hbound => ?_⟩
  refine .erase h.sound.files (getElem?_eraseAll _ _) fun name hname => ?_
  exact covered_names h hbound name (List.mem_of_mem_take hname)

/-! ## Opening and migrating -/

theorem scanFiles_dir (files : List (Nat × Bytes)) (w : FileWal) :
    (files.foldl (scanFile env removes) w).dir =
      (emptyFiles env files).foldl (fun dir name => dir.erase name) w.dir := by
  induction files generalizing w with
  | nil => rfl
  | cons file files ih =>
    have hcons : emptyFiles env (file :: files) =
        (if (scanSegment env file.2).any fun r => r.1.isEmpty then [file.1] else []) ++
          emptyFiles env files := by
      unfold emptyFiles
      rw [List.filter_cons]
      split <;> rfl
    rw [List.foldl_cons, ih, hcons, List.foldl_append]
    congr 1
    unfold scanFile
    cases hscan : scanSegment env file.2 with
    | none => rfl
    | some r =>
      obtain ⟨es, torn⟩ := r
      cases es <;> rfl

theorem scanFiles_segmentBytes (files : List (Nat × Bytes)) (w : FileWal) :
    (files.foldl (scanFile env removes) w).segmentBytes = w.segmentBytes := by
  induction files generalizing w with
  | nil => rfl
  | cons file files ih =>
    rw [List.foldl_cons, ih]
    unfold scanFile
    split
    · rfl
    · split <;> rfl

theorem emptyFiles_events {dir : WalDir} :
    ∀ name ∈ emptyFiles env dir.toList, eventsAt env dir name = [] := by
  intro name hname
  obtain ⟨⟨_, bytes⟩, hfile, rfl⟩ := List.mem_map.mp hname
  obtain ⟨hfile, hempty⟩ := List.mem_filter.mp hfile
  rw [ExtTreeMap.mem_toList_iff_getElem?_eq_some] at hfile
  unfold eventsAt
  rw [hfile, Option.bind_some]
  cases hscan : scanSegment env bytes with
  | none => rfl
  | some r =>
    rw [hscan] at hempty
    exact List.isEmpty_iff.mp hempty

/-- A log that was scanned is running. -/
theorem Running.scan {dir : WalDir} (hfiles : SegmentFiles env dir) (hn : Named env dir)
    (segmentBytes : Nat) :
    Running env (scanDir env removes segmentBytes dir) ∧
      ∀ p, Keeps env p dir (scanDir env removes segmentBytes dir).dir := by
  have hopened := @scanDir_spec env removes dir hfiles segmentBytes
  have hkeeps : ∀ p, Keeps env p dir (scanDir env removes segmentBytes dir).dir :=
    fun p => ⟨hopened.sound.files, fun name => .inl (hopened.events name)⟩
  refine ⟨⟨hopened.sound, (hkeeps fun _ => true).named hn,
    fun name bytes hdir => hopened.left name bytes hdir rfl, ?_, ?_⟩, hkeeps⟩
  · intro a ha
    rw [hopened.active] at ha
    cases ha
  · intro e he
    obtain ⟨s, hs, hes⟩ := List.mem_flatMap.mp he
    have hmax := (hopened.sound.known s hs).maxSeq
    rw [tracked_of_none hopened.active] at hs
    have := hopened.lastSeq s hs
    have := le_maxSeqOf hes
    omega

theorem Running.close (h : Running env w) : Running env (w.closeActive removes) := by
  obtain ⟨hsound, hperm, hnone⟩ := @closeActive_spec env w removes h.sound
  have hdir := h.busy.closeActive_dir
  refine ⟨hsound, ?_, ?_, ?_, ?_⟩
  · rw [hdir]
    exact h.named
  · rw [hdir]
    exact h.full
  · intro a ha
    rw [hnone] at ha
    cases ha
  · intro e he
    rw [closeActive_lastSeq]
    exact h.upper e (hperm.mem_iff.mp he)

theorem closeActive_segmentBytes : (w.closeActive removes).segmentBytes = w.segmentBytes := by
  unfold closeActive
  split
  · rfl
  · split <;> rfl

/-- What a migration comes to. -/
structure Migrated (env : WalEnv) (w : FileWal) (es : List BufferedEvent) (w' : FileWal) :
    Prop where
  done : migrate env w es = (w', true)
  running : Running env w'
  contents : (w'.contents env).Perm (w.contents env ++ es)
  active : w'.active = none
  retired : w'.retiredUpTo = w.retiredUpTo
  effects : ∀ legacy, (migrateEffects env w es).foldl Effect.apply ⟨w.dir, legacy⟩ = ⟨w'.dir, none⟩
  last : ∃ before, migrateEffects env w es = before ++ [.retire] ∧
    before.any Effect.isRetire = false

/-- An append with a free number. -/
theorem append_free (h : Running env w) (hf : (encodeFrame env e).isSome)
    (hfree : ∀ k ∈ segmentStarts env w.segmentBytes (w.active.map ActiveFile.bytes) (e :: es),
      w.dir[k]? = none)
    (hnodup : (segmentStarts env w.segmentBytes (w.active.map ActiveFile.bytes) (e :: es)).Nodup) :
    let out := w.append env removes none e
    out.2 = true ∧
      (w.appendEffects env e).any Effect.isRetire = false ∧
      (∀ legacy, (w.appendEffects env e).foldl Effect.apply ⟨w.dir, legacy⟩ =
        ⟨out.1.dir, legacy⟩) ∧
      (∀ k ∈ segmentStarts env out.1.segmentBytes (out.1.active.map ActiveFile.bytes) es,
        out.1.dir[k]? = none) ∧
      (segmentStarts env out.1.segmentBytes (out.1.active.map ActiveFile.bytes) es).Nodup := by
  intro out
  have hcase : AppendCase env w e out (w.appendEffects env e) := append_cases h.busy e
  generalize out = out at hcase
  generalize w.appendEffects env e = effects at hcase
  have hstarts : ∀ f, encodeFrame env e = some f → (∀ a, ¬ w.HasRoom a) →
      segmentStarts env w.segmentBytes (w.active.map ActiveFile.bytes) (e :: es) =
        e.seq :: segmentStarts env w.segmentBytes
          (some (EventWal.segmentHeaderLen + f.length)) es := by
    intro f hf hfull
    rw [segmentStarts, hf, if_neg]
    · rfl
    · cases ha : w.active with
      | none => simp
      | some a =>
        have := hfull a
        unfold HasRoom at this
        simp only [ha, true_and] at this
        simpa using this
  cases hcase with
  | tooLarge hnone =>
    rw [hnone] at hf
    cases hf
  | taken f hf hfull htaken =>
    rw [hstarts f hf hfull] at hfree
    exact absurd (hfree e.seq List.mem_cons_self) htaken
  | room f a hf ha =>
    have hroom : segmentStarts env w.segmentBytes (w.active.map ActiveFile.bytes) (e :: es) =
        segmentStarts env w.segmentBytes (some (a.bytes + f.length)) es := by
      rw [segmentStarts, hf, ha.1, if_pos]
      · rfl
      · simpa using ha.2
    rw [hroom] at hfree hnodup
    refine ⟨rfl, rfl, fun _ => rfl, ?_, hnodup⟩
    intro k hk
    refine (getElem?_writeTo_other w.dir f ?_).trans (hfree k hk)
    rintro rfl
    obtain ⟨bytes, hdir, -⟩ := h.active_file ha.1
    have := hfree _ hk
    rw [hdir] at this
    cases this
  | fresh f hf hfull hfresh =>
    rw [hstarts f hf hfull] at hfree hnodup
    obtain ⟨hnot, hnodup⟩ := List.nodup_cons.mp hnodup
    refine ⟨rfl, rfl, ?_, ?_, ?_⟩
    · intro legacy
      change (⟨writeTo (writeTo (w.dir.insert e.seq []) e.seq (segmentHeader e.seq)) e.seq f,
        legacy⟩ : WalFiles) = _
      rw [writeTo_insert, writeTo_insert, List.nil_append]
    · intro k hk
      rw [closeActive_segmentBytes] at hk
      refine (getElem?_insert_other w.dir _ ?_).trans (hfree k (List.mem_cons_of_mem _ hk))
      rintro rfl
      exact hnot hk
    · rw [closeActive_segmentBytes]
      exact hnodup

theorem migrate_spec (h : Running env w)
    (hes : ∀ e ∈ es, Loggable env e ∧ (encodeFrame env e).isSome)
    (hfree : ∀ k ∈ segmentStarts env w.segmentBytes (w.active.map ActiveFile.bytes) es,
      w.dir[k]? = none)
    (hnodup : (segmentStarts env w.segmentBytes (w.active.map ActiveFile.bytes) es).Nodup) :
    ∃ w', Migrated env w es w' := by
  induction es generalizing w with
  | nil =>
    obtain ⟨-, hperm, hnone⟩ := @closeActive_spec env w removes h.sound
    refine ⟨w.closeActive removes, rfl, h.close, ?_, hnone, closeActive_retired, ?_, [], ?_, rfl⟩
    · rw [List.append_nil]
      exact hperm
    · intro legacy
      rw [migrateEffects, h.busy.closeEffects_eq, h.busy.closeActive_dir]
      rfl
    · rw [migrateEffects, h.busy.closeEffects_eq]
  | cons e es ih =>
    obtain ⟨hl, hf⟩ := hes e List.mem_cons_self
    obtain ⟨hok, hnoRetire, heffects, hfree', hnodup'⟩ := append_free h hf hfree hnodup
    obtain ⟨hrunning, hperm⟩ := h.append hl
    have hretired := (@append_spec env w removes e none h.sound hl (fun _ _ hn => nomatch hn)
      (fun hb => absurd hb (by rw [h.notBehind]; decide))).retired
    obtain ⟨w', hw'⟩ := ih hrunning (List.forall_mem_cons.mp hes).2 hfree' hnodup'
    rw [if_pos hok] at hperm
    have hout : w.append env removes none e = ((w.append env removes none e).1, true) :=
      Prod.ext rfl hok
    have hdone : migrate env w (e :: es) = migrate env (w.append env removes none e).1 es := by
      rw [migrate, hout]
    have hall : migrateEffects env w (e :: es) =
        w.appendEffects env e ++ migrateEffects env (w.append env removes none e).1 es := by
      rw [migrateEffects, hout]
    refine ⟨w', hdone.trans hw'.done, hw'.running, ?_, hw'.active, hw'.retired.trans hretired, ?_, ?_⟩
    · refine hw'.contents.trans ((hperm.append_right es).trans ?_)
      rw [List.append_assoc]
      exact List.Perm.refl _
    · intro legacy
      rw [hall, List.foldl_append, heffects, hw'.effects]
    · obtain ⟨before, hbefore, hnone⟩ := hw'.last
      refine ⟨w.appendEffects env e ++ before, ?_, ?_⟩
      · rw [hall, hbefore, List.append_assoc]
      · rw [List.any_append, hnoRetire, hnone]
        rfl

/-- The events of the log of the previous format. -/
def legacyLog (parseLine : String → Option BufferedEvent) (legacy : Option Bytes) :
    List BufferedEvent :=
  (legacy.bind (legacyEvents parseLine)).getD []

/-- A disk the log can be opened from: a log of the previous format is there only as long as no
    segment has an event. -/
structure Openable (env : WalEnv) (parseLine : String → Option BufferedEvent) (segmentBytes : Nat)
    (d : WalFiles) : Prop where
  files : SegmentFiles env d.dir
  named : Named env d.dir
  legacy : ∀ bytes, d.legacy = some bytes → (∀ name, eventsAt env d.dir name = []) ∧
    ∃ events, Movable env parseLine segmentBytes bytes events

/-- The log that was opened, or the disk with the log of the previous format. -/
structure OpenedLog (env : WalEnv) (parseLine : String → Option BufferedEvent) (segmentBytes : Nat)
    (d : WalFiles) (w : FileWal) : Prop where
  done : openLog env parseLine segmentBytes d = (⟨w.dir, none⟩, some w)
  running : Running env w
  active : w.active = none
  retired : w.retiredUpTo = 0
  contents : ∀ p : BufferedEvent → Bool, ((w.contents env).filter p).Perm
    ((diskEvents env d.dir ++ legacyLog parseLine d.legacy).filter p)

section

variable {parseLine : String → Option BufferedEvent} {segmentBytes : Nat} {d : WalFiles}

/-- The scanned directory has no file while the log of the previous format is there. -/
theorem Openable.scan_empty (h : Openable env parseLine segmentBytes d) {bytes : Bytes}
    (hlegacy : d.legacy = some bytes) (k : Nat) :
    (scanDir env removes segmentBytes d.dir).dir[k]? = none := by
  obtain ⟨hrun, hkeeps⟩ := Running.scan h.files h.named segmentBytes
  cases hk : (scanDir env removes segmentBytes d.dir).dir[k]? with
  | none => rfl
  | some b =>
    have hne := hrun.full k b hk
    rcases (hkeeps fun _ => true).events k with heq | ⟨hnil, -⟩
    · rw [heq, (h.legacy bytes hlegacy).1 k] at hne
      exact absurd rfl hne
    · exact absurd hnil hne

theorem scan_segmentBytes (dir : WalDir) :
    (scanDir env removes segmentBytes dir).segmentBytes = max segmentBytes (64 * 1024) :=
  scanFiles_segmentBytes _ _

/-- The migration of an openable disk gets through. -/
theorem Openable.migrated (h : Openable env parseLine segmentBytes d) {bytes : Bytes}
    (hlegacy : d.legacy = some bytes) : ∃ events w,
      legacyEvents parseLine bytes = some events ∧
        Migrated env (scanDir env removes segmentBytes d.dir) events w ∧
        ∀ e ∈ events, (encodeFrame env e).isSome := by
  obtain ⟨-, events, hmovable⟩ := h.legacy bytes hlegacy
  have hopened := @scanDir_spec env removes d.dir h.files segmentBytes
  obtain ⟨hrun, -⟩ := Running.scan h.files h.named segmentBytes
  obtain ⟨w, hw⟩ := migrate_spec hrun hmovable.framed
    (fun k _ => h.scan_empty hlegacy k) (by
      rw [scan_segmentBytes, hopened.active]
      exact hmovable.starts)
  exact ⟨events, w, hmovable.text, hw, fun e he => (hmovable.framed e he).2⟩

theorem openLog_spec (h : Openable env parseLine segmentBytes d) :
    ∃ w, OpenedLog env parseLine segmentBytes d w := by
  have hopened := @scanDir_spec env removes d.dir h.files segmentBytes
  obtain ⟨hrun, hkeeps⟩ := Running.scan h.files h.named segmentBytes
  have hperm : ∀ p : BufferedEvent → Bool,
      (((scanDir env removes segmentBytes d.dir).contents env).filter p).Perm
        ((diskEvents env d.dir).filter p) :=
    fun p => hopened.contents_perm (held_segmentsOf h.files) p
  cases hlegacy : d.legacy with
  | none =>
    refine ⟨_, ?_, hrun, hopened.active, hopened.retired, fun p => ?_⟩
    · unfold openLog
      rw [hlegacy]
    · rw [hlegacy]
      change List.Perm _ ((diskEvents env d.dir ++ []).filter p)
      rw [List.append_nil]
      exact hperm p
  | some bytes =>
    obtain ⟨events, w, htext, hw, -⟩ := h.migrated hlegacy
    refine ⟨w, ?_, hw.running, hw.active, hw.retired.trans hopened.retired, fun p => ?_⟩
    · unfold openLog
      rw [hlegacy]
      dsimp only
      rw [htext]
      dsimp only
      rw [hw.done]
    · have hlog : legacyLog parseLine d.legacy = events := by
        unfold legacyLog
        rw [hlegacy, Option.bind_some, htext]
        rfl
      rw [hlog]
      refine (hw.contents.filter p).trans ?_
      rw [List.filter_append, List.filter_append]
      exact (hperm p).append_right _

theorem crashAt_append (xs ys : List Effect) (k n : Nat) (d : WalFiles) :
    crashAt (xs ++ ys) k n d =
      if k < xs.length then crashAt xs k n d
      else crashAt ys (k - xs.length) n (xs.foldl Effect.apply d) := by
  unfold crashAt
  split
  next hk =>
    rw [List.take_append_of_le_length hk.le, List.getElem?_append_left hk]
  next hk =>
    have hle := Nat.not_lt.mp hk
    rw [List.take_append, List.take_of_length_le hle, List.foldl_append,
      List.getElem?_append_right hle]

theorem headerDone_append {xs ys : List Effect} (h : CrashRun.headerDone (xs ++ ys) = true) :
    CrashRun.headerDone ys = true ∨ ys = [] := by
  cases ys with
  | nil => exact .inr rfl
  | cons y ys =>
    refine .inl ?_
    unfold CrashRun.headerDone at *
    rw [List.getLast?_append_of_ne_nil _ (List.cons_ne_nil y ys)] at h
    exact h

/-- What a crash in a migration leaves. -/
theorem crash_migrate {w' : FileWal} {es : List BufferedEvent} (h : Running env w)
    (hnone : w.active = none) (hempty : ∀ k : Nat, w.dir[k]? = none)
    (hframes : ∀ e ∈ es, (encodeFrame env e).isSome) (hw : Migrated env w es w') {j n : Nat}
    (hcut : cutsShortAt (migrateEffects env w es) j n = true)
    (hheader : CrashRun.headerDone ((migrateEffects env w es).take j) = true)
    (hmoved : ((migrateEffects env w es).take j).any Effect.isFrame = true →
      ((migrateEffects env w es).take j).any Effect.isRetire = true) (legacy : Option Bytes) :
    crashAt (migrateEffects env w es) j n ⟨w.dir, legacy⟩ = ⟨w'.dir, none⟩ ∨
      ∃ dir, crashAt (migrateEffects env w es) j n ⟨w.dir, legacy⟩ = ⟨dir, legacy⟩ ∧
        ∀ p, Keeps env p w.dir dir := by
  have hstay : ∀ p, Keeps env p w.dir w.dir := fun p => .refl h.sound.files
  by_cases hall : (migrateEffects env w es).length ≤ j
  · exact .inl (by rw [crashAt_all hall, hw.effects])
  refine .inr ?_
  -- the rename is the last step
  have hnoRetire : ((migrateEffects env w es).take j).any Effect.isRetire = false := by
    obtain ⟨before, hbefore, hbare⟩ := hw.last
    rw [hbefore] at hall ⊢
    rw [List.length_append, List.length_singleton] at hall
    rw [List.take_append_of_le_length (by omega), List.any_eq_false]
    intro x hx
    rw [List.any_eq_false] at hbare
    exact hbare x (List.mem_of_mem_take hx)
  have hnoFrame : ((migrateEffects env w es).take j).any Effect.isFrame = false := by
    cases hf : ((migrateEffects env w es).take j).any Effect.isFrame with
    | false => rfl
    | true =>
      rw [hmoved hf] at hnoRetire
      cases hnoRetire
  cases es with
  | nil =>
    have heffects : migrateEffects env w [] = [.retire] := by
      rw [migrateEffects, h.busy.closeEffects_eq]
      rfl
    rw [heffects] at hall ⊢
    rw [List.length_singleton] at hall
    obtain rfl : j = 0 := by omega
    exact ⟨_, rfl, hstay⟩
  | cons e es =>
    obtain ⟨f, hf⟩ := Option.isSome_iff_exists.mp (hframes e List.mem_cons_self)
    have hfirst : w.appendEffects env e = [.create e.seq, .header e.seq, .frame e.seq f] := by
      have hcase := @append_cases env w h.busy e
      generalize w.append env removes none e = out at hcase
      generalize w.appendEffects env e = effects at hcase
      cases hcase with
      | tooLarge hlarge =>
        rw [hf] at hlarge
        cases hlarge
      | taken _ _ _ htaken => exact absurd (hempty e.seq) htaken
      | room _ a _ ha =>
        have hactive := ha.1
        rw [hnone] at hactive
        cases hactive
      | fresh f' hf' =>
        rw [hf] at hf'
        cases hf'
        rfl
    have hlen : (w.appendEffects env e).length = 3 := by
      rw [hfirst]
      rfl
    rw [migrateEffects] at hcut hheader hnoFrame ⊢
    by_cases hj : j < 3
    · have hin : j < (w.appendEffects env e).length := hlen ▸ hj
      unfold cutsShortAt at hcut
      rw [List.getElem?_append_left hin] at hcut
      rw [List.take_append_of_le_length hin.le] at hheader
      rw [crashAt_append, if_pos hin]
      rcases crash_append h hcut hheader legacy with ⟨hout, -⟩ | ⟨-, hdir⟩
      · exact absurd hin (Nat.not_lt.mpr hout)
      · exact hdir
    · -- the first frame would be written
      obtain ⟨j, rfl⟩ : ∃ i, j = i + 3 := ⟨j - 3, by omega⟩
      rw [hfirst] at hnoFrame
      cases hnoFrame

/-- What a crash in `open` leaves: all of it, or a disk with the same events. -/
theorem crash_open (h : Openable env parseLine segmentBytes d) {k n : Nat}
    (hcut : cutsShortAt (openLogEffects env parseLine segmentBytes d) k n = true)
    (hheader : CrashRun.headerDone ((openLogEffects env parseLine segmentBytes d).take k) = true)
    (hmoved :
      CrashRun.movedAllOrNone ((openLogEffects env parseLine segmentBytes d).take k) = true) :
    crashAt (openLogEffects env parseLine segmentBytes d) k n d =
        (openLog env parseLine segmentBytes d).1 ∨
      ∃ dir, crashAt (openLogEffects env parseLine segmentBytes d) k n d = ⟨dir, d.legacy⟩ ∧
        ∀ p, Keeps env p d.dir dir := by
  obtain ⟨hrun, hkeeps⟩ := Running.scan h.files h.named segmentBytes
  have hopened := @scanDir_spec env removes d.dir h.files segmentBytes
  have hscan : ((emptyFiles env d.dir.toList).map Effect.unlink).foldl Effect.apply d =
      ⟨(scanDir env removes segmentBytes d.dir).dir, d.legacy⟩ := by
    rw [applyAll_unlink]
    congr 1
    exact (scanFiles_dir d.dir.toList ⟨d.dir, max segmentBytes (64 * 1024), [], none, 0, 0⟩).symm
  unfold openLogEffects at hcut hheader hmoved ⊢
  rw [crashAt_append]
  split
  next hk =>
    rw [crashAt_unlink]
    refine .inr ⟨_, rfl, fun p => .erase h.files (getElem?_eraseAll _ _) fun name hname => ?_⟩
    rw [emptyFiles_events name (List.mem_of_mem_take hname)]
    rfl
  next hk =>
    have hle := Nat.not_lt.mp hk
    unfold cutsShortAt at hcut
    rw [List.take_append, List.take_of_length_le hle] at hheader hmoved
    rw [List.getElem?_append_right hle] at hcut
    rw [hscan]
    generalize k - ((emptyFiles env d.dir.toList).map Effect.unlink).length = j at hcut hheader hmoved ⊢
    cases hlegacy : d.legacy with
    | none =>
      refine .inr ⟨_, ?_, hkeeps⟩
      exact crashAt_all (Nat.zero_le _) n _
    | some bytes =>
      obtain ⟨events, w, htext, hw, hframes⟩ := h.migrated hlegacy
      have heffects : legacyEffects env parseLine (scanDir env removes segmentBytes d.dir)
          (some bytes) = migrateEffects env (scanDir env removes segmentBytes d.dir) events := by
        unfold legacyEffects
        rw [Option.bind_some, htext]
      have hdone : (openLog env parseLine segmentBytes d).1 = ⟨w.dir, none⟩ := by
        unfold openLog
        rw [hlegacy]
        dsimp only
        rw [htext]
        dsimp only
        rw [hw.done]
      rw [hlegacy, heffects] at hcut hheader hmoved
      rw [heffects, hdone]
      have hbare : ∀ g : Effect → Bool, (∀ name, g (.unlink name) = false) →
          ((emptyFiles env d.dir.toList).map Effect.unlink).any g = false := by
        intro g hg
        rw [List.any_map, List.any_eq_false]
        intro name _
        simp [hg]
      have hmoved' : ((migrateEffects env (scanDir env removes segmentBytes d.dir) events).take
          j).any Effect.isFrame = true → ((migrateEffects env (scanDir env removes segmentBytes
            d.dir) events).take j).any Effect.isRetire = true := by
        intro hframe
        unfold CrashRun.movedAllOrNone at hmoved
        rw [List.any_append, List.any_append, hframe, hbare _ fun _ => rfl,
          hbare _ fun _ => rfl] at hmoved
        simpa using hmoved
      have hheader' : CrashRun.headerDone
          ((migrateEffects env (scanDir env removes segmentBytes d.dir) events).take j) = true := by
        rcases headerDone_append hheader with hys | hnil
        · exact hys
        · rw [hnil]
          rfl
      rcases crash_migrate hrun hopened.active (h.scan_empty hlegacy) hframes hw hcut hheader'
        hmoved' (some bytes) with hfull | ⟨dir, hdir, hsame⟩
      · exact .inl hfull
      · exact .inr ⟨dir, hdir, fun p => (hkeeps p).trans (hsame p)⟩

end

end FileWal

/-! ## Runs -/

namespace CrashRun

open FileWal

variable {env : WalEnv} {parseLine : String → Option BufferedEvent} {segmentBytes : Nat}
  {s s' : CrashRun}

/-- What every crash leaves. -/
structure Kept (env : WalEnv) (parseLine : String → Option BufferedEvent) (segmentBytes : Nat)
    (s : CrashRun) : Prop where
  disk : Openable env parseLine segmentBytes s.files
  contents : (s.past (diskEvents env s.files.dir ++ legacyLog parseLine s.files.legacy)).Perm
    (s.past s.log)
  running : ∀ w, s.wal = some w → s.files = ⟨w.dir, none⟩ ∧ Running env w

variable {w : FileWal}

theorem openable_of_running (h : Running env w) :
    Openable env parseLine segmentBytes ⟨w.dir, none⟩ :=
  ⟨h.sound.files, h.named, fun _ hnone => nomatch hnone⟩

theorem diskEvents_perm (h : Running env w) (p : BufferedEvent → Bool) :
    ((diskEvents env w.dir ++ legacyLog parseLine none).filter p).Perm
      ((w.contents env).filter p) := by
  change ((diskEvents env w.dir ++ []).filter p).Perm _
  rw [List.append_nil]
  exact h.sound.filter_perm (held_segmentsOf h.sound.files) fun _ => rfl

/-- A log is running, with what was promised. -/
theorem Kept.of_running {log : List BufferedEvent} {bound : Nat} {wal : Option FileWal}
    (h : Running env w) (hwal : ∀ v, wal = some v → v = w)
    (hcontents : ((w.contents env).filter fun e => decide (bound < e.seq)).Perm
      (log.filter fun e => decide (bound < e.seq))) :
    Kept env parseLine segmentBytes ⟨⟨w.dir, none⟩, wal, log, bound⟩ := by
  refine ⟨openable_of_running h, (diskEvents_perm h _).trans hcontents, ?_⟩
  intro v hv
  rw [hwal v hv]
  exact ⟨rfl, h⟩

/-- A crash left the events that count. -/
theorem Kept.of_keeps {dir : WalDir} {log : List BufferedEvent} {bound : Nat}
    (h : Running env w) (hkeeps : Keeps env (fun e => decide (bound < e.seq)) w.dir dir)
    (hcontents : ((w.contents env).filter fun e => decide (bound < e.seq)).Perm
      (log.filter fun e => decide (bound < e.seq))) :
    Kept env parseLine segmentBytes ⟨⟨dir, none⟩, none, log, bound⟩ := by
  refine ⟨⟨hkeeps.files, hkeeps.named h.named, fun _ hnone => nomatch hnone⟩, ?_,
    fun _ hnone => nomatch hnone⟩
  change ((diskEvents env dir ++ []).filter _).Perm _
  rw [List.append_nil]
  exact (hkeeps.perm h.sound (held_segmentsOf hkeeps.files)).trans hcontents

theorem filter_past {xs ys : List BufferedEvent} {bound bound' : Nat} (hle : bound ≤ bound')
    (h : (xs.filter fun e => decide (bound < e.seq)).Perm (ys.filter fun e => decide (bound < e.seq))) :
    (xs.filter fun e => decide (bound' < e.seq)).Perm
      (ys.filter fun e => decide (bound' < e.seq)) := by
  have hsub : ∀ es : List BufferedEvent,
      (es.filter fun e => decide (bound < e.seq)).filter (fun e => decide (bound' < e.seq)) =
        es.filter fun e => decide (bound' < e.seq) := by
    intro es
    rw [List.filter_filter]
    refine List.filter_congr fun e _ => ?_
    by_cases hb : bound' < e.seq
    · simp [hb, hle.trans_lt hb]
    · simp [hb]
  have := h.filter fun e => decide (bound' < e.seq)
  rw [hsub, hsub] at this
  exact this

theorem Kept.log_perm (h : Kept env parseLine segmentBytes s) (hwal : s.wal = some w) :
    ((w.contents env).filter fun e => decide (s.bound < e.seq)).Perm
      (s.log.filter fun e => decide (s.bound < e.seq)) := by
  obtain ⟨hfiles, hrun⟩ := h.running w hwal
  have hcontents := h.contents
  rw [hfiles] at hcontents
  exact (diskEvents_perm hrun _).symm.trans hcontents

theorem Kept.reopens (h : Kept env parseLine segmentBytes s) :
    Reopens env parseLine segmentBytes s := by
  obtain ⟨w, hw⟩ := openLog_spec h.disk
  obtain ⟨events, hrecover, hperm⟩ := recover_eq hw.running.sound
  refine ⟨w, by rw [hw.done], ?_, events, hrecover, ?_⟩
  · intro e he hseq
    have hcase := @append_cases env w hw.running.busy e
    generalize w.append env removes none e = out at hcase ⊢
    generalize w.appendEffects env e = effects at hcase
    cases hcase with
    | tooLarge hlarge =>
      rw [hlarge] at he
      cases he
    | taken _ _ _ htaken => exact absurd (hw.running.fresh hseq) htaken
    | room => rfl
    | fresh => rfl
  · refine (hperm.filter _).trans ?_
    have hall : ((w.contents env).filter fun e => decide (w.retiredUpTo < e.seq)).filter
        (fun e => decide (s.bound < e.seq)) =
          (w.contents env).filter fun e => decide (s.bound < e.seq) := by
      rw [List.filter_filter, hw.retired]
      refine List.filter_congr fun e _ => ?_
      by_cases hb : s.bound < e.seq
      · simp [hb, (Nat.zero_le _).trans_lt hb]
      · simp [hb]
    rw [hall]
    exact (hw.contents _).trans h.contents

theorem kept_start {legacy : Option Bytes} (h : ∀ bytes, legacy = some bytes →
    ∃ events, Movable env parseLine segmentBytes bytes events) :
    Kept env parseLine segmentBytes (start parseLine legacy) := by
  have hnone : ∀ name : Nat, (∅ : WalDir)[name]? = none := fun _ => ExtTreeMap.getElem?_empty
  have hevents : ∀ name, eventsAt env (∅ : WalDir) name = [] := fun name => eventsAt_none (hnone name)
  refine ⟨⟨?_, ?_, fun bytes hbytes => ⟨hevents, h bytes hbytes⟩⟩, List.Perm.refl _,
    fun _ hw => nomatch hw⟩
  · intro name bytes hbytes
    change (∅ : WalDir)[name]? = _ at hbytes
    rw [hnone] at hbytes
    cases hbytes
  · intro name hne
    exact absurd (hevents name) hne

/-- What one operation keeps, and one that a crash ends. -/
theorem kept_step {a : CrashAct env} (h : Kept env parseLine segmentBytes s)
    (hsafe : Safe env parseLine segmentBytes s a)
    (hstep : s.step env parseLine segmentBytes a = some s') :
    Kept env parseLine segmentBytes s' := by
  cases a with
  | reopen =>
    rw [step] at hstep
    split at hstep
    · cases hstep
    · obtain ⟨w, hw⟩ := openLog_spec h.disk
      rw [hw.done] at hstep
      cases hstep
      exact .of_running hw.running (fun v hv => (Option.some.inj hv).symm)
        ((hw.contents _).trans h.contents)
  | append e =>
    obtain ⟨w, hw, rfl⟩ := Option.map_eq_some_iff.mp hstep
    obtain ⟨hfiles, hrun⟩ := h.running w hw
    obtain ⟨hrun', hperm⟩ := hrun.append e.2
    rw [hfiles]
    refine .of_running hrun' (fun v hv => (Option.some.inj hv).symm) ?_
    refine (hperm.filter _).trans ?_
    rw [List.filter_append, List.filter_append]
    exact (h.log_perm hw).append_right _
  | truncate upToSeq =>
    obtain ⟨w, hw, rfl⟩ := Option.map_eq_some_iff.mp hstep
    obtain ⟨hfiles, hrun⟩ := h.running w hw
    obtain ⟨hrun', hkeeps⟩ := hrun.truncate upToSeq
    rw [hfiles]
    refine .of_running hrun' (fun v hv => (Option.some.inj hv).symm) ?_
    have hsame := (hkeeps _ (Nat.le_max_right s.bound upToSeq)).perm hrun.sound hrun'.sound
    exact hsame.trans (filter_past (Nat.le_max_left _ _) (h.log_perm hw))
  | crash =>
    obtain ⟨w, hw, rfl⟩ := Option.map_eq_some_iff.mp hstep
    exact ⟨h.disk, h.contents, fun _ hnone => nomatch hnone⟩
  | crashInOpen k n =>
    rw [step] at hstep
    split at hstep
    · cases hstep
    next hwal =>
      split at hstep
      next hcut =>
        cases hstep
        have hstopped : ∀ v, s.wal = some v → False := by
          intro v hv
          rw [hwal] at hv
          cases hv
        obtain ⟨w, hw⟩ := openLog_spec h.disk
        rcases crash_open h.disk hcut hsafe.1 hsafe.2 with hall | ⟨dir, hdir, hkeeps⟩
        · have hfiles : crashAt (openLogEffects env parseLine segmentBytes s.files) k n s.files =
              ⟨w.dir, none⟩ := by rw [hall, hw.done]
          rw [hfiles]
          exact .of_running hw.running (fun v hv => (hstopped v hv).elim)
            ((hw.contents _).trans h.contents)
        · rw [hdir]
          refine ⟨⟨(hkeeps fun _ => true).files, (hkeeps fun _ => true).named h.disk.named, ?_⟩, ?_,
            fun v hv => (hstopped v hv).elim⟩
          · intro bytes hbytes
            refine ⟨fun name => ?_, (h.disk.legacy bytes hbytes).2⟩
            rcases (hkeeps fun _ => true).events name with heq | ⟨hnil, -⟩
            · rw [heq]
              exact (h.disk.legacy bytes hbytes).1 name
            · exact hnil
          · refine List.Perm.trans ?_ h.contents
            unfold past
            rw [List.filter_append, List.filter_append]
            exact ((hkeeps _).perm (held_segmentsOf h.disk.files)
              (held_segmentsOf (hkeeps fun _ => true).files)).append_right _
      next => cases hstep
  | crashInAppend e k n =>
    obtain ⟨w, hw, hcrash⟩ := Option.bind_eq_some_iff.mp hstep
    obtain ⟨hfiles, hrun⟩ := h.running w hw
    dsimp only at hcrash
    split at hcrash
    next hcut =>
      cases hcrash
      rw [hfiles]
      rcases crash_append hrun hcut (hsafe w hw) none with ⟨hk, hall⟩ | ⟨hk, dir, hdir, hkeeps⟩
      · obtain ⟨hrun', hperm⟩ := hrun.append e.2
        rw [hall]
        refine .of_running hrun' (fun _ hnone => nomatch hnone) ?_
        refine (hperm.filter _).trans ?_
        rw [decide_eq_true hk, Bool.and_true, List.filter_append, List.filter_append]
        exact (h.log_perm hw).append_right _
      · rw [hdir, decide_eq_false (Nat.not_le.mpr hk), Bool.and_false]
        refine .of_keeps hrun (hkeeps _) ?_
        change List.Perm _ ((s.log ++ []).filter _)
        rw [List.append_nil]
        exact h.log_perm hw
    next => cases hcrash
  | crashInTruncate upToSeq k =>
    obtain ⟨w, hw, rfl⟩ := Option.map_eq_some_iff.mp hstep
    obtain ⟨hfiles, hrun⟩ := h.running w hw
    obtain ⟨dir, hdir, hkeeps⟩ := crash_truncate hrun upToSeq k none
    rw [hfiles, hdir]
    exact .of_keeps hrun (hkeeps _ (Nat.le_max_right _ _))
      (filter_past (Nat.le_max_left _ _) (h.log_perm hw))

end CrashRun

/-- Lines that name the row of a deletion. -/
def deletionLine (line : String) : Option BufferedEvent :=
  match line with
  | "a" => some (deletion 1 "t:a")
  | "b" => some (deletion 2 "t:b")
  | _ => none

/-- A log of the previous format with two events. -/
def twoLines : Bytes := strBytes "a\nb\n"

/-- A migration that is ended in its first frame and run again, and an append that is ended in its
    frame. -/
def crashing : List (CrashAct deletesEnv) :=
  [.crashInOpen 2 10, .reopen, .crashInAppend deleteC 2 10, .reopen, .append deleteC]

/-- An append that is ended in the header of its segment. -/
def cutHeader : List (CrashAct deletesEnv) := [.reopen, .crashInAppend deleteA 1 5]

/-- From a new directory with any log of the previous format that can be moved: whatever is done and
    wherever it crashes, save in the two places, the log opens again, takes an event with a new
    number, and has every durable event past the truncations, once. -/
theorem reopens_after_crashes (env : WalEnv) (parseLine : String → Option BufferedEvent)
    (segmentBytes : Nat) (legacy : Option Bytes) (hlegacy : ∀ bytes, legacy = some bytes →
      ∃ events, Movable env parseLine segmentBytes bytes events)
    (s : CrashRun) (h : Run (CrashRun.step env parseLine segmentBytes)
      (CrashRun.Safe env parseLine segmentBytes) (CrashRun.start parseLine legacy) s) :
    CrashRun.Reopens env parseLine segmentBytes s :=
  (h.invariant (P := CrashRun.Kept env parseLine segmentBytes) (CrashRun.kept_start hlegacy)
    fun _ _ _ hkept hsafe hstep => CrashRun.kept_step hkept hsafe hstep).reopens

/-- The run in which a migration is ended in its first frame and run again, and an append is ended
    in its frame: both old events and the new one are there. -/
theorem reopens_after_crashing : ∃ s,
    runAll (CrashRun.step deletesEnv deletionLine 0)
        (fun s a => decide (CrashRun.Safe deletesEnv deletionLine 0 s a))
        (CrashRun.start deletionLine (some twoLines)) crashing = some s ∧
      s.log.map BufferedEvent.seq = [1, 2, 3] ∧ CrashRun.Reopens deletesEnv deletionLine 0 s := by
  have hview : (runAll (CrashRun.step deletesEnv deletionLine 0)
      (fun s a => decide (CrashRun.Safe deletesEnv deletionLine 0 s a))
      (CrashRun.start deletionLine (some twoLines)) crashing).map
        (fun s => s.log.map BufferedEvent.seq) = some [1, 2, 3] := by decide +kernel
  obtain ⟨s, hs, hlog⟩ := Option.map_eq_some_iff.mp hview
  have hmovable : Movable deletesEnv deletionLine 0 twoLines
      [deletion 1 "t:a", deletion 2 "t:b"] := by
    have hlines : "a\nb\n".toList.splitOn '\n' = [['a'], ['b'], []] := by decide +kernel
    refine ⟨?_, ?_, by decide +kernel⟩
    · unfold FileWal.legacyEvents twoLines
      rw [strOf_strBytes, Option.map_some, hlines]
      rfl
    · intro e he
      rcases List.mem_cons.mp he with rfl | he
      · exact ⟨deleteA.2, by decide +kernel⟩
      · rw [List.mem_singleton.mp he]
        exact ⟨deleteB.2, by decide +kernel⟩
  refine ⟨s, hs, hlog, reopens_after_crashes deletesEnv deletionLine 0 (some twoLines) ?_ s
    ((run_of_runAll hs).mono fun _ _ hok => of_decide_eq_true hok)⟩
  rintro bytes ⟨⟩
  exact ⟨_, hmovable⟩

/-- The file with the cut header is left in place, and the next append under its number fails. -/
theorem cut_header_blocks_append : ¬ ∀ (env : WalEnv) (parseLine : String → Option BufferedEvent)
    (segmentBytes : Nat) (legacy : Option Bytes) (s : CrashRun),
    Run (CrashRun.step env parseLine segmentBytes) (fun _ _ => True)
        (CrashRun.start parseLine legacy) s → CrashRun.Reopens env parseLine segmentBytes s := by
  intro hall
  have hview : (runAll (CrashRun.step deletesEnv deletionLine 0) (fun _ _ => true)
      (CrashRun.start deletionLine none) cutHeader).map (fun s =>
        (FileWal.openLog deletesEnv deletionLine 0 s.files).2.map fun w =>
          (w.lastSeq, (w.append deletesEnv removes none deleteA.1).2)) = some (some (0, false)) := by
    decide +kernel
  obtain ⟨s, hs, hopened⟩ := Option.map_eq_some_iff.mp hview
  obtain ⟨w, hw, happend⟩ := Option.map_eq_some_iff.mp hopened
  obtain ⟨hlast, hfails⟩ := Prod.mk.injEq .. ▸ happend
  obtain ⟨w', hw', htakes, -⟩ := hall deletesEnv deletionLine 0 none s
    (freeRun hs)
  rw [hw] at hw'
  cases hw'
  have := htakes deleteA.1 (by decide +kernel) (by rw [hlast]; decide)
  rw [hfails] at this
  cases this

end Sp00ky.Scheduler
