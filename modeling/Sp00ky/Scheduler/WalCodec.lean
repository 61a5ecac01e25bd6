/-
  Frames and segments of the write-ahead log, byte by byte (`apps/scheduler/src/wal.rs`).

  A segment is a header and frames: a length, a checksum and a payload. A scan stops at the first
  frame that does not check out. Frames written whole are read back, and what is left of a frame
  that was cut short stops the scan (`scanSegment_written`). The checksum and the JSON text of a
  record are libraries' and stay parameters.
-/
import Mathlib.Data.List.Forall2
import Sp00ky.Lib.Bytes
import Sp00ky.Scheduler.Wal

namespace Sp00ky.Scheduler

open Lib Ssp

/-- `crc32fast::hash`, `serde_json::to_vec` and `serde_json::from_slice`. -/
structure WalEnv where
  crc32 : Bytes → BitVec 32
  print : Json → Bytes
  parse : Bytes → Option Json

/-! ## Reading from the front -/

/-- The first `n` bytes and the rest. -/
def cut (n : Nat) (bs : Bytes) : Option (Bytes × Bytes) :=
  if n ≤ bs.length then some (bs.take n, bs.drop n) else none

/-- A little-endian number of `n` bytes and the rest. -/
def cutNat (n : Nat) (bs : Bytes) : Option (Nat × Bytes) :=
  (cut n bs).map fun p => (leNat p.1, p.2)

theorem cut_append {n : Nat} {x : Bytes} (h : x.length = n) (rest : Bytes) :
    cut n (x ++ rest) = some (x, rest) := by
  subst h
  unfold cut
  rw [if_pos (by rw [List.length_append]; omega), List.take_left, List.drop_left]

theorem cutNat_leBytes {w n : Nat} (h : n < 256 ^ w) (rest : Bytes) :
    cutNat w (leBytes w n ++ rest) = some (n, rest) := by
  unfold cutNat
  rw [cut_append (length_leBytes w n), Option.map_some, leNat_leBytes_of_lt h]

/-- One step of a reader that succeeds. -/
theorem bind_of_eq {α β : Type} {x : Option α} {a : α} (h : x = some a) (f : α → Option β) :
    x >>= f = f a := by
  rw [h]
  rfl

/-! ## Frames -/

/-- `MAX_FRAME`. -/
def maxFrame : Nat := 64 * 2 ^ 20

/-- `FRAME_HEADER_LEN`. -/
def frameHeaderLen : Nat := 8

def opByte : RecordOp → Nat
  | .create => 0
  | .update => 1
  | .delete => 2

def opOfByte : Nat → Option RecordOp
  | 0 => some .create
  | 1 => some .update
  | 2 => some .delete
  | _ => none

/-- The text of an event's record. -/
def dataBytes (env : WalEnv) (e : BufferedEvent) : Bytes :=
  match e.update.data with
  | some value => env.print value
  | none => []

/-- The payload of a frame. -/
def encodePayload (env : WalEnv) (e : BufferedEvent) : Bytes :=
  leBytes 8 e.seq ++ leBytes 8 e.receivedAt ++ leBytes 8 e.versionstamp ++
    leBytes 1 (opByte e.update.operation) ++
    leBytes 2 (strBytes e.update.table).length ++ strBytes e.update.table ++
    leBytes 4 (strBytes e.update.recordId).length ++ strBytes e.update.recordId ++
    leBytes 1 (if e.update.data.isSome then 1 else 0) ++
    leBytes 4 (dataBytes env e).length ++ dataBytes env e

/-- `encode_frame`: none when a part is too long for its length field. -/
def encodeFrame (env : WalEnv) (e : BufferedEvent) : Option Bytes :=
  let payload := encodePayload env e
  if 2 ^ 16 ≤ (strBytes e.update.table).length then none
  else if 2 ^ 32 ≤ (strBytes e.update.recordId).length then none
  else if 2 ^ 32 ≤ (dataBytes env e).length then none
  else if maxFrame < payload.length then none
  else some (leBytes 4 payload.length ++ leBytes 4 (env.crc32 payload).toNat ++ payload)

/-- The record of a payload, by the byte that says whether there is one. -/
def dataOf (env : WalEnv) (hasData : Nat) (text : Bytes) : Option (Option Json) :=
  match hasData with
  | 0 => some none
  | 1 => (env.parse text).map some
  | _ => none

/-- `decode_payload`. -/
def decodePayload (env : WalEnv) (payload : Bytes) : Option BufferedEvent := do
  let (seq, r) ← cutNat 8 payload
  let (receivedAt, r) ← cutNat 8 r
  let (versionstamp, r) ← cutNat 8 r
  let (op, r) ← cutNat 1 r
  let operation ← opOfByte op
  let (tableLen, r) ← cutNat 2 r
  let (table, r) ← cut tableLen r
  let table ← strOf table
  let (idLen, r) ← cutNat 4 r
  let (recordId, r) ← cut idLen r
  let recordId ← strOf recordId
  let (hasData, r) ← cutNat 1 r
  let (dataLen, r) ← cutNat 4 r
  let (text, r) ← cut dataLen r
  if r ≠ [] then none
  else
    let data ← dataOf env hasData text
    some ⟨seq, ⟨table, operation, recordId, data, seq, none⟩, receivedAt, versionstamp⟩

/-- An event as the log can hold it: 64-bit numbers, the version that is its number, no assignee,
    and a record whose text is read back. -/
structure Loggable (env : WalEnv) (e : BufferedEvent) : Prop where
  seq : e.seq < 2 ^ 64
  receivedAt : e.receivedAt < 2 ^ 64
  versionstamp : e.versionstamp < 2 ^ 64
  version : e.update.version = e.seq
  assignee : e.update.jobAssignee = none
  data : ∀ value, e.update.data = some value → env.parse (env.print value) = some value

/-- The events the log takes. -/
def LogEvent (env : WalEnv) : Type := { e : BufferedEvent // Loggable env e }

theorem opOfByte_opByte (op : RecordOp) : opOfByte (opByte op) = some op := by
  cases op <;> rfl

variable {env : WalEnv} {e : BufferedEvent}

theorem decodePayload_encodePayload (h : Loggable env e)
    (htable : (strBytes e.update.table).length < 2 ^ 16)
    (hid : (strBytes e.update.recordId).length < 2 ^ 32)
    (hdata : (dataBytes env e).length < 2 ^ 32) :
    decodePayload env (encodePayload env e) = some e := by
  have hop : opByte e.update.operation < 256 ^ 1 := by
    cases e.update.operation <;> decide
  have hflag : (if e.update.data.isSome then 1 else 0) < 256 ^ 1 := by split <;> decide
  have hread : dataOf env (if e.update.data.isSome then 1 else 0) (dataBytes env e) =
      some e.update.data := by
    unfold dataOf dataBytes
    cases hd : e.update.data with
    | none => rfl
    | some value =>
      simp only [Option.isSome_some, if_true, h.data value hd, Option.map_some]
  have hsplit : encodePayload env e = leBytes 8 e.seq ++ (leBytes 8 e.receivedAt ++
      (leBytes 8 e.versionstamp ++ (leBytes 1 (opByte e.update.operation) ++
        (leBytes 2 (strBytes e.update.table).length ++ (strBytes e.update.table ++
          (leBytes 4 (strBytes e.update.recordId).length ++ (strBytes e.update.recordId ++
            (leBytes 1 (if e.update.data.isSome then 1 else 0) ++
              (leBytes 4 (dataBytes env e).length ++ (dataBytes env e ++ [])))))))))) := by
    unfold encodePayload
    simp only [List.append_assoc, List.append_nil]
  have hevent : (⟨e.seq, ⟨e.update.table, e.update.operation, e.update.recordId, e.update.data, e.seq,
      none⟩, e.receivedAt, e.versionstamp⟩ : BufferedEvent) = e := by
    have hupdate : (⟨e.update.table, e.update.operation, e.update.recordId, e.update.data,
        e.update.version, e.update.jobAssignee⟩ : RecordUpdate) = e.update := rfl
    rw [h.version, h.assignee] at hupdate
    rw [hupdate]
  have hseq : e.seq < 256 ^ 8 := h.seq
  have hreceived : e.receivedAt < 256 ^ 8 := h.receivedAt
  have hstamp : e.versionstamp < 256 ^ 8 := h.versionstamp
  have htable' : (strBytes e.update.table).length < 256 ^ 2 := htable
  have hid' : (strBytes e.update.recordId).length < 256 ^ 4 := hid
  have hdata' : (dataBytes env e).length < 256 ^ 4 := hdata
  rw [hsplit]
  unfold decodePayload
  refine (bind_of_eq (cutNat_leBytes hseq _) _).trans ?_
  refine (bind_of_eq (cutNat_leBytes hreceived _) _).trans ?_
  refine (bind_of_eq (cutNat_leBytes hstamp _) _).trans ?_
  refine (bind_of_eq (cutNat_leBytes hop _) _).trans ?_
  refine (bind_of_eq (opOfByte_opByte _) _).trans ?_
  refine (bind_of_eq (cutNat_leBytes htable' _) _).trans ?_
  refine (bind_of_eq (cut_append rfl _) _).trans ?_
  refine (bind_of_eq (strOf_strBytes _) _).trans ?_
  refine (bind_of_eq (cutNat_leBytes hid' _) _).trans ?_
  refine (bind_of_eq (cut_append rfl _) _).trans ?_
  refine (bind_of_eq (strOf_strBytes _) _).trans ?_
  refine (bind_of_eq (cutNat_leBytes hflag _) _).trans ?_
  refine (bind_of_eq (cutNat_leBytes hdata' _) _).trans ?_
  refine (bind_of_eq (cut_append rfl _) _).trans ?_
  dsimp only
  rw [if_neg (not_not.mpr rfl)]
  refine (bind_of_eq hread _).trans ?_
  rw [hevent]

/-! ## Segments -/

/-- `SEGMENT_MAGIC`. -/
def segmentMagic : Bytes := strBytes "SPKYWAL1"

/-- The header of the segment that starts at a number. -/
def segmentHeader (firstSeq : Nat) : Bytes := segmentMagic ++ leBytes 8 firstSeq

/-- The frames of a segment, and whether the scan stopped before its end. -/
def scanFrames (env : WalEnv) : Nat → Bytes → List BufferedEvent × Bool
  | 0, bs => ([], !bs.isEmpty)
  | fuel + 1, bs =>
    if bs.isEmpty then ([], false)
    else
      match cut frameHeaderLen bs with
      | none => ([], true)
      | some (header, r) =>
        if maxFrame < leNat (header.take 4) then ([], true)
        else
          match cut (leNat (header.take 4)) r with
          | none => ([], true)
          | some (payload, rest) =>
            if (env.crc32 payload).toNat ≠ leNat (header.drop 4) then ([], true)
            else
              match decodePayload env payload with
              | none => ([], true)
              | some e => (e :: (scanFrames env fuel rest).1, (scanFrames env fuel rest).2)

/-- `scan_segment`: none for a file that is no segment. -/
def scanSegment (env : WalEnv) (bytes : Bytes) : Option (List BufferedEvent × Bool) :=
  if bytes.length < EventWal.segmentHeaderLen ∨ bytes.take 8 ≠ segmentMagic then none
  else some (scanFrames env bytes.length (bytes.drop EventWal.segmentHeaderLen))

variable {f bytes payload : Bytes}

/-- The header of a frame. -/
def frameHeader (env : WalEnv) (payload : Bytes) : Bytes :=
  leBytes 4 payload.length ++ leBytes 4 (env.crc32 payload).toNat

theorem length_frameHeader : (frameHeader env payload).length = frameHeaderLen := by
  rw [frameHeader, List.length_append, length_leBytes, length_leBytes]
  rfl

/-- The length field of a frame. -/
theorem frameHeader_length (h : payload.length ≤ maxFrame) :
    leNat ((frameHeader env payload).take 4) = payload.length := by
  unfold maxFrame at h
  rw [frameHeader, List.take_left' (length_leBytes _ _), leNat_leBytes_of_lt (by omega)]

/-- The checksum field of a frame. -/
theorem frameHeader_crc :
    leNat ((frameHeader env payload).drop 4) = (env.crc32 payload).toNat := by
  rw [frameHeader, List.drop_left' (length_leBytes _ _),
    leNat_leBytes_of_lt (env.crc32 payload).isLt]

/-- The parts of a frame. -/
theorem encodeFrame_some (h : encodeFrame env e = some f) :
    f = frameHeader env (encodePayload env e) ++ encodePayload env e ∧
      (strBytes e.update.table).length < 2 ^ 16 ∧ (strBytes e.update.recordId).length < 2 ^ 32 ∧
      (dataBytes env e).length < 2 ^ 32 ∧ (encodePayload env e).length ≤ maxFrame := by
  unfold encodeFrame at h
  dsimp only at h
  split at h
  next => cases h
  next h1 =>
    split at h
    next => cases h
    next h2 =>
      split at h
      next => cases h
      next h3 =>
        split at h
        next => cases h
        next h4 =>
          cases h
          exact ⟨rfl, by omega, by omega, by omega, by omega⟩

theorem length_frame
    (h : encodeFrame env e = some f) : f.length = 8 + (encodePayload env e).length := by
  rw [(encodeFrame_some h).1, List.length_append, length_frameHeader]
  rfl

/-- A whole frame is read, and the scan goes on behind it. -/
theorem scanFrames_frame (hl : Loggable env e)
    (h : encodeFrame env e = some f) (fuel : Nat) (rest : Bytes) :
    scanFrames env (fuel + 1) (f ++ rest) =
      (e :: (scanFrames env fuel rest).1, (scanFrames env fuel rest).2) := by
  obtain ⟨hf, h1, h2, h3, h4⟩ := encodeFrame_some h
  have hne : (f ++ rest).isEmpty = false := by
    rw [List.isEmpty_eq_false_iff]
    intro hnil
    have := congrArg List.length hnil
    rw [List.length_append, length_frame h, List.length_nil] at this
    omega
  rw [scanFrames, hne, hf, List.append_assoc, cut_append length_frameHeader]
  simp only [frameHeader_length h4, frameHeader_crc, cut_append rfl,
    decodePayload_encodePayload hl h1 h2 h3]
  simp [Nat.not_lt.mpr h4]

/-- A frame that was cut short stops the scan. -/
theorem scanFrames_torn
    (h : encodeFrame env e = some f) {n : Nat} (hn : n < f.length) (fuel : Nat) :
    scanFrames env (fuel + 1) (f.take n) = ([], !(f.take n).isEmpty) := by
  obtain ⟨hf, -, -, -, h4⟩ := encodeFrame_some h
  have hflen := length_frame h
  have htlen : (f.take n).length = n := by
    rw [List.length_take]
    omega
  rw [scanFrames]
  cases hempty : (f.take n).isEmpty with
  | true => rfl
  | false =>
    rw [if_neg (by decide)]
    by_cases hshort : n < 8
    · have hcut : cut frameHeaderLen (f.take n) = none := by
        unfold cut frameHeaderLen
        rw [if_neg (by omega)]
      rw [hcut]
      rfl
    · have hsplit : f.take n = frameHeader env (encodePayload env e) ++
          (encodePayload env e).take (n - 8) := by
        rw [hf, List.take_append, length_frameHeader,
          List.take_of_length_le (by rw [length_frameHeader]; exact Nat.not_lt.mp hshort)]
        rfl
      have hcut : cut (encodePayload env e).length ((encodePayload env e).take (n - 8)) = none := by
        unfold cut
        rw [List.length_take, if_neg (by omega)]
      rw [hsplit, cut_append length_frameHeader]
      simp only [frameHeader_length h4, hcut]
      rw [if_neg (by omega)]
      rfl

/-! ## Files of whole frames -/

/-- An event the log can hold, with its frame. -/
structure Framed (env : WalEnv) (e : BufferedEvent) (f : Bytes) : Prop where
  loggable : Loggable env e
  frame : encodeFrame env e = some f

/-- What a failed or interrupted write leaves of a frame; nothing at all when it wrote nothing. -/
def Torn (env : WalEnv) (tail : Bytes) : Prop :=
  ∃ e f n, encodeFrame env e = some f ∧ n < f.length ∧ tail = f.take n

/-- A segment file: a header, whole frames and what is left of another. -/
structure Written (env : WalEnv) (bytes : Bytes) (es : List BufferedEvent) (tail : Bytes) :
    Prop where
  torn : tail = [] ∨ Torn env tail
  parts : ∃ n frames, List.Forall₂ (Framed env) es frames ∧
    bytes = segmentHeader n ++ frames.flatten ++ tail

variable {es : List BufferedEvent}

theorem scanFrames_frames {frames : List Bytes}
    (h : List.Forall₂ (Framed env) es frames) {tail : Bytes} (htail : tail = [] ∨ Torn env tail)
    {fuel : Nat} (hfuel : es.length < fuel) :
    scanFrames env fuel (frames.flatten ++ tail) = (es, !tail.isEmpty) := by
  induction h generalizing fuel with
  | nil =>
    obtain ⟨fuel, rfl⟩ : ∃ k, fuel = k + 1 := ⟨fuel - 1, by rw [List.length_nil] at hfuel; omega⟩
    rcases htail with rfl | ⟨e, f, n, hf, hn, rfl⟩
    · rfl
    · exact scanFrames_torn hf hn fuel
  | @cons e f es frames hef _ ih =>
    rw [List.length_cons] at hfuel
    obtain ⟨fuel, rfl⟩ : ∃ k, fuel = k + 1 := ⟨fuel - 1, by omega⟩
    rw [List.flatten_cons, List.append_assoc, scanFrames_frame hef.loggable hef.frame,
      ih (by omega)]

theorem length_le_flatten {frames : List Bytes}
    (h : List.Forall₂ (Framed env) es frames) : es.length ≤ frames.flatten.length := by
  induction h with
  | nil => exact Nat.le_refl _
  | cons hef _ ih =>
    have := length_frame hef.frame
    rw [List.length_cons, List.flatten_cons, List.length_append]
    omega

theorem Written.header (env : WalEnv) (n : Nat) : Written env (segmentHeader n) [] [] :=
  ⟨.inl rfl, n, [], .nil, by simp⟩

/-- A frame behind whole frames. -/
theorem Written.frame (h : Written env bytes es []) (hf : Framed env e f) :
    Written env (bytes ++ f) (es ++ [e]) [] := by
  obtain ⟨-, n, frames, hframes, rfl⟩ := h
  refine ⟨.inl rfl, n, frames ++ [f], List.rel_append hframes (.cons hf .nil), ?_⟩
  simp

/-- What is left of a frame behind whole frames. -/
theorem Written.cutShort (h : Written env bytes es []) (hf : encodeFrame env e = some f)
    {n : Nat} (hn : n < f.length) : Written env (bytes ++ f.take n) es (f.take n) := by
  obtain ⟨-, k, frames, hframes, rfl⟩ := h
  refine ⟨.inr ⟨e, f, n, hf, hn, rfl⟩, k, frames, hframes, ?_⟩
  simp

theorem length_segmentHeader (n : Nat) : (segmentHeader n).length = EventWal.segmentHeaderLen := by
  unfold segmentHeader
  rw [List.length_append, length_leBytes]
  rfl

/-- A segment gives its whole frames, and says whether something is left behind them. -/
theorem scanSegment_written {tail : Bytes}
    (h : Written env bytes es tail) : scanSegment env bytes = some (es, !tail.isEmpty) := by
  obtain ⟨htail, n, frames, hframes, rfl⟩ := h
  have hlen := length_segmentHeader n
  have hle := length_le_flatten hframes
  have hmagic : (segmentHeader n ++ frames.flatten ++ tail).take 8 = segmentMagic := by
    unfold segmentHeader
    rw [List.append_assoc, List.append_assoc]
    exact List.take_left' rfl
  have hdrop : (segmentHeader n ++ frames.flatten ++ tail).drop EventWal.segmentHeaderLen =
      frames.flatten ++ tail := by
    rw [List.append_assoc]
    exact List.drop_left' hlen
  unfold scanSegment
  rw [if_neg, hdrop, scanFrames_frames hframes htail]
  · simp only [List.length_append, hlen]
    unfold EventWal.segmentHeaderLen
    omega
  · rintro (hshort | hother)
    · simp only [List.length_append, hlen] at hshort
      omega
    · exact hother hmagic

end Sp00ky.Scheduler
