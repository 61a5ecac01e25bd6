/-
  Walking the heads of an image: `RowTable::index_heads` for a base and `RowTable::absorb`
  for a delta (`circuit/row_table.rs`).

  What a walk reads and where it stops depends on the bytes alone, never on the table it is
  absorbed into: `walk` is that part, the entries up to the first bad head and the error if
  there is one. The last entry of an id decides its row (`getElem?_applyEntries`).
-/
import Sp00ky.Checkpoint.RowTable

namespace Sp00ky.Checkpoint

open Std Lib Ssp

/-- `BlockError`. -/
inductive BlockError where
  | truncated
  | badRecord (n : Nat)
  | duplicateId (n : Nat)
  | trailingBytes
  | tooManyRows
  | tooLarge
  | badBody (n : Nat)
  | tombstone (n : Nat)
deriving DecidableEq, Repr

/-- The texts of `BlockError`. -/
def BlockError.message : BlockError → String
  | .truncated => "a head runs past the end of the heads"
  | .badRecord n => "record " ++ toString n ++ " has no readable id"
  | .duplicateId n => "record " ++ toString n ++ " carries an id stored twice"
  | .trailingBytes => "bytes after the declared rows"
  | .tooManyRows => "declares more rows than the file holds"
  | .tooLarge => "image too large to map (4 GiB per table)"
  | .badBody n => "record " ++ toString n ++ "'s body is not where the bodies lie"
  | .tombstone n => "record " ++ toString n ++ " is a tombstone"

/-- `Range<usize>`: a region of an image. -/
structure Region where
  start : Nat
  stop : Nat
deriving DecidableEq, Repr

/-- What the walks read of one head. -/
structure HeadRead where
  bytes : Bytes
  id : String
  digest : Digest
  rel : Nat
  len : Nat

/-- The head at `pos`, which is record `n`. -/
def readHead (image : Bytes) (pos headsStop n : Nat) : Except BlockError HeadRead :=
  match (slice image pos headsStop).bind headLen with
  | none => .error .truncated
  | some headLen =>
    let head := (image.drop pos).take headLen
    match headId head, headDigest head, headBodyRel head, headBodyLen head with
    | some id, some digest, some rel, some len => .ok ⟨head, id, digest, rel, len⟩
    | _, _, _, _ => .error (.badRecord n)

/-- The checks both walks start with. -/
def checkRegions (image : Bytes) (heads bodies : Region) (rows : Nat) : Option BlockError :=
  if heads.stop < heads.start ∨ bodies.start < heads.stop ∨ bodies.stop < bodies.start ∨
      image.length < bodies.stop then some .truncated
  else if 2 ^ 32 - 1 < bodies.stop then some .tooLarge
  else if (heads.stop - heads.start) / headMinLen < rows then some .tooManyRows
  else none

/-- A body must start where the one before it ended. -/
def badBody (head : HeadRead) (pos nextBody bodiesStop : Nat) : Bool :=
  decide (head.rel < head.bytes.length) || decide (pos + head.rel ≠ nextBody) ||
    decide (bodiesStop < nextBody + head.len)

/-! ## A base image -/

/-- `IndexedHeads`. -/
structure IndexedHeads where
  index : List Span
  xor : Digest

/-- `id_in`. -/
def idIn (block : Bytes) (slot : Span) : Option String :=
  (slice block slot.off (slot.off + slot.len)).bind headId

/-- The loop of `index_heads`, with `count` heads to go. -/
def indexLoop (block : Bytes) (heads bodies : Region) (seg : Nat) :
    Nat → Nat → Nat → Nat → IndexedHeads → Except BlockError IndexedHeads
  | 0, _, pos, nextBody, out =>
    if pos ≠ heads.stop ∨ nextBody ≠ bodies.stop then .error .trailingBytes else .ok out
  | count + 1, n, pos, nextBody, out =>
    match readHead block pos heads.stop n with
    | .error e => .error e
    | .ok head =>
      if head.len = 0 then .error (.tombstone n)
      else if badBody head pos nextBody bodies.stop then .error (.badBody n)
      else if out.index.any fun s => idIn block s == some head.id then .error (.duplicateId n)
      else
        indexLoop block heads bodies seg count (n + 1) (pos + head.bytes.length)
          (nextBody + head.len)
          ⟨out.index ++ [⟨seg, pos, head.bytes.length⟩], out.xor ^^^ head.digest⟩

/-- `RowTable::index_heads`. -/
def indexHeads (block : Bytes) (heads bodies : Region) (rows seg : Nat) :
    Except BlockError IndexedHeads :=
  match checkRegions block heads bodies rows with
  | some e => .error e
  | none => indexLoop block heads bodies seg rows 0 heads.start bodies.start ⟨[], 0⟩

/-! ## A delta -/

/-- `AbsorbInto`. -/
inductive AbsorbInto where
  | segment (seg : Nat)
  | copy

/-- `Absorbed`. -/
structure Absorbed where
  xor : Digest
  upserts : Nat
  tombstones : Nat
  tombstonesAbsent : Nat

/-- A head without a body: its row is removed. -/
def absorbTombstone (t : RowTable) (out : Absorbed) (id : String) : RowTable × Absorbed :=
  match t.digestOf id with
  | some old => (t.removeSlot id, { out with xor := out.xor ^^^ old, tombstones := out.tombstones + 1 })
  | none => (t, { out with tombstonesAbsent := out.tombstonesAbsent + 1 })

/-- A head with a body: its row is replaced or added. -/
def absorbRow (t : RowTable) (out : Absorbed) (image : Bytes) (into : AbsorbInto) (head : HeadRead)
    (pos nextBody : Nat) : RowTable × Absorbed :=
  let xor := (match t.digestOf head.id with
    | some old => out.xor ^^^ old
    | none => out.xor) ^^^ head.digest
  let (t, slot) := match into with
    | .segment seg => (t, (⟨seg, pos, head.bytes.length⟩ : Span))
    | .copy =>
      t.appendRecord
        (relinkHead head.bytes head.bytes.length ++ (image.drop nextBody).take head.len)
        head.bytes.length
  (t.place head.id slot, { out with xor, upserts := out.upserts + 1 })

/-- The loop of `absorb`, with `count` heads to go. An error leaves the table as it is by then. -/
def absorbLoop (image : Bytes) (heads bodies : Region) (into : AbsorbInto) :
    Nat → Nat → Nat → Nat → Absorbed → RowTable → RowTable × Except BlockError Absorbed
  | 0, _, pos, nextBody, out, t =>
    (t, if pos ≠ heads.stop ∨ nextBody ≠ bodies.stop then .error .trailingBytes else .ok out)
  | count + 1, n, pos, nextBody, out, t =>
    match readHead image pos heads.stop n with
    | .error e => (t, .error e)
    | .ok head =>
      if head.len = 0 then
        let (t, out) := absorbTombstone t out head.id
        absorbLoop image heads bodies into count (n + 1) (pos + head.bytes.length) nextBody out t
      else if badBody head pos nextBody bodies.stop then (t, .error (.badBody n))
      else
        let (t, out) := absorbRow t out image into head pos nextBody
        absorbLoop image heads bodies into count (n + 1) (pos + head.bytes.length)
          (nextBody + head.len) out t

/-- `RowTable::absorb`. -/
def absorb (t : RowTable) (image : Bytes) (heads bodies : Region) (rows : Nat) (into : AbsorbInto) :
    RowTable × Except BlockError Absorbed :=
  match checkRegions image heads bodies rows with
  | some e => (t, .error e)
  | none => absorbLoop image heads bodies into rows 0 heads.start bodies.start ⟨0, 0, 0, 0⟩ t

/-! ## What a walk reads -/

/-- One row of an image. -/
inductive Entry where
  | upsert (id : String) (r : Record)
  | tombstone (id : String)

/-- The row of the head that was read at `pos`; none when its body is not where it must be. -/
def entryOf (image : Bytes) (bodiesStop : Nat) (head : HeadRead) (pos nextBody : Nat) :
    Option Entry :=
  if head.len = 0 then some (.tombstone head.id)
  else if badBody head pos nextBody bodiesStop then none
  else
    let body := (image.drop nextBody).take head.len
    if h : body ≠ [] ∧ body.length < 2 ^ 32 then
      (headRvRaw head.bytes).map fun rv => .upsert head.id ⟨head.digest, rv, body, h.1, h.2⟩
    else none

/-- The entries of the heads from `pos` on, up to the first that is bad, and the error. -/
def walk (image : Bytes) (heads bodies : Region) :
    Nat → Nat → Nat → Nat → List Entry × Option BlockError
  | 0, _, pos, nextBody =>
    ([], if pos ≠ heads.stop ∨ nextBody ≠ bodies.stop then some .trailingBytes else none)
  | count + 1, n, pos, nextBody =>
    match readHead image pos heads.stop n with
    | .error e => ([], some e)
    | .ok head =>
      match entryOf image bodies.stop head pos nextBody with
      | none => ([], some (.badBody n))
      | some entry =>
        let (entries, e) :=
          walk image heads bodies count (n + 1) (pos + head.bytes.length) (nextBody + head.len)
        (entry :: entries, e)

/-- The entries of a delta. -/
def deltaEntries (image : Bytes) (heads bodies : Region) (rows : Nat) :
    List Entry × Option BlockError :=
  match checkRegions image heads bodies rows with
  | some e => ([], some e)
  | none => walk image heads bodies rows 0 heads.start bodies.start

/-- A table's records with one entry applied. -/
def applyEntry (m : ExtTreeMap String Record) : Entry → ExtTreeMap String Record
  | .upsert id r => m.insert id r
  | .tombstone id => m.erase id

def applyEntries (m : ExtTreeMap String Record) (entries : List Entry) : ExtTreeMap String Record :=
  entries.foldl applyEntry m

namespace Entry

def id : Entry → String
  | upsert id _ => id
  | tombstone id => id

/-- What the entry leaves of its row. -/
def record : Entry → Option Record
  | upsert _ r => some r
  | tombstone _ => none

end Entry

/-- What the last entry of an id leaves of its row, if there is one. -/
def lastEntry (entries : List Entry) (id : String) : Option (Option Record) :=
  entries.foldl (fun last e => if e.id = id then some e.record else last) none

/-- The catch-up hash of a table's records. -/
def recordsXor (m : ExtTreeMap String Record) : Digest :=
  tally (· ^^^ ·) 0 (fun _ r => r.digest) m

/-! ## The last entry of an id -/

theorem getElem?_applyEntry (m : ExtTreeMap String Record) (e : Entry) (id : String) :
    (applyEntry m e)[id]? = if e.id = id then e.record else m[id]? := by
  cases e with
  | upsert id' r =>
    change (m.insert id' r)[id]? = if id' = id then some r else m[id]?
    rw [ExtTreeMap.getElem?_insert]
    by_cases h : id' = id
    · rw [if_pos (Std.compare_eq_iff_eq.mpr h), if_pos h]
    · rw [if_neg (mt Std.compare_eq_iff_eq.mp h), if_neg h]
  | tombstone id' =>
    change (m.erase id')[id]? = if id' = id then none else m[id]?
    rw [ExtTreeMap.getElem?_erase]
    by_cases h : id' = id
    · rw [if_pos (Std.compare_eq_iff_eq.mpr h), if_pos h]
    · rw [if_neg (mt Std.compare_eq_iff_eq.mp h), if_neg h]

theorem foldl_lastEntry (entries : List Entry) (id : String) (last : Option (Option Record)) :
    entries.foldl (fun last e => if e.id = id then some e.record else last) last =
      (lastEntry entries id).or last := by
  unfold lastEntry
  induction entries generalizing last with
  | nil => rfl
  | cons e entries ih =>
    rw [List.foldl_cons, List.foldl_cons, ih, ih (if e.id = id then some e.record else none)]
    by_cases he : e.id = id
    · rw [if_pos he, if_pos he, Option.or_assoc]
      rfl
    · rw [if_neg he, if_neg he, Option.or_none]

theorem lastEntry_cons (e : Entry) (entries : List Entry) (id : String) :
    lastEntry (e :: entries) id =
      (lastEntry entries id).or (if e.id = id then some e.record else none) :=
  foldl_lastEntry entries id _

/-- The last entry of an id decides its row. -/
theorem getElem?_applyEntries (m : ExtTreeMap String Record) (entries : List Entry) (id : String) :
    (applyEntries m entries)[id]? = (lastEntry entries id).getD m[id]? := by
  unfold applyEntries
  induction entries generalizing m with
  | nil => rfl
  | cons e entries ih =>
    rw [List.foldl_cons, ih, lastEntry_cons, getElem?_applyEntry]
    cases lastEntry entries id with
    | some o => rfl
    | none =>
      rw [Option.none_or]
      split <;> rfl

/-- An id none of the entries names. -/
theorem lastEntry_eq_none {entries : List Entry} {id : String} (h : ∀ e ∈ entries, e.id ≠ id) :
    lastEntry entries id = none := by
  induction entries with
  | nil => rfl
  | cons e entries ih =>
    rw [lastEntry_cons, ih (List.forall_mem_cons.mp h).2,
      if_neg (h e List.mem_cons_self)]
    rfl

/-- An id whose entries agree. -/
theorem lastEntry_eq_some {entries : List Entry} {id : String} {o : Option Record}
    (hall : ∀ e ∈ entries, e.id = id → e.record = o) (hmem : ∃ e ∈ entries, e.id = id) :
    lastEntry entries id = some o := by
  induction entries with
  | nil =>
    obtain ⟨e, he, -⟩ := hmem
    cases he
  | cons e entries ih =>
    have hall' : ∀ e' ∈ entries, e'.id = id → e'.record = o :=
      (List.forall_mem_cons.mp hall).2
    rw [lastEntry_cons]
    by_cases hrest : ∃ e' ∈ entries, e'.id = id
    · rw [ih hall' hrest]
      rfl
    · have hnone : lastEntry entries id = none :=
        lastEntry_eq_none fun e' he' heq => hrest ⟨e', he', heq⟩
      obtain ⟨e', he', heq⟩ := hmem
      rcases List.mem_cons.mp he' with rfl | he'
      · rw [hnone, if_pos heq, hall e' List.mem_cons_self heq]
        rfl
      · exact absurd ⟨e', he', heq⟩ hrest

/-! ## Reading one head -/

/-- A head that was read stands in the image, and these are its fields. -/
theorem readHead_ok {image : Bytes} {pos stop n : Nat} {head : HeadRead}
    (h : readHead image pos stop n = .ok head) :
    ∃ hd : Head, head = ⟨hd.bytes, head.id, hd.digest, hd.bodyRel.toNat, hd.bodyLen.toNat⟩ ∧
      hd.Names head.id ∧ slice image pos (pos + hd.bytes.length) = some hd.bytes ∧
      pos + hd.bytes.length ≤ stop := by
  unfold readHead at h
  split at h
  next => cases h
  next len hlen =>
    obtain ⟨region, hregion, hheadLen⟩ := Option.bind_eq_some_iff.mp hlen
    obtain ⟨hd, more, hsplit, hdlen, hnames⟩ := Head.names_of_headLen hheadLen
    obtain ⟨before, after, himage, hbefore, hstop⟩ := slice_eq_some_iff.mp hregion
    have hslice : slice image pos (pos + hd.bytes.length) = some hd.bytes := by
      refine slice_eq_some_iff.mpr ⟨before, more ++ after, ?_, hbefore, rfl⟩
      rw [himage, hsplit]
      simp
    have hbytes : (image.drop pos).take len = hd.bytes := by
      rw [himage, hsplit, ← hbefore, ← hdlen, List.append_assoc, List.drop_left, List.append_assoc,
        List.take_left]
    have hdigest := hd.headDigest_bytes []
    have hrel := hd.headBodyRel_bytes []
    have hblen := hd.headBodyLen_bytes []
    rw [List.append_nil] at hdigest hrel hblen
    simp only [hbytes, hdigest, hrel, hblen] at h
    split at h
    next id digest rel blen hid heq1 heq2 heq3 =>
      cases h
      cases heq1
      cases heq2
      cases heq3
      refine ⟨hd, rfl, hnames id hid, hslice, ?_⟩
      rw [hsplit, List.length_append] at hstop
      omega
    next => cases h

/-- A head that stands in the image is read. -/
theorem readHead_of_slice {image : Bytes} {pos stop : Nat} {hd : Head} {id : String}
    (hn : hd.Names id) (hslice : slice image pos (pos + hd.bytes.length) = some hd.bytes)
    (hstop : pos + hd.bytes.length ≤ stop) (hlen : stop ≤ image.length) (n : Nat) :
    readHead image pos stop n =
      .ok ⟨hd.bytes, id, hd.digest, hd.bodyRel.toNat, hd.bodyLen.toNat⟩ := by
  obtain ⟨before, after, himage, hbefore, -⟩ := slice_eq_some_iff.mp hslice
  obtain ⟨region, hregion⟩ := slice_isSome image (Nat.le_trans (Nat.le_add_right pos _) hstop) hlen
  have hfront : ∃ more, region = hd.bytes ++ more := by
    unfold slice at hregion
    rw [if_pos ⟨Nat.le_trans (Nat.le_add_right pos _) hstop, hlen⟩] at hregion
    cases hregion
    refine ⟨after.take (stop - pos - hd.bytes.length), ?_⟩
    rw [himage, ← hbefore, List.append_assoc, List.drop_left, List.take_append]
    congr 1
    exact List.take_of_length_le (by omega)
  obtain ⟨more, rfl⟩ := hfront
  have hbytes : (image.drop pos).take hd.bytes.length = hd.bytes := by
    rw [himage, ← hbefore, List.append_assoc, List.drop_left, List.take_left]
  have hdigest := hd.headDigest_bytes []
  have hrel := hd.headBodyRel_bytes []
  have hblen := hd.headBodyLen_bytes []
  rw [List.append_nil] at hdigest hrel hblen
  unfold readHead
  rw [hregion, Option.bind_some, hn.headLen_bytes more]
  simp only [hbytes, hn.headId_bytes, hdigest, hrel, hblen]

/-- What a head says about its row. -/
theorem entryOf_upsert {image : Bytes} {bodiesStop pos nextBody : Nat} {hd : Head} {id : String}
    (hstop : bodiesStop ≤ image.length) (hlen : hd.bodyLen.toNat ≠ 0)
    (hgood : badBody ⟨hd.bytes, id, hd.digest, hd.bodyRel.toNat, hd.bodyLen.toNat⟩ pos nextBody
      bodiesStop = false) :
    ∃ r : Record, entryOf image bodiesStop
        ⟨hd.bytes, id, hd.digest, hd.bodyRel.toNat, hd.bodyLen.toNat⟩ pos nextBody =
        some (.upsert id r) ∧
      r.digest = hd.digest ∧ r.rv = hd.rv ∧ r.body = (image.drop nextBody).take hd.bodyLen.toNat ∧
      r.body.length = hd.bodyLen.toNat ∧
      slice image nextBody (nextBody + hd.bodyLen.toNat) = some r.body := by
  have hle : nextBody + hd.bodyLen.toNat ≤ image.length := by
    unfold badBody at hgood
    simp only [Bool.or_eq_false_iff, decide_eq_false_iff_not] at hgood
    omega
  have hblen : ((image.drop nextBody).take hd.bodyLen.toNat).length = hd.bodyLen.toNat := by
    rw [List.length_take, List.length_drop]
    omega
  have hlt : hd.bodyLen.toNat < 2 ^ 32 := hd.bodyLen.isLt
  have hgoodBody : (image.drop nextBody).take hd.bodyLen.toNat ≠ [] ∧
      ((image.drop nextBody).take hd.bodyLen.toNat).length < 2 ^ 32 := by
    refine ⟨?_, by omega⟩
    intro he
    rw [he] at hblen
    exact hlen hblen.symm
  have hrv := hd.headRvRaw_bytes []
  rw [List.append_nil] at hrv
  refine ⟨⟨hd.digest, hd.rv, _, hgoodBody.1, hgoodBody.2⟩, ?_, rfl, rfl, rfl, hblen, ?_⟩
  · unfold entryOf
    simp only
    rw [if_neg hlen, if_neg (by simpa using hgood), dif_pos hgoodBody, hrv]
    rfl
  · unfold slice
    rw [if_pos ⟨Nat.le_add_right _ _, hle⟩, Nat.add_sub_cancel_left]

end Sp00ky.Checkpoint
