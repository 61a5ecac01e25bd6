/-
  Checkpoint images (`circuit/checkpoint.rs`): the writer, the reader and the previous format.

  An image is a header, the heads of its rows, their bodies and two hashes. `writeImage` lays
  one out and `parseHeader` finds its regions again (`parseHeader_writeImage`); the heads
  it wrote are read back as the entries they were written for (`deltaEntries_writeImage`).
  `blake3` is any function.
-/
import Sp00ky.Checkpoint.HeadWalks

namespace Sp00ky.Checkpoint

open Lib Ssp

/-- A collection, as far as a checkpoint holds it. -/
structure Collection where
  name : String
  rows : RowTable
  catchupXor : Digest

/-- `ImageId`. -/
abbrev ImageId := BitVec 64

/-- `MAGIC`, which is `SPKYROWS`. -/
def magic : Bytes := [83, 80, 75, 89, 82, 79, 87, 83]

/-- `FORMAT`. -/
def format : Nat := 2

/-- `RECORD_FORMAT`. -/
def recordFormat : Nat := 2

/-- `MAX_CHUNK`. -/
def maxChunk : Nat := 256 * 2 ^ 20

/-- `TRAILER_LEN`: two hashes. -/
def trailerLen : Nat := 2 * 32

/-- `FIXED_PREFIX_LEN`. -/
def fixedPrefixLen : Nat := 8 + 4 + 4 + 8 + 4

/-- `MIN_IMAGE_LEN`. -/
def minImageLen : Nat := fixedPrefixLen + 4 + 32 + 32 + 4 + 8 + 8 + 8 + trailerLen

/-- `CheckpointError`; reading a file is not part of the model. -/
inductive CheckpointError where
  | invalid (why : String)
deriving DecidableEq, Repr

/-- What `write_image`, `write_chunk` and `write_delta` refuse. -/
inductive WriteError where
  | chunkTooLarge
  | imageTooLarge
  | seqZero
  | noWatermark
deriving DecidableEq, Repr

/-- The texts of the refusals. -/
def WriteError.message : WriteError → String
  | .chunkTooLarge => "checkpoint chunk too large"
  | .imageTooLarge => "checkpoint image would exceed 4 GiB"
  | .seqZero => "a delta's seq starts at 1"
  | .noWatermark => "the table has no checkpoint to extend"

/-! ## The writer -/

/-- `ImageHeader`. -/
structure ImageHeader where
  name : String
  imageId : ImageId
  seq : Nat
  catchupXor : Digest
  prevXor : Digest
  fieldNames : List String

/-- `Rec`: one row as the writer sees it. -/
inductive Rec where
  | row (head body : Bytes)
  | tombstone (id : String)

namespace Rec

/-- What a record adds to the heads. -/
def headLen : Rec → Nat
  | row head _ => head.length
  | tombstone id => headLenFor id

/-- What a record adds to the bodies. -/
def body : Rec → Bytes
  | row _ body => body
  | tombstone _ => []

end Rec

/-- `write_chunk`. -/
def writeChunk (bytes : Bytes) : Except WriteError Bytes :=
  if bytes.length ≤ maxChunk then .ok (leBytes 4 bytes.length ++ bytes) else .error .chunkTooLarge

/-- The field names of the dictionary, each a chunk. -/
def writeNames : List String → Except WriteError Bytes
  | [] => .ok []
  | name :: names =>
    match writeChunk (strBytes name) with
    | .error e => .error e
    | .ok chunk =>
      match writeNames names with
      | .error e => .error e
      | .ok chunks => .ok (chunk ++ chunks)

/-- The second pass: every head with its body pointer recomputed for the file. -/
def writeHeads (headsOff bodiesOff : Nat) : List Rec → Nat → Nat → Bytes
  | [], _, _ => []
  | .row head body :: recs, headCursor, bodyCursor =>
    relinkHead head ((bodiesOff + bodyCursor) - (headsOff + headCursor)) ++
      writeHeads headsOff bodiesOff recs (headCursor + head.length) (bodyCursor + body.length)
  | .tombstone id :: recs, headCursor, bodyCursor =>
    encodeHead id 0 rvAbsent 0 0 ++
      writeHeads headsOff bodiesOff recs (headCursor + headLenFor id) bodyCursor

/-- The sums of the first pass. -/
def headsLen (recs : List Rec) : Nat := (recs.map Rec.headLen).sum

def bodiesLen (recs : List Rec) : Nat := (recs.map fun r => r.body.length).sum

/-- Every byte before the heads, from the chunks of the name and of the dictionary. -/
def writeFront (header : ImageHeader) (nameChunk nameChunks : Bytes) (recs : List Rec) : Bytes :=
  magic ++ leBytes 4 format ++ leBytes 4 recordFormat ++ leBytes 8 header.imageId.toNat ++
    leBytes 4 header.seq ++ nameChunk ++ leBytes 32 header.catchupXor.toNat ++
    leBytes 32 header.prevXor.toNat ++ leBytes 4 header.fieldNames.length ++ nameChunks ++
    leBytes 8 recs.length ++ leBytes 8 (headsLen recs) ++ leBytes 8 (bodiesLen recs)

/-- `write_image`. -/
def writeImage (blake3 : Bytes → Digest) (header : ImageHeader) (recs : List Rec) :
    Except WriteError Bytes :=
  match writeChunk (strBytes header.name) with
  | .error e => .error e
  | .ok nameChunk =>
    match writeNames header.fieldNames with
    | .error e => .error e
    | .ok nameChunks =>
      let front := writeFront header nameChunk nameChunks recs
      let bodiesOff := front.length + headsLen recs
      if 2 ^ 32 - 1 < bodiesOff + bodiesLen recs then .error .imageTooLarge
      else
        let covered := front ++ writeHeads front.length bodiesOff recs 0 0
        let bodies := (recs.map Rec.body).flatten
        .ok (covered ++ bodies ++ leBytes 32 (blake3 covered).toNat ++
          leBytes 32 (blake3 bodies).toNat)

/-- `write_collection`, for an iteration order of the index; also the mark. -/
def writeCollection (blake3 : Bytes → Digest) (coll : Collection) (imageId : ImageId)
    (order : List Span) : Except WriteError (Bytes × CheckpointMark) :=
  (writeImage blake3
    ⟨coll.name, imageId, 0, coll.catchupXor, 0, coll.rows.dict.names⟩
    ((coll.rows.records order).map fun r => .row r.1 r.2)).map fun bytes =>
      (bytes, coll.rows.checkpointMark)

/-- `write_delta`, for an iteration order of the index; also the mark. -/
def writeDelta (blake3 : Bytes → Digest) (coll : Collection) (base : ImageId) (seq : Nat)
    (prevXor : Digest) (order : List Span) : Except WriteError (Bytes × CheckpointMark) :=
  if seq = 0 then .error .seqZero
  else if coll.rows.persisted.isNone then .error .noWatermark
  else
    (writeImage blake3
      ⟨coll.name, base, seq, coll.catchupXor, prevXor, coll.rows.dict.names⟩
      ((coll.rows.recordsSincePersisted order).map (fun r => .row r.1 r.2) ++
        coll.rows.tombstonesPending.map .tombstone)).map fun bytes =>
          (bytes, coll.rows.checkpointMark)

/-! ## The reader -/

/-- `Image`: a parsed header and where the regions are. -/
structure Image where
  name : String
  recordFormat : Nat
  imageId : ImageId
  seq : Nat
  storedXor : Digest
  prevXor : Digest
  fieldNames : List String
  rows : Nat
  heads : Region
  bodies : Region
  bodiesHash : Digest

/-- `ImageIdentity`. -/
structure ImageIdentity where
  format : Nat
  recordFormat : Nat
  imageId : ImageId
  seq : Nat

/-- The digest 32 bytes spell. -/
def digestOfBytes (bytes : Bytes) : Digest := BitVec.ofNat 256 (leNat bytes)

/-- `Cursor::bytes`. -/
def takeBytes (bytes : Bytes) (pos n : Nat) : Except CheckpointError (Bytes × Nat) :=
  match slice bytes pos (pos + n) with
  | some out => .ok (out, pos + n)
  | none => .error (.invalid "truncated header")

/-- `Cursor::u32` and `Cursor::u64`. -/
def takeNat (bytes : Bytes) (pos width : Nat) : Except CheckpointError (Nat × Nat) :=
  (takeBytes bytes pos width).map fun out => (leNat out.1, out.2)

/-- `Cursor::hash`. -/
def takeHash (bytes : Bytes) (pos : Nat) : Except CheckpointError (Digest × Nat) :=
  (takeBytes bytes pos 32).map fun out => (digestOfBytes out.1, out.2)

/-- `Cursor::chunk`. -/
def takeChunk (bytes : Bytes) (pos : Nat) : Except CheckpointError (Bytes × Nat) := do
  let (len, pos) ← takeNat bytes pos 4
  if maxChunk < len then .error (.invalid ("chunk of " ++ toString len ++ " bytes"))
  else takeBytes bytes pos len

/-- `Cursor::str_chunk`. -/
def takeStrChunk (bytes : Bytes) (pos : Nat) (what : String) :
    Except CheckpointError (String × Nat) := do
  let (chunk, pos) ← takeChunk bytes pos
  match strOf chunk with
  | some s => .ok (s, pos)
  | none => .error (.invalid (what ++ " is not UTF-8"))

/-- The dictionary's names. -/
def takeNames (bytes : Bytes) : Nat → Nat → Except CheckpointError (List String × Nat)
  | 0, pos => .ok ([], pos)
  | count + 1, pos => do
    let (name, pos) ← takeStrChunk bytes pos "field name"
    let (names, pos) ← takeNames bytes count pos
    .ok (name :: names, pos)

/-- `parse_identity`. -/
def parseIdentity (bytes : Bytes) : Except CheckpointError ImageIdentity :=
  if bytes.length < fixedPrefixLen then .error (.invalid "too short to be a row checkpoint")
  else if bytes.take 8 ≠ magic then .error (.invalid "not a row checkpoint")
  else do
    let (format, pos) ← takeNat bytes 8 4
    let (recordFormat, pos) ← takeNat bytes pos 4
    let (imageId, pos) ← takeNat bytes pos 8
    let (seq, _) ← takeNat bytes pos 4
    .ok ⟨format, recordFormat, BitVec.ofNat 64 imageId, seq⟩

/-- Where the regions lie behind a header that ends at `headsStart`. -/
def locateRegions (bytes : Bytes) (headsStart headsLen bodiesLen : Nat) :
    Except CheckpointError (Region × Region) :=
  if 2 ^ 64 ≤ headsStart + headsLen then .error (.invalid "heads length overflows the file")
  else if 2 ^ 64 ≤ headsStart + headsLen + bodiesLen then
    .error (.invalid "bodies length overflows the file")
  else if headsStart + headsLen + bodiesLen + trailerLen ≠ bytes.length then
    .error (.invalid "the lengths do not account for every byte")
  else
    .ok (⟨headsStart, headsStart + headsLen⟩,
      ⟨headsStart + headsLen, headsStart + headsLen + bodiesLen⟩)

/-- `parse_header`. -/
def parseHeader (bytes : Bytes) : Except CheckpointError Image :=
  if bytes.length < minImageLen then .error (.invalid "too short to be a row checkpoint")
  else do
    let identity ← parseIdentity bytes
    if identity.format ≠ format then
      .error (.invalid ("checkpoint format " ++ toString identity.format ++ ", this build reads 2"))
    else do
      let (name, pos) ← takeStrChunk bytes fixedPrefixLen "table name"
      let (storedXor, pos) ← takeHash bytes pos
      let (prevXor, pos) ← takeHash bytes pos
      let (fields, pos) ← takeNat bytes pos 4
      let (fieldNames, pos) ← takeNames bytes fields pos
      let (rows, pos) ← takeNat bytes pos 8
      let (headsLen, pos) ← takeNat bytes pos 8
      let (bodiesLen, pos) ← takeNat bytes pos 8
      let (heads, bodies) ← locateRegions bytes pos headsLen bodiesLen
      .ok ⟨name, identity.recordFormat, identity.imageId, identity.seq, storedXor, prevXor,
        fieldNames, rows, heads, bodies, digestOfBytes (bytes.drop (bodies.stop + 32))⟩

/-- `heads_verified`. -/
def headsVerified (blake3 : Bytes → Digest) (bytes : Bytes) (image : Image) : Bool :=
  blake3 (bytes.take image.heads.stop) == digestOfBytes ((bytes.drop image.bodies.stop).take 32)

/-- `check_heads`. -/
def checkHeads (blake3 : Bytes → Digest) (bytes : Bytes) (image : Image) :
    Except CheckpointError Unit :=
  if image.recordFormat ≠ recordFormat then
    .error (.invalid ("record format " ++ toString image.recordFormat ++ ", this build encodes 2"))
  else if !headsVerified blake3 bytes image then .error (.invalid "heads checksum mismatch")
  else .ok ()

/-- `parse_image`. -/
def parseImage (blake3 : Bytes → Digest) (bytes : Bytes) : Except CheckpointError Image := do
  let image ← parseHeader bytes
  checkHeads blake3 bytes image
  .ok image

/-- Whether the bodies hash covers the bodies. -/
def bodiesVerified (blake3 : Bytes → Digest) (bytes : Bytes) (image : Image) : Bool :=
  blake3 ((bytes.drop image.bodies.start).take (image.bodies.stop - image.bodies.start)) ==
    image.bodiesHash

/-- `Indexed`: a parsed and indexed base, short of its arena. -/
structure Indexed where
  name : String
  dict : FieldDict
  heads : IndexedHeads
  imageId : ImageId
  storedXor : Digest

/-- `index_parsed`. -/
def indexParsed (blake3 : Bytes → Digest) (bytes : Bytes) (image : Image) :
    Except CheckpointError Indexed := do
  checkHeads blake3 bytes image
  if image.seq ≠ 0 then .error (.invalid "a delta checkpoint, not a base image")
  else
    match FieldDict.fromNames image.fieldNames with
    | none => .error (.invalid "field dictionary repeats a name")
    | some dict =>
      match indexHeads bytes image.heads image.bodies image.rows 0 with
      | .error e => .error (.invalid e.message)
      | .ok heads =>
        if heads.xor ≠ image.storedXor then
          .error (.invalid "rows do not add up to the stored catch-up hash")
        else .ok ⟨image.name, dict, heads, image.imageId, image.storedXor⟩

/-- `assemble`. -/
def assemble (ix : Indexed) (arena : Arena) : Collection :=
  ⟨ix.name, RowTable.fromParts ix.dict ix.heads.index arena, ix.storedXor⟩

/-! ## The previous format -/

/-- `legacy::FORMAT_V1` and `legacy::RECORD_FORMAT_V1`. -/
def formatV1 : Nat := 1

/-- `legacy::MIN_LEN`. -/
def minLenV1 : Nat := 8 + 4 + 4 + 4 + 32 + 4 + 8 + 32

/-- `legacy::MIN_FRAMED`. -/
def minFramedV1 : Nat := 32 + 8 + 2 + 4

/-- The parts of a record of the previous format: digest, rv, id and value. -/
def parseRecordV1 (record : Bytes) : Option (Digest × BitVec 64 × String × Bytes) := do
  let digest ← slice record 0 32
  let rv ← slice record 32 40
  let (idLen, n) ← readVarint (← rest record 40)
  let id ← strOf (← slice record (40 + n) (40 + n + idLen))
  some (digestOfBytes digest, BitVec.ofNat 64 (leNat rv), id, record.drop (40 + n + idLen))

/-- The records of the previous format, re-encoded into the table. -/
def readRowsV1 (body : Bytes) : Nat → Nat → Nat → RowTable → Digest →
    Except CheckpointError (RowTable × Digest × Nat)
  | 0, _, pos, t, xor => .ok (t, xor, pos)
  | count + 1, n, pos, t, xor => do
    let (record, pos) ← takeChunk body pos
    match parseRecordV1 record with
    | none => .error (.invalid ("record " ++ toString n ++ " has no readable id"))
    | some (digest, rv, id, value) =>
      if value.isEmpty then .error (.invalid ("record " ++ toString n ++ " has no value"))
      else
        let (t, replaced) := t.insertRaw id digest rv value
        if replaced then
          .error (.invalid ("record " ++ toString n ++ " carries an id stored twice"))
        else readRowsV1 body count (n + 1) pos t (xor ^^^ digest)

/-- `legacy::read_v1`. -/
def readV1 (blake3 : Bytes → Digest) (bytes : Bytes) : Except CheckpointError Collection :=
  if bytes.length < minLenV1 then .error (.invalid "too short to be a row checkpoint")
  else if bytes.take 8 ≠ magic then .error (.invalid "not a row checkpoint")
  else
    let body := bytes.take (bytes.length - 32)
    if blake3 body ≠ digestOfBytes (bytes.drop (bytes.length - 32)) then
      .error (.invalid "checksum mismatch")
    else do
      let (format, pos) ← takeNat body 8 4
      if format ≠ formatV1 then
        .error (.invalid ("checkpoint format " ++ toString format ++ " is not the previous one"))
      else
        let (recordFormat, pos) ← takeNat body pos 4
        if recordFormat ≠ formatV1 then
          .error (.invalid ("record format " ++ toString recordFormat ++ " is not the previous one"))
        else
          let (name, pos) ← takeStrChunk body pos "table name"
          let (storedXor, pos) ← takeHash body pos
          let (fields, pos) ← takeNat body pos 4
          let (names, pos) ← takeNames body fields pos
          let (rows, pos) ← takeNat body pos 8
          if (body.length - pos) / minFramedV1 < rows then
            .error (.invalid "declares more rows than the file holds")
          else
            match (RowTable.new .heap).restoreDict names with
            | none => .error (.invalid "field dictionary repeats a name")
            | some t =>
              let (t, xor, pos) ← readRowsV1 body rows 0 pos t 0
              if pos ≠ body.length then .error (.invalid "bytes after the declared rows")
              else if xor ≠ storedXor then
                .error (.invalid "rows do not add up to the stored catch-up hash")
              else .ok ⟨name, t, xor⟩

/-- `read_image`. -/
def readImage (blake3 : Bytes → Digest) (bytes : Bytes) : Except CheckpointError Collection := do
  let identity ← parseIdentity bytes
  if identity.format = formatV1 then readV1 blake3 bytes
  else do
    let image ← parseHeader bytes
    let ix ← indexParsed blake3 bytes image
    if !bodiesVerified blake3 bytes image then .error (.invalid "bodies checksum mismatch")
    else .ok (assemble ix (Arena.fromImages .heap [bytes]))

end Sp00ky.Checkpoint
