/-
  What the image writer lays out, the image reader finds.

  `Before bytes pos more` says that `more` is what stands at `pos`; every field of the
  header is read back by what it was written as. The heads the writer relinked are walked
  back into the entries they stand for (`deltaEntries_writeImage`).
-/
import Sp00ky.Checkpoint.Image

namespace Sp00ky.Checkpoint

open Lib Ssp

/-! ## Reading fields -/

/-- `more` is what stands at `pos`. -/
def Before (bytes : Bytes) (pos : Nat) (more : Bytes) : Prop :=
  ∃ before, bytes = before ++ more ∧ before.length = pos

theorem Before.take {bytes x more : Bytes} {pos : Nat} (h : Before bytes pos (x ++ more)) :
    takeBytes bytes pos x.length = .ok (x, pos + x.length) ∧
      Before bytes (pos + x.length) more := by
  obtain ⟨before, rfl, rfl⟩ := h
  constructor
  · unfold takeBytes
    rw [← List.append_assoc, slice_mid]
  · exact ⟨before ++ x, by rw [List.append_assoc], by rw [List.length_append]⟩

variable {bytes more : Bytes}

theorem Before.takeNat {pos w n : Nat}
    (h : Before bytes pos (leBytes w n ++ more)) (hn : n < 256 ^ w) :
    takeNat bytes pos w = .ok (n, pos + w) ∧ Before bytes (pos + w) more := by
  obtain ⟨h1, h2⟩ := h.take
  rw [length_leBytes] at h1 h2
  refine ⟨?_, h2⟩
  unfold Checkpoint.takeNat
  rw [h1]
  simp only [Except.map, leNat_leBytes_of_lt hn]

theorem digestOfBytes_leBytes (d : Digest) : digestOfBytes (leBytes 32 d.toNat) = d := by
  unfold digestOfBytes
  rw [leNat_leBytes_bitVec d (by norm_num), BitVec.ofNat_toNat, BitVec.setWidth_eq]

theorem Before.takeHash {pos : Nat} {d : Digest}
    (h : Before bytes pos (leBytes 32 d.toNat ++ more)) :
    takeHash bytes pos = .ok (d, pos + 32) ∧ Before bytes (pos + 32) more := by
  obtain ⟨h1, h2⟩ := h.take
  rw [length_leBytes] at h1 h2
  refine ⟨?_, h2⟩
  unfold Checkpoint.takeHash
  rw [h1]
  simp only [Except.map, digestOfBytes_leBytes]

theorem writeChunk_ok {x chunk : Bytes} (h : writeChunk x = .ok chunk) :
    x.length ≤ maxChunk ∧ chunk = leBytes 4 x.length ++ x := by
  unfold writeChunk at h
  split at h
  next hle =>
    cases h
    exact ⟨hle, rfl⟩
  next => cases h

theorem Before.takeStrChunk {bytes chunk more : Bytes} {pos : Nat} {s : String}
    (h : Before bytes pos (chunk ++ more)) (hc : writeChunk (strBytes s) = .ok chunk)
    (what : String) :
    takeStrChunk bytes pos what = .ok (s, pos + chunk.length) ∧
      Before bytes (pos + chunk.length) more := by
  obtain ⟨hle, rfl⟩ := writeChunk_ok hc
  rw [List.append_assoc] at h
  have hlt : (strBytes s).length < 256 ^ 4 := by
    unfold maxChunk at hle
    omega
  obtain ⟨hlen, hbody⟩ := h.takeNat hlt
  obtain ⟨htake, hmore⟩ := hbody.take
  have hpos : pos + (leBytes 4 (strBytes s).length ++ strBytes s).length =
      pos + 4 + (strBytes s).length := by
    rw [List.length_append, length_leBytes]
    omega
  rw [hpos]
  refine ⟨?_, hmore⟩
  unfold Checkpoint.takeStrChunk takeChunk
  simp only [hlen, bind, Except.bind]
  rw [if_neg (by omega), htake]
  simp only [strOf_strBytes]

theorem Before.takeNames {bytes chunks more : Bytes} {pos : Nat} {names : List String}
    (h : Before bytes pos (chunks ++ more)) (hc : writeNames names = .ok chunks) :
    takeNames bytes names.length pos = .ok (names, pos + chunks.length) ∧
      Before bytes (pos + chunks.length) more := by
  induction names generalizing pos chunks with
  | nil =>
    cases hc
    exact ⟨rfl, h⟩
  | cons name names ih =>
    unfold writeNames at hc
    split at hc
    next => cases hc
    next chunk hchunk =>
      split at hc
      next => cases hc
      next rest hrest =>
        cases hc
        rw [List.append_assoc] at h
        obtain ⟨hname, hnext⟩ := h.takeStrChunk hchunk "field name"
        obtain ⟨hnames, hmore⟩ := ih hnext hrest
        have hpos : pos + (chunk ++ rest).length = pos + chunk.length + rest.length := by
          rw [List.length_append]
          omega
        rw [hpos]
        refine ⟨?_, hmore⟩
        rw [List.length_cons, Checkpoint.takeNames]
        simp only [hname, hnames, bind, Except.bind]

theorem length_writeNames {names : List String} {chunks : Bytes} (h : writeNames names = .ok chunks) :
    names.length ≤ chunks.length := by
  induction names generalizing chunks with
  | nil => exact Nat.zero_le _
  | cons name names ih =>
    unfold writeNames at h
    split at h
    next => cases h
    next chunk hchunk =>
      split at h
      next => cases h
      next rest hrest =>
        cases h
        obtain ⟨-, rfl⟩ := writeChunk_ok hchunk
        have := ih hrest
        simp only [List.length_cons, List.length_append, length_leBytes]
        omega

/-! ## The records of an image -/

/-- The writer's record stands for the entry. -/
inductive Writes : Rec → Entry → Prop
  | row {hd : Head} {id : String} {r : Record} (hn : hd.Names id) (hdigest : hd.digest = r.digest)
      (hrv : hd.rv = r.rv) (hlen : hd.bodyLen.toNat = r.body.length) :
      Writes (.row hd.bytes r.body) (.upsert id r)
  | tombstone (id : String) : Writes (.tombstone id) (.tombstone id)

theorem Head.Names.idField_pos {hd : Head} {id : String} (h : hd.Names id) :
    0 < hd.idField.length := by
  obtain ⟨n, len, hread, hlen, -⟩ := h
  have := (readVarint_take hread).1
  omega

theorem Writes.headMinLen_le {rec : Rec} {e : Entry} (h : Writes rec e) :
    headMinLen ≤ rec.headLen := by
  unfold headMinLen
  cases h with
  | @row hd id r hn hdigest hrv hlen =>
    have := hn.idField_pos
    change headIdOffset + 1 ≤ hd.bytes.length
    rw [Head.length_bytes]
    omega
  | tombstone id =>
    have hpos : 0 < (writeVarint (strBytes id).length).length := by
      unfold writeVarint writeVarintUpTo
      split <;> simp
    change headIdOffset + 1 ≤ headLenFor id
    unfold headLenFor
    omega

variable {recs : List Rec} {entries : List Entry}

/-- Every head is at least the smallest one. -/
theorem length_mul_le_headsLen
    (h : List.Forall₂ Writes recs entries) : recs.length * headMinLen ≤ headsLen recs := by
  unfold headsLen
  induction h with
  | nil => simp
  | cons hw _ ih =>
    have := hw.headMinLen_le
    simp only [List.length_cons, List.map_cons, List.sum_cons]
    rw [Nat.add_mul]
    omega

theorem length_writeHeads
    (h : List.Forall₂ Writes recs entries) (headsOff bodiesOff headCursor bodyCursor : Nat) :
    (writeHeads headsOff bodiesOff recs headCursor bodyCursor).length = headsLen recs := by
  induction h generalizing headCursor bodyCursor with
  | nil => rfl
  | cons hw _ ih =>
    cases hw with
    | row hn hdigest hrv hlen =>
      unfold writeHeads
      rw [List.length_append, ih, Head.relinkHead_bytes, Head.length_relinked]
      rfl
    | tombstone id =>
      unfold writeHeads
      rw [List.length_append, ih, length_encodeHead]
      rfl

theorem headsLen_cons (rec : Rec) (recs : List Rec) :
    headsLen (rec :: recs) = rec.headLen + headsLen recs := rfl

theorem bodiesLen_cons (rec : Rec) (recs : List Rec) :
    bodiesLen (rec :: recs) = rec.body.length + bodiesLen recs := rfl

theorem length_bodies (recs : List Rec) : (recs.map Rec.body).flatten.length = bodiesLen recs := by
  induction recs with
  | nil => rfl
  | cons rec recs ih => rw [List.map_cons, List.flatten_cons, List.length_append, ih, bodiesLen_cons]

theorem Record.ext_fields {r r' : Record} (h1 : r.digest = r'.digest) (h2 : r.rv = r'.rv)
    (h3 : r.body = r'.body) : r = r' := by
  cases r
  cases r'
  cases h1
  cases h2
  cases h3
  rfl

/-- A head with its body pointer recomputed is read as its row. -/
theorem entryOf_row {image more bodiesMore : Bytes} {bodiesStop pos nextBody : Nat} {hd : Head}
    {id : String} {r : Record} (hn : hd.Names id) (hdigest : hd.digest = r.digest)
    (hrv : hd.rv = r.rv) (hlen : hd.bodyLen.toNat = r.body.length)
    (hhead : Before image pos ((hd.relinked (nextBody - pos)).bytes ++ more))
    (hbody : Before image nextBody (r.body ++ bodiesMore)) (hstop : bodiesStop ≤ image.length)
    (hpast : pos + hd.bytes.length ≤ nextBody) (hinside : nextBody + r.body.length ≤ bodiesStop)
    (hsmall : nextBody < 2 ^ 32) :
    slice image pos (pos + (hd.relinked (nextBody - pos)).bytes.length) =
        some (hd.relinked (nextBody - pos)).bytes ∧
      entryOf image bodiesStop ⟨(hd.relinked (nextBody - pos)).bytes, id, hd.digest,
        (hd.relinked (nextBody - pos)).bodyRel.toNat, hd.bodyLen.toNat⟩ pos nextBody =
        some (.upsert id r) := by
  have hslice : slice image pos (pos + (hd.relinked (nextBody - pos)).bytes.length) =
      some (hd.relinked (nextBody - pos)).bytes := by
    obtain ⟨before, rfl, rfl⟩ := hhead
    rw [← List.append_assoc]
    exact slice_mid _ _ _
  have hrel : (hd.relinked (nextBody - pos)).bodyRel.toNat = nextBody - pos :=
    (BitVec.toNat_ofNat _ _).trans (Nat.mod_eq_of_lt (by omega))
  have hstands : RowStands image bodiesStop pos nextBody (hd.relinked (nextBody - pos)) id := by
    refine ⟨hslice, hn.relinked _, ?_, ?_, ?_, ?_⟩
    · rw [hrel, Head.length_relinked]
      omega
    · rw [hrel]
      omega
    · change hd.bodyLen.toNat ≠ 0
      rw [hlen]
      exact fun h0 => r.body_ne_nil (List.length_eq_zero_iff.mp h0)
    · change nextBody + hd.bodyLen.toNat ≤ bodiesStop
      rw [hlen]
      exact hinside
  obtain ⟨r', hentry, hd', hrv', hb', -, -⟩ :=
    entryOf_upsert hstop hstands.live hstands.badBody_eq
  refine ⟨hslice, hentry.trans ?_⟩
  have hr : r' = r := by
    refine Record.ext_fields (hd'.trans hdigest) (hrv'.trans hrv) ?_
    obtain ⟨before, rfl, rfl⟩ := hbody
    rw [hb', List.drop_left]
    change (r.body ++ bodiesMore).take hd.bodyLen.toNat = r.body
    rw [hlen, List.take_left]
  rw [hr]

/-- The heads the writer laid out are walked back into their entries. -/
theorem walk_written {image : Bytes} {heads bodies : Region}
    (hw : List.Forall₂ Writes recs entries) {headsOff bodiesOff : Nat}
    (hoff : heads.stop = bodiesOff) (hstop : bodies.stop ≤ image.length) (hle : bodiesOff ≤ bodies.stop)
    (hsmall : bodies.stop < 2 ^ 32) {headCursor bodyCursor : Nat} {more bodiesMore : Bytes} (n : Nat)
    (hheads : Before image (headsOff + headCursor)
      (writeHeads headsOff bodiesOff recs headCursor bodyCursor ++ more))
    (hbodies : Before image (bodiesOff + bodyCursor) ((recs.map Rec.body).flatten ++ bodiesMore))
    (hheadsEnd : headsOff + headCursor + headsLen recs = bodiesOff)
    (hbodiesEnd : bodiesOff + bodyCursor + bodiesLen recs = bodies.stop) :
    walk image heads bodies recs.length n (headsOff + headCursor) (bodiesOff + bodyCursor) =
      (entries, none) := by
  induction hw generalizing headCursor bodyCursor n with
  | nil =>
    have h1 : headsOff + headCursor = heads.stop := by
      rw [hoff]
      exact hheadsEnd
    have h2 : bodiesOff + bodyCursor = bodies.stop := hbodiesEnd
    unfold walk
    rw [h1, h2]
    simp
  | cons hw _ ih =>
    rw [List.length_cons, walk]
    rw [headsLen_cons] at hheadsEnd
    rw [bodiesLen_cons] at hbodiesEnd
    rw [List.map_cons, List.flatten_cons, List.append_assoc] at hbodies
    cases hw with
    | @row hd id r hn hdigest hrv hlen =>
      have hheadLen : (Rec.row hd.bytes r.body).headLen = hd.bytes.length := rfl
      have hbodyLen : (Rec.row hd.bytes r.body).body = r.body := rfl
      rw [hheadLen] at hheadsEnd
      rw [hbodyLen] at hbodiesEnd hbodies
      unfold writeHeads at hheads
      rw [Head.relinkHead_bytes, List.append_assoc] at hheads
      obtain ⟨hslice, hentry⟩ := entryOf_row hn hdigest hrv hlen hheads hbodies hstop (by omega)
        (by omega) (by omega)
      have hfits : headsOff + headCursor +
          (hd.relinked (bodiesOff + bodyCursor - (headsOff + headCursor))).bytes.length ≤
          heads.stop := by
        rw [Head.length_relinked]
        omega
      have hread := readHead_of_slice (hn.relinked _) hslice hfits (by omega) n
      have hnextHeads := hheads.take.2
      have hnextBodies := hbodies.take.2
      rw [Head.length_relinked, Nat.add_assoc] at hnextHeads
      rw [Nat.add_assoc] at hnextBodies
      have := ih (n + 1) hnextHeads hnextBodies (by omega) (by omega)
      rw [hread]
      simp only
      rw [show ((hd.relinked (bodiesOff + bodyCursor - (headsOff + headCursor))).digest) = hd.digest
        from rfl, show ((hd.relinked (bodiesOff + bodyCursor - (headsOff + headCursor))).bodyLen) =
        hd.bodyLen from rfl, hentry]
      simp only
      rw [Head.length_relinked, hlen, Nat.add_assoc, Nat.add_assoc bodiesOff, this]
    | tombstone id =>
      have hheadLen : (Rec.tombstone id).headLen = headLenFor id := rfl
      have hbodyLen : (Rec.tombstone id).body = [] := rfl
      rw [hheadLen] at hheadsEnd
      rw [hbodyLen] at hbodiesEnd hbodies
      rw [List.length_nil, Nat.zero_add] at hbodiesEnd
      rw [List.nil_append] at hbodies
      unfold writeHeads at hheads
      rw [List.append_assoc] at hheads
      have hnextHeads := hheads.take.2
      have hslice : slice image (headsOff + headCursor) (headsOff + headCursor +
          (encodeHead id 0 rvAbsent 0 0).length) = some (encodeHead id 0 rvAbsent 0 0) := by
        obtain ⟨before, rfl, hb⟩ := hheads
        rw [← hb, ← List.append_assoc]
        exact slice_mid _ _ _
      rw [length_encodeHead, Nat.add_assoc] at hnextHeads
      have hn : (Head.mk 0 rvAbsent (BitVec.ofNat 32 0) (BitVec.ofNat 32 0) (idField id)).Names id := by
        refine Head.names_idField _ rfl ?_
        unfold headLenFor at hheadsEnd
        have : (2 : Nat) ^ 32 < 2 ^ 64 := by decide
        omega
      rw [encodeHead_eq] at hslice
      have hlenEq : (Head.mk 0 rvAbsent (BitVec.ofNat 32 0) (BitVec.ofNat 32 0)
          (idField id)).bytes.length = headLenFor id := by
        rw [← encodeHead_eq, length_encodeHead]
      have hfits : headsOff + headCursor + (Head.mk 0 rvAbsent (BitVec.ofNat 32 0)
          (BitVec.ofNat 32 0) (idField id)).bytes.length ≤ heads.stop := by
        rw [hlenEq]
        omega
      have hread := readHead_of_slice hn hslice hfits (by omega) n
      have := ih (n + 1) hnextHeads hbodies (by omega) (by omega)
      rw [hread]
      simp only
      have hentry : entryOf image bodies.stop ⟨(Head.mk 0 rvAbsent (BitVec.ofNat 32 0)
          (BitVec.ofNat 32 0) (idField id)).bytes, id, 0, (BitVec.ofNat 32 0).toNat,
          (BitVec.ofNat 32 0).toNat⟩ (headsOff + headCursor) (bodiesOff + bodyCursor) =
          some (.tombstone id) := if_pos rfl
      rw [hentry]
      simp only
      rw [hlenEq, show (BitVec.ofNat 32 0).toNat = 0 from rfl,
        Nat.add_zero (bodiesOff + bodyCursor), Nat.add_assoc headsOff, this]

/-! ## A whole image -/

/-- The header of a written image, its heads starting at `front`. -/
def writtenImage (blake3 : Bytes → Digest) (header : ImageHeader) (recs : List Rec) (front : Nat) :
    Image :=
  ⟨header.name, recordFormat, header.imageId, header.seq, header.catchupXor, header.prevXor,
    header.fieldNames, recs.length, ⟨front, front + headsLen recs⟩,
    ⟨front + headsLen recs, front + headsLen recs + bodiesLen recs⟩,
    blake3 (recs.map Rec.body).flatten⟩

theorem writeImage_ok {blake3 : Bytes → Digest} {header : ImageHeader} (h : writeImage blake3 header recs = .ok bytes) :
    ∃ nameChunk nameChunks, writeChunk (strBytes header.name) = .ok nameChunk ∧
      writeNames header.fieldNames = .ok nameChunks ∧
      (writeFront header nameChunk nameChunks recs).length + headsLen recs + bodiesLen recs < 2 ^ 32 ∧
      bytes = writeFront header nameChunk nameChunks recs ++
        writeHeads (writeFront header nameChunk nameChunks recs).length
          ((writeFront header nameChunk nameChunks recs).length + headsLen recs) recs 0 0 ++
        (recs.map Rec.body).flatten ++
        leBytes 32 (blake3 (writeFront header nameChunk nameChunks recs ++
          writeHeads (writeFront header nameChunk nameChunks recs).length
            ((writeFront header nameChunk nameChunks recs).length + headsLen recs) recs 0 0)).toNat ++
        leBytes 32 (blake3 (recs.map Rec.body).flatten).toNat := by
  unfold writeImage at h
  split at h
  next => cases h
  next nameChunk hname =>
    split at h
    next => cases h
    next nameChunks hnames =>
      simp only at h
      split at h
      next => cases h
      next hsmall =>
        cases h
        exact ⟨nameChunk, nameChunks, hname, hnames, by omega, rfl⟩

theorem take_magic : (magic ++ more).take 8 = magic := List.take_left' rfl

/-- The identity of a written image. -/
theorem parseIdentity_written {id : ImageId} {seq : Nat} (hseq : seq < 2 ^ 32)
    (h : bytes = magic ++ (leBytes 4 format ++ (leBytes 4 recordFormat ++
      (leBytes 8 id.toNat ++ (leBytes 4 seq ++ more))))) :
    parseIdentity bytes = .ok ⟨format, recordFormat, id, seq⟩ ∧ Before bytes fixedPrefixLen more := by
  have hlen : ¬ bytes.length < fixedPrefixLen := by
    rw [h]
    simp only [List.length_append, length_leBytes]
    unfold fixedPrefixLen magic
    simp only [List.length_cons, List.length_nil]
    omega
  have hid : id.toNat < 256 ^ 8 := by
    have := id.isLt
    norm_num at this ⊢
    exact this
  have hmagic : bytes.take 8 = magic := by
    rw [h]
    exact take_magic
  have h0 : Before bytes 8 (leBytes 4 format ++ (leBytes 4 recordFormat ++
      (leBytes 8 id.toNat ++ (leBytes 4 seq ++ more)))) := ⟨magic, h, rfl⟩
  obtain ⟨t1, h1⟩ := h0.takeNat (by decide)
  obtain ⟨t2, h2⟩ := h1.takeNat (by decide)
  obtain ⟨t3, h3⟩ := h2.takeNat hid
  obtain ⟨t4, h4⟩ := h3.takeNat (by norm_num; exact hseq)
  refine ⟨?_, h4⟩
  unfold parseIdentity
  rw [if_neg hlen, if_neg (not_not.mpr hmagic)]
  simp only [t1, t2, t3, t4, bind, Except.bind, BitVec.ofNat_toNat, BitVec.setWidth_eq]

/-- What the writer laid out, the reader finds: the header, the regions, the hashes and, walking
    the heads, the entries. -/
theorem read_writeImage {blake3 : Bytes → Digest} {header : ImageHeader} (hw : List.Forall₂ Writes recs entries)
    (hseq : header.seq < 2 ^ 32) (h : writeImage blake3 header recs = .ok bytes) :
    ∃ front, parseIdentity bytes = .ok ⟨format, recordFormat, header.imageId, header.seq⟩ ∧
      parseHeader bytes = .ok (writtenImage blake3 header recs front) ∧
      checkHeads blake3 bytes (writtenImage blake3 header recs front) = .ok () ∧
      bodiesVerified blake3 bytes (writtenImage blake3 header recs front) = true ∧
      deltaEntries bytes (writtenImage blake3 header recs front).heads
        (writtenImage blake3 header recs front).bodies recs.length = (entries, none) := by
  obtain ⟨nameChunk, nameChunks, hname, hnames, hsmall, hbytes⟩ := writeImage_ok h
  have hfieldsLen := length_writeNames hnames
  generalize hfront : writeFront header nameChunk nameChunks recs = front at hsmall hbytes
  generalize hheads : writeHeads front.length (front.length + headsLen recs) recs 0 0 = heads
    at hbytes
  have hheadsLen : heads.length = headsLen recs := by
    rw [← hheads]
    exact length_writeHeads hw _ _ _ _
  generalize hbodies : (recs.map Rec.body).flatten = bodies at hbytes
  have hbodiesLen : bodies.length = bodiesLen recs := by
    rw [← hbodies]
    exact length_bodies recs
  have hrows : recs.length ≤ headsLen recs :=
    Nat.le_trans (Nat.le_mul_of_pos_right _ (by decide)) (length_mul_le_headsLen hw)
  have hlen : bytes.length = front.length + headsLen recs + bodiesLen recs + trailerLen := by
    rw [hbytes]
    simp only [List.length_append, length_leBytes, hheadsLen, hbodiesLen]
    unfold trailerLen
    omega
  refine ⟨front.length, ?_⟩
  -- The header, field by field.
  have hsplit : bytes = magic ++ (leBytes 4 format ++ (leBytes 4 recordFormat ++
      (leBytes 8 header.imageId.toNat ++ (leBytes 4 header.seq ++ (nameChunk ++
      (leBytes 32 header.catchupXor.toNat ++ (leBytes 32 header.prevXor.toNat ++
      (leBytes 4 header.fieldNames.length ++ (nameChunks ++ (leBytes 8 recs.length ++
      (leBytes 8 (headsLen recs) ++ (leBytes 8 (bodiesLen recs) ++
      (heads ++ bodies ++ leBytes 32 (blake3 (front ++ heads)).toNat ++
        leBytes 32 (blake3 bodies).toNat))))))))))))) := by
    have hassoc : bytes = front ++ (heads ++ bodies ++ leBytes 32 (blake3 (front ++ heads)).toNat ++
        leBytes 32 (blake3 bodies).toNat) := by
      rw [hbytes]
      simp only [List.append_assoc]
    rw [hassoc]
    conv_lhs =>
      arg 1
      rw [← hfront]
      unfold writeFront
    simp only [List.append_assoc]
  have hfrontLen : front.length = fixedPrefixLen + nameChunk.length + 32 + 32 + 4 +
      nameChunks.length + 8 + 8 + 8 := by
    rw [← hfront]
    unfold writeFront fixedPrefixLen magic
    simp only [List.length_append, length_leBytes, List.length_cons, List.length_nil]
  obtain ⟨hident, h0⟩ := parseIdentity_written hseq hsplit
  obtain ⟨t1, h1⟩ := h0.takeStrChunk hname "table name"
  obtain ⟨t2, h2⟩ := h1.takeHash
  obtain ⟨t3, h3⟩ := h2.takeHash
  obtain ⟨t4, h4⟩ := h3.takeNat (by norm_num; omega)
  obtain ⟨t5, h5⟩ := h4.takeNames hnames
  obtain ⟨t6, h6⟩ := h5.takeNat (by norm_num; omega)
  obtain ⟨t7, h7⟩ := h6.takeNat (by norm_num; omega)
  obtain ⟨t8, -⟩ := h7.takeNat (by norm_num; omega)
  rw [← hfrontLen] at t8
  have hmin : ¬ bytes.length < minImageLen := by
    obtain ⟨-, hc⟩ := writeChunk_ok hname
    have : 4 ≤ nameChunk.length := by
      rw [hc, List.length_append, length_leBytes]
      omega
    unfold minImageLen
    omega
  have hregions : locateRegions bytes front.length (headsLen recs) (bodiesLen recs) =
      .ok (⟨front.length, front.length + headsLen recs⟩,
        ⟨front.length + headsLen recs, front.length + headsLen recs + bodiesLen recs⟩) := by
    unfold locateRegions
    rw [if_neg (by omega), if_neg (by omega), if_neg (by omega)]
  have hlastHash : bytes.drop (front.length + headsLen recs + bodiesLen recs + 32) =
      leBytes 32 (blake3 bodies).toNat := by
    rw [hbytes]
    refine List.drop_left' ?_
    simp only [List.length_append, length_leBytes, hheadsLen, hbodiesLen]
  have hheader : parseHeader bytes = .ok (writtenImage blake3 header recs front.length) := by
    unfold parseHeader
    rw [if_neg hmin]
    simp only [hident, bind, Except.bind, ne_eq, not_true_eq_false, if_false, t1, t2, t3, t4, t5, t6,
      t7, t8, hregions, hlastHash, digestOfBytes_leBytes]
    unfold writtenImage
    rw [hbodies]
  refine ⟨hident, hheader, ?_, ?_, ?_⟩
  · have hcovered : bytes.take (front.length + headsLen recs) = front ++ heads := by
      rw [hbytes, List.append_assoc, List.append_assoc]
      exact List.take_left' (by rw [List.length_append, hheadsLen])
    have htrailer : (bytes.drop (front.length + headsLen recs + bodiesLen recs)).take 32 =
        leBytes 32 (blake3 (front ++ heads)).toNat := by
      have hdrop : bytes.drop (front.length + headsLen recs + bodiesLen recs) =
          leBytes 32 (blake3 (front ++ heads)).toNat ++ leBytes 32 (blake3 bodies).toNat := by
        rw [hbytes, List.append_assoc (front ++ heads ++ bodies)]
        exact List.drop_left' (by simp only [List.length_append, hheadsLen, hbodiesLen])
      rw [hdrop]
      exact List.take_left' (length_leBytes _ _)
    unfold checkHeads headsVerified writtenImage
    simp only [ne_eq, not_true_eq_false, if_false]
    rw [hcovered, htrailer, digestOfBytes_leBytes]
    simp
  · have hregion : (bytes.drop (front.length + headsLen recs)).take (bodiesLen recs) = bodies := by
      have hdrop : bytes.drop (front.length + headsLen recs) = bodies ++
          (leBytes 32 (blake3 (front ++ heads)).toNat ++ leBytes 32 (blake3 bodies).toNat) := by
        rw [hbytes, List.append_assoc, List.append_assoc (front ++ heads)]
        exact List.drop_left' (by rw [List.length_append, hheadsLen])
      rw [hdrop]
      exact List.take_left' hbodiesLen
    unfold bodiesVerified writtenImage
    simp only [Nat.add_sub_cancel_left]
    rw [hregion, hbodies]
    simp
  · have hcheck : checkRegions bytes ⟨front.length, front.length + headsLen recs⟩
        ⟨front.length + headsLen recs, front.length + headsLen recs + bodiesLen recs⟩ recs.length =
        none := by
      have hmany : recs.length ≤ headsLen recs / headMinLen := by
        rw [Nat.le_div_iff_mul_le (by decide)]
        exact length_mul_le_headsLen hw
      unfold checkRegions
      simp only [Nat.add_sub_cancel_left]
      rw [if_neg (by omega), if_neg (by omega), if_neg (by omega)]
    have hheadsAt : Before bytes (front.length + 0) (heads ++ (bodies ++
        (leBytes 32 (blake3 (front ++ heads)).toNat ++ leBytes 32 (blake3 bodies).toNat))) :=
      ⟨front, by rw [hbytes]; simp only [List.append_assoc], rfl⟩
    have hbodiesAt : Before bytes (front.length + headsLen recs + 0) (bodies ++
        (leBytes 32 (blake3 (front ++ heads)).toNat ++ leBytes 32 (blake3 bodies).toNat)) :=
      ⟨front ++ heads, by rw [hbytes]; simp only [List.append_assoc],
        by rw [List.length_append, hheadsLen]; rfl⟩
    have hinside : front.length + headsLen recs + bodiesLen recs ≤ bytes.length := by omega
    rw [← hheads] at hheadsAt
    rw [← hbodies] at hbodiesAt
    unfold deltaEntries writtenImage
    simp only [hcheck]
    exact @walk_written recs entries bytes ⟨front.length, front.length + headsLen recs⟩
      ⟨front.length + headsLen recs, front.length + headsLen recs + bodiesLen recs⟩ hw
      front.length (front.length + headsLen recs) rfl hinside (Nat.le_add_right _ _) hsmall 0 0 _ _ 0
      hheadsAt hbodiesAt rfl rfl

end Sp00ky.Checkpoint
