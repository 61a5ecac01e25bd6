/-
  What the walks over an image's heads do to a table.

  Absorbing a delta applies the entries of its walk in order, whatever arena the rows end up
  in, and the hash it returns is the change to the table's (`absorb_spec`). An indexed base
  holds the entries it was walked over (`indexHeads_holds`); its heads and bodies tile
  their regions, and no id stands twice (`indexLoop_tiled`).
-/
import Sp00ky.Checkpoint.Heads

namespace Sp00ky.Checkpoint

open Std Lib Ssp

/-! ## Absorbing applies the entries -/

theorem recordsXor_split (m : ExtTreeMap String Record) (id : String) :
    recordsXor m = recordsXor (m.erase id) ^^^ ((m[id]?.map Record.digest).getD 0) :=
  tally_split (fun x y : Digest => x ^^^ y) 0 (fun _ (r : Record) => r.digest) m id

theorem recordsXor_insert (m : ExtTreeMap String Record) (id : String) (r : Record) :
    recordsXor (m.insert id r) = recordsXor (m.erase id) ^^^ r.digest :=
  tally_put (fun x y : Digest => x ^^^ y) 0 (fun _ (r : Record) => r.digest) m id (some r)

variable {t : RowTable} {m : ExtTreeMap String Record}

/-- The hash so far and the table's hash: their XOR never changes. -/
theorem absorbTombstone_spec (hh : Holds t m)
    (out : Absorbed) (id : String) :
    Holds (absorbTombstone t out id).1 (m.erase id) ∧
      (absorbTombstone t out id).1.dict = t.dict ∧
      (absorbTombstone t out id).1.arena = t.arena ∧
      (absorbTombstone t out id).2.xor ^^^ recordsXor (m.erase id) = out.xor ^^^ recordsXor m := by
  unfold absorbTombstone
  rw [hh.digestOf_eq]
  cases hm : m[id]? with
  | some r =>
    refine ⟨hh.removeSlot id, t.removeSlot_dict id, t.removeSlot_arena id, ?_⟩
    rw [recordsXor_split m id, hm]
    simp only [Option.map_some, Option.getD_some]
    rw [BitVec.xor_assoc, BitVec.xor_comm r.digest]
  | none =>
    refine ⟨?_, rfl, rfl, ?_⟩
    · rw [erase_eq_self hm]
      exact hh
    · rw [erase_eq_self hm]
      rfl

/-- The arena a delta's rows are read from: a mapped delta is a segment of it. -/
def AbsorbInto.Fits (into : AbsorbInto) (arena : Arena) (image : Bytes) : Prop :=
  ∀ seg, into = .segment seg → arena.segs[seg]? = some image

theorem AbsorbInto.copy_fits (arena : Arena) (image : Bytes) : AbsorbInto.copy.Fits arena image := by
  intro seg hseg
  cases hseg

variable {image block : Bytes} {into : AbsorbInto}

theorem absorbRow_spec (hh : Holds t m)
    (out : Absorbed) (hinto : into.Fits t.arena image)
    {hd : Head} {id : String} {pos nextBody : Nat} {r : Record} (hn : hd.Names id)
    (hslice : slice image pos (pos + hd.bytes.length) = some hd.bytes)
    (hrel : pos + hd.bodyRel.toNat = nextBody) (hsmall : hd.bytes.length < 2 ^ 32)
    (hdigest : r.digest = hd.digest) (hrv : r.rv = hd.rv)
    (hbody : r.body = (image.drop nextBody).take hd.bodyLen.toNat)
    (hlen : r.body.length = hd.bodyLen.toNat)
    (hbslice : slice image nextBody (nextBody + hd.bodyLen.toNat) = some r.body) :
    let a := absorbRow t out image into
      ⟨hd.bytes, id, hd.digest, hd.bodyRel.toNat, hd.bodyLen.toNat⟩ pos nextBody
    Holds a.1 (m.insert id r) ∧ a.1.dict = t.dict ∧ into.Fits a.1.arena image ∧
      a.2.xor ^^^ recordsXor (m.insert id r) = out.xor ^^^ recordsXor m := by
  intro a
  have hxor : a.2.xor ^^^ recordsXor (m.insert id r) = out.xor ^^^ recordsXor m := by
    unfold a absorbRow
    dsimp only
    rw [hh.digestOf_eq, recordsXor_insert, recordsXor_split m id, hdigest]
    cases m[id]? with
    | some old =>
      simp only [Option.map_some, Option.getD_some]
      rw [BitVec.xor_comm (recordsXor _), BitVec.xor_comm (recordsXor _), BitVec.xor_assoc,
        ← BitVec.xor_assoc hd.digest, BitVec.xor_self, BitVec.zero_xor, BitVec.xor_assoc]
    | none =>
      simp only [Option.map_none, Option.getD_none]
      rw [BitVec.xor_comm (recordsXor _), BitVec.xor_assoc, ← BitVec.xor_assoc hd.digest,
        BitVec.xor_self, BitVec.zero_xor]
      rw [show recordsXor (m.erase id) ^^^ (0 : Digest) = recordsXor (m.erase id) from
        BitVec.xor_zero]
  cases into with
  | segment seg =>
    have hseg := hinto seg rfl
    have hs : SlotHolds t.arena ⟨seg, pos, hd.bytes.length⟩ id r hd := by
      refine ⟨?_, hn, hdigest.symm, hrv.symm, hlen.symm, ?_⟩
      · unfold Arena.read
        rw [hseg, Option.bind_some]
        exact hslice
      · unfold Arena.read
        simp only
        rw [hseg, Option.bind_some, hrel, hlen]
        exact hbslice
    refine ⟨hh.place hs, RowTable.place_dict _ _ _, ?_, hxor⟩
    intro seg' heq
    unfold a absorbRow
    simp only [RowTable.place_arena]
    exact hinto seg' heq
  | copy =>
    have hrelinked : (hd.relinked hd.bytes.length).bodyRel.toNat =
        (hd.relinked hd.bytes.length).bytes.length := by
      rw [Head.length_relinked]
      exact (BitVec.toNat_ofNat _ _).trans (Nat.mod_eq_of_lt hsmall)
    obtain ⟨hd1, hd2, hd3⟩ := hd.relinked_kept hd.bytes.length
    have happ := hh.appendRecord (r := r) (hn.relinked hd.bytes.length) (hd1.trans hdigest.symm)
      (hd2.trans hrv.symm) ((congrArg BitVec.toNat hd3).trans hlen.symm) hrelinked
    rw [Head.length_relinked] at happ
    refine ⟨?_, ?_, ?_, ?_⟩
    · unfold a absorbRow
      simp only [Head.relinkHead_bytes, ← hbody]
      exact happ.1.place happ.2
    · unfold a absorbRow
      simp only [RowTable.place_dict]
      rfl
    · exact AbsorbInto.copy_fits _ _
    · exact hxor

/-- The walk's outcome, as a result of `absorb`. -/
def Outcome (out : Absorbed) (m : ExtTreeMap String Record)
    (walked : List Entry × Option BlockError) (result : Except BlockError Absorbed) : Prop :=
  match walked.2 with
  | some e => result = .error e
  | none => ∃ out', result = .ok out' ∧
      out'.xor ^^^ recordsXor (applyEntries m walked.1) = out.xor ^^^ recordsXor m

variable {entries : List Entry}

theorem Outcome.cons {out out' : Absorbed} {m m' : ExtTreeMap String Record} {entry : Entry} {e : Option BlockError} {result : Except BlockError Absorbed}
    (h : Outcome out' m' (entries, e) result) (hm : applyEntry m entry = m')
    (hxor : out'.xor ^^^ recordsXor m' = out.xor ^^^ recordsXor m) :
    Outcome out m (entry :: entries, e) result := by
  subst hm
  cases e with
  | some e => exact h
  | none =>
    obtain ⟨last, hok, hx⟩ := h
    exact ⟨last, hok, hx.trans hxor⟩

variable {heads bodies : Region}

theorem absorbLoop_spec
    (hstop : bodies.stop ≤ image.length) (hsmall : heads.stop < 2 ^ 32) (count n pos nextBody : Nat)
    (out : Absorbed) (hh : Holds t m)
    (hinto : into.Fits t.arena image) :
    let walked := walk image heads bodies count n pos nextBody
    let absorbed := absorbLoop image heads bodies into count n pos nextBody out t
    Holds absorbed.1 (applyEntries m walked.1) ∧ absorbed.1.dict = t.dict ∧
      Outcome out m walked absorbed.2 := by
  induction count generalizing n pos nextBody out t m with
  | zero =>
    refine ⟨hh, rfl, ?_⟩
    unfold Outcome walk absorbLoop
    by_cases hend : pos ≠ heads.stop ∨ nextBody ≠ bodies.stop
    · simp only [if_pos hend]
    · simp only [if_neg hend]
      exact ⟨out, rfl, rfl⟩
  | succ count ih =>
    unfold walk absorbLoop
    cases hread : readHead image pos heads.stop n with
    | error e => exact ⟨hh, rfl, rfl⟩
    | ok head =>
      obtain ⟨hd, hfields, hn, hslice, hle⟩ := readHead_ok hread
      rw [hfields]
      simp only
      by_cases hlen : hd.bodyLen.toNat = 0
      · -- A tombstone takes no body.
        have hentry : entryOf image bodies.stop
            ⟨hd.bytes, head.id, hd.digest, hd.bodyRel.toNat, hd.bodyLen.toNat⟩ pos nextBody =
            some (.tombstone head.id) := if_pos hlen
        obtain ⟨hh', hdict, harena, hxor⟩ := absorbTombstone_spec hh out head.id
        have hinto' : into.Fits (absorbTombstone t out head.id).1.arena image := by
          rw [harena]
          exact hinto
        have := ih (n + 1) (pos + hd.bytes.length) nextBody (absorbTombstone t out head.id).2 hh' hinto'
        obtain ⟨h1, h2, h3⟩ := this
        rw [hentry, if_pos hlen, hlen, Nat.add_zero]
        exact ⟨h1, h2.trans hdict, h3.cons rfl hxor⟩
      · rw [if_neg hlen]
        cases hbad : badBody ⟨hd.bytes, head.id, hd.digest, hd.bodyRel.toNat, hd.bodyLen.toNat⟩ pos
            nextBody bodies.stop with
        | true =>
          have hentry : entryOf image bodies.stop
              ⟨hd.bytes, head.id, hd.digest, hd.bodyRel.toNat, hd.bodyLen.toNat⟩ pos nextBody =
              none := by
            unfold entryOf
            simp only
            rw [if_neg hlen, if_pos hbad]
          rw [hentry, if_pos rfl]
          exact ⟨hh, rfl, rfl⟩
        | false =>
          obtain ⟨r, hentry, hdigest, hrv, hbody, hblen, hbslice⟩ := entryOf_upsert hstop hlen hbad
          have hrel : pos + hd.bodyRel.toNat = nextBody := by
            unfold badBody at hbad
            simp only [Bool.or_eq_false_iff, decide_eq_false_iff_not, not_not] at hbad
            exact hbad.1.2
          have hrow := absorbRow_spec hh out hinto hn hslice hrel (by omega) hdigest hrv hbody hblen
            hbslice
          obtain ⟨hh', hdict, hinto', hxor⟩ := hrow
          have := ih (n + 1) (pos + hd.bytes.length) (nextBody + hd.bodyLen.toNat)
            (absorbRow t out image into ⟨hd.bytes, head.id, hd.digest, hd.bodyRel.toNat,
              hd.bodyLen.toNat⟩ pos nextBody).2 hh' hinto'
          obtain ⟨h1, h2, h3⟩ := this
          rw [hentry, if_neg (by simp)]
          exact ⟨h1, h2.trans hdict, h3.cons rfl hxor⟩

/-- Absorbing a delta applies its entries, up to the first bad head. -/
theorem absorb_spec (rows : Nat) (hh : Holds t m)
    (hinto : into.Fits t.arena image) :
    let walked := deltaEntries image heads bodies rows
    let absorbed := absorb t image heads bodies rows into
    Holds absorbed.1 (applyEntries m walked.1) ∧ absorbed.1.dict = t.dict ∧
      Outcome ⟨0, 0, 0, 0⟩ m walked absorbed.2 := by
  unfold deltaEntries absorb
  cases hcheck : checkRegions image heads bodies rows with
  | some e => exact ⟨hh, rfl, rfl⟩
  | none =>
    unfold checkRegions at hcheck
    split at hcheck
    next => cases hcheck
    next hregions =>
      split at hcheck
      next => cases hcheck
      next hlarge =>
        exact absorbLoop_spec (by omega) (by omega) rows 0 heads.start bodies.start _ hh hinto

/-! ## Indexing a base -/

/-- The head of a row stands at `pos` and its body at `nextBody`, inside the bodies. -/
structure RowStands (block : Bytes) (bodiesStop pos nextBody : Nat) (hd : Head) (id : String) :
    Prop where
  head : slice block pos (pos + hd.bytes.length) = some hd.bytes
  names : hd.Names id
  past : hd.bytes.length ≤ hd.bodyRel.toNat
  rel : pos + hd.bodyRel.toNat = nextBody
  live : hd.bodyLen.toNat ≠ 0
  inside : nextBody + hd.bodyLen.toNat ≤ bodiesStop

theorem RowStands.badBody_eq {bodiesStop pos nextBody : Nat} {hd : Head}
    {id : String} (hs : RowStands block bodiesStop pos nextBody hd id) :
    badBody ⟨hd.bytes, id, hd.digest, hd.bodyRel.toNat, hd.bodyLen.toNat⟩ pos nextBody bodiesStop =
      false := by
  obtain ⟨-, -, h1, h2, -, h3⟩ := hs
  unfold badBody
  simp only [Bool.or_eq_false_iff, decide_eq_false_iff_not, not_not]
  omega

/-- The row of a head that stands in the image, held by any arena with the image as a segment. -/
theorem RowStands.record {bodiesStop pos nextBody : Nat} {hd : Head} {id : String}
    (hs : RowStands block bodiesStop pos nextBody hd id) (hstop : bodiesStop ≤ block.length) :
    ∃ r : Record, entryOf block bodiesStop
        ⟨hd.bytes, id, hd.digest, hd.bodyRel.toNat, hd.bodyLen.toNat⟩ pos nextBody =
        some (.upsert id r) ∧ r.digest = hd.digest ∧
      ∀ (arena : Arena) (seg : Nat), arena.segs[seg]? = some block →
        SlotHolds arena ⟨seg, pos, hd.bytes.length⟩ id r hd := by
  obtain ⟨r, hentry, hdigest, hrv, -, hblen, hbslice⟩ := entryOf_upsert hstop hs.live hs.badBody_eq
  refine ⟨r, hentry, hdigest, ?_⟩
  intro arena seg hseg
  refine ⟨?_, hs.names, hdigest.symm, hrv.symm, hblen.symm, ?_⟩
  · unfold Arena.read
    rw [hseg, Option.bind_some]
    exact hs.head
  · unfold Arena.read
    simp only
    rw [hseg, Option.bind_some, hs.rel, hblen]
    exact hbslice

/-- One more head of a base that was indexed. -/
theorem indexLoop_succ_ok {seg count n pos nextBody : Nat}
    {out ix : IndexedHeads}
    (h : indexLoop block heads bodies seg (count + 1) n pos nextBody out = .ok ix) :
    ∃ hd id, RowStands block bodies.stop pos nextBody hd id ∧ pos + hd.bytes.length ≤ heads.stop ∧
      readHead block pos heads.stop n =
        .ok ⟨hd.bytes, id, hd.digest, hd.bodyRel.toNat, hd.bodyLen.toNat⟩ ∧
      (∀ s ∈ out.index, idIn block s ≠ some id) ∧
      indexLoop block heads bodies seg count (n + 1) (pos + hd.bytes.length)
        (nextBody + hd.bodyLen.toNat)
        ⟨out.index ++ [⟨seg, pos, hd.bytes.length⟩], out.xor ^^^ hd.digest⟩ = .ok ix := by
  unfold indexLoop at h
  split at h
  next => cases h
  next head hread =>
    obtain ⟨hd, hfields, hn, hslice, hle⟩ := readHead_ok hread
    rw [hfields] at h
    simp only at h
    split at h
    next => cases h
    next hlive =>
      split at h
      next => cases h
      next hbad =>
        split at h
        next => cases h
        next hdup =>
          unfold badBody at hbad
          simp only [Bool.or_eq_true, decide_eq_true_eq] at hbad
          refine ⟨hd, head.id, ⟨hslice, hn, by omega, by omega, hlive, by omega⟩, hle,
            hread.trans (congrArg _ hfields), ?_, h⟩
          intro s hs heq
          apply hdup
          exact List.any_eq_true.mpr ⟨s, hs, by rw [heq]; exact beq_self_eq_true _⟩

variable {seg rows : Nat}

/-- In an arena with the block as its segment, a slot's id is read from the block. -/
theorem slotId_eq_idIn {arena : Arena}
    (hseg : arena.segs[seg]? = some block) {slot : Span} (h : slot.seg = seg) :
    slotId arena slot = idIn block slot := by
  unfold slotId idIn Arena.get Arena.read
  rw [h, hseg, Option.bind_some]
  cases hs : slice block slot.off (slot.off + slot.len) with
  | some x => rfl
  | none => rfl

/-- An indexed base holds the entries it was walked over, and its hash is theirs. -/
theorem indexLoop_holds {arena : Arena}
    (hseg : arena.segs[seg]? = some block) (hstop : bodies.stop ≤ block.length)
    {count n pos nextBody : Nat} {out ix : IndexedHeads}
    (h : indexLoop block heads bodies seg count n pos nextBody out = .ok ix)
    (hh : HoldsAll arena out.index m) (hsegs : ∀ s ∈ out.index, s.seg = seg)
    (hxor : out.xor = recordsXor m) :
    ∃ entries, walk block heads bodies count n pos nextBody = (entries, none) ∧
      HoldsAll arena ix.index (applyEntries m entries) ∧
      ix.xor = recordsXor (applyEntries m entries) := by
  induction count generalizing n pos nextBody out m with
  | zero =>
    unfold indexLoop at h
    split at h
    next => cases h
    next hend =>
      cases h
      refine ⟨[], ?_, hh, hxor⟩
      unfold walk
      rw [if_neg hend]
  | succ count ih =>
    obtain ⟨hd, id, hs, hle, hread, hnew, hnext⟩ := indexLoop_succ_ok h
    obtain ⟨r, hentry, hdigest, hslot⟩ := hs.record hstop
    have habsent : m[id]? = none := by
      cases hm : m[id]? with
      | none => rfl
      | some old =>
        obtain ⟨s, hmem, hd', hold⟩ := hh.complete id old hm
        have := hold.slotId_eq
        rw [slotId_eq_idIn hseg (hsegs s hmem)] at this
        exact absurd this (hnew s hmem)
    have hh' : HoldsAll arena (out.index ++ [⟨seg, pos, hd.bytes.length⟩]) (m.insert id r) :=
      (hh.cons habsent (hslot arena seg hseg)).perm (List.perm_append_singleton _ _).symm
    have hsegs' : ∀ s ∈ out.index ++ [(⟨seg, pos, hd.bytes.length⟩ : Span)], s.seg = seg := by
      intro s hmem
      rcases List.mem_append.mp hmem with hmem | hmem
      · exact hsegs s hmem
      · rw [List.mem_singleton.mp hmem]
    have hxor' : out.xor ^^^ hd.digest = recordsXor (m.insert id r) := by
      rw [recordsXor_insert, erase_eq_self habsent, hxor, hdigest]
    obtain ⟨entries, hwalk, hheld, hx⟩ := ih hnext hh' hsegs' hxor'
    refine ⟨.upsert id r :: entries, ?_, hheld, hx⟩
    rw [walk, hread]
    simp only [hentry, hwalk]

theorem checkRegions_none
    (h : checkRegions image heads bodies rows = none) :
    heads.start ≤ heads.stop ∧ heads.stop ≤ bodies.start ∧ bodies.start ≤ bodies.stop ∧
      bodies.stop ≤ image.length ∧ bodies.stop < 2 ^ 32 := by
  unfold checkRegions at h
  split at h
  next => cases h
  next hregions =>
    split at h
    next => cases h
    next => omega

/-- The table over an indexed base. -/
theorem indexHeads_holds {arena : Arena}
    {ix : IndexedHeads} (hseg : arena.segs[seg]? = some block)
    (h : indexHeads block heads bodies rows seg = .ok ix) :
    ∃ entries, deltaEntries block heads bodies rows = (entries, none) ∧
      HoldsAll arena ix.index (applyEntries ∅ entries) ∧
      ix.xor = recordsXor (applyEntries ∅ entries) := by
  unfold indexHeads at h
  unfold deltaEntries
  cases hcheck : checkRegions block heads bodies rows with
  | some e =>
    rw [hcheck] at h
    cases h
  | none =>
    rw [hcheck] at h
    exact indexLoop_holds hseg (checkRegions_none hcheck).2.2.2.1 h (HoldsAll.nil arena)
      (fun s hs => by cases hs) rfl

/-! ## Tiling -/

/-- Where a row of an image lies. -/
structure RowSpan where
  id : String
  headAt : Nat
  headLen : Nat
  bodyAt : Nat
  bodyLen : Nat

/-- Heads and bodies that follow one another from the two positions to the two ends. -/
def Tiled (headsStop bodiesStop : Nat) : List RowSpan → Nat → Nat → Prop
  | [], pos, nextBody => pos = headsStop ∧ nextBody = bodiesStop
  | row :: rows, pos, nextBody =>
    row.headAt = pos ∧ row.bodyAt = nextBody ∧ 0 < row.headLen ∧ 0 < row.bodyLen ∧
      Tiled headsStop bodiesStop rows (pos + row.headLen) (nextBody + row.bodyLen)

/-- The head of the row is in the image, names it and points at its body. -/
def RowSpan.Stands (block : Bytes) (row : RowSpan) : Prop :=
  ∃ hd : Head, slice block row.headAt (row.headAt + row.headLen) = some hd.bytes ∧
    hd.Names row.id ∧ row.headAt + hd.bodyRel.toNat = row.bodyAt ∧
    hd.bodyLen.toNat = row.bodyLen ∧ row.bodyAt + row.bodyLen ≤ block.length

theorem indexLoop_tiled
    (hstop : bodies.stop ≤ block.length) {count n pos nextBody : Nat} {out ix : IndexedHeads}
    (h : indexLoop block heads bodies seg count n pos nextBody out = .ok ix) :
    ∃ rows : List RowSpan, rows.length = count ∧
      ix.index = out.index ++ rows.map (fun row => ⟨seg, row.headAt, row.headLen⟩) ∧
      Tiled heads.stop bodies.stop rows pos nextBody ∧ (∀ row ∈ rows, row.Stands block) ∧
      (rows.map RowSpan.id).Nodup ∧ ∀ row ∈ rows, ∀ s ∈ out.index, idIn block s ≠ some row.id := by
  induction count generalizing n pos nextBody out with
  | zero =>
    unfold indexLoop at h
    split at h
    next => cases h
    next hend =>
      cases h
      refine ⟨[], rfl, by simp, ?_, by simp, List.nodup_nil, by simp⟩
      unfold Tiled
      omega
  | succ count ih =>
    obtain ⟨hd, id, hs, hle, -, hnew, hnext⟩ := indexLoop_succ_ok h
    obtain ⟨rows, hlen, hindex, htiled, hstands, hnodup, hother⟩ := ih hnext
    have hidIn : idIn block ⟨seg, pos, hd.bytes.length⟩ = some id := by
      unfold idIn
      simp only [hs.head, Option.bind_some]
      exact hs.names.headId_bytes
    have hpos : 0 < hd.bytes.length := List.length_pos_iff.mpr (SlotHolds.bytes_ne_nil hd)
    refine ⟨⟨id, pos, hd.bytes.length, nextBody, hd.bodyLen.toNat⟩ :: rows, by simp [hlen], ?_,
      ?_, ?_, ?_, ?_⟩
    · rw [hindex, List.map_cons, List.append_assoc]
      rfl
    · exact ⟨rfl, rfl, hpos, Nat.pos_of_ne_zero hs.live, htiled⟩
    · intro row hrow
      rcases List.mem_cons.mp hrow with rfl | hrow
      · exact ⟨hd, hs.head, hs.names, hs.rel, rfl, Nat.le_trans hs.inside hstop⟩
      · exact hstands row hrow
    · rw [List.map_cons, List.nodup_cons]
      refine ⟨?_, hnodup⟩
      intro hmem
      obtain ⟨row, hrow, heq⟩ := List.mem_map.mp hmem
      refine hother row hrow ⟨seg, pos, hd.bytes.length⟩ (by simp) ?_
      rw [hidIn, heq]
    · intro row hrow s hmem
      rcases List.mem_cons.mp hrow with rfl | hrow
      · exact hnew s hmem
      · exact hother row hrow s (List.mem_append_left _ hmem)

/-! ## A walk that succeeds -/

/-- One more head of a walk that succeeded. -/
theorem walk_succ_ok {count n pos nextBody : Nat}
    (h : walk image heads bodies (count + 1) n pos nextBody = (entries, none)) :
    ∃ head entry entries', readHead image pos heads.stop n = .ok head ∧
      entryOf image bodies.stop head pos nextBody = some entry ∧ entries = entry :: entries' ∧
      walk image heads bodies count (n + 1) (pos + head.bytes.length) (nextBody + head.len) =
        (entries', none) := by
  unfold walk at h
  split at h
  next => cases h
  next head hread =>
    split at h
    next => cases h
    next entry hentry =>
      simp only [Prod.mk.injEq] at h
      exact ⟨head, entry, _, hread, hentry, h.1.symm, Prod.ext rfl h.2⟩

/-- A base whose walk succeeds with distinct live rows is indexed. -/
theorem indexLoop_of_walk {seg count n pos nextBody : Nat}
    {out : IndexedHeads}
    (h : walk block heads bodies count n pos nextBody = (entries, none))
    (hlive : ∀ e ∈ entries, e.record ≠ none) (hdistinct : (entries.map Entry.id).Nodup)
    (hnew : ∀ e ∈ entries, ∀ s ∈ out.index, idIn block s ≠ some e.id) :
    ∃ ix, indexLoop block heads bodies seg count n pos nextBody out = .ok ix := by
  induction count generalizing n pos nextBody out entries with
  | zero =>
    unfold walk at h
    have hend : ¬ (pos ≠ heads.stop ∨ nextBody ≠ bodies.stop) := by
      intro hbad
      rw [if_pos hbad] at h
      cases h
    refine ⟨out, ?_⟩
    unfold indexLoop
    exact if_neg hend
  | succ count ih =>
    obtain ⟨head, entry, entries', hread, hentry, rfl, hwalk⟩ := walk_succ_ok h
    rw [List.map_cons, List.nodup_cons] at hdistinct
    have hlen : head.len ≠ 0 := by
      intro h0
      unfold entryOf at hentry
      rw [if_pos h0] at hentry
      cases hentry
      exact hlive _ List.mem_cons_self rfl
    have hgood : badBody head pos nextBody bodies.stop = false := by
      rw [← Bool.not_eq_true]
      intro hbad
      unfold entryOf at hentry
      rw [if_neg hlen, if_pos hbad] at hentry
      cases hentry
    have hid : entry.id = head.id := by
      unfold entryOf at hentry
      rw [if_neg hlen, if_neg (by rw [hgood]; simp)] at hentry
      simp only at hentry
      split at hentry
      next =>
        obtain ⟨rv, -, rfl⟩ := Option.map_eq_some_iff.mp hentry
        rfl
      next => cases hentry
    have hdup : ¬ (out.index.any fun s => idIn block s == some head.id) = true := by
      intro hany
      obtain ⟨s, hmem, heq⟩ := List.any_eq_true.mp hany
      rw [← hid] at heq
      exact hnew _ List.mem_cons_self s hmem (eq_of_beq heq)
    obtain ⟨hd, hfields, hn, hslice, -⟩ := readHead_ok hread
    unfold indexLoop
    rw [hread]
    simp only
    rw [if_neg hlen, if_neg (by rw [hgood]; simp), if_neg hdup]
    refine ih hwalk (List.forall_mem_cons.mp hlive).2 hdistinct.2 ?_
    intro e he s hs
    rcases List.mem_append.mp hs with hs | hs
    · exact hnew e (List.mem_cons_of_mem _ he) s hs
    · rw [List.mem_singleton.mp hs]
      have hidIn : idIn block ⟨seg, pos, head.bytes.length⟩ = some head.id := by
        have hbytes : head.bytes = hd.bytes := by rw [hfields]
        unfold idIn
        simp only
        rw [hbytes, hslice, Option.bind_some]
        exact hn.headId_bytes
      rw [hidIn, ← hid]
      intro heq
      exact hdistinct.1 (List.mem_map.mpr ⟨e, he, (Option.some.inj heq).symm⟩)

/-- A base of distinct live rows is indexed. -/
theorem indexHeads_of_entries (seg : Nat) (h : deltaEntries block heads bodies rows = (entries, none))
    (hlive : ∀ e ∈ entries, e.record ≠ none) (hdistinct : (entries.map Entry.id).Nodup) :
    ∃ ix, indexHeads block heads bodies rows seg = .ok ix := by
  unfold deltaEntries at h
  unfold indexHeads
  cases hcheck : checkRegions block heads bodies rows with
  | some e =>
    rw [hcheck] at h
    cases h
  | none =>
    rw [hcheck] at h
    exact indexLoop_of_walk h hlive hdistinct fun e _ s hs => by cases hs

end Sp00ky.Checkpoint
