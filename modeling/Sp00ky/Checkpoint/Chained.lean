/-
  What a chain of files means, and what the two loaders make of it.

  `Chained` is the meaning: the dictionary and the records that a base and the deltas applied to it
  stand for. `Chained.run` follows the deltas up to the first that is refused. The loader over
  mappings always ends at that state (`mapTable_spec`). The loader on the heap absorbs in place and
  starts over only when the hash has moved, so at a refused delta it ends at what the delta had
  changed by then (`readTable_spec`).
-/
import Sp00ky.Checkpoint.Load

namespace Sp00ky.Checkpoint

open Std Lib Ssp

/-! ## The meaning of a chain -/

/-- What the files read so far stand for. -/
structure Chained where
  chain : Chain
  dict : FieldDict
  recs : ExtTreeMap String Record
  applied : List (Nat × Nat)

namespace Chained

/-- A base image of the current format. -/
def ofBase (blake3 : Bytes → Digest) (base : Bytes) : Except CheckpointError Chained := do
  let image ← parseHeader base
  let ix ← indexParsed blake3 base image
  if !bodiesVerified blake3 base image then .error (.invalid "bodies checksum mismatch")
  else
    .ok ⟨Chain.fromBase image, ix.dict,
      applyEntries ∅ (deltaEntries base image.heads image.bodies image.rows).1, []⟩

variable (s : Chained) (delta : Bytes) (image : Image)

/-- The dictionary with the names a delta adds, up to one it repeats. -/
def names : FieldDict × Bool := s.dict.extend (image.fieldNames.drop s.dict.len)

/-- The entries a delta brings, up to its first bad head. -/
def entries : List Entry × Option BlockError :=
  if (s.names image).2 then deltaEntries delta image.heads image.bodies image.rows else ([], none)

/-- The records with those entries applied. -/
def after : ExtTreeMap String Record := applyEntries s.recs (s.entries delta image).1

/-- Whether a delta is absorbed to its end, so that its hash is looked at. -/
def whole : Bool := (s.names image).2 && (s.entries delta image).2.isNone

/-- Why a checked delta is refused. -/
def refusal : Option CheckpointError :=
  if !(s.names image).2 then some (.invalid "delta dictionary repeats a name")
  else
    match (s.entries delta image).2 with
    | some e => some (.invalid e.message)
    | none =>
      if recordsXor (s.after delta image) ≠ image.storedXor then
        some (.invalid "rows do not add up to the delta's stored catch-up hash")
      else none

/-- One delta. -/
def step (blake3 : Bytes → Digest) : Except CheckpointError Chained :=
  match s.chain.check blake3 delta with
  | .error e => .error e
  | .ok image =>
    if !bodiesVerified blake3 delta image then .error (.invalid "bodies checksum mismatch")
    else
      match s.refusal delta image with
      | some e => .error e
      | none =>
        .ok ⟨s.chain.advance image, (s.names image).1, s.after delta image,
          s.applied ++ [(image.seq, delta.length)]⟩

end Chained

/-- A delta that was refused: its place, its bytes and the reason. -/
structure Refusal where
  k : Nat
  delta : Bytes
  e : CheckpointError

namespace Chained

/-- The deltas from the `k`-th on, up to the first that is refused. -/
def run (blake3 : Bytes → Digest) : Chained → List Bytes → Nat → Chained × Option Refusal
  | s, [], _ => (s, none)
  | s, delta :: deltas, k =>
    match s.step delta blake3 with
    | .ok s' => run blake3 s' deltas (k + 1)
    | .error e => (s, some ⟨k, delta, e⟩)

variable {blake3 : Bytes → Digest} {s s' : Chained} {delta : Bytes}

theorem run_cons_ok
    (h : s.step delta blake3 = .ok s') (deltas : List Bytes) (k : Nat) :
    run blake3 s (delta :: deltas) k = run blake3 s' deltas (k + 1) := by
  rw [run, h]

theorem run_cons_error
    {e : CheckpointError} (h : s.step delta blake3 = .error e) (deltas : List Bytes) (k : Nat) :
    run blake3 s (delta :: deltas) k = (s, some ⟨k, delta, e⟩) := by
  rw [run, h]

/-- The run stops at the delta it names, and the deltas before it are applied. -/
theorem run_refused {deltas : List Bytes} {k : Nat}
    {r : Refusal} (h : (run blake3 s deltas k).2 = some r) :
    ∃ i, r.k = k + i ∧ deltas[i]? = some r.delta ∧
      (run blake3 s deltas k).1.step r.delta blake3 = .error r.e ∧
      run blake3 s (deltas.take i) k = ((run blake3 s deltas k).1, none) := by
  induction deltas generalizing s k with
  | nil => cases h
  | cons delta deltas ih =>
    cases hstep : s.step delta blake3 with
    | error e =>
      rw [run_cons_error hstep] at h ⊢
      cases h
      exact ⟨0, rfl, rfl, hstep, rfl⟩
    | ok s' =>
      rw [run_cons_ok hstep] at h ⊢
      obtain ⟨i, hk, hdelta, hrefused, hrun⟩ := ih h
      refine ⟨i + 1, by omega, hdelta, hrefused, ?_⟩
      rw [List.take_succ_cons, run_cons_ok hstep, hrun]

/-- The chain's hash is that of the records. -/
def Sound (s : Chained) : Prop := s.chain.xor = recordsXor s.recs

theorem whole_of_refusal {image : Image}
    (h : s.refusal delta image = none) :
    s.whole delta image = true ∧ recordsXor (s.after delta image) = image.storedXor := by
  unfold refusal at h
  split at h
  next => cases h
  next hnames =>
    split at h
    next => cases h
    next herr =>
      split at h
      next => cases h
      next hsum =>
        unfold whole
        rw [herr]
        exact ⟨by simpa using hnames, not_not.mp hsum⟩

theorem step_sound
    (h : s.step delta blake3 = .ok s') : s'.Sound := by
  unfold step at h
  split at h
  next => cases h
  next image hcheck =>
    split at h
    next => cases h
    next hbodies =>
      split at h
      next => cases h
      next hrefusal =>
        cases h
        exact (whole_of_refusal hrefusal).2.symm

theorem step_name
    (h : s.step delta blake3 = .ok s') :
    s'.chain.name = s.chain.name ∧ s'.chain.imageId = s.chain.imageId := by
  unfold step at h
  split at h
  next => cases h
  next image hcheck =>
    split at h
    next => cases h
    next hbodies =>
      split at h
      next => cases h
      next =>
        cases h
        exact ⟨rfl, rfl⟩

theorem run_sound (hs : s.Sound) (deltas : List Bytes)
    (k : Nat) : (run blake3 s deltas k).1.Sound := by
  induction deltas generalizing s k with
  | nil => exact hs
  | cons delta deltas ih =>
    cases hstep : s.step delta blake3 with
    | error e =>
      rw [run_cons_error hstep]
      exact hs
    | ok s' =>
      rw [run_cons_ok hstep]
      exact ih (step_sound hstep) (k + 1)

theorem run_name (s : Chained) (deltas : List Bytes) (k : Nat) :
    (run blake3 s deltas k).1.chain.name = s.chain.name ∧
      (run blake3 s deltas k).1.chain.imageId = s.chain.imageId := by
  induction deltas generalizing s k with
  | nil => exact ⟨rfl, rfl⟩
  | cons delta deltas ih =>
    cases hstep : s.step delta blake3 with
    | error e =>
      rw [run_cons_error hstep]
      exact ⟨rfl, rfl⟩
    | ok s' =>
      rw [run_cons_ok hstep, (ih s' (k + 1)).1, (ih s' (k + 1)).2]
      exact step_name hstep

end Chained

/-! ## Absorbing one delta -/

theorem absorbRow_segment_arena (t : RowTable) (out : Absorbed) (image : Bytes) (seg : Nat)
    (head : HeadRead) (pos nextBody : Nat) :
    (absorbRow t out image (.segment seg) head pos nextBody).1.arena = t.arena := by
  unfold absorbRow
  exact RowTable.place_arena _ _ _

theorem absorbTombstone_arena (t : RowTable) (out : Absorbed) (id : String) :
    (absorbTombstone t out id).1.arena = t.arena := by
  unfold absorbTombstone
  split
  · exact RowTable.removeSlot_arena _ _
  · rfl

theorem absorbLoop_segment_arena (image : Bytes) (heads bodies : Region) (seg : Nat)
    (count n pos nextBody : Nat) (out : Absorbed) (t : RowTable) :
    (absorbLoop image heads bodies (.segment seg) count n pos nextBody out t).1.arena = t.arena := by
  induction count generalizing n pos nextBody out t with
  | zero => rfl
  | succ count ih =>
    unfold absorbLoop
    split
    next => rfl
    next head _ =>
      split
      next => rw [ih, absorbTombstone_arena]
      next =>
        split
        next => rfl
        next => rw [ih, absorbRow_segment_arena]

/-- A mapped delta is read where it lies: the arena stays as it is. -/
theorem absorbDelta_segment_arena (rows : RowTable) (xor : Digest) (bytes : Bytes) (image : Image)
    (seg : Nat) : (absorbDelta rows xor bytes image (.segment seg)).1.arena = rows.arena := by
  have habsorb : ∀ t : RowTable,
      (absorb t bytes image.heads image.bodies image.rows (.segment seg)).1.arena = t.arena := by
    intro t
    unfold absorb
    split
    · rfl
    · exact absorbLoop_segment_arena ..
  unfold absorbDelta
  simp only
  split
  next => rfl
  next =>
    have := habsorb { rows with dict := (rows.dict.extend (image.fieldNames.drop rows.dict.len)).1 }
    split
    next rows' e heq =>
      rw [heq] at this
      exact this
    next rows' absorbed heq =>
      rw [heq] at this
      split
      · exact this
      · exact this

/-- A table that shows the state of a chain. -/
structure Shows (rows : RowTable) (xor : Digest) (s : Chained) : Prop where
  held : Holds rows s.recs
  dict : rows.dict = s.dict
  xor : xor = recordsXor s.recs

/-- The hash an absorbed delta returns is the change to the table's. -/
theorem xor_eq_of_moved {moved before now : Digest} (h : moved ^^^ now = 0 ^^^ before) :
    before ^^^ moved = now := by
  have hbefore : moved ^^^ now = before := h.trans BitVec.zero_xor
  rw [← hbefore, BitVec.xor_comm moved, BitVec.xor_assoc, BitVec.xor_self]
  exact BitVec.xor_zero

/-- Absorbing a delta leaves the records with its entries applied and the longer dictionary, and
    folds the hash only at its end. -/
theorem absorbDelta_spec {rows : RowTable} {xor : Digest} {s : Chained} (hs : Shows rows xor s)
    (delta : Bytes) (image : Image) {into : AbsorbInto} (hinto : into.Fits rows.arena delta) :
    let a := absorbDelta rows xor delta image into
    Holds a.1 (s.after delta image) ∧ a.1.dict = (s.names image).1 ∧
      a.2.1 = (if s.whole delta image then recordsXor (s.after delta image) else xor) ∧
      a.2.2 = s.refusal delta image := by
  have hnames : s.names image = rows.dict.extend (image.fieldNames.drop rows.dict.len) := by
    unfold Chained.names
    rw [hs.dict]
  unfold absorbDelta
  simp only
  rw [← hnames]
  cases hext : (s.names image).2 with
  | false =>
    have hentries : s.entries delta image = ([], none) := by
      unfold Chained.entries
      rw [hext]
      rfl
    refine ⟨?_, rfl, ?_, ?_⟩
    · unfold Chained.after
      rw [hentries]
      exact hs.held
    · unfold Chained.whole
      rw [hext]
      rfl
    · unfold Chained.refusal
      rw [hext]
      rfl
  | true =>
    have hentries : s.entries delta image =
        deltaEntries delta image.heads image.bodies image.rows := by
      unfold Chained.entries
      rw [hext]
      rfl
    have hheld : Holds { rows with dict := (s.names image).1 } s.recs := hs.held
    obtain ⟨hafter, hdict, houtcome⟩ :=
      @absorb_spec _ _ delta into image.heads image.bodies image.rows hheld hinto
    rw [← hentries] at hafter houtcome
    unfold Outcome at houtcome
    simp only [Bool.not_true, Bool.false_eq_true, if_false]
    cases herr : (s.entries delta image).2 with
    | some e =>
      rw [herr] at houtcome
      have hwhole : s.whole delta image = false := by
        unfold Chained.whole
        rw [herr]
        exact Bool.and_false _
      have hrefusal : s.refusal delta image = some (.invalid e.message) := by
        unfold Chained.refusal
        rw [hext, herr]
        rfl
      rw [hwhole, hrefusal]
      split
      next rows' e' heq =>
        rw [heq] at hafter hdict houtcome
        cases houtcome
        exact ⟨hafter, hdict, rfl, rfl⟩
      next rows' absorbed heq =>
        rw [heq] at houtcome
        cases houtcome
    | none =>
      rw [herr] at houtcome
      obtain ⟨absorbed, hok, hsum⟩ := houtcome
      have hwhole : s.whole delta image = true := by
        unfold Chained.whole
        rw [hext, herr]
        rfl
      have hrefusal : s.refusal delta image =
          if recordsXor (s.after delta image) ≠ image.storedXor then
            some (.invalid "rows do not add up to the delta's stored catch-up hash")
          else none := by
        unfold Chained.refusal
        rw [hext, herr]
        rfl
      have hmoved : xor ^^^ absorbed.xor = recordsXor (s.after delta image) := by
        rw [hs.xor]
        exact xor_eq_of_moved hsum
      rw [hwhole, hrefusal]
      split
      next rows' e' heq =>
        rw [heq] at hok
        cases hok
      next rows' absorbed' heq =>
        rw [heq] at hafter hdict hok
        cases hok
        rw [hmoved]
        split
        · exact ⟨hafter, hdict, rfl, rfl⟩
        · exact ⟨hafter, hdict, rfl, rfl⟩

/-! ## What a refused delta leaves on the heap -/

namespace Chained

variable (blake3 : Bytes → Digest) (s : Chained) (delta : Bytes)

/-- A delta absorbed to its end whose rows do not add up to the hash before it. -/
def hashMoved (image : Image) : Bool :=
  s.whole delta image && decide (recordsXor (s.after delta image) ≠ s.chain.xor)

/-- The dictionary and the records the heap loader has after refusing a delta. -/
def leftBy : FieldDict × ExtTreeMap String Record :=
  match s.chain.check blake3 delta with
  | .error _ => (s.dict, s.recs)
  | .ok image =>
    if bodiesVerified blake3 delta image && !s.hashMoved delta image then
      ((s.names image).1, s.after delta image)
    else (s.dict, s.recs)

/-- For every id a delta's entries name, the last of them says what the table says already, and
    every other row reads the same under the names the delta adds. -/
def NothingNew (image : Image) : Prop :=
  ∀ id, match lastEntry (s.entries delta image).1 id with
    | some last => last.map (·.view (s.names image).1) = s.recs[id]?.map (·.view s.dict)
    | none => ∀ r, s.recs[id]? = some r →
        decodeValue r.body (s.names image).1 = decodeValue r.body s.dict

/-- A delta the checks before it refuse, one that moves the hash, or one with nothing new. -/
def LeavesNoTrace : Prop :=
  ∀ image, s.chain.check blake3 delta = .ok image → bodiesVerified blake3 delta image = true →
    s.hashMoved delta image = true ∨ s.NothingNew delta image

theorem view_after_eq_iff (image : Image) :
    (∀ id : String, (s.after delta image)[id]?.map (fun r => r.view (s.names image).1) =
      s.recs[id]?.map fun r => r.view s.dict) ↔ s.NothingNew delta image := by
  unfold NothingNew after
  refine forall_congr' fun id => ?_
  rw [getElem?_applyEntries]
  cases lastEntry (s.entries delta image).1 id with
  | some last => exact Iff.rfl
  | none =>
    rw [Option.getD_none]
    cases s.recs[id]? with
    | none =>
      refine ⟨?_, fun _ => by rw [Option.map_none, Option.map_none]⟩
      intro _ r hr
      cases hr
    | some r =>
      simp only [Option.map_some, Option.some.injEq, Record.view]
      constructor
      · rintro h r' rfl
        exact congrArg RowView.value h
      · intro h
        rw [h r rfl]

/-- The rows on the heap read as before exactly when the delta leaves no trace. -/
theorem view_leftBy_eq_iff :
    (∀ id : String, (s.leftBy blake3 delta).2[id]?.map
        (fun r => r.view (s.leftBy blake3 delta).1) =
      s.recs[id]?.map fun r => r.view s.dict) ↔ s.LeavesNoTrace blake3 delta := by
  unfold leftBy LeavesNoTrace
  cases hcheck : s.chain.check blake3 delta with
  | error e =>
    refine ⟨?_, fun _ _ => rfl⟩
    intro _ image himage
    cases himage
  | ok image =>
    simp only [Except.ok.injEq, forall_eq']
    cases hbodies : bodiesVerified blake3 delta image with
    | false => simp
    | true =>
      cases hmoved : s.hashMoved delta image with
      | true => simp
      | false => simpa using s.view_after_eq_iff delta image

end Chained

/-! ## The heap loader -/

/-- The loader's state between two deltas. -/
structure Reads (st : ReadState) (s : Chained) : Prop where
  shown : Shows st.rows st.xor s
  chain : st.chain = s.chain
  applied : st.applied = s.applied

theorem readDelta_ok {blake3 : Bytes → Digest} {st : ReadState} {s s' : Chained} {delta : Bytes}
    (hst : Reads st s) (h : s.step delta blake3 = .ok s') :
    ∃ st', readDelta blake3 st delta = (st', none) ∧ Reads st' s' := by
  have hsound := Chained.step_sound h
  unfold Chained.step at h
  unfold readDelta
  rw [hst.chain]
  cases hcheck : s.chain.check blake3 delta with
  | error => rw [hcheck] at h; cases h
  | ok image =>
    rw [hcheck] at h
    dsimp only at h ⊢
    split at h
    next => cases h
    next hbodies =>
      split at h
      next => cases h
      next hrefusal =>
        cases h
        obtain ⟨hheld, hdict, hxor, herr⟩ :=
          absorbDelta_spec hst.shown delta image (AbsorbInto.copy_fits st.rows.arena delta)
        rw [(Chained.whole_of_refusal hrefusal).1, if_pos rfl] at hxor
        rw [hrefusal] at herr
        rw [if_neg hbodies]
        split
        next rows xor e heq =>
          rw [heq] at herr
          cases herr
        next rows xor heq =>
          rw [heq] at hheld hdict hxor
          refine ⟨_, rfl, ⟨hheld, hdict, hxor⟩, rfl, ?_⟩
          · exact congrArg (· ++ [(image.seq, delta.length)]) hst.applied

variable {e : CheckpointError}

/-- A refused delta leaves what it changed, and the hash tells only of one absorbed to its end. -/
theorem readDelta_error {blake3 : Bytes → Digest} {st : ReadState} {s : Chained} {delta : Bytes} (hst : Reads st s) (hs : s.Sound) (h : s.step delta blake3 = .error e) :
    ∃ st', readDelta blake3 st delta = (st', some e) ∧ st'.chain = s.chain ∧
      st'.applied = s.applied ∧
      (st'.xor ≠ s.chain.xor ∧ s.leftBy blake3 delta = (s.dict, s.recs) ∨
        st'.xor = s.chain.xor ∧ st'.rows.dict = (s.leftBy blake3 delta).1 ∧
          Holds st'.rows (s.leftBy blake3 delta).2) := by
  have hxor0 : st.xor = s.chain.xor := hst.shown.xor.trans hs.symm
  unfold Chained.step at h
  unfold readDelta Chained.leftBy
  rw [hst.chain]
  cases hcheck : s.chain.check blake3 delta with
  | error =>
    rw [hcheck] at h
    cases h
    exact ⟨st, rfl, hst.chain, hst.applied, .inr ⟨hxor0, hst.shown.dict, hst.shown.held⟩⟩
  | ok image =>
    rw [hcheck] at h
    dsimp only at h ⊢
    split at h
    next hbodies =>
      cases h
      have hfalse : bodiesVerified blake3 delta image = false := by simpa using hbodies
      rw [if_pos hbodies, hfalse, Bool.false_and, if_neg (by decide)]
      exact ⟨st, rfl, hst.chain, hst.applied, .inr ⟨hxor0, hst.shown.dict, hst.shown.held⟩⟩
    next hbodies =>
      have htrue : bodiesVerified blake3 delta image = true := by simpa using hbodies
      rw [if_neg hbodies, htrue, Bool.true_and]
      split at h
      next e' hrefusal =>
        cases h
        obtain ⟨hheld, hdict, hxor, herr⟩ :=
          absorbDelta_spec hst.shown delta image (AbsorbInto.copy_fits st.rows.arena delta)
        rw [hrefusal] at herr
        split
        next rows xor e heq =>
          rw [heq] at hheld hdict hxor herr
          cases herr
          refine ⟨_, rfl, rfl, hst.applied, ?_⟩
          cases hmoved : s.hashMoved delta image with
          | true =>
            unfold Chained.hashMoved at hmoved
            rw [Bool.and_eq_true, decide_eq_true_eq] at hmoved
            rw [hmoved.1, if_pos rfl] at hxor
            left
            refine ⟨?_, rfl⟩
            rw [show xor = recordsXor (s.after delta image) from hxor]
            exact hmoved.2
          | false =>
            right
            refine ⟨?_, hdict, hheld⟩
            unfold Chained.hashMoved at hmoved
            rw [Bool.and_eq_false_iff, decide_eq_false_iff_not, not_not] at hmoved
            change xor = s.chain.xor
            rcases hmoved with hpart | hsame
            · rw [hpart, if_neg (by decide)] at hxor
              exact hxor.trans hxor0
            · split at hxor
              · exact hxor.trans hsame
              · exact hxor.trans hxor0
        next rows xor heq =>
          rw [heq] at herr
          cases herr
      next => cases h

/-- The loop on the heap: it ends with the run, starts over at the refused delta, or ends with what
    that delta left. -/
theorem readDeltas_spec {blake3 : Bytes → Digest} {st : ReadState} {s : Chained}
    (hst : Reads st s) (hs : s.Sound) (deltas : List Bytes) (k : Nat) :
    let now := (Chained.run blake3 s deltas k).1
    match (Chained.run blake3 s deltas k).2 with
    | none => ∃ st', readDeltas blake3 st deltas k = .done st' none ∧ Reads st' now
    | some r =>
      (readDeltas blake3 st deltas k = .startOver r.k r.e ∧
        now.leftBy blake3 r.delta = (now.dict, now.recs)) ∨
      ∃ st', readDeltas blake3 st deltas k = .done st' (some (r.k, r.e)) ∧
        st'.applied = now.applied ∧ st'.xor = now.chain.xor ∧
        st'.rows.dict = (now.leftBy blake3 r.delta).1 ∧
        Holds st'.rows (now.leftBy blake3 r.delta).2 := by
  induction deltas generalizing st s k with
  | nil => exact ⟨st, rfl, hst⟩
  | cons delta deltas ih =>
    cases hstep : s.step delta blake3 with
    | ok s' =>
      obtain ⟨st', hread, hst'⟩ := readDelta_ok hst hstep
      have := ih hst' (Chained.step_sound hstep) (k + 1)
      rw [Chained.run_cons_ok hstep, readDeltas, hread]
      exact this
    | error e =>
      obtain ⟨st', hread, hchain, happlied, hleft⟩ := readDelta_error hst hs hstep
      rw [Chained.run_cons_error hstep, readDeltas, hread]
      simp only
      rw [hchain]
      rcases hleft with ⟨hmoved, hclean⟩ | ⟨hsame, hdict, hheld⟩
      · left
        rw [if_pos hmoved]
        exact ⟨rfl, hclean⟩
      · right
        rw [if_neg (not_not.mpr hsame)]
        exact ⟨st', rfl, happlied, hsame, hdict, hheld⟩

/-! ## The base -/

theorem parseHeader_identity {bytes : Bytes} {image : Image} (h : parseHeader bytes = .ok image) :
    ∃ identity, parseIdentity bytes = .ok identity ∧ identity.format = format := by
  unfold parseHeader at h
  split at h
  next => cases h
  next =>
    obtain ⟨identity, hident, h⟩ := ok_of_bind h
    split at h
    next => cases h
    next hformat => exact ⟨identity, hident, not_not.mp hformat⟩

theorem indexParsed_ok {blake3 : Bytes → Digest} {bytes : Bytes} {image : Image} {ix : Indexed}
    (h : indexParsed blake3 bytes image = .ok ix) :
    ix.name = image.name ∧ ix.imageId = image.imageId ∧ ix.storedXor = image.storedXor ∧
      ix.heads.xor = image.storedXor ∧
      indexHeads bytes image.heads image.bodies image.rows 0 = .ok ix.heads := by
  unfold indexParsed at h
  obtain ⟨-, -, h⟩ := ok_of_bind h
  split at h
  next => cases h
  next =>
    split at h
    next => cases h
    next dict hdict =>
      split at h
      next => cases h
      next heads hheads =>
        split at h
        next => cases h
        next hsum =>
          cases h
          exact ⟨rfl, rfl, rfl, not_not.mp hsum, hheads⟩

variable {base : Bytes}

/-- A base that is accepted. -/
theorem ofBase_ok {blake3 : Bytes → Digest} {s : Chained}
    (h : Chained.ofBase blake3 base = .ok s) :
    ∃ identity image ix, parseIdentity base = .ok identity ∧ identity.format ≠ formatV1 ∧
      parseHeader base = .ok image ∧ indexParsed blake3 base image = .ok ix ∧
      bodiesVerified blake3 base image = true ∧ s.chain = Chain.fromBase image ∧
      s.applied = [] ∧ ix.name = s.chain.name ∧ ix.imageId = s.chain.imageId ∧ s.Sound ∧
      ∀ arena : Arena, arena.segs[0]? = some base →
        Shows (RowTable.fromParts ix.dict ix.heads.index arena) ix.storedXor s := by
  unfold Chained.ofBase at h
  obtain ⟨image, himage, h⟩ := ok_of_bind h
  obtain ⟨ix, hix, h⟩ := ok_of_bind h
  split at h
  next => cases h
  next hbodies =>
    cases h
    obtain ⟨identity, hident, hformat⟩ := parseHeader_identity himage
    obtain ⟨hname, himageId, hstored, hxor, hheads⟩ := indexParsed_ok hix
    have hholds : ∀ arena : Arena, arena.segs[0]? = some base →
        HoldsAll arena ix.heads.index
          (applyEntries ∅ (deltaEntries base image.heads image.bodies image.rows).1) ∧
        ix.heads.xor = recordsXor
          (applyEntries ∅ (deltaEntries base image.heads image.bodies image.rows).1) := by
      intro arena hseg
      obtain ⟨entries, hentries, hheld, hx⟩ := indexHeads_holds hseg hheads
      rw [hentries]
      exact ⟨hheld, hx⟩
    have hsum := (hholds (Arena.fromImages .heap [base]) rfl).2
    rw [hxor] at hsum
    refine ⟨identity, image, ix, hident, ?_, himage, hix, by simpa using hbodies, rfl, rfl,
      hname, himageId, hsum, ?_⟩
    · rw [hformat]
      decide
    · intro arena hseg
      exact ⟨(hholds arena hseg).1, rfl, hstored.trans hsum⟩

/-- A base that is not: both loaders fail alike, or read an image of the previous format. -/
theorem attempts_of_ofBase_error {blake3 : Bytes → Digest}
    (h : Chained.ofBase blake3 base = .error e) :
    (∃ e', ∀ deltas, readAttempt blake3 base deltas = .error e' ∧
      ∀ segmentBytes, mapAttempt blake3 segmentBytes .atLoad base deltas = .error e') ∨
    ∃ collection, ∀ deltas, loadV1 blake3 base deltas = .ok (.loaded ⟨collection, 0, base.length, [],
        if deltas.isEmpty then none
        else some (0, .invalid "a legacy image cannot be extended by deltas")⟩) ∧
      readAttempt blake3 base deltas = loadV1 blake3 base deltas ∧
      ∀ segmentBytes, mapAttempt blake3 segmentBytes .atLoad base deltas =
        loadV1 blake3 base deltas := by
  unfold readAttempt mapAttempt
  simp only [bind, Except.bind]
  cases hident : parseIdentity base with
  | error e' => exact .inl ⟨e', fun _ => ⟨rfl, fun _ => rfl⟩⟩
  | ok identity =>
    simp only
    by_cases hformat : identity.format = formatV1
    · simp only [if_pos hformat]
      unfold loadV1
      cases hread : readV1 blake3 base with
      | error e' => exact .inl ⟨e', fun _ => ⟨rfl, fun _ => rfl⟩⟩
      | ok collection => exact .inr ⟨collection, fun _ => ⟨rfl, trivial, fun _ => trivial⟩⟩
    · simp only [if_neg hformat]
      left
      unfold Chained.ofBase at h
      simp only [bind, Except.bind] at h
      split at h
      next e' himage => exact ⟨e', fun _ => ⟨rfl, fun _ => rfl⟩⟩
      next image himage =>
        split at h
        next e' hix => exact ⟨e', fun _ => ⟨rfl, fun _ => rfl⟩⟩
        next ix hix =>
          split at h
          next hbodies =>
            have hfalse : bodiesVerified blake3 base image = false := by simpa using hbodies
            refine ⟨_, fun _ => ⟨if_pos hbodies, fun _ => if_pos ⟨trivial, hfalse⟩⟩⟩
          next => cases h

/-! ## Whole loads -/

/-- A load that ended at a state of the chain, with the given dictionary and records. -/
structure LoadIs (load : TableLoad) (s : Chained) (refused : Option Refusal) (dict : FieldDict)
    (recs : ExtTreeMap String Record) : Prop where
  held : Holds load.collection.rows recs
  dict : load.collection.rows.dict = dict
  name : load.collection.name = s.chain.name
  xor : load.collection.catchupXor = s.chain.xor
  imageId : load.imageId = s.chain.imageId
  deltas : load.deltas = s.applied
  refused : load.refused = refused.map fun r => (r.k, r.e)

theorem LoadIs.view_eq {load : TableLoad} {s : Chained} {refused : Option Refusal}
    {dict : FieldDict} {recs : ExtTreeMap String Record} (h : LoadIs load s refused dict recs)
    (id : String) : load.collection.rows.view id = recs[id]?.map fun r : Record => r.view dict := by
  rw [h.held.view_eq, h.dict]

variable {s0 : Chained}

/-- One pass of the heap loader. -/
theorem readAttempt_spec {blake3 : Bytes → Digest}
    (h : Chained.ofBase blake3 base = .ok s0) (deltas : List Bytes) :
    let now := (Chained.run blake3 s0 deltas 0).1
    match (Chained.run blake3 s0 deltas 0).2 with
    | none => ∃ load, readAttempt blake3 base deltas = .ok (.loaded load) ∧
        LoadIs load now none now.dict now.recs
    | some r =>
      (readAttempt blake3 base deltas = .ok (.startOver r.k r.e) ∧
        now.leftBy blake3 r.delta = (now.dict, now.recs)) ∨
      ∃ load, readAttempt blake3 base deltas = .ok (.loaded load) ∧
        LoadIs load now (some r) (now.leftBy blake3 r.delta).1 (now.leftBy blake3 r.delta).2 := by
  obtain ⟨identity, image, ix, hident, hformat, himage, hix, hbodies, hchain, happlied, hname,
    himageId, hsound, hshows⟩ := ofBase_ok h
  have hst : Reads ⟨RowTable.fromParts ix.dict ix.heads.index (Arena.fromImages .heap [base]),
      ix.storedXor, Chain.fromBase image, []⟩ s0 := ⟨hshows _ rfl, hchain.symm, happlied.symm⟩
  have hspec := @readDeltas_spec blake3 _ _ hst hsound deltas 0
  obtain ⟨hrunName, hrunId⟩ := @Chained.run_name blake3 s0 deltas 0
  have hrunSound := @Chained.run_sound blake3 _ hsound deltas 0
  unfold readAttempt
  simp only [bind, Except.bind, hident, if_neg hformat, himage, hix, hbodies]
  revert hspec hrunName hrunId hrunSound
  generalize Chained.run blake3 s0 deltas 0 = out
  obtain ⟨now, refused⟩ := out
  intro hspec hrunName hrunId hrunSound
  simp only at hspec hrunName hrunId hrunSound ⊢
  cases refused with
  | none =>
    obtain ⟨st', hread, hst'⟩ := hspec
    rw [hread]
    exact ⟨_, rfl, hst'.shown.held, hst'.shown.dict, hname.trans hrunName.symm,
      hst'.shown.xor.trans hrunSound.symm, himageId.trans hrunId.symm, hst'.applied, rfl⟩
  | some r =>
    rcases hspec with ⟨hread, hclean⟩ | ⟨st', hread, happlied', hxor', hdict', hheld'⟩
    · rw [hread]
      exact .inl ⟨rfl, hclean⟩
    · rw [hread]
      exact .inr ⟨_, rfl, hheld', hdict', hname.trans hrunName.symm, hxor',
        himageId.trans hrunId.symm, happlied', rfl⟩

variable {deltas : List Bytes}

theorem readTable_loaded {blake3 : Bytes → Digest}
    {load : TableLoad} (h : readAttempt blake3 base deltas = .ok (.loaded load)) :
    readTable blake3 base deltas = .ok load := by
  rw [readTable]
  split
  next e heq =>
    rw [h] at heq
    cases heq
  next load' heq =>
    rw [h] at heq
    cases heq
    rfl
  next k e heq =>
    rw [h] at heq
    cases heq

theorem readTable_error {blake3 : Bytes → Digest} (h : readAttempt blake3 base deltas = .error e) :
    readTable blake3 base deltas = .error e := by
  rw [readTable]
  split
  next e' heq =>
    rw [h] at heq
    cases heq
    rfl
  next load' heq =>
    rw [h] at heq
    cases heq
  next k e heq =>
    rw [h] at heq
    cases heq

theorem readTable_startOver {blake3 : Bytes → Digest} {k : Nat} (h : readAttempt blake3 base deltas = .ok (.startOver k e)) :
    readTable blake3 base deltas = (readTable blake3 base (deltas.take k)).map
      fun shorter => { shorter with refused := some (k, e) } := by
  rw [readTable]
  split
  next e' heq =>
    rw [h] at heq
    cases heq
  next load' heq =>
    rw [h] at heq
    cases heq
  next k' e' heq =>
    rw [h] at heq
    cases heq
    rfl

/-- What the heap loader shows in the end. -/
def Chained.endOnHeap (blake3 : Bytes → Digest) (out : Chained × Option Refusal) :
    FieldDict × ExtTreeMap String Record :=
  match out.2 with
  | none => (out.1.dict, out.1.recs)
  | some r => out.1.leftBy blake3 r.delta

/-- The heap loader ends with the run, and at a refused delta with what that delta left. -/
theorem readTable_spec {blake3 : Bytes → Digest}
    (h : Chained.ofBase blake3 base = .ok s0) (deltas : List Bytes) :
    let out := Chained.run blake3 s0 deltas 0
    ∃ load, readTable blake3 base deltas = .ok load ∧
      LoadIs load out.1 out.2 (Chained.endOnHeap blake3 out).1
        (Chained.endOnHeap blake3 out).2 := by
  have hspec := readAttempt_spec h deltas
  have hstop : ∀ r, (Chained.run blake3 s0 deltas 0).2 = some r →
      Chained.run blake3 s0 (deltas.take r.k) 0 = ((Chained.run blake3 s0 deltas 0).1, none) := by
    intro r hr
    obtain ⟨i, hi, -, -, hrun⟩ := Chained.run_refused hr
    rw [hi, Nat.zero_add]
    exact hrun
  revert hspec hstop
  generalize Chained.run blake3 s0 deltas 0 = out
  obtain ⟨now, refused⟩ := out
  intro hspec hstop
  simp only at hspec hstop ⊢
  cases refused with
  | none =>
    obtain ⟨load, hload, his⟩ := hspec
    exact ⟨load, readTable_loaded hload, his⟩
  | some r =>
    rcases hspec with ⟨hover, hclean⟩ | ⟨load, hload, his⟩
    · -- Started over: the deltas before it load to the same state.
      have hshort := readAttempt_spec h (deltas.take r.k)
      rw [hstop r rfl] at hshort
      obtain ⟨shorter, hload, his⟩ := hshort
      refine ⟨{ shorter with refused := some (r.k, r.e) }, ?_, ?_⟩
      · rw [readTable_startOver hover, readTable_loaded hload]
        rfl
      · unfold Chained.endOnHeap
        simp only [hclean]
        exact { his with refused := rfl }
    · exact ⟨load, readTable_loaded hload, his⟩

/-! ## The loader over mappings -/

/-- The links are those of the run, as far as it goes: the first loop stops no earlier. -/
theorem mapDeltas_spec {blake3 : Bytes → Digest} {rows : RowTable} {xor : Digest} {s : Chained}
    (hs : Shows rows xor s) (hsound : s.Sound) (deltas : List Bytes) (k : Nat)
    (hsmall : k + deltas.length < 2 ^ 16)
    (hsegs : ∀ i link, (mapLinks blake3 .atLoad s.chain deltas k).1[i]? = some link →
      rows.arena.segs[k + i + 1]? = some link.bytes) :
    let out := Chained.run blake3 s deltas k
    let mapped := mapDeltas rows xor s.applied (mapLinks blake3 .atLoad s.chain deltas k).1 k
    (∃ rows' xor', mapped = .done rows' xor' out.1.applied ∧ Shows rows' xor' out.1 ∧
      (mapLinks blake3 .atLoad s.chain deltas k).2 = out.2.map fun r => (r.k, r.e)) ∨
    ∃ r, out.2 = some r ∧ mapped = .startOver r.k r.e := by
  induction deltas generalizing rows xor s k with
  | nil => exact .inl ⟨rows, xor, rfl, hs, rfl⟩
  | cons delta deltas ih =>
    rw [List.length_cons] at hsmall
    unfold mapLinks at hsegs ⊢
    unfold Chained.run Chained.step
    cases hcheck : s.chain.check blake3 delta with
    | error e => exact .inl ⟨rows, xor, rfl, hs, rfl⟩
    | ok image =>
      rw [hcheck] at hsegs
      simp only at hsegs ⊢
      cases hbodies : bodiesVerified blake3 delta image with
      | false => exact .inl ⟨rows, xor, rfl, hs, rfl⟩
      | true =>
        simp only [hbodies, and_false, Bool.true_eq_false, if_false, Bool.not_true,
          Bool.false_eq_true] at hsegs ⊢
        have hseg : rows.arena.segs[k + 1]? = some delta := hsegs 0 ⟨delta, image⟩ rfl
        have hmod : (k + 1) % 2 ^ 16 = k + 1 := Nat.mod_eq_of_lt (by omega)
        have hfits : (AbsorbInto.segment ((k + 1) % 2 ^ 16)).Fits rows.arena delta := by
          intro seg heq
          cases heq
          rw [hmod]
          exact hseg
        obtain ⟨hheld, hdict, hxor, herr⟩ := absorbDelta_spec hs delta image hfits
        have harena := absorbDelta_segment_arena rows xor delta image ((k + 1) % 2 ^ 16)
        unfold mapDeltas
        simp only
        cases hrefusal : s.refusal delta image with
        | some e =>
          rw [hrefusal] at herr
          right
          refine ⟨⟨k, delta, e⟩, rfl, ?_⟩
          split
          next rows' xor' e' heq =>
            rw [heq] at herr
            cases herr
            rfl
          next rows' xor' heq =>
            rw [heq] at herr
            cases herr
        | none =>
          rw [hrefusal] at herr
          obtain ⟨hwhole, hsum⟩ := Chained.whole_of_refusal hrefusal
          rw [hwhole, if_pos rfl] at hxor
          split
          next rows' xor' e' heq =>
            rw [heq] at herr
            cases herr
          next rows' xor' heq =>
            rw [heq] at hheld hdict hxor harena
            have hsegs' : ∀ i link,
                (mapLinks blake3 .atLoad (s.chain.advance image) deltas (k + 1)).1[i]? = some link →
                rows'.arena.segs[k + 1 + i + 1]? = some link.bytes := by
              intro i link hlink
              have := hsegs (i + 1) link hlink
              rw [show k + (i + 1) + 1 = k + 1 + i + 1 by omega] at this
              rw [show rows'.arena = rows.arena from harena]
              exact this
            exact @ih rows' xor' ⟨s.chain.advance image, (s.names image).1, s.after delta image,
              s.applied ++ [(image.seq, delta.length)]⟩ ⟨hheld, hdict, hxor⟩ hsum.symm (k + 1)
              (by omega) hsegs'

/-- One pass over mappings. -/
theorem mapAttempt_spec {blake3 : Bytes → Digest}
    (h : Chained.ofBase blake3 base = .ok s0) (segmentBytes : Nat) (deltas : List Bytes)
    (hsmall : deltas.length < 2 ^ 16) :
    let out := Chained.run blake3 s0 deltas 0
    (∃ load, mapAttempt blake3 segmentBytes .atLoad base deltas = .ok (.loaded load) ∧
      LoadIs load out.1 out.2 out.1.dict out.1.recs) ∨
    ∃ r, out.2 = some r ∧
      mapAttempt blake3 segmentBytes .atLoad base deltas = .ok (.startOver r.k r.e) := by
  obtain ⟨identity, image, ix, hident, hformat, himage, hix, hbodies, hchain, happlied, hname,
    himageId, hsound, hshows⟩ := ofBase_ok h
  obtain ⟨hrunName, hrunId⟩ := @Chained.run_name blake3 s0 deltas 0
  have hrunSound := @Chained.run_sound blake3 _ hsound deltas 0
  generalize hlinks : mapLinks blake3 .atLoad (Chain.fromBase image) deltas 0 = linked
  have hsegs : ∀ i link, (mapLinks blake3 .atLoad s0.chain deltas 0).1[i]? = some link →
      (Arena.fromImages (.files segmentBytes) (base :: linked.1.map Link.bytes)).segs[0 + i + 1]? =
        some link.bytes := by
    intro i link hlink
    rw [hchain, hlinks] at hlink
    change (base :: linked.1.map Link.bytes)[0 + i + 1]? = some link.bytes
    rw [Nat.zero_add, List.getElem?_cons_succ, List.getElem?_map, hlink]
    rfl
  have hspec := @mapDeltas_spec blake3 _ _ s0 (hshows (Arena.fromImages (.files segmentBytes)
    (base :: linked.1.map Link.bytes)) rfl) hsound deltas 0 (by omega) hsegs
  rw [hchain, hlinks, happlied] at hspec
  unfold mapAttempt
  simp only [bind, Except.bind, hident, if_neg hformat, himage, hix, hbodies, hlinks]
  rcases hspec with ⟨rows', xor', hdone, hshown, hrefused⟩ | ⟨r, hr, hover⟩
  · left
    rw [hdone]
    exact ⟨_, rfl, hshown.held, hshown.dict, hname.trans hrunName.symm,
      hshown.xor.trans hrunSound.symm, himageId.trans hrunId.symm, rfl, hrefused⟩
  · right
    rw [hover]
    exact ⟨r, hr, rfl⟩

variable {segmentBytes : Nat} {verify : BodyVerify}

theorem mapTable_loaded {blake3 : Bytes → Digest} {load : TableLoad}
    (h : mapAttempt blake3 segmentBytes verify base deltas = .ok (.loaded load)) :
    mapTable blake3 segmentBytes verify base deltas = .ok load := by
  rw [mapTable]
  split
  next e heq =>
    rw [h] at heq
    cases heq
  next load' heq =>
    rw [h] at heq
    cases heq
    rfl
  next k e heq =>
    rw [h] at heq
    cases heq

theorem mapTable_error {blake3 : Bytes → Digest}
    (h : mapAttempt blake3 segmentBytes verify base deltas = .error e) :
    mapTable blake3 segmentBytes verify base deltas = .error e := by
  rw [mapTable]
  split
  next e' heq =>
    rw [h] at heq
    cases heq
    rfl
  next load' heq =>
    rw [h] at heq
    cases heq
  next k e heq =>
    rw [h] at heq
    cases heq

theorem mapTable_startOver {blake3 : Bytes → Digest} {k : Nat}
    (h : mapAttempt blake3 segmentBytes verify base deltas = .ok (.startOver k e)) :
    mapTable blake3 segmentBytes verify base deltas =
      (mapTable blake3 segmentBytes verify base (deltas.take k)).map
        fun shorter => { shorter with refused := some (k, e) } := by
  rw [mapTable]
  split
  next e' heq =>
    rw [h] at heq
    cases heq
  next load' heq =>
    rw [h] at heq
    cases heq
  next k' e' heq =>
    rw [h] at heq
    cases heq
    rfl

/-- Over mappings a load ends with the run, whatever delta is refused. -/
theorem mapTable_spec {blake3 : Bytes → Digest}
    (h : Chained.ofBase blake3 base = .ok s0) (segmentBytes : Nat) (deltas : List Bytes)
    (hsmall : deltas.length < 2 ^ 16) :
    let out := Chained.run blake3 s0 deltas 0
    ∃ load, mapTable blake3 segmentBytes .atLoad base deltas = .ok load ∧
      LoadIs load out.1 out.2 out.1.dict out.1.recs := by
  rcases mapAttempt_spec h segmentBytes deltas hsmall with ⟨load, hload, his⟩ | ⟨r, hr, hover⟩
  · exact ⟨load, mapTable_loaded hload, his⟩
  · obtain ⟨i, hi, -, -, hrun⟩ := Chained.run_refused hr
    rw [Nat.zero_add] at hi
    have hshort : (deltas.take r.k).length < 2 ^ 16 := by
      rw [List.length_take]
      omega
    rcases mapAttempt_spec h segmentBytes (deltas.take r.k) hshort with
      ⟨shorter, hload, his⟩ | ⟨r', hr', -⟩
    · refine ⟨{ shorter with refused := some (r.k, r.e) }, ?_, ?_⟩
      · rw [mapTable_startOver hover, mapTable_loaded hload]
        rfl
      · rw [hi, hrun] at his
        rw [hr]
        exact { his with refused := rfl }
    · rw [hi, hrun] at hr'
      cases hr'

end Sp00ky.Checkpoint
