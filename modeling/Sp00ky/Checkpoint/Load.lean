/-
  Loading a base image and its deltas (`load_table` in `circuit/checkpoint.rs`), on the heap
  and over mappings.

  The heap loader checks and absorbs one delta after another and starts over only when the
  hash has moved. The mapping loader checks every delta first, absorbs them in place and
  starts over on every failure. A load is a function of the files' bytes; reading the files
  is not part of the model.
-/
import Sp00ky.Checkpoint.Image

namespace Sp00ky.Checkpoint

open Lib Ssp

/-! ## The chain -/

/-- `Chain`: what the next delta has to declare. -/
structure Chain where
  name : String
  imageId : ImageId
  seq : Nat
  xor : Digest
  fieldNames : List String

namespace Chain

/-- `Chain::from_base`. -/
def fromBase (image : Image) : Chain :=
  ⟨image.name, image.imageId, 0, image.storedXor, image.fieldNames⟩

/-- `Chain::check`. -/
def check (chain : Chain) (blake3 : Bytes → Digest) (bytes : Bytes) :
    Except CheckpointError Image := do
  let identity ← parseIdentity bytes
  if identity.format ≠ format then
    .error (.invalid ("delta of checkpoint format " ++ toString identity.format))
  else
    let image ← parseImage blake3 bytes
    if image.name ≠ chain.name then .error (.invalid "delta of another table")
    else if image.imageId ≠ chain.imageId then .error (.invalid "delta of another base image")
    else if image.seq ≠ chain.seq + 1 then
      .error (.invalid ("delta seq " ++ toString image.seq ++ ", expected " ++
        toString (chain.seq + 1)))
    else if image.prevXor ≠ chain.xor then
      .error (.invalid "delta does not chain to the file before it")
    else if !(decide (chain.fieldNames.length ≤ image.fieldNames.length) &&
        (image.fieldNames.zip chain.fieldNames).all fun p => p.1 == p.2) then
      .error (.invalid "delta dictionary does not extend the base's")
    else .ok image

/-- `Chain::advance`. -/
def advance (chain : Chain) (image : Image) : Chain :=
  { chain with seq := image.seq, xor := image.storedXor, fieldNames := image.fieldNames }

end Chain

/-- `absorb_delta`: the table and the hash it leaves, also when it fails. -/
def absorbDelta (rows : RowTable) (xor : Digest) (bytes : Bytes) (image : Image)
    (into : AbsorbInto) : RowTable × Digest × Option CheckpointError :=
  let (dict, extended) := rows.dict.extend (image.fieldNames.drop rows.dict.len)
  let rows := { rows with dict }
  if !extended then (rows, xor, some (.invalid "delta dictionary repeats a name"))
  else
    match absorb rows bytes image.heads image.bodies image.rows into with
    | (rows, .error e) => (rows, xor, some (.invalid e.message))
    | (rows, .ok absorbed) =>
      let xor := xor ^^^ absorbed.xor
      if xor ≠ image.storedXor then
        (rows, xor, some (.invalid "rows do not add up to the delta's stored catch-up hash"))
      else (rows, xor, none)

/-- `TableLoad`. -/
structure TableLoad where
  collection : Collection
  imageId : ImageId
  baseBytes : Nat
  deltas : List (Nat × Nat)
  refused : Option (Nat × CheckpointError)

/-- One pass over the files: a load, or a delta after which to start over with those before it. -/
inductive Attempt where
  | loaded (load : TableLoad)
  | startOver (k : Nat) (e : CheckpointError)

/-- A base of the previous format, which no delta extends. -/
def loadV1 (blake3 : Bytes → Digest) (base : Bytes) (deltas : List Bytes) :
    Except CheckpointError Attempt :=
  (readV1 blake3 base).map fun collection =>
    .loaded ⟨collection, 0, base.length, [],
      if deltas.isEmpty then none
      else some (0, .invalid "a legacy image cannot be extended by deltas")⟩

/-! ## On the heap -/

/-- What `read_table` holds between two deltas. -/
structure ReadState where
  rows : RowTable
  xor : Digest
  chain : Chain
  applied : List (Nat × Nat)

/-- One delta of `read_table`. -/
def readDelta (blake3 : Bytes → Digest) (st : ReadState) (delta : Bytes) :
    ReadState × Option CheckpointError :=
  match st.chain.check blake3 delta with
  | .error e => (st, some e)
  | .ok image =>
    if !bodiesVerified blake3 delta image then (st, some (.invalid "bodies checksum mismatch"))
    else
      match absorbDelta st.rows st.xor delta image .copy with
      | (rows, xor, some e) => ({ st with rows, xor }, some e)
      | (rows, xor, none) =>
        (⟨rows, xor, st.chain.advance image, st.applied ++ [(image.seq, delta.length)]⟩, none)

/-- Where the loop of `read_table` ends. -/
inductive ReadEnd where
  | done (st : ReadState) (refused : Option (Nat × CheckpointError))
  | startOver (k : Nat) (e : CheckpointError)

/-- The loop of `read_table`, from delta `k` on. -/
def readDeltas (blake3 : Bytes → Digest) (st : ReadState) : List Bytes → Nat → ReadEnd
  | [], _ => .done st none
  | delta :: deltas, k =>
    match readDelta blake3 st delta with
    | (st, none) => readDeltas blake3 st deltas (k + 1)
    | (st, some e) => if st.xor ≠ st.chain.xor then .startOver k e else .done st (some (k, e))

/-- One pass of `read_table`. -/
def readAttempt (blake3 : Bytes → Digest) (base : Bytes) (deltas : List Bytes) :
    Except CheckpointError Attempt := do
  let identity ← parseIdentity base
  if identity.format = formatV1 then loadV1 blake3 base deltas
  else do
    let image ← parseHeader base
    let ix ← indexParsed blake3 base image
    if !bodiesVerified blake3 base image then .error (.invalid "bodies checksum mismatch")
    else
      let rows := RowTable.fromParts ix.dict ix.heads.index (Arena.fromImages .heap [base])
      match readDeltas blake3 ⟨rows, ix.storedXor, Chain.fromBase image, []⟩ deltas 0 with
      | .startOver k e => .ok (.startOver k e)
      | .done st refused =>
        .ok (.loaded ⟨⟨ix.name, st.rows.setPersistedAtEnd, st.xor⟩, ix.imageId, base.length,
          st.applied, refused⟩)

theorem ok_of_bind {α β : Type} {x : Except CheckpointError α}
    {f : α → Except CheckpointError β} {b : β} (h : (x >>= f) = .ok b) :
    ∃ a, x = .ok a ∧ f a = .ok b := by
  cases x with
  | error e => cases h
  | ok a => exact ⟨a, rfl, h⟩

variable {blake3 : Bytes → Digest} {deltas : List Bytes} {e : CheckpointError}

theorem readDeltas_startOver_lt {st : ReadState}
    {k j : Nat} (h : readDeltas blake3 st deltas k = .startOver j e) :
    j < k + deltas.length := by
  induction deltas generalizing st k with
  | nil => cases h
  | cons delta deltas ih =>
    unfold readDeltas at h
    rw [List.length_cons]
    split at h
    next =>
      have := ih h
      omega
    next =>
      split at h
      next =>
        cases h
        omega
      next => cases h

theorem loadV1_loaded {base : Bytes} {a : Attempt}
    (h : loadV1 blake3 base deltas = .ok a) : ∃ load, a = .loaded load := by
  unfold loadV1 at h
  cases hread : readV1 blake3 base with
  | error e =>
    rw [hread] at h
    cases h
  | ok collection =>
    rw [hread] at h
    cases h
    exact ⟨_, rfl⟩

theorem readAttempt_startOver_lt {base : Bytes}
    {k : Nat} (h : readAttempt blake3 base deltas = .ok (.startOver k e)) :
    k < deltas.length := by
  unfold readAttempt at h
  obtain ⟨identity, -, h⟩ := ok_of_bind h
  split at h
  next =>
    obtain ⟨load, hload⟩ := loadV1_loaded h
    cases hload
  next =>
    obtain ⟨image, -, h⟩ := ok_of_bind h
    obtain ⟨ix, -, h⟩ := ok_of_bind h
    split at h
    next => cases h
    next =>
      dsimp only at h
      split at h
      next j e' hend =>
        cases h
        have := readDeltas_startOver_lt hend
        omega
      next => cases h

/-- `read_table`. -/
def readTable (blake3 : Bytes → Digest) (base : Bytes) (deltas : List Bytes) :
    Except CheckpointError TableLoad :=
  match h : readAttempt blake3 base deltas with
  | .error e => .error e
  | .ok (.loaded load) => .ok load
  | .ok (.startOver k e) =>
    (readTable blake3 base (deltas.take k)).map fun shorter => { shorter with refused := some (k, e) }
termination_by deltas.length
decreasing_by
  have := readAttempt_startOver_lt h
  rw [List.length_take]
  omega

/-! ## Over mappings -/

/-- `BodyVerify`. -/
inductive BodyVerify where
  | atLoad
  | deferred
deriving DecidableEq

/-- `Link`: a delta that chains. -/
structure Link where
  bytes : Bytes
  image : Image

/-- The first loop of `map_table`: the deltas that chain, and the first that does not. -/
def mapLinks (blake3 : Bytes → Digest) (verify : BodyVerify) :
    Chain → List Bytes → Nat → List Link × Option (Nat × CheckpointError)
  | _, [], _ => ([], none)
  | chain, delta :: deltas, k =>
    match chain.check blake3 delta with
    | .error e => ([], some (k, e))
    | .ok image =>
      if verify = .atLoad ∧ bodiesVerified blake3 delta image = false then
        ([], some (k, .invalid "bodies checksum mismatch"))
      else
        let (links, refused) := mapLinks blake3 verify (chain.advance image) deltas (k + 1)
        (⟨delta, image⟩ :: links, refused)

/-- Where the second loop of `map_table` ends. -/
inductive MapEnd where
  | done (rows : RowTable) (xor : Digest) (applied : List (Nat × Nat))
  | startOver (k : Nat) (e : CheckpointError)

/-- The second loop of `map_table`, from link `k` on; a segment number is a `u16`. -/
def mapDeltas (rows : RowTable) (xor : Digest) (applied : List (Nat × Nat)) :
    List Link → Nat → MapEnd
  | [], _ => .done rows xor applied
  | link :: links, k =>
    match absorbDelta rows xor link.bytes link.image (.segment ((k + 1) % 2 ^ 16)) with
    | (_, _, some e) => .startOver k e
    | (rows, xor, none) =>
      mapDeltas rows xor (applied ++ [(link.image.seq, link.bytes.length)]) links (k + 1)

/-- One pass of `map_table`. -/
def mapAttempt (blake3 : Bytes → Digest) (segmentBytes : Nat) (verify : BodyVerify) (base : Bytes)
    (deltas : List Bytes) : Except CheckpointError Attempt := do
  let identity ← parseIdentity base
  if identity.format = formatV1 then loadV1 blake3 base deltas
  else do
    let image ← parseHeader base
    let ix ← indexParsed blake3 base image
    let (links, refused) := mapLinks blake3 verify (Chain.fromBase image) deltas 0
    if verify = .atLoad ∧ bodiesVerified blake3 base image = false then
      .error (.invalid "bodies checksum mismatch")
    else
      let arena := Arena.fromImages (.files segmentBytes) (base :: links.map Link.bytes)
      let rows := RowTable.fromParts ix.dict ix.heads.index arena
      match mapDeltas rows ix.storedXor [] links 0 with
      | .startOver k e => .ok (.startOver k e)
      | .done rows xor applied =>
        .ok (.loaded ⟨⟨ix.name, rows.setPersistedAtEnd, xor⟩, ix.imageId, base.length, applied,
          refused⟩)

theorem mapDeltas_startOver_lt {rows : RowTable} {xor : Digest} {applied : List (Nat × Nat)}
    {links : List Link} {k j : Nat}
    (h : mapDeltas rows xor applied links k = .startOver j e) : j < k + links.length := by
  induction links generalizing rows xor applied k with
  | nil => cases h
  | cons link links ih =>
    unfold mapDeltas at h
    rw [List.length_cons]
    split at h
    next =>
      cases h
      omega
    next =>
      have := ih h
      omega

theorem length_mapLinks (blake3 : Bytes → Digest) (verify : BodyVerify) (chain : Chain)
    (deltas : List Bytes) (k : Nat) :
    (mapLinks blake3 verify chain deltas k).1.length ≤ deltas.length := by
  induction deltas generalizing chain k with
  | nil => exact Nat.le_refl _
  | cons delta deltas ih =>
    unfold mapLinks
    split
    next => exact Nat.zero_le _
    next image _ =>
      split
      next => exact Nat.zero_le _
      next => exact Nat.succ_le_succ (ih (chain.advance image) (k + 1))

theorem mapAttempt_startOver_lt {segmentBytes : Nat}
    {verify : BodyVerify} {base : Bytes} {k : Nat}
    (h : mapAttempt blake3 segmentBytes verify base deltas = .ok (.startOver k e)) :
    k < deltas.length := by
  unfold mapAttempt at h
  obtain ⟨identity, -, h⟩ := ok_of_bind h
  split at h
  next =>
    obtain ⟨load, hload⟩ := loadV1_loaded h
    cases hload
  next =>
    obtain ⟨image, -, h⟩ := ok_of_bind h
    obtain ⟨ix, -, h⟩ := ok_of_bind h
    dsimp only at h
    split at h
    next => cases h
    next =>
      split at h
      next j e' hend =>
        cases h
        have h1 := mapDeltas_startOver_lt hend
        have h2 := length_mapLinks blake3 verify (Chain.fromBase image) deltas 0
        omega
      next => cases h

/-- `map_table`. -/
def mapTable (blake3 : Bytes → Digest) (segmentBytes : Nat) (verify : BodyVerify) (base : Bytes)
    (deltas : List Bytes) : Except CheckpointError TableLoad :=
  match h : mapAttempt blake3 segmentBytes verify base deltas with
  | .error e => .error e
  | .ok (.loaded load) => .ok load
  | .ok (.startOver k e) =>
    (mapTable blake3 segmentBytes verify base (deltas.take k)).map fun shorter =>
      { shorter with refused := some (k, e) }
termination_by deltas.length
decreasing_by
  have := mapAttempt_startOver_lt h
  rw [List.length_take]
  omega

end Sp00ky.Checkpoint
