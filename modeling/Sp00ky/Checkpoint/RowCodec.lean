/-
  The flat encoding of a stored row (`circuit/row_codec.rs`).

  A record is a head and a body. The head holds the digest, the lifted `_00_rv`, the body's
  distance and length, and the record id behind a length prefix; the body is the encoded
  value, whose field names are ids of the table's dictionary. A digest is the number its 32
  bytes spell, and so is every fixed field.

  A head is read through `Head`: every byte string long enough is the bytes of one
  (`exists_head`), the readers give its fields back whatever follows it, and relinking
  replaces the body pointer alone (`relinkHead_bytes`).
-/
import Mathlib.Data.List.Nodup
import Sp00ky.Lib.Bytes
import Sp00ky.Ssp.Types

namespace Sp00ky.Checkpoint

open Lib Ssp

/-- A digest, or the XOR of some. -/
abbrev Digest := BitVec 256

/-! ## The field dictionary -/

/-- `FieldDict`: the names a table's rows use, a name's id being its position. -/
structure FieldDict where
  names : List String
  nodup : names.Nodup

namespace FieldDict

/-- `FieldDict::new`. -/
def new : FieldDict := ⟨[], List.nodup_nil⟩

/-- `FieldDict::intern`. -/
def intern (dict : FieldDict) (name : String) : Nat × FieldDict :=
  if h : name ∈ dict.names then (dict.names.idxOf name, dict)
  else
    (dict.names.length, ⟨dict.names ++ [name], by
      rw [List.nodup_append]
      refine ⟨dict.nodup, List.nodup_singleton name, ?_⟩
      intro a ha b hb
      rw [List.mem_singleton.mp hb]
      rintro rfl
      exact h ha⟩)

/-- `FieldDict::name`. -/
def name (dict : FieldDict) (id : Nat) : Option String := dict.names[id]?

/-- `FieldDict::len`. -/
def len (dict : FieldDict) : Nat := dict.names.length

/-- `RowTable::extend_dict`: intern the names in order, stopping at one that is already there. -/
def extend (dict : FieldDict) : List String → FieldDict × Bool
  | [] => (dict, true)
  | name :: names =>
    let (id, dict') := dict.intern name
    if id ≠ dict.len then (dict', false) else dict'.extend names

/-- `FieldDict::from_names`. -/
def fromNames (names : List String) : Option FieldDict :=
  match new.extend names with
  | (dict, true) => some dict
  | (_, false) => none

theorem ext_names {d d' : FieldDict} (h : d.names = d'.names) : d = d' := by
  cases d
  cases d'
  cases h
  rfl

theorem intern_names (dict : FieldDict) (name : String) :
    (dict.intern name).2.names = dict.names ++ if name ∈ dict.names then [] else [name] := by
  unfold intern
  split
  · exact (List.append_nil _).symm
  · rfl

/-- A name is new exactly when it gets the next id. -/
theorem intern_id_eq_len {dict : FieldDict} {name : String} :
    (dict.intern name).1 = dict.len ↔ name ∉ dict.names := by
  unfold intern len
  split
  next h =>
    have := List.idxOf_lt_length_of_mem h
    constructor
    · intro he
      omega
    · intro hn
      exact absurd h hn
  next h => exact ⟨fun _ => h, fun _ => rfl⟩

/-- Names that are new and distinct are all taken. -/
theorem extend_of_nodup {dict : FieldDict} {more : List String}
    (h : (dict.names ++ more).Nodup) : dict.extend more = (⟨dict.names ++ more, h⟩, true) := by
  induction more generalizing dict with
  | nil =>
    unfold extend
    exact Prod.ext (ext_names (List.append_nil _).symm) rfl
  | cons name more ih =>
    have hnew : name ∉ dict.names := by
      intro hm
      exact (List.nodup_append.mp h).2.2 name hm name List.mem_cons_self rfl
    have hnames : (dict.intern name).2.names = dict.names ++ [name] := by
      rw [intern_names, if_neg hnew]
    unfold extend
    simp only
    rw [if_neg (not_not.mpr (intern_id_eq_len.mpr hnew))]
    have hnd : ((dict.intern name).2.names ++ more).Nodup := by
      rw [hnames, List.append_assoc]
      exact h
    rw [ih hnd]
    refine Prod.ext (ext_names ?_) rfl
    change (dict.intern name).2.names ++ more = dict.names ++ name :: more
    rw [hnames, List.append_assoc]
    rfl

theorem fromNames_names (dict : FieldDict) : fromNames dict.names = some dict := by
  unfold fromNames
  have h : (new.names ++ dict.names).Nodup := dict.nodup
  rw [extend_of_nodup h]
  simp only [Option.some.injEq]
  exact ext_names rfl

end FieldDict

/-! ## Values -/

section

variable {dict : FieldDict}

/-- The ids of an object's field names, interned in the map's order. -/
def internFields (dict : FieldDict) : List String → List Nat × FieldDict
  | [] => ([], dict)
  | name :: names =>
    let (id, dict) := dict.intern name
    let (ids, dict) := internFields dict names
    (id :: ids, dict)

/-- An object's entry table: each field's id and where its value starts. -/
def entryTable : List Nat → List Bytes → Nat → Bytes
  | id :: ids, value :: values, offset =>
    leBytes 4 id ++ leBytes 4 offset ++ entryTable ids values (offset + value.length)
  | _, _, _ => []

/-- `encode_value`. Field names are interned first and the fields sorted by id. -/
def encodeValue (value : Sp00kyValue) (dict : FieldDict) : Bytes × FieldDict :=
  match value with
  | .null => ([0x00], dict)
  | .bool false => ([0x01], dict)
  | .bool true => ([0x02], dict)
  | .int i => (0x03 :: leBytes 8 (BitVec.ofInt 64 i).toNat, dict)
  | .float f => (0x04 :: leBytes 8 f.bits.toNat, dict)
  | .str s => (0x05 :: (writeVarint (strBytes s).length ++ strBytes s), dict)
  | .array items =>
    let out := items.attach.foldl
      (fun acc item =>
        let (bytes, dict) := encodeValue item.1 acc.2
        (acc.1 ++ [bytes], dict)) (([] : List Bytes), dict)
    (0x06 :: (writeVarint items.length ++ out.1.flatten), out.2)
  | .object fields =>
    let (ids, dict) := internFields dict (fields.map Prod.fst)
    let entries := (ids.zip fields.attach).mergeSort fun a b => decide (a.1 ≤ b.1)
    let out := entries.foldl
      (fun acc entry =>
        let (bytes, dict) := encodeValue entry.2.1.2 acc.2
        (acc.1 ++ [bytes], dict)) (([] : List Bytes), dict)
    (0x07 :: (writeVarint fields.length ++ entryTable (entries.map Prod.fst) out.1 0 ++
      out.1.flatten), out.2)
termination_by sizeOf value
decreasing_by
  · have := List.sizeOf_lt_of_mem item.2
    simp
    omega
  · have hmem := List.sizeOf_lt_of_mem entry.2.2
    have hpair : sizeOf entry.2.1 = 1 + sizeOf entry.2.1.1 + sizeOf entry.2.1.2 := by
      obtain ⟨i, ⟨⟨k, v⟩, hkv⟩⟩ := entry
      simp
    simp
    omega

/-- `bytes.get(pos..)`. -/
def rest (bytes : Bytes) (pos : Nat) : Option Bytes := slice bytes pos bytes.length

/-- Skip `count` values, from `pos` on. -/
def skipValues (len : Bytes → Option Nat) (bytes : Bytes) : Nat → Nat → Option Nat
  | 0, pos => some pos
  | count + 1, pos => do
    let skipped ← len (← rest bytes pos)
    skipValues len bytes count (pos + skipped)

/-- `value_len`, to a nesting depth. -/
def valueLenUpTo : Nat → Bytes → Option Nat
  | 0, _ => none
  | depth + 1, bytes => do
    let tag ← bytes.head?
    match tag.toNat with
    | 0x00 | 0x01 | 0x02 => some 1
    | 0x03 | 0x04 => some 9
    | 0x05 => do
      let (len, n) ← readVarint (← rest bytes 1)
      some (1 + n + len)
    | 0x06 => do
      let (count, n) ← readVarint (← rest bytes 1)
      skipValues (valueLenUpTo depth) bytes count (1 + n)
    | 0x07 => do
      let (count, n) ← readVarint (← rest bytes 1)
      skipValues (valueLenUpTo depth) bytes count (1 + n + count * 8)
    | _ => none

/-- `value_len`: a value is nested at most as deep as its bytes are many. -/
def valueLen (bytes : Bytes) : Option Nat := valueLenUpTo bytes.length bytes

/-- The items of an encoded array. -/
def decodeItems (decode : Bytes → Option Sp00kyValue) (bytes : Bytes) :
    Nat → Nat → Option (List Sp00kyValue)
  | 0, _ => some []
  | count + 1, pos => do
    let item ← rest bytes pos
    let value ← decode item
    let skipped ← valueLen item
    let values ← decodeItems decode bytes count (pos + skipped)
    some (value :: values)

/-- The fields of an encoded object, `obj_entry_at` for each entry; a name read twice is replaced. -/
def decodeFields (dict : FieldDict) (decode : Bytes → Option Sp00kyValue) (table values : Bytes) :
    Nat → Nat → List (String × Sp00kyValue) → Option (List (String × Sp00kyValue))
  | 0, _, fields => some fields
  | count + 1, i, fields => do
    let id ← slice table (i * 8) (i * 8 + 4)
    let offset ← slice table (i * 8 + 4) (i * 8 + 8)
    let bytes ← rest values (leNat offset)
    let name ← dict.name (leNat id)
    let value ← decode bytes
    decodeFields dict decode table values count (i + 1) (fieldsInsert fields name value)

/-- `decode_value`, to a nesting depth. -/
def decodeUpTo (dict : FieldDict) : Nat → Bytes → Option Sp00kyValue
  | 0, _ => none
  | depth + 1, bytes => do
    let tag ← bytes.head?
    match tag.toNat with
    | 0x00 => some .null
    | 0x01 => some (.bool false)
    | 0x02 => some (.bool true)
    | 0x03 => do
      let raw ← slice bytes 1 9
      some (.int (BitVec.ofNat 64 (leNat raw)).toInt)
    | 0x04 => do
      let raw ← slice bytes 1 9
      some (.float ⟨BitVec.ofNat 64 (leNat raw)⟩)
    | 0x05 => do
      let (len, n) ← readVarint (← rest bytes 1)
      let s ← strOf (← slice bytes (1 + n) (1 + n + len))
      some (.str s)
    | 0x06 => do
      let (count, n) ← readVarint (← rest bytes 1)
      let items ← decodeItems (decodeUpTo dict depth) (← rest bytes (1 + n)) count 0
      some (.array items)
    | 0x07 => do
      let (count, n) ← readVarint (← rest bytes 1)
      let table ← slice bytes (1 + n) (1 + n + count * 8)
      let values ← rest bytes (1 + n + count * 8)
      let fields ← decodeFields dict (decodeUpTo dict depth) table values count 0 []
      some (.object fields)
    | _ => none

/-- `decode_value`. Every nested value starts later than the one that holds it, so the length of
    the bytes bounds the depth. -/
def decodeValue (bytes : Bytes) (dict : FieldDict) : Option Sp00kyValue :=
  decodeUpTo dict bytes.length bytes

end

theorem encodeValue_ne_nil (value : Sp00kyValue) (dict : FieldDict) :
    (encodeValue value dict).1 ≠ [] := by
  unfold encodeValue
  split <;> simp

/-! ## Heads -/

/-- `RV_ABSENT`, which is `i64::MIN`. -/
def rvAbsent : BitVec 64 := BitVec.intMin 64

/-- `HEAD_ID_OFFSET`: the digest, the rv, the body's distance and its length. -/
def headIdOffset : Nat := 32 + 8 + 4 + 4

/-- `HEAD_MIN_LEN`. -/
def headMinLen : Nat := headIdOffset + 1

/-- The id behind its length prefix. -/
def idField (id : String) : Bytes := writeVarint (strBytes id).length ++ strBytes id

/-- `encode_head`. -/
def encodeHead (id : String) (digest : Digest) (rv : BitVec 64) (bodyRel bodyLen : Nat) : Bytes :=
  leBytes 32 digest.toNat ++ leBytes 8 rv.toNat ++ leBytes 4 bodyRel ++ leBytes 4 bodyLen ++
    idField id

/-- `head_len_for`. -/
def headLenFor (id : String) : Nat :=
  headIdOffset + (writeVarint (strBytes id).length).length + (strBytes id).length

/-- `relink_head`. -/
def relinkHead (head : Bytes) (bodyRel : Nat) : Bytes :=
  head.take 40 ++ leBytes 4 bodyRel ++ head.drop 44

/-- The lifted `_00_rv` of a value. -/
def liftedRv (value : Sp00kyValue) : BitVec 64 :=
  match value.get "_00_rv" with
  | some (.int rv) => BitVec.ofInt 64 rv
  | _ => rvAbsent

/-- `encode_record`: the head, the body behind it and the dictionary with the new names. -/
def encodeRecord (id : String) (value : Sp00kyValue) (digest : Digest) (dict : FieldDict) :
    Bytes × Bytes × FieldDict :=
  let (body, dict) := encodeValue value dict
  (encodeHead id digest (liftedRv value) (headLenFor id) body.length, body, dict)

/-- `head_len`. -/
def headLen (bytes : Bytes) : Option Nat := do
  let (len, n) ← readVarint (← rest bytes headIdOffset)
  let stop := headIdOffset + n + len
  if stop ≤ bytes.length then some stop else none

/-- `head_digest`. -/
def headDigest (head : Bytes) : Option Digest :=
  (slice head 0 32).map fun raw => BitVec.ofNat 256 (leNat raw)

/-- `head_rv_raw`. -/
def headRvRaw (head : Bytes) : Option (BitVec 64) :=
  (slice head 32 40).map fun raw => BitVec.ofNat 64 (leNat raw)

/-- The version a raw rv stands for. -/
def versionOf (raw : BitVec 64) : Option Int := if raw = rvAbsent then none else some raw.toInt

/-- `head_body_rel`. -/
def headBodyRel (head : Bytes) : Option Nat := (slice head 40 44).map leNat

/-- `head_body_len`. -/
def headBodyLen (head : Bytes) : Option Nat := (slice head 44 48).map leNat

/-- `head_id`. -/
def headId (head : Bytes) : Option String := do
  let (len, n) ← readVarint (← rest head headIdOffset)
  strOf (← slice head (headIdOffset + n) (headIdOffset + n + len))

/-! ## Reading a head -/

/-- The fields of a head. -/
structure Head where
  digest : Digest
  rv : BitVec 64
  bodyRel : BitVec 32
  bodyLen : BitVec 32
  idField : Bytes

namespace Head

def bytes (h : Head) : Bytes :=
  leBytes 32 h.digest.toNat ++ leBytes 8 h.rv.toNat ++ leBytes 4 h.bodyRel.toNat ++
    leBytes 4 h.bodyLen.toNat ++ h.idField

/-- The length prefix accounts for the whole id field, which spells `id`. -/
def Names (h : Head) (id : String) : Prop :=
  ∃ n len, readVarint h.idField = some (len, n) ∧ n + len = h.idField.length ∧
    slice h.idField n (n + len) = some (strBytes id)

@[simp] theorem length_bytes (h : Head) : h.bytes.length = headIdOffset + h.idField.length := by
  unfold bytes headIdOffset
  simp only [List.length_append, length_leBytes]

end Head

theorem leBytes_mod (w n : Nat) : leBytes w (n % 256 ^ w) = leBytes w n := by
  have h := leBytes_leNat (leBytes w n)
  rw [leNat_leBytes, length_leBytes] at h
  exact h

theorem leBytes_ofNat (n : Nat) : leBytes 4 (BitVec.ofNat 32 n).toNat = leBytes 4 n := by
  rw [BitVec.toNat_ofNat]
  exact leBytes_mod 4 n

theorem encodeHead_eq (id : String) (digest : Digest) (rv : BitVec 64) (rel len : Nat) :
    encodeHead id digest rv rel len =
      (Head.mk digest rv (BitVec.ofNat 32 rel) (BitVec.ofNat 32 len) (idField id)).bytes := by
  unfold encodeHead Head.bytes
  rw [leBytes_ofNat, leBytes_ofNat]

theorem length_encodeHead (id : String) (digest : Digest) (rv : BitVec 64) (rel len : Nat) :
    (encodeHead id digest rv rel len).length = headLenFor id := by
  rw [encodeHead_eq, Head.length_bytes]
  unfold headLenFor idField
  rw [List.length_append]
  omega

theorem leNat_leBytes_bitVec {w n : Nat} (x : BitVec n) (h : 2 ^ n = 256 ^ w) :
    leNat (leBytes w x.toNat) = x.toNat := leNat_leBytes_of_lt (h ▸ x.isLt)

theorem exists_field (w n : Nat) (bs : Bytes) (hlen : bs.length = w) (h : 2 ^ n = 256 ^ w) :
    ∃ x : BitVec n, leBytes w x.toNat = bs := by
  refine ⟨BitVec.ofNat n (leNat bs), ?_⟩
  have hlt : leNat bs < 2 ^ n := by
    rw [h, ← hlen]
    exact leNat_lt bs
  rw [BitVec.toNat_ofNat, Nat.mod_eq_of_lt hlt, ← hlen, leBytes_leNat]

/-- Every string of bytes that is long enough is the bytes of some fields. -/
theorem exists_head (bs : Bytes) (h : headIdOffset ≤ bs.length) : ∃ hd : Head, hd.bytes = bs := by
  unfold headIdOffset at h
  obtain ⟨a, ha⟩ := exists_field 32 256 (bs.take 32)
    (by rw [List.length_take]; omega) (by norm_num)
  obtain ⟨b, hb⟩ := exists_field 8 64 ((bs.drop 32).take 8)
    (by rw [List.length_take, List.length_drop]; omega) (by norm_num)
  obtain ⟨c, hc⟩ := exists_field 4 32 ((bs.drop 40).take 4)
    (by rw [List.length_take, List.length_drop]; omega) (by norm_num)
  obtain ⟨d, hd⟩ := exists_field 4 32 ((bs.drop 44).take 4)
    (by rw [List.length_take, List.length_drop]; omega) (by norm_num)
  refine ⟨⟨a, b, c, d, bs.drop 48⟩, ?_⟩
  unfold Head.bytes
  simp only [ha, hb, hc, hd, List.append_assoc]
  have h44 : (bs.drop 44).take 4 ++ bs.drop 48 = bs.drop 44 := by
    rw [← List.drop_drop (i := 4) (j := 44), List.take_append_drop]
  have h40 : (bs.drop 40).take 4 ++ bs.drop 44 = bs.drop 40 := by
    rw [← List.drop_drop (i := 4) (j := 40), List.take_append_drop]
  have h32 : (bs.drop 32).take 8 ++ bs.drop 40 = bs.drop 32 := by
    rw [← List.drop_drop (i := 8) (j := 32), List.take_append_drop]
  rw [h44, h40, h32, List.take_append_drop]

namespace Head

variable (h : Head) (more : Bytes)

theorem headDigest_bytes : headDigest (h.bytes ++ more) = some h.digest := by
  have hs : slice (h.bytes ++ more) 0 32 = some (leBytes 32 h.digest.toNat) := by
    refine slice_eq_some_iff.mpr ⟨[], leBytes 8 h.rv.toNat ++
      leBytes 4 h.bodyRel.toNat ++ leBytes 4 h.bodyLen.toNat ++ h.idField ++ more, ?_, rfl, ?_⟩
    · unfold bytes
      simp only [List.nil_append, List.append_assoc]
    · rw [length_leBytes]
  unfold headDigest
  rw [hs, Option.map_some, leNat_leBytes_bitVec _ (by norm_num), BitVec.ofNat_toNat,
    BitVec.setWidth_eq]

theorem headRvRaw_bytes : headRvRaw (h.bytes ++ more) = some h.rv := by
  have hs : slice (h.bytes ++ more) 32 40 = some (leBytes 8 h.rv.toNat) := by
    refine slice_eq_some_iff.mpr ⟨leBytes 32 h.digest.toNat, leBytes 4 h.bodyRel.toNat ++
      leBytes 4 h.bodyLen.toNat ++ h.idField ++ more, ?_, length_leBytes _ _, ?_⟩
    · unfold bytes
      simp only [List.append_assoc]
    · rw [length_leBytes]
  unfold headRvRaw
  rw [hs, Option.map_some, leNat_leBytes_bitVec _ (by norm_num), BitVec.ofNat_toNat,
    BitVec.setWidth_eq]

theorem headBodyRel_bytes : headBodyRel (h.bytes ++ more) = some h.bodyRel.toNat := by
  have hs : slice (h.bytes ++ more) 40 44 = some (leBytes 4 h.bodyRel.toNat) := by
    refine slice_eq_some_iff.mpr ⟨leBytes 32 h.digest.toNat ++ leBytes 8 h.rv.toNat,
      leBytes 4 h.bodyLen.toNat ++ h.idField ++ more, ?_, ?_, ?_⟩
    · unfold bytes
      simp only [List.append_assoc]
    · simp only [List.length_append, length_leBytes]
    · rw [length_leBytes]
  unfold headBodyRel
  rw [hs, Option.map_some, leNat_leBytes_bitVec _ (by norm_num)]

theorem headBodyLen_bytes : headBodyLen (h.bytes ++ more) = some h.bodyLen.toNat := by
  have hs : slice (h.bytes ++ more) 44 48 = some (leBytes 4 h.bodyLen.toNat) := by
    refine slice_eq_some_iff.mpr ⟨leBytes 32 h.digest.toNat ++ leBytes 8 h.rv.toNat ++
      leBytes 4 h.bodyRel.toNat, h.idField ++ more, ?_, ?_, ?_⟩
    · unfold bytes
      simp only [List.append_assoc]
    · simp only [List.length_append, length_leBytes]
    · rw [length_leBytes]
  unfold headBodyLen
  rw [hs, Option.map_some, leNat_leBytes_bitVec _ (by norm_num)]

theorem rest_bytes : rest (h.bytes ++ more) headIdOffset = some (h.idField ++ more) := by
  unfold rest
  refine slice_eq_some_iff.mpr ⟨leBytes 32 h.digest.toNat ++ leBytes 8 h.rv.toNat ++
    leBytes 4 h.bodyRel.toNat ++ leBytes 4 h.bodyLen.toNat, [], ?_, ?_, ?_⟩
  · unfold bytes
    simp only [List.append_assoc, List.append_nil]
  · simp only [List.length_append, length_leBytes]
    rfl
  · rw [List.length_append, List.length_append, length_bytes]
    omega

/-- A head that names a record is read whole, whatever follows it. -/
theorem Names.headLen_bytes {h : Head} {id : String} (hn : h.Names id) (more : Bytes) :
    headLen (h.bytes ++ more) = some h.bytes.length := by
  obtain ⟨n, len, hread, hlen, -⟩ := hn
  unfold headLen
  rw [h.rest_bytes more]
  simp only [Option.bind_eq_bind, Option.bind_some, readVarint_append hread more]
  rw [if_pos]
  · rw [length_bytes]
    congr 1
    omega
  · rw [List.length_append, length_bytes]
    omega

theorem Names.headId_bytes {h : Head} {id : String} (hn : h.Names id) :
    headId h.bytes = some id := by
  obtain ⟨n, len, hread, hlen, hslice⟩ := hn
  have hrest := h.rest_bytes []
  rw [List.append_nil, List.append_nil] at hrest
  have hid : slice h.bytes (headIdOffset + n) (headIdOffset + n + len) = some (strBytes id) := by
    rw [Nat.add_assoc]
    exact slice_slice hrest hslice
  unfold headId
  rw [hrest]
  simp only [Option.bind_eq_bind, Option.bind_some, hread, hid, strOf_strBytes]

/-- `headLen` and `headId` find a record only where a head names it. -/
theorem names_of_headLen {bs : Bytes} {n : Nat} (hlen : headLen bs = some n) :
    ∃ (h : Head) (more : Bytes), bs = h.bytes ++ more ∧ h.bytes.length = n ∧
      ∀ id, headId h.bytes = some id → h.Names id := by
  unfold headLen at hlen
  simp only [Option.bind_eq_bind, Option.bind_eq_some_iff] at hlen
  obtain ⟨tail, htail, ⟨len, k⟩, hread, hif⟩ := hlen
  split at hif
  next hle =>
    cases hif
    have hoff : headIdOffset ≤ bs.length := by omega
    have hcut : (bs.take (headIdOffset + k + len)).length = headIdOffset + k + len := by
      rw [List.length_take]
      omega
    obtain ⟨h, hh⟩ := exists_head (bs.take (headIdOffset + k + len)) (by omega)
    have hbs : bs = h.bytes ++ bs.drop (headIdOffset + k + len) := by
      rw [hh, List.take_append_drop]
    refine ⟨h, bs.drop (headIdOffset + k + len), hbs, by rw [hh, hcut], ?_⟩
    intro id hid
    have hfield : h.idField.length = k + len := by
      have := h.length_bytes
      rw [hh, hcut] at this
      omega
    -- The varint was read from the id field alone.
    have hread' : readVarint h.idField = some (len, k) := by
      rw [hbs, h.rest_bytes] at htail
      cases htail
      obtain ⟨-, -, htake⟩ := readVarint_take hread
      rw [List.take_append_of_le_length (by omega)] at htake
      have := readVarint_append htake (h.idField.drop k)
      rwa [List.take_append_drop] at this
    refine ⟨k, len, hread', hfield.symm, ?_⟩
    have hrest := h.rest_bytes []
    rw [List.append_nil, List.append_nil] at hrest
    obtain ⟨x, hx⟩ := slice_isSome h.idField (Nat.le_add_right k len) (by omega)
    have hbig := slice_slice hrest hx
    unfold headId at hid
    rw [hrest] at hid
    simp only [Option.bind_eq_bind, Option.bind_some, hread'] at hid
    rw [Nat.add_assoc, hbig, Option.bind_some] at hid
    rw [hx, strBytes_strOf hid]
  next => cases hif

theorem names_idField {id : String} (h : Head) (hid : h.idField = Checkpoint.idField id)
    (hlt : (strBytes id).length < 2 ^ 64) : h.Names id := by
  refine ⟨(writeVarint (strBytes id).length).length, (strBytes id).length, ?_, ?_, ?_⟩
  · rw [hid]
    exact readVarint_writeVarint hlt _
  · rw [hid]
    unfold Checkpoint.idField
    rw [List.length_append]
  · rw [hid]
    unfold Checkpoint.idField
    have := slice_mid (writeVarint (strBytes id).length) (strBytes id) []
    rwa [List.append_nil] at this

/-- The same head with another body pointer. -/
def relinked (h : Head) (rel : Nat) : Head := { h with bodyRel := BitVec.ofNat 32 rel }

theorem relinked_kept (rel : Nat) : (h.relinked rel).digest = h.digest ∧
    (h.relinked rel).rv = h.rv ∧ (h.relinked rel).bodyLen = h.bodyLen := ⟨rfl, rfl, rfl⟩

theorem relinkHead_bytes (rel : Nat) : relinkHead h.bytes rel = (h.relinked rel).bytes := by
  have h40 : h.bytes.take 40 = leBytes 32 h.digest.toNat ++ leBytes 8 h.rv.toNat := by
    unfold bytes
    rw [List.append_assoc, List.append_assoc]
    exact List.take_left' (by simp only [List.length_append, length_leBytes])
  have h44 : h.bytes.drop 44 = leBytes 4 h.bodyLen.toNat ++ h.idField := by
    unfold bytes
    rw [List.append_assoc (leBytes 32 h.digest.toNat ++ leBytes 8 h.rv.toNat ++
      leBytes 4 h.bodyRel.toNat)]
    exact List.drop_left' (by simp only [List.length_append, length_leBytes])
  unfold relinkHead
  rw [h40, h44]
  unfold relinked bytes
  simp only
  rw [leBytes_ofNat]
  simp only [List.append_assoc]

@[simp] theorem length_relinked (rel : Nat) : (h.relinked rel).bytes.length = h.bytes.length := by
  rw [length_bytes, length_bytes]
  rfl

theorem Names.relinked {h : Head} {id : String} (hn : h.Names id) (rel : Nat) :
    (h.relinked rel).Names id := hn

end Head

end Sp00ky.Checkpoint
