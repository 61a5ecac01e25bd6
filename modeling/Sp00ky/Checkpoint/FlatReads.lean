/-
  A stored row read without decoding it (`circuit/row_codec.rs`, `eval/value_ref.rs`).

  `FlatValue` is a value behind its bytes: scalars are read out, containers stay bytes. A field
  is looked up by its id, through a binary search of the entry table. `Shows` says that such a
  value is the one a map look-up answers with; `encodeRecord_reads` puts the row codec together:
  decoding, the head, skipping and look-ups along any path of fields give back what was encoded,
  under the dictionary it was encoded with or any later one. Ids are `u32`s: a dictionary of
  `2 ^ 32` names and one more field wraps around (`encodeRecord_wraps`).
-/
import Sp00ky.Checkpoint.ValueCodec
import Sp00ky.Lib.Rank

namespace Sp00ky.Checkpoint

open Lib Ssp

/-- `FieldDict::id_of`. An id is a `u32`. -/
def FieldDict.idOf (dict : FieldDict) (name : String) : Option Nat :=
  if name ∈ dict.names then some (dict.names.idxOf name % 2 ^ 32) else none

/-- `record_body`. -/
def recordBody (record : Bytes) : Bytes :=
  match headBodyRel record, headBodyLen record with
  | some rel, some len => (slice record rel (rel + len)).getD []
  | _, _ => []

/-- `head_rv`. -/
def headRv (head : Bytes) : Option Int := (headRvRaw head).bind versionOf

/-- `ObjParts`: an encoded object's entry table and its value region. -/
structure ObjParts where
  table : Bytes
  values : Bytes
  count : Nat

/-- `obj_parts`. -/
def objParts (bytes : Bytes) : Option ObjParts := do
  let tag ← bytes.head?
  if tag.toNat ≠ 0x07 then none
  else do
    let (count, n) ← readVarint (← rest bytes 1)
    let table ← slice bytes (1 + n) (1 + n + count * 8)
    let values ← rest bytes (1 + n + count * 8)
    some ⟨table, values, count⟩

/-- How the id of the entry `mid` compares with the wanted one. -/
def ObjParts.compareAt (parts : ObjParts) (nameId mid : Nat) : Option Ordering :=
  (slice parts.table (mid * 8) (mid * 8 + 4)).map fun id => compare (leNat id) nameId

/-- `obj_lookup`. -/
def objLookup (bytes : Bytes) (nameId : Nat) : Option Bytes := do
  let parts ← objParts bytes
  let mid ← bisect (parts.compareAt nameId) 0 parts.count
  let offset ← slice parts.table (mid * 8 + 4) (mid * 8 + 8)
  rest parts.values (leNat offset)

/-- `str_bytes`. -/
def strAt (bytes : Bytes) : Option String := do
  let tag ← bytes.head?
  if tag.toNat ≠ 0x05 then none
  else do
    let (len, n) ← readVarint (← rest bytes 1)
    strOf (← slice bytes (1 + n) (1 + n + len))

/-- A `ValueRef` into flat bytes. -/
inductive FlatValue where
  | missing
  | null
  | bool (b : Bool)
  | int (i : Int)
  | float (f : F64)
  | str (s : String)
  | arr (bytes : Bytes)
  | obj (bytes : Bytes)
deriving DecidableEq

/-- `FlatRef::value`: unreadable bytes are missing. -/
def flatValue (bytes : Bytes) : FlatValue :=
  match bytes.head? with
  | none => .missing
  | some tag =>
    match tag.toNat with
    | 0x00 => .null
    | 0x01 => .bool false
    | 0x02 => .bool true
    | 0x03 =>
      match slice bytes 1 9 with
      | some raw => .int (BitVec.ofNat 64 (leNat raw)).toInt
      | none => .missing
    | 0x04 =>
      match slice bytes 1 9 with
      | some raw => .float ⟨BitVec.ofNat 64 (leNat raw)⟩
      | none => .missing
    | 0x05 =>
      match strAt bytes with
      | some s => .str s
      | none => .missing
    | 0x06 => .arr bytes
    | 0x07 => .obj bytes
    | _ => .missing

/-- `ValueRef::get` on a flat value. -/
def FlatValue.get (dict : FieldDict) (v : FlatValue) (key : String) : FlatValue :=
  match v with
  | .obj bytes =>
    match dict.idOf key with
    | none => .missing
    | some id =>
      match objLookup bytes id with
      | some value => flatValue value
      | none => .missing
  | _ => .missing

/-- The flat value is what `w` is: a scalar read out, or bytes that decode to the container. -/
def FlatValue.Shows (dict : FieldDict) (v : FlatValue) (w : Option Sp00kyValue) : Prop :=
  match v, w with
  | .missing, none => True
  | .null, some .null => True
  | .bool a, some (.bool b) => a = b
  | .int a, some (.int b) => a = b
  | .float a, some (.float b) => a = b
  | .str a, some (.str b) => a = b
  | .arr bytes, some (.array items) => ∃ u, decodeValue bytes dict = some u ∧ Same u (.array items)
  | .obj bytes, some (.object fields) =>
    ∃ u, decodeValue bytes dict = some u ∧ Same u (.object fields)
  | _, _ => False

/-! ## What was written -/

/-- `bytes` are an encoding of `v` and more, under a dictionary `later` has grown from. -/
def Written (later : FieldDict) (bytes : Bytes) (v : Sp00kyValue) : Prop :=
  Storable v ∧ ∃ (dict : FieldDict) (more : Bytes), bytes = (encodeValue v dict).1 ++ more ∧
    (encodeValue v dict).2.names <+: later.names ∧
    (encodeValue v dict).2.names.length ≤ 2 ^ 32 ∧ (encodeValue v dict).1.length < 2 ^ 32

variable {later : FieldDict}

theorem Written.decodeValue {bytes : Bytes} {v : Sp00kyValue}
    (h : Written later bytes v) : ∃ u, Checkpoint.decodeValue bytes later = some u ∧ Same u v := by
  obtain ⟨hv, dict, more, rfl, hlater, hsmall, hlt⟩ := h
  refine ((codes_of_storable hv dict).2 later hlater hsmall hlt more _ ?_).2
  rw [List.length_append]
  omega

theorem strAt_cons (bytes : Bytes) : strAt (0x05 :: bytes) =
    (rest (0x05 :: bytes) 1).bind fun tail =>
      (readVarint tail).bind fun (len, n) =>
        (slice (0x05 :: bytes) (1 + n) (1 + n + len)).bind strOf := rfl

theorem flatValue_object {bytes more : Bytes} {entries : List (Nat × String × Sp00kyValue)}
    {values : List Bytes} (h : bytes = objectBytes entries values ++ more) :
    flatValue bytes = .obj bytes := by
  rw [h]
  rfl

theorem Written.flatValue_shows {bytes : Bytes} {v : Sp00kyValue}
    (h : Written later bytes v) : (flatValue bytes).Shows later (some v) := by
  have hdec := h.decodeValue
  obtain ⟨hv, dict, more, hbytes, -, -, hlt⟩ := h
  cases hv with
  | null =>
    rw [encodeValue] at hbytes
    rw [hbytes]
    trivial
  | bool b =>
    cases b with
    | false | true =>
      rw [encodeValue] at hbytes
      rw [hbytes]
      exact rfl
  | int i hi =>
    rw [encodeValue] at hbytes
    have hval : flatValue bytes = .int i := by
      rw [hbytes, List.cons_append]
      change (match slice (0x03 :: (leBytes 8 (BitVec.ofInt 64 i).toNat ++ more)) 1 9 with
        | some raw => FlatValue.int (BitVec.ofNat 64 (leNat raw)).toInt
        | none => .missing) = .int i
      rw [slice_leBytes]
      simp only
      rw [leNat_leBytes_bitVec _ (by norm_num), BitVec.ofNat_toNat, BitVec.setWidth_eq,
        BitVec.toInt_ofInt_eq_self (by decide) hi.1 hi.2]
    rw [hval]
    exact rfl
  | float f =>
    rw [encodeValue] at hbytes
    have hval : flatValue bytes = .float f := by
      rw [hbytes, List.cons_append]
      change (match slice (0x04 :: (leBytes 8 f.bits.toNat ++ more)) 1 9 with
        | some raw => FlatValue.float ⟨BitVec.ofNat 64 (leNat raw)⟩
        | none => .missing) = .float f
      rw [slice_leBytes]
      simp only
      rw [leNat_leBytes_bitVec _ (by norm_num), BitVec.ofNat_toNat, BitVec.setWidth_eq]
    rw [hval]
    exact rfl
  | str s =>
    rw [encodeValue] at hbytes hlt
    rw [List.length_cons, List.length_append] at hlt
    have hval : flatValue bytes = .str s := by
      rw [hbytes, List.cons_append, List.append_assoc]
      change (match strAt (0x05 :: (writeVarint (strBytes s).length ++ (strBytes s ++ more))) with
        | some s => FlatValue.str s
        | none => .missing) = .str s
      rw [strAt_cons, rest_cons, Option.bind_some, readVarint_writeVarint (by omega),
        Option.bind_some]
      simp only
      rw [slice_str, Option.bind_some, strOf_strBytes]
    rw [hval]
    exact rfl
  | array items hitems =>
    rw [encodeValue_array] at hbytes
    have hval : flatValue bytes = .arr bytes := by
      rw [hbytes]
      rfl
    rw [hval]
    exact hdec
  | object fields hfields hd =>
    rw [encodeValue_object_bytes] at hbytes
    rw [flatValue_object hbytes]
    exact hdec

/-! ## Looking up a field -/

namespace ObjectEntries

variable {dict : FieldDict} {entries : List (Nat × String × Sp00kyValue)} {values : List Bytes}

theorem objParts_objectBytes (o : ObjectEntries dict entries values) (more : Bytes) :
    objParts (objectBytes entries values ++ more) =
      some ⟨entryTable (entries.map Prod.fst) values 0, values.flatten ++ more, entries.length⟩ := by
  have hcons := objectBytes_append entries values more
  have hparts : ∀ bytes : Bytes, objParts (0x07 :: bytes) =
      (rest (0x07 :: bytes) 1).bind fun tail =>
        (readVarint tail).bind fun (count, n) =>
          (slice (0x07 :: bytes) (1 + n) (1 + n + count * 8)).bind fun table =>
            (rest (0x07 :: bytes) (1 + n + count * 8)).bind fun values =>
              some ⟨table, values, count⟩ := fun _ => rfl
  rw [hcons, hparts, rest_cons, Option.bind_some, readVarint_writeVarint o.count_lt,
    Option.bind_some, ← hcons]
  simp only
  rw [o.slice_table, Option.bind_some, o.rest_values, Option.bind_some]

/-- The entry at a position: its id, and where its value starts. -/
theorem slice_at (o : ObjectEntries dict entries values) {i : Nat} {e : Nat × String × Sp00kyValue}
    (he : entries[i]? = some e) :
    ∃ value front back, values[i]? = some value ∧ values.flatten = front ++ (value ++ back) ∧
      slice (entryTable (entries.map Prod.fst) values 0) (i * 8) (i * 8 + 4) = some (leBytes 4 e.1) ∧
      slice (entryTable (entries.map Prod.fst) values 0) (i * 8 + 4) (i * 8 + 8) =
        some (leBytes 4 front.length) := by
  obtain ⟨hi, rfl⟩ := List.getElem?_eq_some_iff.mp he
  have hiv : i < values.length := by
    rw [o.length_eq]
    exact hi
  have hentries : entries.map Prod.fst =
      (entries.map Prod.fst).take i ++ entries[i].1 :: (entries.map Prod.fst).drop (i + 1) := by
    have := List.take_append_drop i (entries.map Prod.fst)
    rw [List.drop_eq_getElem_cons (by rw [List.length_map]; exact hi), List.getElem_map] at this
    exact this.symm
  have hvalues : values = values.take i ++ values[i] :: values.drop (i + 1) := by
    have := List.take_append_drop i values
    rw [List.drop_eq_getElem_cons hiv] at this
    exact this.symm
  have hlen : ((entries.map Prod.fst).take i).length = (values.take i).length := by
    rw [List.length_take, List.length_take, List.length_map, o.length_eq]
  have hi' : ((entries.map Prod.fst).take i).length = i := by
    rw [List.length_take, List.length_map, Nat.min_eq_left (Nat.le_of_lt hi)]
  obtain ⟨hslot, hoffset⟩ := slice_entryTable hlen entries[i].1
    ((entries.map Prod.fst).drop (i + 1)) values[i] (values.drop (i + 1))
  rw [← hentries, ← hvalues, hi'] at hslot hoffset
  refine ⟨values[i], (values.take i).flatten, (values.drop (i + 1)).flatten,
    List.getElem?_eq_getElem hiv, ?_, hslot, hoffset⟩
  conv_lhs => rw [hvalues]
  rw [List.flatten_append, List.flatten_cons]

/-- The search finds the entry with the wanted id. -/
theorem bisect_compareAt (o : ObjectEntries dict entries values) (id : Nat) (more : Bytes) (i : Nat) :
    bisect (ObjParts.compareAt ⟨entryTable (entries.map Prod.fst) values 0, values.flatten ++ more,
      entries.length⟩ id) 0 entries.length = some i ↔ (entries.map Prod.fst)[i]? = some id := by
  have hs : (entries.map Prod.fst).Pairwise (· < ·) := List.pairwise_map.mpr o.increasing
  have h := @bisect_eq_some_iff (ObjParts.compareAt ⟨entryTable (entries.map Prod.fst) values 0,
    values.flatten ++ more, entries.length⟩ id) (entries.map Prod.fst) id hs ?_ i
  · rw [List.length_map] at h
    exact h
  · intro j hj
    rw [List.length_map] at hj
    obtain ⟨_, _, _, _, _, hslot, _⟩ := o.slice_at (List.getElem?_eq_getElem hj)
    unfold ObjParts.compareAt
    simp only
    rw [hslot, Option.map_some, List.getElem_map, leNat_leBytes_of_lt]
    exact (o.ids _ (List.getElem_mem hj)).2

/-- An id that is in the table leads to its value, one that is not to nothing. -/
theorem objLookup_objectBytes (o : ObjectEntries dict entries values) (id : Nat) (more : Bytes) :
    (id ∉ entries.map Prod.fst → objLookup (objectBytes entries values ++ more) id = none) ∧
      ∀ {i : Nat} {e : Nat × String × Sp00kyValue}, entries[i]? = some e → e.1 = id →
        ∃ value back, values[i]? = some value ∧
          objLookup (objectBytes entries values ++ more) id = some (value ++ back) := by
  have hfind := o.bisect_compareAt id more
  constructor
  · intro hno
    unfold objLookup
    rw [o.objParts_objectBytes more]
    simp only [Option.bind_eq_bind, Option.bind_some]
    cases hb : bisect (ObjParts.compareAt ⟨entryTable (entries.map Prod.fst) values 0,
      values.flatten ++ more, entries.length⟩ id) 0 entries.length with
    | none => rfl
    | some i => exact absurd (List.mem_of_getElem? ((hfind i).mp hb)) hno
  · rintro i e he rfl
    have hb := (hfind i).mpr (by rw [List.getElem?_map, he]; rfl)
    obtain ⟨value, front, back, hvalue, hflat, _, hoffset⟩ := o.slice_at he
    refine ⟨value, back ++ more, hvalue, ?_⟩
    have hfront : front.length < 256 ^ 4 := by
      have h := o.length_objectBytes
      have hshort := o.short
      rw [hflat, List.length_append] at h
      omega
    unfold objLookup
    rw [o.objParts_objectBytes more]
    simp only [Option.bind_eq_bind, Option.bind_some]
    rw [hb, Option.bind_some, hoffset, Option.bind_some, leNat_leBytes_of_lt hfront, hflat,
      List.append_assoc, rest_append, List.append_assoc]

end ObjectEntries

theorem forall₂_getElem? {α β : Type} {R : α → β → Prop} {xs : List α} {ys : List β}
    (h : List.Forall₂ R xs ys) {i : Nat} {x : α} {y : β} (hx : xs[i]? = some x)
    (hy : ys[i]? = some y) : R x y := by
  obtain ⟨hi, rfl⟩ := List.getElem?_eq_some_iff.mp hx
  obtain ⟨hj, rfl⟩ := List.getElem?_eq_some_iff.mp hy
  exact h.get hi hj

theorem FieldDict.idOf_eq_some {dict : FieldDict} (hsmall : dict.names.length ≤ 2 ^ 32)
    {name : String} {id : Nat} : dict.idOf name = some id ↔ dict.names[id]? = some name := by
  unfold idOf
  constructor
  · intro h
    split at h
    next hm =>
      have hlt := List.idxOf_lt_length_of_mem hm
      rw [Nat.mod_eq_of_lt (hlt.trans_le hsmall)] at h
      obtain rfl := Option.some.inj h
      rw [List.getElem?_eq_getElem hlt, List.getElem_idxOf]
    next => cases h
  · intro h
    obtain ⟨hlt, rfl⟩ := List.getElem?_eq_some_iff.mp h
    rw [if_pos (List.getElem_mem hlt), dict.nodup.idxOf_getElem,
      Nat.mod_eq_of_lt (hlt.trans_le hsmall)]

/-- A look-up in the bytes of a map: nothing where the map has nothing, else the bytes of what the
    map has there. -/
theorem Written.get {bytes : Bytes} {fields : List (String × Sp00kyValue)}
    (h : Written later bytes (.object fields)) (hlater : later.names.length ≤ 2 ^ 32)
    (key : String) :
    (fieldsGet fields key = none → (FlatValue.obj bytes).get later key = .missing) ∧
      ∀ v, fieldsGet fields key = some v →
        ∃ value, (FlatValue.obj bytes).get later key = flatValue value ∧ Written later value v := by
  obtain ⟨hv, dict, more, rfl, hgrow, hsmall, hlt⟩ := h
  obtain ⟨hfields, hd⟩ : (∀ kv ∈ fields, Storable kv.2) ∧ (fields.map Prod.fst).Nodup := by
    cases hv with
    | object _ hfields hd => exact ⟨hfields, hd⟩
  have hcodes : ∀ kv ∈ fields, Codes kv.2 := fun kv hkv => codes_of_storable (hfields kv hkv)
  rw [encodeValue_object_bytes] at hgrow hsmall hlt ⊢
  have o := objectEntries_valuesOf hcodes dict hd hgrow hsmall hlt
  have heach := List.forall₂_map_right_iff.mp (encodeAll_each (codes_entriesOf hcodes dict)
    (internFields dict (fields.map Prod.fst)).2)
  have hmem : ∀ v, fieldsGet fields key = some v ↔
      ∃ id, (id, key, v) ∈ entriesOf dict fields := by
    intro v
    unfold fieldsGet
    rw [lookup_eq_some_iff hd, ← (entriesOf_perm dict fields).mem_iff, List.mem_map]
    constructor
    · rintro ⟨⟨id, kv⟩, he, rfl⟩
      exact ⟨id, he⟩
    · rintro ⟨id, he⟩
      exact ⟨_, he, rfl⟩
  unfold FlatValue.get
  simp only
  cases hid : later.idOf key with
  | none =>
    refine ⟨fun _ => rfl, fun v hget => ?_⟩
    obtain ⟨id, he⟩ := (hmem v).mp hget
    rw [(FieldDict.idOf_eq_some hlater).mpr (o.ids _ he).1] at hid
    cases hid
  | some id =>
    have hname := (FieldDict.idOf_eq_some hlater).mp hid
    obtain ⟨hnone, hsome⟩ := o.objLookup_objectBytes id more
    simp only
    constructor
    · intro hget
      rw [hnone]
      intro hin
      obtain ⟨⟨id', name, v⟩, he, rfl⟩ := List.mem_map.mp hin
      have hkey := (o.ids _ he).1
      simp only at hkey hname
      rw [hname] at hkey
      obtain rfl := Option.some.inj hkey
      rw [(hmem v).mpr ⟨_, he⟩] at hget
      cases hget
    · intro v hget
      obtain ⟨id', he⟩ := (hmem v).mp hget
      have hid' := (FieldDict.idOf_eq_some hlater).mpr (o.ids _ he).1
      rw [hid] at hid'
      obtain rfl := Option.some.inj hid'
      obtain ⟨i, hi⟩ := List.mem_iff_getElem?.mp he
      obtain ⟨value, back, hvalue, hlook⟩ := hsome hi rfl
      obtain ⟨d, hbytes, hd'⟩ := forall₂_getElem? heach hvalue hi
      rw [hlook]
      refine ⟨_, rfl, hfields (key, v) ?_, d, back, by rw [hbytes], hd'.trans hgrow,
        hd'.length_le.trans hsmall, ?_⟩
      · exact (entriesOf_perm dict fields).mem_iff.mp (List.mem_map.mpr ⟨_, he, rfl⟩)
      · have hin := (List.sublist_flatten_of_mem (List.mem_of_getElem? hvalue)).length_le
        rw [hbytes] at hin
        have hsize := o.length_objectBytes
        have hshort := o.short
        refine lt_of_le_of_lt hin ?_
        omega

/-! ## A path of fields -/

/-- What a flat value stands for, as bytes that were written. -/
def Standing (later : FieldDict) (v : FlatValue) (w : Option Sp00kyValue) : Prop :=
  match w with
  | none => v = .missing
  | some w => ∃ bytes, v = flatValue bytes ∧ Written later bytes w

variable {w : Option Sp00kyValue}

theorem Standing.shows {v : FlatValue} (h : Standing later v w) : v.Shows later w := by
  cases w with
  | none =>
    obtain rfl : v = .missing := h
    trivial
  | some w =>
    obtain ⟨bytes, rfl, hw⟩ := h
    exact hw.flatValue_shows

theorem Standing.get (hlater : later.names.length ≤ 2 ^ 32) {v : FlatValue} (h : Standing later v w) (key : String) :
    Standing later (v.get later key) (w.bind fun w => w.get key) := by
  have hshows := h.shows
  cases w with
  | none =>
    obtain rfl : v = .missing := h
    rfl
  | some w =>
    obtain ⟨bytes, rfl, hw⟩ := h
    rw [Option.bind_some]
    cases w with
    | object fields =>
      have hval : flatValue bytes = .obj bytes := by
        obtain ⟨-, dict, more, hbytes, -⟩ := hw
        rw [encodeValue_object_bytes] at hbytes
        exact flatValue_object hbytes
      obtain ⟨hnone, hsome⟩ := hw.get hlater key
      rw [hval]
      change Standing later _ (fieldsGet fields key)
      cases hget : fieldsGet fields key with
      | none => exact hnone hget
      | some v => exact hsome v hget
    | _ =>
      -- Only an object's bytes are an object.
      cases hval : flatValue bytes with
      | obj b =>
        rw [hval] at hshows
        exact hshows.elim
      | _ => rfl

theorem Standing.path (hlater : later.names.length ≤ 2 ^ 32)
    (path : List String) {v : FlatValue} (h : Standing later v w) :
    Standing later (path.foldl (FlatValue.get later) v)
      (path.foldl (fun w key => w.bind fun w => w.get key) w) := by
  induction path generalizing v w with
  | nil => exact h
  | cons key path ih => exact ih (h.get hlater key)

/-! ## Records -/

section

variable (id : String) (value : Sp00kyValue) (digest : Digest) (dict : FieldDict)

/-- The bytes `encode_record` leaves: the head, then the body. -/
def recordBytes : Bytes :=
  (encodeRecord id value digest dict).1 ++ (encodeRecord id value digest dict).2.1

/-- The dictionary `encode_record` leaves. -/
def recordDict : FieldDict := (encodeRecord id value digest dict).2.2

/-- The version of a row: an integer `_00_rv`, `i64::MIN` standing for none. -/
def versionIn (value : Sp00kyValue) : Option Int :=
  match value.get "_00_rv" with
  | some (.int rv) => if rv = -2 ^ 63 then none else some rv
  | _ => none

end

theorem versionOf_liftedRv {value : Sp00kyValue} (hv : Storable value) :
    versionOf (liftedRv value) = versionIn value := by
  unfold versionIn liftedRv
  cases hget : value.get "_00_rv" with
  | none => rfl
  | some w =>
    cases w with
    | int rv =>
      have hrange : -2 ^ 63 ≤ rv ∧ rv < 2 ^ 63 := by
        cases hv with
        | object fields hfields hd =>
          have hmem := (lookup_eq_some_iff hd).mp hget
          cases hfields _ hmem with
          | int _ h => exact h
        | _ => cases hget
      simp only
      unfold versionOf rvAbsent
      have hint : (BitVec.ofInt 64 rv).toInt = rv :=
        BitVec.toInt_ofInt_eq_self (by decide) hrange.1 hrange.2
      have hiff : BitVec.ofInt 64 rv = BitVec.intMin 64 ↔ rv = -2 ^ 63 := by
        rw [← BitVec.toInt_inj, hint]
        exact Iff.rfl
      rw [hint]
      by_cases hrv : rv = -2 ^ 63
      · rw [if_pos (hiff.mpr hrv), if_pos hrv]
      · rw [if_neg (fun h => hrv (hiff.mp h)), if_neg hrv]
    | _ => rfl

/-- The id is read from a head, whatever follows it. -/
theorem Head.Names.headId_append {h : Head} {id : String} (hn : h.Names id) (more : Bytes) :
    headId (h.bytes ++ more) = some id := by
  obtain ⟨n, len, hread, hlen, hslice⟩ := hn
  have hrest := h.rest_bytes more
  have hid : slice (h.bytes ++ more) (headIdOffset + n) (headIdOffset + n + len) =
      some (strBytes id) := by
    rw [Nat.add_assoc]
    exact slice_slice hrest (slice_append hslice more)
  unfold headId
  rw [hrest]
  simp only [Option.bind_eq_bind, Option.bind_some, readVarint_append hread more, hid,
    strOf_strBytes]

section

variable {id : String} {value : Sp00kyValue} {digest : Digest} {dict : FieldDict}

/-- The head of a record, as its fields. -/
def recordHead (id : String) (value : Sp00kyValue) (digest : Digest) (dict : FieldDict) : Head :=
  ⟨digest, liftedRv value, BitVec.ofNat 32 (headLenFor id),
    BitVec.ofNat 32 (encodeValue value dict).1.length, idField id⟩

theorem recordBytes_eq : recordBytes id value digest dict =
    (recordHead id value digest dict).bytes ++ (encodeValue value dict).1 := by
  unfold recordBytes encodeRecord recordHead
  simp only
  rw [encodeHead_eq]

theorem length_recordHead : (recordHead id value digest dict).bytes.length = headLenFor id := by
  unfold recordHead
  rw [← encodeHead_eq, length_encodeHead]

/-- The body is found behind the head. -/
theorem recordBody_recordBytes (hlt : (recordBytes id value digest dict).length < 2 ^ 32) :
    recordBody (recordBytes id value digest dict) = (encodeValue value dict).1 := by
  rw [recordBytes_eq, List.length_append, length_recordHead] at hlt
  have hrel : (recordHead id value digest dict).bodyRel.toNat = headLenFor id := by
    unfold recordHead
    simp only
    rw [BitVec.toNat_ofNat, Nat.mod_eq_of_lt (by omega)]
  have hlen : (recordHead id value digest dict).bodyLen.toNat =
      (encodeValue value dict).1.length := by
    unfold recordHead
    simp only
    rw [BitVec.toNat_ofNat, Nat.mod_eq_of_lt (by omega)]
  have hslice := slice_mid (recordHead id value digest dict).bytes (encodeValue value dict).1 []
  rw [List.append_nil, length_recordHead] at hslice
  unfold recordBody
  rw [recordBytes_eq, Head.headBodyRel_bytes, Head.headBodyLen_bytes, hrel, hlen]
  simp only
  rw [hslice, Option.getD_some]

theorem written_recordBody (hv : Storable value)
    (hlt : (recordBytes id value digest dict).length < 2 ^ 32)
    (hsmall : (recordDict id value digest dict).names.length ≤ 2 ^ 32) {later : FieldDict}
    (hlater : (recordDict id value digest dict).names <+: later.names) :
    Written later (recordBody (recordBytes id value digest dict)) value := by
  rw [recordBody_recordBytes hlt]
  refine ⟨hv, dict, [], (List.append_nil _).symm, hlater, hsmall, ?_⟩
  rw [recordBytes_eq, List.length_append] at hlt
  omega

/-- A record is read back from its bytes: its value, under the dictionary it was encoded with or
    any later one; its id, digest and version; the length of its body, whatever follows; and
    every path of fields. -/
theorem encodeRecord_reads (hv : Storable value)
    (hlt : (recordBytes id value digest dict).length < 2 ^ 32)
    (hsmall : (recordDict id value digest dict).names.length ≤ 2 ^ 32) :
    (∀ later : FieldDict, (recordDict id value digest dict).names <+: later.names →
      ∃ w, decodeValue (recordBody (recordBytes id value digest dict)) later = some w ∧
        Same w value) ∧
    headId (recordBytes id value digest dict) = some id ∧
    headDigest (recordBytes id value digest dict) = some digest ∧
    headRv (recordBytes id value digest dict) = versionIn value ∧
    (∀ more, valueLen (recordBody (recordBytes id value digest dict) ++ more) =
      some (recordBody (recordBytes id value digest dict)).length) ∧
    ∀ later : FieldDict, (recordDict id value digest dict).names <+: later.names →
      later.names.length ≤ 2 ^ 32 → ∀ path : List String,
        (path.foldl (FlatValue.get later)
          (flatValue (recordBody (recordBytes id value digest dict)))).Shows later
          (path.foldl (fun w key => w.bind fun w => w.get key) (some value)) := by
  have hidlt : (strBytes id).length < 2 ^ 64 := by
    rw [recordBytes_eq, List.length_append, length_recordHead] at hlt
    unfold headLenFor at hlt
    omega
  have hnames := Head.names_idField (recordHead id value digest dict) rfl hidlt
  refine ⟨fun later hlater => (written_recordBody hv hlt hsmall hlater).decodeValue, ?_, ?_, ?_, ?_,
    fun later hlater hwide path => ?_⟩
  · rw [recordBytes_eq]
    exact hnames.headId_append _
  · rw [recordBytes_eq]
    exact Head.headDigest_bytes _ _
  · unfold headRv
    rw [recordBytes_eq, Head.headRvRaw_bytes, Option.bind_some]
    exact versionOf_liftedRv hv
  · intro more
    have hcode := (codes_of_storable hv dict).2 _ List.prefix_rfl hsmall (by
      rw [recordBytes_eq, List.length_append] at hlt
      omega)
    rw [recordBody_recordBytes hlt]
    refine (hcode more _ ?_).1
    rw [List.length_append]
    omega
  · have hstart : Standing later (flatValue (recordBody (recordBytes id value digest dict)))
        (some value) := ⟨_, rfl, written_recordBody hv hlt hsmall hlater⟩
    exact (hstart.path hwide path).shows

end

/-- A record with a nested field whose name the dictionary already has. -/
theorem encodeRecord_reads_nested :
    ∃ w, decodeValue (recordBody (recordBytes "r1" (.object [("author", .object [("name", .int 7)])])
        5 ⟨["name"], by decide⟩)) ⟨["name", "author", "later"], by decide⟩ = some w ∧
      Same w (.object [("author", .object [("name", .int 7)])]) := by
  have hv : Storable (.object [("author", .object [("name", .int 7)])]) := by
    refine .object _ ?_ (by decide)
    intro kv hkv
    obtain rfl := List.mem_singleton.mp hkv
    refine .object _ ?_ (by decide)
    intro kv hkv
    obtain rfl := List.mem_singleton.mp hkv
    exact .int 7 (by decide)
  have hcode : encodeValue (.object [("author", .object [("name", .int 7)])])
      ⟨["name"], by decide⟩ = ([7, 1, 1, 0, 0, 0, 0, 0, 0, 0, 7, 1, 0, 0, 0, 0, 0, 0, 0, 0, 3,
        7, 0, 0, 0, 0, 0, 0, 0], ⟨["name", "author"], by decide⟩) := by
    simp only [encodeValue_object_bytes, objectBytes, valuesOf, entriesOf, internFields,
      FieldDict.intern, encodeAll, encodeValue, List.mergeSort, List.map_cons, List.map_nil,
      List.zip_cons_cons, List.zip_nil_right]
    rfl
  refine (encodeRecord_reads hv ?_ ?_).1 _ ?_
  · rw [recordBytes_eq, List.length_append, length_recordHead, hcode]
    decide
  · change (encodeValue _ _).2.names.length ≤ _
    rw [hcode]
    decide
  · change (encodeValue _ _).2.names <+: _
    rw [hcode]
    decide

/-! ## A dictionary that is too large -/

/-- A dictionary of `n` names: runs of one letter, by their lengths. -/
def wideDict (n : Nat) : FieldDict where
  names := (List.range n).map fun i => String.ofList (List.replicate i 'a')
  nodup := by
    refine List.Nodup.map ?_ List.nodup_range
    intro i j hij
    have h := congrArg (fun s : String => s.toList.length) hij
    simpa only [String.toList_ofList, List.length_replicate] using h

theorem length_wideDict (n : Nat) : (wideDict n).names.length = n := by
  unfold wideDict
  rw [List.length_map, List.length_range]

theorem wideDict_first {n : Nat} (h : 0 < n) : (wideDict n).names[0]? = some "" := by
  unfold wideDict
  rw [List.getElem?_map, List.getElem?_range h]
  rfl

theorem wideDict_new (n : Nat) : "x" ∉ (wideDict n).names := by
  unfold wideDict
  intro hm
  obtain ⟨i, -, hi⟩ := List.mem_map.mp hm
  have hrep := congrArg String.toList hi
  rw [String.toList_ofList] at hrep
  have hin : 'x' ∈ List.replicate i 'a' := by
    rw [hrep]
    decide
  exact absurd (List.eq_of_mem_replicate hin) (by decide)

/-- One field more than `2 ^ 32` gets the id of the first name. -/
theorem encodeValue_wraps {dict : FieldDict} (hlen : dict.names.length = 2 ^ 32)
    (hx : "x" ∉ dict.names) :
    (encodeValue (.object [("x", .null)]) dict).1 = [7, 1, 0, 0, 0, 0, 0, 0, 0, 0, 0] := by
  have hintern : (dict.intern "x").1 = 2 ^ 32 := by
    unfold FieldDict.intern
    rw [dif_neg hx, hlen]
  have hid : leBytes 4 (2 ^ 32) = [0, 0, 0, 0] := by decide
  have hzero : leBytes 4 0 = [0, 0, 0, 0] := by decide
  have hone : writeVarint 1 = [1] := by decide
  simp only [encodeValue_object_bytes, objectBytes, valuesOf, entriesOf, internFields, encodeAll,
    encodeValue, List.mergeSort, List.map_cons, List.map_nil, List.zip_cons_cons,
    List.zip_nil_right, hintern, List.length_cons, List.length_nil, Nat.zero_add, hone, entryTable,
    hid, hzero]
  rfl

theorem decodeValue_wrapped {dict : FieldDict} {name : String} (h : dict.names[0]? = some name) :
    decodeValue [7, 1, 0, 0, 0, 0, 0, 0, 0, 0, 0] dict = some (.object [(name, .null)]) := by
  have hcount : readVarint [1, 0, 0, 0, 0, 0, 0, 0, 0, 0] = some (1, 1) := by decide
  have hname : dict.name 0 = some name := h
  change decodeUpTo dict (10 + 1) (7 :: [1, 0, 0, 0, 0, 0, 0, 0, 0, 0]) = _
  rw [decodeUpTo_object, rest_cons, Option.bind_some, hcount, Option.bind_some]
  have htable : slice [7, 1, 0, 0, 0, 0, 0, 0, 0, 0, 0] (1 + 1) (1 + 1 + 1 * 8) =
    some [0, 0, 0, 0, 0, 0, 0, 0] := by decide
  have hvalues : rest [7, 1, 0, 0, 0, 0, 0, 0, 0, 0, 0] (1 + 1 + 1 * 8) = some [0] := by decide
  have hid : slice [0, 0, 0, 0, 0, 0, 0, 0] (0 * 8) (0 * 8 + 4) = some [0, 0, 0, 0] := by decide
  have hoffset : slice [0, 0, 0, 0, 0, 0, 0, 0] (0 * 8 + 4) (0 * 8 + 8) = some [0, 0, 0, 0] := by
    decide
  have hzero : leNat [0, 0, 0, 0] = 0 := by decide
  have hrest : rest [0] 0 = some [0] := by decide
  simp only [htable, hvalues, Option.bind_some, decodeFields, Option.bind_eq_bind, hid, hoffset,
    hzero, hrest, hname]
  rfl

/-- With `2 ^ 32` names in the dictionary a new field decodes under another name. -/
theorem encodeRecord_wraps :
    ¬ ∀ (id : String) (value : Sp00kyValue) (digest : Digest) (dict : FieldDict), Storable value →
      (recordBytes id value digest dict).length < 2 ^ 32 →
      ∃ w, decodeValue (recordBody (recordBytes id value digest dict))
        (recordDict id value digest dict) = some w ∧ Same w value := by
  intro h
  have hv : Storable (.object [("x", .null)]) := by
    refine .object _ ?_ (by decide)
    intro kv hkv
    obtain rfl := List.mem_singleton.mp hkv
    exact .null
  obtain ⟨dict, hlen, hfirst, hx⟩ : ∃ dict : FieldDict, dict.names.length = 2 ^ 32 ∧
      dict.names[0]? = some "" ∧ "x" ∉ dict.names :=
    ⟨wideDict (2 ^ 32), length_wideDict _, wideDict_first (Nat.two_pow_pos 32), wideDict_new _⟩
  have hbytes := encodeValue_wraps hlen hx
  have hlt : (recordBytes "r1" (.object [("x", .null)]) 0 dict).length < 2 ^ 32 := by
    rw [recordBytes_eq, List.length_append, length_recordHead, hbytes]
    decide
  obtain ⟨w, hw, hsame⟩ := h "r1" _ 0 dict hv hlt
  have hgrow : dict.names <+: (recordDict "r1" (.object [("x", .null)]) 0 dict).names :=
    (codes_of_storable hv dict).1
  rw [recordBody_recordBytes hlt, hbytes,
    decodeValue_wrapped (FieldDict.getElem?_of_grows hgrow hfirst)] at hw
  obtain rfl := Option.some.inj hw
  cases hsame with
  | object _ hlook =>
    have hrel := hlook "x"
    have hnone : fieldsGet [("", Sp00kyValue.null)] "x" = none := rfl
    have hsome : fieldsGet [("x", Sp00kyValue.null)] "x" = some .null := rfl
    rw [hnone, hsome] at hrel
    cases hrel

end Sp00ky.Checkpoint
