/-
  What `encode_value` writes, `decode_value` reads (`circuit/row_codec.rs`).

  Encoding a value adds names to the dictionary, and the ids written are read under whatever the
  dictionary has grown to by then. `Readable dict bytes v` says that `bytes` hold `v` under `dict`
  whatever follows them: skipping passes over exactly these bytes and decoding gives back `v`.
  `encodeValue_readable` proves it of every encoding, by induction on the value: the dictionary
  only grows, an object's entry table is taken apart at one entry (`entryTable_append`), and a
  nested value is readable under every later dictionary, its siblings' names included.

  A decoded object is another map with the same entries: `Same` is `PartialEq` of values, floats
  by their bits.
-/
import Sp00ky.Checkpoint.RowCodec
import Sp00ky.Lib.OrderedSet

namespace Sp00ky.Checkpoint

open Lib Ssp

/-! ## Values -/

/-- The values of the Rust type: an integer is an `i64`, a map holds a key once. -/
inductive Storable : Sp00kyValue → Prop
  | null : Storable .null
  | bool (b : Bool) : Storable (.bool b)
  | int (i : Int) (h : -2 ^ 63 ≤ i ∧ i < 2 ^ 63) : Storable (.int i)
  | float (f : F64) : Storable (.float f)
  | str (s : String) : Storable (.str s)
  | array (items : List Sp00kyValue) (h : ∀ v ∈ items, Storable v) : Storable (.array items)
  | object (fields : List (String × Sp00kyValue)) (h : ∀ kv ∈ fields, Storable kv.2)
      (hd : (fields.map Prod.fst).Nodup) : Storable (.object fields)

/-- `PartialEq` of values: arrays item by item, maps of one size by look-up. -/
inductive Same : Sp00kyValue → Sp00kyValue → Prop
  | null : Same .null .null
  | bool (b : Bool) : Same (.bool b) (.bool b)
  | int (i : Int) : Same (.int i) (.int i)
  | float (f : F64) : Same (.float f) (.float f)
  | str (s : String) : Same (.str s) (.str s)
  | array {xs ys : List Sp00kyValue} (h : List.Forall₂ Same xs ys) : Same (.array xs) (.array ys)
  | object {xs ys : List (String × Sp00kyValue)} (hlen : xs.length = ys.length)
      (h : ∀ k, Option.Rel Same (fieldsGet xs k) (fieldsGet ys k)) :
      Same (.object xs) (.object ys)

/-- Maps with the same entries, their values alike, are the same. -/
theorem same_object {xs ys zs : List (String × Sp00kyValue)}
    (h : List.Forall₂ (fun x y => x.1 = y.1 ∧ Same x.2 y.2) xs ys) (hperm : ys.Perm zs)
    (hd : (zs.map Prod.fst).Nodup) : Same (.object xs) (.object zs) := by
  refine .object (h.length_eq.trans hperm.length_eq) fun k => ?_
  have hzs : fieldsGet zs k = fieldsGet ys k := by
    have hd' : (ys.map Prod.fst).Nodup := (hperm.map _).nodup_iff.mpr hd
    refine Option.ext fun v => ?_
    unfold fieldsGet
    rw [lookup_eq_some_iff hd, lookup_eq_some_iff hd', hperm.mem_iff]
  rw [hzs]
  unfold fieldsGet
  clear hzs hperm hd
  induction h with
  | nil => exact .none
  | cons hxy _ ih =>
    rename_i x y xs ys _
    obtain ⟨kx, vx⟩ := x
    obtain ⟨ky, vy⟩ := y
    obtain ⟨rfl, hv⟩ := hxy
    rw [List.lookup_cons, List.lookup_cons]
    cases k == kx with
    | true => exact .some hv
    | false => exact ih

/-! ## The dictionary grows -/

namespace FieldDict

theorem intern_grows (dict : FieldDict) (name : String) :
    dict.names <+: (dict.intern name).2.names := by
  rw [intern_names]
  exact List.prefix_append _ _

/-- The id a name gets is where the dictionary has it. -/
theorem intern_getElem? (dict : FieldDict) (name : String) :
    (dict.intern name).2.names[(dict.intern name).1]? = some name := by
  unfold intern
  split
  next h =>
    rw [List.getElem?_eq_getElem (List.idxOf_lt_length_of_mem h), List.getElem_idxOf]
  next => rw [List.getElem?_append_right (Nat.le_refl _), Nat.sub_self, List.getElem?_cons_zero]

/-- An id stays valid as the dictionary grows. -/
theorem getElem?_of_grows {names later : List String} (h : names <+: later) {id : Nat}
    {name : String} (hid : names[id]? = some name) : later[id]? = some name := by
  obtain ⟨more, rfl⟩ := h
  rw [List.getElem?_append_left (List.getElem?_eq_some_iff.mp hid).1, hid]

end FieldDict

theorem internFields_grows (dict : FieldDict) (names : List String) :
    dict.names <+: (internFields dict names).2.names := by
  induction names generalizing dict with
  | nil => exact List.prefix_rfl
  | cons name names ih => exact (dict.intern_grows name).trans (ih _)

/-- Every name's id is where the dictionary has the name. -/
theorem internFields_ids (dict : FieldDict) (names : List String) :
    List.Forall₂ (fun id name => (internFields dict names).2.names[id]? = some name)
      (internFields dict names).1 names := by
  induction names generalizing dict with
  | nil => exact .nil
  | cons name names ih =>
    refine .cons ?_ (ih _)
    exact FieldDict.getElem?_of_grows (internFields_grows (dict.intern name).2 names)
      (dict.intern_getElem? name)

/-! ## Lists of values -/

/-- The encodings of a list of values, one after the other. -/
def encodeAll : List Sp00kyValue → FieldDict → List Bytes × FieldDict
  | [], dict => ([], dict)
  | value :: values, dict =>
    let (bytes, dict) := encodeValue value dict
    let (all, dict) := encodeAll values dict
    (bytes :: all, dict)

theorem foldl_encodeAll {β : Type} (valueOf : β → Sp00kyValue) (l : List β)
    (acc : List Bytes × FieldDict) :
    l.foldl (fun acc item =>
        let (bytes, dict) := encodeValue (valueOf item) acc.2
        (acc.1 ++ [bytes], dict)) acc =
      (acc.1 ++ (encodeAll (l.map valueOf) acc.2).1, (encodeAll (l.map valueOf) acc.2).2) := by
  induction l generalizing acc with
  | nil => exact Prod.ext (List.append_nil _).symm rfl
  | cons item l ih =>
    rw [List.foldl_cons, ih]
    refine Prod.ext ?_ rfl
    change acc.1 ++ [_] ++ _ = acc.1 ++ (_ :: _)
    rw [List.append_assoc]
    rfl

/-- Every value takes a byte at least. -/
theorem length_le_encodeAll (values : List Sp00kyValue) (dict : FieldDict) :
    values.length ≤ (encodeAll values dict).1.flatten.length := by
  induction values generalizing dict with
  | nil => exact Nat.zero_le _
  | cons value values ih =>
    have hpos := List.length_pos_of_ne_nil (encodeValue_ne_nil value dict)
    have hrest := ih (encodeValue value dict).2
    change values.length + 1 ≤ ((encodeValue value dict).1 :: _).flatten.length
    rw [List.flatten_cons, List.length_append]
    omega

theorem encodeValue_array (items : List Sp00kyValue) (dict : FieldDict) :
    encodeValue (.array items) dict =
      (0x06 :: (writeVarint items.length ++ (encodeAll items dict).1.flatten),
        (encodeAll items dict).2) := by
  have h := foldl_encodeAll (fun item : { v // v ∈ items } => item.1) items.attach ([], dict)
  rw [List.attach_map_subtype_val] at h
  rw [encodeValue, h]
  rfl

/-- An object's fields with their ids, in the order of the ids. -/
def entriesOf (dict : FieldDict) (fields : List (String × Sp00kyValue)) :
    List (Nat × String × Sp00kyValue) :=
  ((internFields dict (fields.map Prod.fst)).1.zip fields).mergeSort fun a b => decide (a.1 ≤ b.1)

theorem encodeValue_object (fields : List (String × Sp00kyValue)) (dict : FieldDict) :
    encodeValue (.object fields) dict =
      let dict' := (internFields dict (fields.map Prod.fst)).2
      let entries := entriesOf dict fields
      let out := encodeAll (entries.map fun e => e.2.2) dict'
      (0x07 :: (writeVarint fields.length ++ entryTable (entries.map Prod.fst) out.1 0 ++
        out.1.flatten), out.2) := by
  have hentries : (((internFields dict (fields.map Prod.fst)).1.zip fields.attach).mergeSort
      fun a b => decide (a.1 ≤ b.1)).map (Prod.map id Subtype.val) = entriesOf dict fields := by
    have hsort : ∀ l : List (Nat × { kv // kv ∈ fields }),
        (l.mergeSort fun a b => decide (a.1 ≤ b.1)).map (Prod.map id Subtype.val) =
          (l.map (Prod.map id Subtype.val)).mergeSort fun a b => decide (a.1 ≤ b.1) :=
      fun _ => List.map_mergeSort fun _ _ _ _ => rfl
    rw [hsort, ← List.zip_map_right, List.attach_map_subtype_val]
    rfl
  have hids := congrArg (List.map Prod.fst) hentries
  have hvals := congrArg (List.map fun e : Nat × String × Sp00kyValue => e.2.2) hentries
  rw [List.map_map] at hids hvals
  rw [encodeValue]
  simp only
  rw [foldl_encodeAll (fun entry : Nat × { kv // kv ∈ fields } => entry.2.1.2)]
  simp only [List.nil_append]
  rw [← hids, ← hvals]
  rfl

/-! ## The entry table -/

theorem length_entryTable {ids : List Nat} {values : List Bytes} (h : ids.length = values.length)
    (offset : Nat) : (entryTable ids values offset).length = ids.length * 8 := by
  induction ids generalizing values offset with
  | nil => rfl
  | cons id ids ih =>
    cases values with
    | nil => cases h
    | cons value values =>
      rw [entryTable]
      simp only [List.length_append, length_leBytes, List.length_cons]
      rw [ih (Nat.succ.inj h)]
      omega

/-- The table of two runs of entries: the second starts where the values of the first end. -/
theorem entryTable_append {ids : List Nat} {values : List Bytes} (h : ids.length = values.length)
    (ids' : List Nat) (values' : List Bytes) (offset : Nat) :
    entryTable (ids ++ ids') (values ++ values') offset =
      entryTable ids values offset ++ entryTable ids' values' (offset + values.flatten.length) := by
  induction ids generalizing values offset with
  | nil =>
    cases values with
    | nil => rfl
    | cons value values => cases h
  | cons id ids ih =>
    cases values with
    | nil => cases h
    | cons value values =>
      simp only [List.cons_append, entryTable, List.flatten_cons, List.length_append]
      rw [ih (Nat.succ.inj h), Nat.add_assoc]
      simp only [List.append_assoc]

/-- One entry of the table: its id, and where its value starts. -/
theorem slice_entryTable {ids : List Nat} {values : List Bytes} (h : ids.length = values.length)
    (id : Nat) (ids' : List Nat) (value : Bytes) (values' : List Bytes) :
    slice (entryTable (ids ++ id :: ids') (values ++ value :: values') 0) (ids.length * 8)
        (ids.length * 8 + 4) = some (leBytes 4 id) ∧
      slice (entryTable (ids ++ id :: ids') (values ++ value :: values') 0) (ids.length * 8 + 4)
        (ids.length * 8 + 8) = some (leBytes 4 values.flatten.length) := by
  rw [entryTable_append h, entryTable, Nat.zero_add]
  constructor
  · refine slice_eq_some_iff.mpr ⟨entryTable ids values 0, leBytes 4 values.flatten.length ++
      entryTable ids' values' (values.flatten.length + value.length), ?_, length_entryTable h 0, ?_⟩
    · simp only [List.append_assoc]
    · rw [length_leBytes]
  · refine slice_eq_some_iff.mpr ⟨entryTable ids values 0 ++ leBytes 4 id,
      entryTable ids' values' (values.flatten.length + value.length), ?_, ?_, ?_⟩
    · simp only [List.append_assoc]
    · rw [List.length_append, length_entryTable h, length_leBytes]
    · rw [length_leBytes]

/-! ## Reading -/

theorem rest_append (front back : Bytes) : rest (front ++ back) front.length = some back := by
  unfold rest
  refine slice_eq_some_iff.mpr ⟨front, [], (List.append_nil _).symm, rfl, ?_⟩
  rw [List.length_append]

/-- `bytes` hold `v`, whatever follows them. -/
def Readable (dict : FieldDict) (bytes : Bytes) (v : Sp00kyValue) : Prop :=
  ∀ (more : Bytes) (depth : Nat), bytes.length ≤ depth →
    valueLenUpTo depth (bytes ++ more) = some bytes.length ∧
      ∃ w, decodeUpTo dict depth (bytes ++ more) = some w ∧ Same w v

variable {vs : List Sp00kyValue}

theorem skipValues_flatten {dict : FieldDict} {values : List Bytes}
    (h : List.Forall₂ (Readable dict) values vs) {depth : Nat}
    (hdepth : values.flatten.length ≤ depth) (front more : Bytes) :
    skipValues (valueLenUpTo depth) (front ++ (values.flatten ++ more)) values.length front.length =
      some (front.length + values.flatten.length) := by
  induction h generalizing front with
  | nil => rfl
  | cons hv _ ih =>
    rename_i value v values vs _
    rw [List.flatten_cons, List.length_append] at hdepth
    rw [List.length_cons, skipValues, rest_append]
    simp only [Option.bind_eq_bind, Option.bind_some, List.flatten_cons]
    rw [List.append_assoc, (hv _ depth (by omega)).1, Option.bind_some, ← List.append_assoc,
      ← List.length_append, ih (by omega)]
    simp only [List.length_append, Nat.add_assoc]

theorem decodeItems_flatten {dict : FieldDict} {values : List Bytes}
    (h : List.Forall₂ (Readable dict) values vs) {depth : Nat}
    (hdepth : values.flatten.length ≤ depth) (front more : Bytes) :
    ∃ ws, decodeItems (decodeUpTo dict depth) (front ++ (values.flatten ++ more)) values.length
      front.length = some ws ∧ List.Forall₂ Same ws vs := by
  induction h generalizing front with
  | nil => exact ⟨[], rfl, .nil⟩
  | cons hv _ ih =>
    rename_i value v values vs _
    rw [List.flatten_cons, List.length_append] at hdepth
    obtain ⟨w, hw, hsame⟩ := (hv (values.flatten ++ more) depth (by omega)).2
    have hlen : valueLen (value ++ (values.flatten ++ more)) = some value.length := by
      refine (hv _ _ ?_).1
      rw [List.length_append]
      omega
    obtain ⟨ws, hws, hall⟩ := ih (by omega) (front ++ value)
    refine ⟨w :: ws, ?_, .cons hsame hall⟩
    rw [List.length_cons, decodeItems]
    simp only [List.flatten_cons]
    rw [List.append_assoc, rest_append]
    simp only [Option.bind_eq_bind, Option.bind_some]
    rw [hw, Option.bind_some, hlen, Option.bind_some]
    rw [List.append_assoc, List.length_append] at hws
    rw [hws, Option.bind_some]

theorem fieldsInsert_new {fields : List (String × Sp00kyValue)} {name : String}
    (h : name ∉ fields.map Prod.fst) (v : Sp00kyValue) :
    fieldsInsert fields name v = fields ++ [(name, v)] := by
  unfold fieldsInsert fieldsRemove
  rw [List.filter_eq_self.mpr]
  intro kv hkv
  simp only [bne_iff_ne, ne_eq]
  rintro rfl
  exact h (List.mem_map_of_mem hkv)

/-- The entries from one on are read from the table, in order, into new fields. -/
theorem decodeFields_entries {dict : FieldDict} {depth : Nat} (more : Bytes) {entries : List (Nat × String × Sp00kyValue)} {values : List Bytes}
    (h : List.Forall₂ (fun value e => Readable dict value e.2.2) values entries)
    (hids : ∀ e ∈ entries, dict.names[e.1]? = some e.2.1 ∧ e.1 < 2 ^ 32) {before : List Nat}
    {beforeValues : List Bytes} (hlen : before.length = beforeValues.length)
    (hlt : (beforeValues ++ values).flatten.length < 2 ^ 32)
    (hdepth : (beforeValues ++ values).flatten.length ≤ depth)
    {fields : List (String × Sp00kyValue)}
    (hd : (fields.map Prod.fst ++ entries.map fun e => e.2.1).Nodup) :
    ∃ ws, decodeFields dict (decodeUpTo dict depth)
        (entryTable (before ++ entries.map Prod.fst) (beforeValues ++ values) 0)
        ((beforeValues ++ values).flatten ++ more) entries.length before.length fields =
          some (fields ++ ws) ∧
      List.Forall₂ (fun w e => w.1 = e.2.1 ∧ Same w.2 e.2.2) ws entries := by
  induction h generalizing before beforeValues fields with
  | nil => exact ⟨[], congrArg some (List.append_nil _).symm, .nil⟩
  | cons hv _ ih =>
    rename_i value e values entries _
    obtain ⟨id, name, v⟩ := e
    obtain ⟨hid, hidlt⟩ : dict.names[id]? = some name ∧ id < 2 ^ 32 := hids _ List.mem_cons_self
    have hflat : (beforeValues ++ value :: values).flatten ++ more =
        beforeValues.flatten ++ (value ++ (values.flatten ++ more)) := by
      simp only [List.flatten_append, List.flatten_cons, List.append_assoc]
    have hsize : (beforeValues ++ value :: values).flatten.length =
        beforeValues.flatten.length + (value.length + values.flatten.length) := by
      simp only [List.flatten_append, List.flatten_cons, List.length_append]
    obtain ⟨hslot, hoffset⟩ :=
      slice_entryTable hlen id (entries.map Prod.fst) value values
    obtain ⟨w, hw, hsame⟩ := (hv (values.flatten ++ more) depth (by omega)).2
    have hnew : name ∉ fields.map Prod.fst := by
      intro hm
      exact (List.nodup_append.mp hd).2.2 name hm name List.mem_cons_self rfl
    -- The read entry moves to the ones before.
    have hstep := @ih (List.forall_mem_cons.mp hids).2 (before ++ [id])
      (beforeValues ++ [value]) (by simp only [List.length_append, hlen, List.length_singleton])
      (by rw [List.append_assoc]; exact hlt) (by rw [List.append_assoc]; exact hdepth)
      (fields ++ [(name, w)])
      (by rw [List.map_append, List.append_assoc]; exact hd)
    simp only [List.append_assoc, List.singleton_append, List.length_append,
      List.length_singleton] at hstep
    obtain ⟨ws, hws, hall⟩ := hstep
    refine ⟨(name, w) :: ws, ?_, .cons ⟨rfl, hsame⟩ hall⟩
    rw [List.length_cons, decodeFields, List.map_cons, hslot, hoffset, hflat]
    simp only [Option.bind_eq_bind, Option.bind_some]
    rw [leNat_leBytes_of_lt (by omega), leNat_leBytes_of_lt (by omega), rest_append,
      Option.bind_some]
    unfold FieldDict.name
    rw [hid, Option.bind_some, hw, Option.bind_some, fieldsInsert_new hnew, ← hflat]
    exact hws

/-! ## Entries in the order of their ids -/

section

variable (dict : FieldDict) (fields : List (String × Sp00kyValue))

theorem entriesOf_perm : ((entriesOf dict fields).map Prod.snd).Perm fields := by
  have hlen : fields.length ≤ (internFields dict (fields.map Prod.fst)).1.length := by
    rw [(internFields_ids dict (fields.map Prod.fst)).length_eq, List.length_map]
  refine ((List.mergeSort_perm _ _).map Prod.snd).trans ?_
  rw [List.map_snd_zip hlen]

theorem length_entriesOf : (entriesOf dict fields).length = fields.length := by
  rw [← (entriesOf_perm dict fields).length_eq, List.length_map]

theorem entriesOf_ids {e : Nat × String × Sp00kyValue} (he : e ∈ entriesOf dict fields) :
    (internFields dict (fields.map Prod.fst)).2.names[e.1]? = some e.2.1 := by
  have hmem := (List.mergeSort_perm _ _).mem_iff.mp he
  have hids := List.forall₂_map_right_iff.mp (internFields_ids dict (fields.map Prod.fst))
  exact (List.forall₂_iff_zip.mp hids).2 hmem

/-- The fields of a map have ids of their own, so the table is strictly increasing. -/
theorem entriesOf_increasing (hd : (fields.map Prod.fst).Nodup) :
    (entriesOf dict fields).Pairwise fun a b => a.1 < b.1 := by
  have hle : (entriesOf dict fields).Pairwise fun a b => decide (a.1 ≤ b.1) = true := by
    refine List.pairwise_mergeSort ?_ ?_ _
    · intro a b c hab hbc
      exact decide_eq_true ((of_decide_eq_true hab).trans (of_decide_eq_true hbc))
    · intro a b
      rw [Bool.or_eq_true, decide_eq_true_iff, decide_eq_true_iff]
      exact Nat.le_total a.1 b.1
  have hne : (entriesOf dict fields).Pairwise fun a b => a.2.1 ≠ b.2.1 := by
    have := ((entriesOf_perm dict fields).map Prod.fst).nodup_iff.mpr hd
    rw [List.map_map] at this
    exact List.pairwise_map.mp this
  refine (hle.and hne).imp_of_mem ?_
  intro a b ha hb hab
  refine lt_of_le_of_ne (of_decide_eq_true hab.1) fun heq => hab.2 ?_
  have h := entriesOf_ids dict fields ha
  rw [heq, entriesOf_ids dict fields hb] at h
  exact (Option.some.inj h).symm

end

/-! ## Every encoding is readable -/

/-- Encoding `v` only adds names, and while the ids are `u32`s what it writes is readable under
    every later dictionary. -/
def Codes (v : Sp00kyValue) : Prop :=
  ∀ dict : FieldDict, dict.names <+: (encodeValue v dict).2.names ∧
    ∀ later : FieldDict, (encodeValue v dict).2.names <+: later.names →
      (encodeValue v dict).2.names.length ≤ 2 ^ 32 → (encodeValue v dict).1.length < 2 ^ 32 →
      Readable later (encodeValue v dict).1 v

theorem encodeAll_grows (h : ∀ v ∈ vs, Codes v) (dict : FieldDict) :
    dict.names <+: (encodeAll vs dict).2.names := by
  induction vs generalizing dict with
  | nil => exact List.prefix_rfl
  | cons v vs ih =>
    exact (h v List.mem_cons_self dict).1.trans
      (ih (List.forall_mem_cons.mp h).2 _)

/-- Each of the encodings is one of its value, under a dictionary that only grew since. -/
theorem encodeAll_each (h : ∀ v ∈ vs, Codes v) (dict : FieldDict) :
    List.Forall₂ (fun bytes v => ∃ d, bytes = (encodeValue v d).1 ∧
      (encodeValue v d).2.names <+: (encodeAll vs dict).2.names) (encodeAll vs dict).1 vs := by
  induction vs generalizing dict with
  | nil => exact .nil
  | cons v vs ih =>
    have hvs : ∀ w ∈ vs, Codes w := (List.forall_mem_cons.mp h).2
    exact .cons ⟨dict, rfl, encodeAll_grows hvs (encodeValue v dict).2⟩ (ih hvs _)

/-- An earlier value is readable under the names of the later ones. -/
theorem encodeAll_readable (h : ∀ v ∈ vs, Codes v) (dict : FieldDict)
    {later : FieldDict} (hlater : (encodeAll vs dict).2.names <+: later.names)
    (hsmall : (encodeAll vs dict).2.names.length ≤ 2 ^ 32) (hlt : (encodeAll vs dict).1.flatten.length < 2 ^ 32) :
    List.Forall₂ (Readable later) (encodeAll vs dict).1 vs := by
  induction vs generalizing dict with
  | nil => exact .nil
  | cons v vs ih =>
    have hvs : ∀ w ∈ vs, Codes w := (List.forall_mem_cons.mp h).2
    have hsize : (encodeAll (v :: vs) dict).1.flatten.length = (encodeValue v dict).1.length +
        (encodeAll vs (encodeValue v dict).2).1.flatten.length := by
      change ((encodeValue v dict).1 :: _).flatten.length = _
      rw [List.flatten_cons, List.length_append]
    have hgrow := encodeAll_grows hvs (encodeValue v dict).2
    refine .cons ?_ (ih hvs _ hlater hsmall (by omega))
    exact (h v List.mem_cons_self dict).2 later (hgrow.trans hlater)
      (hgrow.length_le.trans hsmall) (by omega)

/-! ### One tag at a time -/

section

variable (dict : FieldDict) (depth : Nat) (bytes : Bytes)

theorem rest_cons (tag : UInt8) : rest (tag :: bytes) 1 = some bytes := rest_append [tag] bytes

theorem valueLenUpTo_str : valueLenUpTo (depth + 1) (0x05 :: bytes) =
    (rest (0x05 :: bytes) 1).bind fun tail =>
      (readVarint tail).bind fun (len, n) => some (1 + n + len) := rfl

theorem valueLenUpTo_array : valueLenUpTo (depth + 1) (0x06 :: bytes) =
    (rest (0x06 :: bytes) 1).bind fun tail =>
      (readVarint tail).bind fun (count, n) =>
        skipValues (valueLenUpTo depth) (0x06 :: bytes) count (1 + n) := rfl

theorem valueLenUpTo_object : valueLenUpTo (depth + 1) (0x07 :: bytes) =
    (rest (0x07 :: bytes) 1).bind fun tail =>
      (readVarint tail).bind fun (count, n) =>
        skipValues (valueLenUpTo depth) (0x07 :: bytes) count (1 + n + count * 8) := rfl

theorem decodeUpTo_int : decodeUpTo dict (depth + 1) (0x03 :: bytes) =
    (slice (0x03 :: bytes) 1 9).bind fun raw =>
      some (.int (BitVec.ofNat 64 (leNat raw)).toInt) := rfl

theorem decodeUpTo_float : decodeUpTo dict (depth + 1) (0x04 :: bytes) =
    (slice (0x04 :: bytes) 1 9).bind fun raw =>
      some (.float ⟨BitVec.ofNat 64 (leNat raw)⟩) := rfl

theorem decodeUpTo_str : decodeUpTo dict (depth + 1) (0x05 :: bytes) =
    (rest (0x05 :: bytes) 1).bind fun tail =>
      (readVarint tail).bind fun (len, n) =>
        (slice (0x05 :: bytes) (1 + n) (1 + n + len)).bind fun raw =>
          (strOf raw).bind fun s => some (.str s) := rfl

theorem decodeUpTo_array : decodeUpTo dict (depth + 1) (0x06 :: bytes) =
    (rest (0x06 :: bytes) 1).bind fun tail =>
      (readVarint tail).bind fun (count, n) =>
        (rest (0x06 :: bytes) (1 + n)).bind fun items =>
          (decodeItems (decodeUpTo dict depth) items count 0).bind fun vs =>
            some (.array vs) := rfl

theorem decodeUpTo_object : decodeUpTo dict (depth + 1) (0x07 :: bytes) =
    (rest (0x07 :: bytes) 1).bind fun tail =>
      (readVarint tail).bind fun (count, n) =>
        (slice (0x07 :: bytes) (1 + n) (1 + n + count * 8)).bind fun table =>
          (rest (0x07 :: bytes) (1 + n + count * 8)).bind fun values =>
            (decodeFields dict (decodeUpTo dict depth) table values count 0 []).bind fun fields =>
              some (.object fields) := rfl

end

theorem slice_leBytes (tag : UInt8) (n : Nat) (more : Bytes) :
    slice (tag :: (leBytes 8 n ++ more)) 1 9 = some (leBytes 8 n) :=
  slice_eq_some_iff.mpr ⟨[tag], more, rfl, rfl, by rw [length_leBytes]⟩

theorem readable_of_succ {dict : FieldDict} {bytes : Bytes} {v : Sp00kyValue} (hne : bytes ≠ [])
    (h : ∀ (more : Bytes) (depth : Nat), bytes.length ≤ depth + 1 →
      valueLenUpTo (depth + 1) (bytes ++ more) = some bytes.length ∧
        ∃ w, decodeUpTo dict (depth + 1) (bytes ++ more) = some w ∧ Same w v) :
    Readable dict bytes v := by
  intro more depth hdepth
  have hpos := List.length_pos_of_ne_nil hne
  cases depth with
  | zero => omega
  | succ depth => exact h more depth hdepth

theorem readable_int (dict : FieldDict) {i : Int} (h : -2 ^ 63 ≤ i ∧ i < 2 ^ 63) :
    Readable dict (0x03 :: leBytes 8 (BitVec.ofInt 64 i).toNat) (.int i) := by
  refine readable_of_succ (List.cons_ne_nil _ _) fun more depth _ => ?_
  refine ⟨?_, .int i, ?_, .int i⟩
  · rw [List.length_cons, length_leBytes]
    rfl
  · rw [List.cons_append, decodeUpTo_int, slice_leBytes, Option.bind_some, leNat_leBytes_bitVec _ (by norm_num), BitVec.ofNat_toNat,
      BitVec.setWidth_eq, BitVec.toInt_ofInt_eq_self (by decide) h.1 h.2]

theorem readable_float (dict : FieldDict) (f : F64) :
    Readable dict (0x04 :: leBytes 8 f.bits.toNat) (.float f) := by
  refine readable_of_succ (List.cons_ne_nil _ _) fun more depth _ => ?_
  refine ⟨?_, .float f, ?_, .float f⟩
  · rw [List.length_cons, length_leBytes]
    rfl
  · rw [List.cons_append, decodeUpTo_float, slice_leBytes, Option.bind_some, leNat_leBytes_bitVec _ (by norm_num), BitVec.ofNat_toNat,
      BitVec.setWidth_eq]

theorem slice_str (s : String) (more : Bytes) :
    slice (0x05 :: (writeVarint (strBytes s).length ++ (strBytes s ++ more)))
      (1 + (writeVarint (strBytes s).length).length)
      (1 + (writeVarint (strBytes s).length).length + (strBytes s).length) = some (strBytes s) :=
  slice_eq_some_iff.mpr ⟨0x05 :: writeVarint (strBytes s).length, more,
    by simp only [List.cons_append, List.append_assoc], by rw [List.length_cons, Nat.add_comm], rfl⟩

theorem readable_str (dict : FieldDict) {s : String} (h : (strBytes s).length < 2 ^ 64) :
    Readable dict (0x05 :: (writeVarint (strBytes s).length ++ strBytes s)) (.str s) := by
  refine readable_of_succ (List.cons_ne_nil _ _) fun more depth _ => ?_
  rw [List.cons_append, List.append_assoc]
  refine ⟨?_, .str s, ?_, .str s⟩
  · rw [valueLenUpTo_str, rest_cons, Option.bind_some, readVarint_writeVarint h, Option.bind_some]
    simp only [List.length_cons, List.length_append]
    congr 1
    omega
  · rw [decodeUpTo_str, rest_cons, Option.bind_some, readVarint_writeVarint h, Option.bind_some]
    simp only
    rw [slice_str, Option.bind_some, strOf_strBytes, Option.bind_some]

theorem length_writeVarint_pos (n : Nat) : 0 < (writeVarint n).length := by
  unfold writeVarint writeVarintUpTo
  split <;> exact Nat.succ_pos _

theorem readable_array {dict : FieldDict} {values : List Bytes}
    (h : List.Forall₂ (Readable dict) values vs) (hn : vs.length < 2 ^ 64) :
    Readable dict (0x06 :: (writeVarint vs.length ++ values.flatten)) (.array vs) := by
  refine readable_of_succ (List.cons_ne_nil _ _) fun more depth hdepth => ?_
  have hpos := length_writeVarint_pos vs.length
  rw [List.length_cons, List.length_append] at hdepth
  have hvalues : values.flatten.length ≤ depth := by omega
  have hlen : values.length = vs.length := h.length_eq
  rw [List.cons_append, List.append_assoc]
  constructor
  · rw [valueLenUpTo_array, rest_cons, Option.bind_some, readVarint_writeVarint hn, Option.bind_some]
    have hskip := skipValues_flatten h hvalues (0x06 :: writeVarint vs.length) more
    rw [hlen, List.length_cons, Nat.add_comm _ 1, List.cons_append] at hskip
    refine hskip.trans ?_
    simp only [List.length_cons, List.length_append]
    congr 1
    omega
  · obtain ⟨ws, hws, hsame⟩ := decodeItems_flatten h hvalues [] more
    refine ⟨.array ws, ?_, .array hsame⟩
    have hrest := rest_append (0x06 :: writeVarint vs.length) (values.flatten ++ more)
    rw [List.length_cons, Nat.add_comm _ 1, List.cons_append] at hrest
    rw [hlen, List.nil_append, List.length_nil] at hws
    rw [decodeUpTo_array, rest_cons, Option.bind_some, readVarint_writeVarint hn, Option.bind_some]
    simp only
    rw [hrest, Option.bind_some, hws, Option.bind_some]

/-- The bytes of an object: its entries in the order of their ids. -/
def objectBytes (entries : List (Nat × String × Sp00kyValue)) (values : List Bytes) : Bytes :=
  0x07 :: (writeVarint entries.length ++ entryTable (entries.map Prod.fst) values 0 ++
    values.flatten)

/-- What one encoding of an object must satisfy to be readable under a dictionary. -/
structure ObjectEntries (dict : FieldDict) (entries : List (Nat × String × Sp00kyValue))
    (values : List Bytes) : Prop where
  readable : List.Forall₂ (fun value e => Readable dict value e.2.2) values entries
  ids : ∀ e ∈ entries, dict.names[e.1]? = some e.2.1 ∧ e.1 < 2 ^ 32
  increasing : entries.Pairwise fun a b => a.1 < b.1
  nodup : (entries.map fun e => e.2.1).Nodup
  short : (objectBytes entries values).length < 2 ^ 32

namespace ObjectEntries

variable {dict : FieldDict} {entries : List (Nat × String × Sp00kyValue)} {values : List Bytes}

theorem length_eq (o : ObjectEntries dict entries values) : values.length = entries.length :=
  o.readable.length_eq

theorem length_table (o : ObjectEntries dict entries values) :
    (entryTable (entries.map Prod.fst) values 0).length = entries.length * 8 := by
  rw [length_entryTable (by rw [List.length_map, o.length_eq]), List.length_map]

theorem length_objectBytes (o : ObjectEntries dict entries values) :
    (objectBytes entries values).length =
      1 + (writeVarint entries.length).length + entries.length * 8 + values.flatten.length := by
  unfold objectBytes
  simp only [List.length_cons, List.length_append, o.length_table]
  omega

theorem count_lt (o : ObjectEntries dict entries values) : entries.length < 2 ^ 64 := by
  have h := o.length_objectBytes
  have := o.short
  omega

theorem objectBytes_append (entries : List (Nat × String × Sp00kyValue)) (values : List Bytes)
    (more : Bytes) : objectBytes entries values ++ more =
      0x07 :: (writeVarint entries.length ++
        (entryTable (entries.map Prod.fst) values 0 ++ (values.flatten ++ more))) := by
  unfold objectBytes
  simp only [List.cons_append, List.append_assoc]

theorem slice_table (o : ObjectEntries dict entries values) (more : Bytes) :
    slice (objectBytes entries values ++ more) (1 + (writeVarint entries.length).length)
      (1 + (writeVarint entries.length).length + entries.length * 8) =
        some (entryTable (entries.map Prod.fst) values 0) := by
  refine slice_eq_some_iff.mpr ⟨0x07 :: writeVarint entries.length, values.flatten ++ more, ?_,
    ?_, ?_⟩
  · rw [objectBytes_append]
    simp only [List.cons_append, List.append_assoc]
  · rw [List.length_cons, Nat.add_comm]
  · rw [o.length_table]

theorem rest_values (o : ObjectEntries dict entries values) (more : Bytes) :
    rest (objectBytes entries values ++ more)
      (1 + (writeVarint entries.length).length + entries.length * 8) =
        some (values.flatten ++ more) := by
  have h := rest_append (0x07 :: (writeVarint entries.length ++
    entryTable (entries.map Prod.fst) values 0)) (values.flatten ++ more)
  rw [List.length_cons, List.length_append, o.length_table, List.cons_append,
    List.append_assoc] at h
  rw [objectBytes_append, ← h]
  congr 1
  omega

theorem readable_object (o : ObjectEntries dict entries values)
    {fields : List (String × Sp00kyValue)} (hperm : (entries.map Prod.snd).Perm fields)
    (hd : (fields.map Prod.fst).Nodup) :
    Readable dict (objectBytes entries values) (.object fields) := by
  refine readable_of_succ (List.cons_ne_nil _ _) fun more depth hdepth => ?_
  have hsize := o.length_objectBytes
  have hvalues : values.flatten.length ≤ depth := by omega
  have hshort : values.flatten.length < 2 ^ 32 := by
    have := o.short
    omega
  have hcons := objectBytes_append entries values more
  constructor
  · rw [hcons, valueLenUpTo_object, rest_cons, Option.bind_some,
      readVarint_writeVarint o.count_lt, Option.bind_some, ← hcons]
    have hvs : List.Forall₂ (Readable dict) values (entries.map fun e => e.2.2) :=
      List.forall₂_map_right_iff.mpr o.readable
    have hskip := skipValues_flatten hvs hvalues (0x07 :: (writeVarint entries.length ++
      entryTable (entries.map Prod.fst) values 0)) more
    have hstart : 1 + (writeVarint entries.length).length + entries.length * 8 =
        (writeVarint entries.length).length + entries.length * 8 + 1 := by omega
    rw [o.length_eq, List.length_cons, List.length_append, o.length_table, ← hstart,
      List.cons_append, List.append_assoc, ← hcons] at hskip
    exact hskip.trans (congrArg some hsize.symm)
  · obtain ⟨ws, hws, hall⟩ := @decodeFields_entries dict depth more entries values o.readable o.ids
      [] [] rfl hshort hvalues [] o.nodup
    rw [List.nil_append, List.nil_append, List.nil_append, List.length_nil] at hws
    refine ⟨.object ws, ?_, @same_object ws (entries.map Prod.snd) fields ?_ hperm hd⟩
    · rw [hcons, decodeUpTo_object, rest_cons, Option.bind_some,
        readVarint_writeVarint o.count_lt, Option.bind_some, ← hcons]
      simp only
      rw [o.slice_table, Option.bind_some, o.rest_values, Option.bind_some, hws, Option.bind_some]
    · exact List.forall₂_map_right_iff.mpr hall

end ObjectEntries

/-- The encodings of a map's values, in the order of its ids. -/
def valuesOf (dict : FieldDict) (fields : List (String × Sp00kyValue)) : List Bytes × FieldDict :=
  encodeAll ((entriesOf dict fields).map fun e => e.2.2)
    (internFields dict (fields.map Prod.fst)).2

theorem encodeValue_object_bytes (fields : List (String × Sp00kyValue)) (dict : FieldDict) :
    encodeValue (.object fields) dict =
      (objectBytes (entriesOf dict fields) (valuesOf dict fields).1, (valuesOf dict fields).2) := by
  rw [encodeValue_object]
  unfold objectBytes valuesOf
  rw [length_entriesOf]

section

variable {fields : List (String × Sp00kyValue)}

theorem codes_entriesOf (h : ∀ kv ∈ fields, Codes kv.2) (dict : FieldDict) :
    ∀ v ∈ (entriesOf dict fields).map fun e => e.2.2, Codes v := by
  intro v hv
  obtain ⟨e, he, rfl⟩ := List.mem_map.mp hv
  exact h _ ((entriesOf_perm dict fields).mem_iff.mp (List.mem_map_of_mem he))

/-- The entries written are readable under every later dictionary. -/
theorem objectEntries_valuesOf (h : ∀ kv ∈ fields, Codes kv.2) (dict : FieldDict)
    (hd : (fields.map Prod.fst).Nodup) {later : FieldDict}
    (hlater : (valuesOf dict fields).2.names <+: later.names)
    (hsmall : (valuesOf dict fields).2.names.length ≤ 2 ^ 32)
    (hlt : (objectBytes (entriesOf dict fields) (valuesOf dict fields).1).length < 2 ^ 32) :
    ObjectEntries later (entriesOf dict fields) (valuesOf dict fields).1 := by
  have hcodes := codes_entriesOf h dict
  have hgrow : (internFields dict (fields.map Prod.fst)).2.names <+: (valuesOf dict fields).2.names :=
    encodeAll_grows hcodes _
  have hvalues : (valuesOf dict fields).1.flatten.length < 2 ^ 32 := by
    unfold objectBytes at hlt
    rw [List.length_cons, List.length_append] at hlt
    omega
  have hreadable := encodeAll_readable hcodes _ hlater hsmall hvalues
  have hnodup := ((entriesOf_perm dict fields).map Prod.fst).nodup_iff.mpr hd
  rw [List.map_map] at hnodup
  refine ⟨List.forall₂_map_right_iff.mp hreadable, ?_, entriesOf_increasing dict fields hd, hnodup,
    hlt⟩
  intro e he
  have hid := FieldDict.getElem?_of_grows hgrow (entriesOf_ids dict fields he)
  refine ⟨FieldDict.getElem?_of_grows hlater hid, ?_⟩
  exact (List.getElem?_eq_some_iff.mp hid).1.trans_le hsmall

end

/-- Every encoding is readable, by induction on the value. -/
theorem codes_of_storable {v : Sp00kyValue} (h : Storable v) : Codes v := by
  induction h with
  | null =>
    intro dict
    rw [encodeValue]
    exact ⟨List.prefix_rfl, fun _ _ _ _ => readable_of_succ (List.cons_ne_nil _ _)
      fun _ _ _ => ⟨rfl, .null, rfl, .null⟩⟩
  | bool b =>
    intro dict
    cases b with
    | false =>
      rw [encodeValue]
      exact ⟨List.prefix_rfl, fun _ _ _ _ => readable_of_succ (List.cons_ne_nil _ _)
        fun _ _ _ => ⟨rfl, .bool false, rfl, .bool false⟩⟩
    | true =>
      rw [encodeValue]
      exact ⟨List.prefix_rfl, fun _ _ _ _ => readable_of_succ (List.cons_ne_nil _ _)
        fun _ _ _ => ⟨rfl, .bool true, rfl, .bool true⟩⟩
  | int i hi =>
    intro dict
    rw [encodeValue]
    exact ⟨List.prefix_rfl, fun later _ _ _ => readable_int later hi⟩
  | float f =>
    intro dict
    rw [encodeValue]
    exact ⟨List.prefix_rfl, fun later _ _ _ => readable_float later f⟩
  | str s =>
    intro dict
    rw [encodeValue]
    refine ⟨List.prefix_rfl, fun later _ _ hlt => readable_str later ?_⟩
    rw [List.length_cons, List.length_append] at hlt
    omega
  | array items _ ih =>
    intro dict
    rw [encodeValue_array]
    refine ⟨encodeAll_grows ih dict, fun later hlater hsmall hlt => ?_⟩
    simp only [List.length_cons, List.length_append] at hlt
    have hreadable := encodeAll_readable ih dict hlater hsmall (by omega)
    have hcount := length_le_encodeAll items dict
    exact readable_array hreadable (by omega)
  | object fields _ hd ih =>
    intro dict
    rw [encodeValue_object_bytes]
    refine ⟨(internFields_grows _ _).trans (encodeAll_grows (codes_entriesOf ih dict) _),
      fun later hlater hsmall hlt => ?_⟩
    exact (objectEntries_valuesOf ih dict hd hlater hsmall hlt).readable_object
      (entriesOf_perm dict fields) hd

end Sp00ky.Checkpoint
