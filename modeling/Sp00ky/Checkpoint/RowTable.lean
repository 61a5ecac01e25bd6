/-
  A table's rows behind an index (`circuit/row_table.rs`).

  The index is a list of head slots in the order the hash table happens to iterate them; a
  lookup compares the id in the head. `Holds t m` says that the slots of `t` read back exactly
  the records of `m`: every operation is specified by what it does to `m` (`insert_holds`,
  `removeSlot_holds`, `place_holds`), and what a reader sees of a row is a function of its record
  and of the dictionary (`view_of_holds`).
-/
import Sp00ky.Checkpoint.Arena
import Sp00ky.Checkpoint.RowCodec
import Sp00ky.Lib.Tally

namespace Sp00ky.Checkpoint

open Std Lib Ssp

/-! ## The table -/

/-- `RowTable`. -/
structure RowTable where
  dict : FieldDict
  index : List Span
  arena : Arena
  epoch : Nat
  persisted : Option Cursor
  tombstones : List String

/-- `MAX_TOMBSTONES`. -/
def maxTombstones : Nat := 2 ^ 20

/-- `CheckpointMark`. -/
structure CheckpointMark where
  epoch : Nat
  cursor : Cursor
  tombstones : Nat

/-- `body_of`: where the body of the head at `slot` lies. -/
def bodyOf (head : Bytes) (slot : Span) : Option Span := do
  let rel ← headBodyRel head
  let len ← headBodyLen head
  if len = 0 then none else some ⟨slot.seg, slot.off + rel, len⟩

/-- `RowTable::slot_id`. -/
def slotId (arena : Arena) (slot : Span) : Option String := headId (arena.get slot)

/-- What a reader sees of a row: its decoded value, its digest and its version. -/
structure RowView where
  value : Option Sp00kyValue
  digest : Option Digest
  version : Option Int

namespace RowTable

/-- `RowTable::from_parts`. -/
def fromParts (dict : FieldDict) (index : List Span) (arena : Arena) : RowTable :=
  ⟨dict, index, arena, 0, none, []⟩

/-- `RowTable::new`. -/
def new (backing : ArenaBacking) : RowTable := fromParts FieldDict.new [] (Arena.new backing)

/-- `RowTable::find_slot`. -/
def findSlot (t : RowTable) (id : String) : Option Span :=
  t.index.find? fun slot => slotId t.arena slot == some id

/-- `RowTable::contains_key`. -/
def containsKey (t : RowTable) (id : String) : Bool := (t.findSlot id).isSome

/-- `RowTable::body`. -/
def body (t : RowTable) (slot : Span) : Bytes :=
  match bodyOf (t.arena.get slot) slot with
  | some span => t.arena.get span
  | none => []

/-- `RowTable::digest_of`. -/
def digestOf (t : RowTable) (id : String) : Option Digest :=
  (t.findSlot id).bind fun slot => headDigest (t.arena.get slot)

/-- `RowTable::rv_of`. -/
def rvOf (t : RowTable) (id : String) : Option Int :=
  (t.findSlot id).bind fun slot => (headRvRaw (t.arena.get slot)).bind versionOf

/-- `RowTable::get`, `digest_of` and `rv_of` of one row. -/
def view (t : RowTable) (id : String) : Option RowView :=
  (t.findSlot id).map fun slot => ⟨decodeValue (t.body slot) t.dict, t.digestOf id, t.rvOf id⟩

/-- `RowTable::append_record`. -/
def appendRecord (t : RowTable) (record : Bytes) (headLen : Nat) : RowTable × Span :=
  let (arena, span) := t.arena.append record
  ({ t with arena }, { span with len := headLen })

/-- `RowTable::place`. -/
def place (t : RowTable) (id : String) (slot : Span) : RowTable :=
  match t.index.findIdx? fun s => slotId t.arena s == some id with
  | some i => { t with index := t.index.set i slot }
  | none => { t with index := t.index ++ [slot] }

/-- `RowTable::insert`. -/
def insert (t : RowTable) (id : String) (value : Sp00kyValue) (digest : Digest) : RowTable :=
  let (head, body, dict) := encodeRecord id value digest t.dict
  let (t, slot) := appendRecord { t with dict } (head ++ body) head.length
  t.place id slot

/-- `RowTable::insert_raw`: also whether a row of that id was replaced. -/
def insertRaw (t : RowTable) (id : String) (digest : Digest) (rv : BitVec 64) (body : Bytes) :
    RowTable × Bool :=
  let head := encodeHead id digest rv (headLenFor id) body.length
  let (t, slot) := t.appendRecord (head ++ body) head.length
  (t.place id slot, t.containsKey id)

/-- `RowTable::remove_slot`. -/
def removeSlot (t : RowTable) (id : String) : RowTable :=
  match t.index.findIdx? fun s => slotId t.arena s == some id with
  | some i => { t with index := t.index.eraseIdx i }
  | none => t

/-- `RowTable::remove`. -/
def remove (t : RowTable) (id : String) : RowTable :=
  if t.containsKey id then
    let t := t.removeSlot id
    if t.persisted.isSome then
      let tombstones := t.tombstones ++ [id]
      if maxTombstones < tombstones.length then { t with persisted := none, tombstones := [] }
      else { t with tombstones }
    else t
  else t

/-- `RowTable::clear`. The epoch is fresh. -/
def clear (t : RowTable) : RowTable :=
  ⟨FieldDict.new, [], t.arena.clear, t.epoch + 1, none, []⟩

/-- `RowTable::checkpoint_mark`. -/
def checkpointMark (t : RowTable) : CheckpointMark :=
  ⟨t.epoch, t.arena.endCursor, t.tombstones.length⟩

/-- The head and the body of a slot; none when the slot is stale or the head has no body. -/
def recordOf (t : RowTable) (slot : Span) : Option (Bytes × Bytes) :=
  let head := t.arena.get slot
  if head.isEmpty then none else (bodyOf head slot).map fun span => (head, t.arena.get span)

/-- `RowTable::records`, in an iteration order of the index. -/
def records (t : RowTable) (order : List Span) : List (Bytes × Bytes) :=
  order.filterMap t.recordOf

/-- `RowTable::records_since_persisted`. -/
def recordsSincePersisted (t : RowTable) (order : List Span) : List (Bytes × Bytes) :=
  (order.filter fun slot => !t.persisted.any fun cursor => slot.start.lt cursor).filterMap t.recordOf

/-- `RowTable::tombstones_pending`: each id once, at its first place. -/
def tombstonesPending (t : RowTable) : List String :=
  (t.tombstones.foldl (fun seen id => if id ∈ seen then seen else seen ++ [id]) []).filter
    fun id => !t.containsKey id

/-- `RowTable::mark_persisted`. -/
def markPersisted (t : RowTable) (mark : CheckpointMark) : RowTable × Bool :=
  if mark.epoch ≠ t.epoch then (t, false)
  else
    ({ t with
        persisted := some mark.cursor
        tombstones := t.tombstones.drop (min mark.tombstones t.tombstones.length) }, true)

/-- `RowTable::set_persisted_at_end`. -/
def setPersistedAtEnd (t : RowTable) : RowTable :=
  { t with persisted := some t.arena.endCursor, tombstones := [] }

/-- `RowTable::restore_dict`. -/
def restoreDict (t : RowTable) (names : List String) : Option RowTable :=
  if t.index.isEmpty && t.dict.names.isEmpty then
    (FieldDict.fromNames names).map fun dict => { t with dict }
  else none

end RowTable

/-! ## What a table holds -/

/-- A stored row: its digest, its raw version and its encoded value. -/
structure Record where
  digest : Digest
  rv : BitVec 64
  body : Bytes
  body_ne_nil : body ≠ []
  body_lt : body.length < 2 ^ 32

namespace Record

/-- What a reader sees of a record under a dictionary. -/
def view (r : Record) (dict : FieldDict) : RowView :=
  ⟨decodeValue r.body dict, some r.digest, versionOf r.rv⟩

end Record

/-- The slot points at a head that names `id` and leads to the record's body. -/
structure SlotHolds (arena : Arena) (slot : Span) (id : String) (r : Record) (h : Head) : Prop where
  head : arena.read slot = some h.bytes
  names : h.Names id
  digest : h.digest = r.digest
  rv : h.rv = r.rv
  len : h.bodyLen.toNat = r.body.length
  body : arena.read ⟨slot.seg, slot.off + h.bodyRel.toNat, r.body.length⟩ = some r.body

namespace SlotHolds

variable {arena : Arena} {slot : Span} {id : String} {r : Record} {h : Head}

theorem get_eq (hs : SlotHolds arena slot id r h) : arena.get slot = h.bytes := by
  unfold Arena.get
  rw [hs.head, Option.getD_some]

theorem slotId_eq (hs : SlotHolds arena slot id r h) : slotId arena slot = some id := by
  unfold slotId
  rw [hs.get_eq]
  exact hs.names.headId_bytes

theorem bodyOf_eq (hs : SlotHolds arena slot id r h) :
    bodyOf h.bytes slot = some ⟨slot.seg, slot.off + h.bodyRel.toNat, r.body.length⟩ := by
  have hrel := h.headBodyRel_bytes []
  have hlen := h.headBodyLen_bytes []
  rw [List.append_nil] at hrel hlen
  have hpos : h.bodyLen.toNat ≠ 0 := by
    rw [hs.len]
    exact fun h0 => r.body_ne_nil (List.length_eq_zero_iff.mp h0)
  unfold bodyOf
  simp only [hrel, hlen, Option.bind_eq_bind, Option.bind_some]
  rw [if_neg hpos, hs.len]

theorem bytes_ne_nil (h : Head) : h.bytes ≠ [] := by
  intro he
  have := h.length_bytes
  rw [he] at this
  unfold headIdOffset at this
  simp at this
  omega

/-- Reading survives whatever keeps the two spans readable. -/
theorem mono {arena' : Arena} (hs : SlotHolds arena slot id r h)
    (hread : ∀ span x, arena.read span = some x → arena'.read span = some x) :
    SlotHolds arena' slot id r h :=
  { hs with head := hread _ _ hs.head, body := hread _ _ hs.body }

end SlotHolds

/-- The slots read back exactly the records of `m`, each once. -/
structure HoldsAll (arena : Arena) (slots : List Span) (m : ExtTreeMap String Record) : Prop where
  sound : ∀ slot ∈ slots, ∃ id r h, m[id]? = some r ∧ SlotHolds arena slot id r h
  complete : ∀ id r, m[id]? = some r → ∃ slot ∈ slots, ∃ h, SlotHolds arena slot id r h
  distinct : (slots.map (slotId arena)).Nodup

namespace HoldsAll

variable {arena : Arena} {slots : List Span} {m : ExtTreeMap String Record}

theorem nil (arena : Arena) : HoldsAll arena [] ∅ where
  sound := by
    intro slot hslot
    cases hslot
  complete := by
    intro id r h
    rw [ExtTreeMap.getElem?_empty] at h
    cases h
  distinct := List.nodup_nil

theorem perm {slots' : List Span} (hh : HoldsAll arena slots m) (hp : slots.Perm slots') :
    HoldsAll arena slots' m where
  sound slot hslot := hh.sound slot (hp.mem_iff.mpr hslot)
  complete id r hr := by
    obtain ⟨slot, hslot, h⟩ := hh.complete id r hr
    exact ⟨slot, hp.mem_iff.mp hslot, h⟩
  distinct := (hp.map _).nodup_iff.mp hh.distinct

theorem mono {arena' : Arena} (hh : HoldsAll arena slots m)
    (hread : ∀ span x, arena.read span = some x → arena'.read span = some x) :
    HoldsAll arena' slots m where
  sound slot hslot := by
    obtain ⟨id, r, h, hm, hs⟩ := hh.sound slot hslot
    exact ⟨id, r, h, hm, hs.mono hread⟩
  complete id r hr := by
    obtain ⟨slot, hslot, h, hs⟩ := hh.complete id r hr
    exact ⟨slot, hslot, h, hs.mono hread⟩
  distinct := by
    have heq : slots.map (slotId arena') = slots.map (slotId arena) := by
      refine List.map_congr_left fun slot hslot => ?_
      obtain ⟨id, r, h, -, hs⟩ := hh.sound slot hslot
      rw [hs.slotId_eq, (hs.mono hread).slotId_eq]
    rw [heq]
    exact hh.distinct

/-- A slot of an id that is not held yet. -/
theorem cons {slot : Span} {id : String} {r : Record} {h : Head} (hh : HoldsAll arena slots m)
    (hnew : m[id]? = none) (hs : SlotHolds arena slot id r h) :
    HoldsAll arena (slot :: slots) (m.insert id r) where
  sound slot' hslot' := by
    rcases List.mem_cons.mp hslot' with rfl | hmem
    · exact ⟨id, r, h, ExtTreeMap.getElem?_insert_self, hs⟩
    · obtain ⟨id', r', h', hm', hs'⟩ := hh.sound slot' hmem
      refine ⟨id', r', h', ?_, hs'⟩
      have hne : id ≠ id' := by
        rintro rfl
        rw [hnew] at hm'
        cases hm'
      rw [ExtTreeMap.getElem?_insert, if_neg (by simpa using hne)]
      exact hm'
  complete id' r' hr' := by
    rw [ExtTreeMap.getElem?_insert] at hr'
    split at hr'
    next heq =>
      obtain rfl := LawfulEqCmp.compare_eq_iff_eq.mp heq
      cases hr'
      exact ⟨slot, List.mem_cons_self, h, hs⟩
    next =>
      obtain ⟨slot', hmem, h', hs'⟩ := hh.complete id' r' hr'
      exact ⟨slot', List.mem_cons_of_mem _ hmem, h', hs'⟩
  distinct := by
    rw [List.map_cons, List.nodup_cons]
    refine ⟨?_, hh.distinct⟩
    intro hmem
    obtain ⟨slot', hslot', heq⟩ := List.mem_map.mp hmem
    obtain ⟨id', r', h', hm', hs'⟩ := hh.sound slot' hslot'
    rw [hs'.slotId_eq, hs.slotId_eq] at heq
    cases heq
    rw [hnew] at hm'
    cases hm'

/-- Without the slot of an id, its record is gone and nothing else. -/
theorem of_cons {slot : Span} (hh : HoldsAll arena (slot :: slots) m) :
    ∃ id r h, m[id]? = some r ∧ SlotHolds arena slot id r h ∧
      HoldsAll arena slots (m.erase id) := by
  obtain ⟨id, r, h, hm, hs⟩ := hh.sound slot List.mem_cons_self
  have hdist := hh.distinct
  rw [List.map_cons, List.nodup_cons] at hdist
  have hother : ∀ slot' ∈ slots, slotId arena slot' ≠ some id := by
    intro slot' hslot' heq
    exact hdist.1 (List.mem_map.mpr ⟨slot', hslot', by rw [heq, hs.slotId_eq]⟩)
  refine ⟨id, r, h, hm, hs, ?_, ?_, hdist.2⟩
  · intro slot' hslot'
    obtain ⟨id', r', h', hm', hs'⟩ := hh.sound slot' (List.mem_cons_of_mem _ hslot')
    refine ⟨id', r', h', ?_, hs'⟩
    have hne : id ≠ id' := by
      rintro rfl
      exact hother slot' hslot' hs'.slotId_eq
    rw [ExtTreeMap.getElem?_erase, if_neg (by simpa using hne)]
    exact hm'
  · intro id' r' hr'
    rw [ExtTreeMap.getElem?_erase] at hr'
    split at hr'
    next => cases hr'
    next hne =>
      obtain ⟨slot', hmem, h', hs'⟩ := hh.complete id' r' hr'
      rcases List.mem_cons.mp hmem with rfl | hmem
      · have := hs'.slotId_eq
        rw [hs.slotId_eq] at this
        cases this
        simp at hne
      · exact ⟨slot', hmem, h', hs'⟩

theorem find?_eq (hh : HoldsAll arena slots m) (id : String) :
    (∃ slot r h, slots.find? (fun s => slotId arena s == some id) = some slot ∧ slot ∈ slots ∧
      m[id]? = some r ∧ SlotHolds arena slot id r h) ∨
    (slots.find? (fun s => slotId arena s == some id) = none ∧ m[id]? = none) := by
  cases hfind : slots.find? (fun s => slotId arena s == some id) with
  | some slot =>
    left
    have hmem := List.mem_of_find?_eq_some hfind
    have hid := List.find?_some hfind
    simp only [beq_iff_eq] at hid
    obtain ⟨id', r, h, hm, hs⟩ := hh.sound slot hmem
    rw [hs.slotId_eq] at hid
    cases hid
    exact ⟨slot, r, h, rfl, hmem, hm, hs⟩
  | none =>
    refine Or.inr ⟨rfl, ?_⟩
    cases hm : m[id]? with
    | none => rfl
    | some r =>
      obtain ⟨slot, hmem, h, hs⟩ := hh.complete id r hm
      have := List.find?_eq_none.mp hfind slot hmem
      rw [hs.slotId_eq] at this
      simp at this

/-- The place of an id in the index. -/
theorem findIdx?_eq (hh : HoldsAll arena slots m) (id : String) :
    (∃ l1 slot l2, slots = l1 ++ slot :: l2 ∧
      slots.findIdx? (fun s => slotId arena s == some id) = some l1.length ∧
      HoldsAll arena (l1 ++ l2) (m.erase id) ∧ m[id]? ≠ none) ∨
    (slots.findIdx? (fun s => slotId arena s == some id) = none ∧ m[id]? = none) := by
  cases hidx : slots.findIdx? (fun s => slotId arena s == some id) with
  | some i =>
    left
    obtain ⟨hlt, hi, -⟩ := List.findIdx?_eq_some_iff_getElem.mp hidx
    have hsplit : slots = slots.take i ++ slots.get ⟨i, hlt⟩ :: slots.drop (i + 1) := by
      rw [List.get_eq_getElem, ← List.drop_eq_getElem_cons hlt, List.take_append_drop]
    have hhead := (hsplit ▸ hh).perm List.perm_middle
    obtain ⟨id', r, h, hm, hs, hrest⟩ := hhead.of_cons
    simp only [beq_iff_eq] at hi
    rw [List.get_eq_getElem] at hs
    rw [hs.slotId_eq] at hi
    cases hi
    refine ⟨slots.take i, slots.get ⟨i, hlt⟩, slots.drop (i + 1), hsplit, ?_, hrest, ?_⟩
    · rw [List.length_take]
      congr 1
      omega
    · rw [hm]
      exact Option.some_ne_none r
  | none =>
    refine Or.inr ⟨rfl, ?_⟩
    rcases hh.find?_eq id with ⟨slot, r, h, -, hmem, -, hs⟩ | ⟨-, hnone⟩
    · have := List.findIdx?_eq_none_iff.mp hidx slot hmem
      rw [hs.slotId_eq] at this
      simp at this
    · exact hnone

end HoldsAll

/-- The table holds exactly the records of `m`. -/
def Holds (t : RowTable) (m : ExtTreeMap String Record) : Prop := HoldsAll t.arena t.index m

namespace Holds

variable {t : RowTable} {m : ExtTreeMap String Record}

theorem findSlot_eq (hh : Holds t m) (id : String) :
    (∃ slot r h, t.findSlot id = some slot ∧ slot ∈ t.index ∧ m[id]? = some r ∧
      SlotHolds t.arena slot id r h) ∨ (t.findSlot id = none ∧ m[id]? = none) :=
  HoldsAll.find?_eq hh id

theorem containsKey_eq (hh : Holds t m) (id : String) : t.containsKey id = m[id]?.isSome := by
  unfold RowTable.containsKey
  rcases hh.findSlot_eq id with ⟨slot, r, h, hf, -, hm, -⟩ | ⟨hf, hm⟩
  · rw [hf, hm]
    rfl
  · rw [hf, hm]
    rfl

theorem digestOf_eq (hh : Holds t m) (id : String) :
    t.digestOf id = m[id]?.map Record.digest := by
  unfold RowTable.digestOf
  rcases hh.findSlot_eq id with ⟨slot, r, h, hf, -, hm, hs⟩ | ⟨hf, hm⟩
  · have hd := h.headDigest_bytes []
    rw [List.append_nil] at hd
    rw [hf, hm, Option.bind_some, hs.get_eq, hd, hs.digest]
    rfl
  · rw [hf, hm]
    rfl

theorem body_eq {slot : Span} {id : String} {r : Record} {h : Head}
    (hs : SlotHolds t.arena slot id r h) : t.body slot = r.body := by
  unfold RowTable.body
  rw [hs.get_eq, hs.bodyOf_eq]
  simp only [Arena.get, hs.body, Option.getD_some]

/-- What a reader sees of the rows is what it sees of the records. -/
theorem view_eq (hh : Holds t m) (id : String) :
    t.view id = m[id]?.map fun r => r.view t.dict := by
  unfold RowTable.view
  rcases hh.findSlot_eq id with ⟨slot, r, h, hf, -, hm, hs⟩ | ⟨hf, hm⟩
  · have hrv := h.headRvRaw_bytes []
    rw [List.append_nil] at hrv
    have hversion : t.rvOf id = versionOf r.rv := by
      unfold RowTable.rvOf
      rw [hf, Option.bind_some, hs.get_eq, hrv, Option.bind_some, hs.rv]
    rw [hh.digestOf_eq id, hversion, hf, hm]
    simp only [Option.map_some]
    rw [body_eq hs]
    rfl
  · rw [hf, hm]
    rfl

/-- Pointing an id at a slot sets its record. -/
theorem place {slot : Span} {id : String} {r : Record} {h : Head} (hh : Holds t m)
    (hs : SlotHolds t.arena slot id r h) : Holds (t.place id slot) (m.insert id r) := by
  unfold RowTable.place
  rcases HoldsAll.findIdx?_eq hh id with ⟨l1, old, l2, hsplit, hidx, hrest, -⟩ | ⟨hidx, hnone⟩
  · rw [hidx]
    have hset : t.index.set l1.length slot = l1 ++ slot :: l2 := by
      rw [hsplit, List.set_append_right _ _ (Nat.le_refl _), Nat.sub_self, List.set_cons_zero]
    have hins : (m.erase id).insert id r = m.insert id r := by
      refine ExtTreeMap.ext_getElem? fun k => ?_
      rw [ExtTreeMap.getElem?_insert, ExtTreeMap.getElem?_insert, ExtTreeMap.getElem?_erase]
      split <;> rfl
    have hcons := hrest.cons ExtTreeMap.getElem?_erase_self hs
    rw [hins] at hcons
    change HoldsAll t.arena (t.index.set l1.length slot) (m.insert id r)
    rw [hset]
    exact hcons.perm List.perm_middle.symm
  · rw [hidx]
    exact (hh.cons hnone hs).perm (List.perm_append_singleton slot t.index).symm

theorem removeSlot (hh : Holds t m) (id : String) : Holds (t.removeSlot id) (m.erase id) := by
  unfold RowTable.removeSlot
  rcases HoldsAll.findIdx?_eq hh id with ⟨l1, old, l2, hsplit, hidx, hrest, -⟩ | ⟨hidx, hnone⟩
  · rw [hidx]
    change HoldsAll t.arena (t.index.eraseIdx l1.length) (m.erase id)
    rw [hsplit, List.eraseIdx_append_of_length_le (Nat.le_refl _), Nat.sub_self, List.eraseIdx_cons_zero]
    exact hrest
  · rw [hidx, erase_eq_self hnone]
    exact hh

theorem remove (hh : Holds t m) (id : String) : Holds (t.remove id) (m.erase id) := by
  unfold RowTable.remove
  rw [hh.containsKey_eq]
  split
  next =>
    simp only
    split
    · split
      · exact hh.removeSlot id
      · exact hh.removeSlot id
    · exact hh.removeSlot id
  next hnone =>
    have : m[id]? = none := by simpa using hnone
    rw [erase_eq_self this]
    exact hh

/-- A record appended behind its head is held at its slot, and so is what was. -/
theorem appendRecord (hh : Holds t m) {h : Head} {id : String} {r : Record} (hn : h.Names id)
    (hdigest : h.digest = r.digest) (hrv : h.rv = r.rv) (hlen : h.bodyLen.toNat = r.body.length)
    (hrel : h.bodyRel.toNat = h.bytes.length) :
    Holds (t.appendRecord (h.bytes ++ r.body) h.bytes.length).1 m ∧
      SlotHolds (t.appendRecord (h.bytes ++ r.body) h.bytes.length).1.arena
        (t.appendRecord (h.bytes ++ r.body) h.bytes.length).2 id r h := by
  unfold RowTable.appendRecord
  simp only
  refine ⟨hh.mono fun span x hx => Arena.append_read_of_read hx _, ?_⟩
  have hall := t.arena.append_read (h.bytes ++ r.body)
  have hspan : (t.arena.append (h.bytes ++ r.body)).2.len = (h.bytes ++ r.body).length := by
    rcases t.arena.append_cases (h.bytes ++ r.body) with ⟨_, _, _, _, ha⟩ | ha
    · rw [ha]
    · rw [ha]
  unfold Arena.read at hall
  obtain ⟨seg, hseg, hslice⟩ := Option.bind_eq_some_iff.mp hall
  refine ⟨?_, hn, hdigest, hrv, hlen, ?_⟩
  · unfold Arena.read
    rw [hseg, Option.bind_some]
    have hfront : slice (h.bytes ++ r.body) 0 h.bytes.length = some h.bytes :=
      slice_eq_some_iff.mpr ⟨[], r.body, rfl, rfl, Nat.zero_add _⟩
    exact slice_slice hslice hfront
  · unfold Arena.read
    simp only
    rw [hseg, Option.bind_some, hrel]
    have hback : slice (h.bytes ++ r.body) h.bytes.length (h.bytes.length + r.body.length) =
        some r.body :=
      slice_eq_some_iff.mpr ⟨h.bytes, [], (List.append_nil _).symm, rfl, rfl⟩
    have := slice_slice hslice hback
    rwa [← Nat.add_assoc] at this

end Holds

/-- The record `insert` stores. -/
def insertedRecord (value : Sp00kyValue) (digest : Digest) (dict : FieldDict)
    (hfits : (encodeValue value dict).1.length < 2 ^ 32) : Record where
  digest := digest
  rv := liftedRv value
  body := (encodeValue value dict).1
  body_ne_nil := encodeValue_ne_nil value dict
  body_lt := hfits

/-- The head `encode_head` writes for a body that follows it. -/
theorem encodeHead_fields (id : String) (digest : Digest) (rv : BitVec 64) {len : Nat}
    (hfits : headLenFor id + len < 2 ^ 32) :
    ∃ h : Head, encodeHead id digest rv (headLenFor id) len = h.bytes ∧ h.Names id ∧
      h.digest = digest ∧ h.rv = rv ∧ h.bodyLen.toNat = len ∧ h.bodyRel.toNat = h.bytes.length := by
  refine ⟨_, encodeHead_eq id digest rv (headLenFor id) len, ?_, rfl, rfl, ?_, ?_⟩
  · refine Head.names_idField _ rfl ?_
    unfold headLenFor at hfits
    have : (2 : Nat) ^ 32 < 2 ^ 64 := by decide
    omega
  · simp only [BitVec.toNat_ofNat]
    exact Nat.mod_eq_of_lt (by omega)
  · rw [← encodeHead_eq, length_encodeHead]
    simp only [BitVec.toNat_ofNat]
    exact Nat.mod_eq_of_lt (by omega)

namespace Holds

variable {t : RowTable} {m : ExtTreeMap String Record}

/-- A record below 4 GiB is stored as it is. -/
theorem insertRaw (hh : Holds t m) (id : String) (r : Record)
    (hfits : headLenFor id + r.body.length < 2 ^ 32) :
    Holds (t.insertRaw id r.digest r.rv r.body).1 (m.insert id r) := by
  obtain ⟨h, hbytes, hn, hdigest, hrv, hlen, hrel⟩ := encodeHead_fields id r.digest r.rv hfits
  unfold RowTable.insertRaw
  simp only
  rw [hbytes]
  obtain ⟨hheld, hslot⟩ := hh.appendRecord (r := r) hn hdigest hrv hlen hrel
  exact hheld.place hslot

theorem insert (hh : Holds t m) (id : String) (value : Sp00kyValue) (digest : Digest)
    (hfits : headLenFor id + (encodeValue value t.dict).1.length < 2 ^ 32) :
    Holds (t.insert id value digest)
      (m.insert id (insertedRecord value digest t.dict (by omega))) := by
  obtain ⟨h, hbytes, hn, hdigest, hrv, hlen, hrel⟩ :=
    encodeHead_fields id digest (liftedRv value) hfits
  unfold RowTable.insert encodeRecord
  simp only
  rw [hbytes]
  have hh' : Holds { t with dict := (encodeValue value t.dict).2 } m := hh
  obtain ⟨hheld, hslot⟩ := hh'.appendRecord (h := h)
    (r := insertedRecord value digest t.dict (by omega)) hn hdigest hrv hlen hrel
  exact hheld.place hslot

end Holds

/-! ## What the operations leave alone -/

namespace RowTable

variable (t : RowTable)

@[simp] theorem place_dict (id : String) (slot : Span) : (t.place id slot).dict = t.dict := by
  unfold place
  split <;> rfl

@[simp] theorem place_arena (id : String) (slot : Span) : (t.place id slot).arena = t.arena := by
  unfold place
  split <;> rfl

@[simp] theorem removeSlot_dict (id : String) : (t.removeSlot id).dict = t.dict := by
  unfold removeSlot
  split <;> rfl

@[simp] theorem removeSlot_arena (id : String) : (t.removeSlot id).arena = t.arena := by
  unfold removeSlot
  split <;> rfl

end RowTable

end Sp00ky.Checkpoint
