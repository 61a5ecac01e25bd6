/-
  Record digests (`types/value.rs`, `ssp-protocol/src/snapshot_hash.rs`) and what a
  write that they suppress hides.

  A digest is taken from the canonical text of a record, in which top-level keys with
  a reserved name or without a JSON value are dropped and the record's own `id` loses
  its escaping. `norm` is the JSON value a text stands for; two records with one text
  have one norm, and every field read agrees up to what the text leaves out
  (`read_same`).
-/
import Sp00ky.Ssp.CanonicalJson
import Sp00ky.Ssp.CollectionCaches

namespace Sp00ky.Ssp

open Std Lib

/-! ## The canonical writer -/

mutual

/-- `Sp00kyValue::write_canonical`; `write_json_f64` writes a non-finite float as null. -/
def Sp00kyValue.writeCanonical (num : JsonNumber → List Char) : Sp00kyValue → List Char
  | .null => "null".toList
  | .bool b => if b then "true".toList else "false".toList
  | .int i => num (.int i)
  | .float f => if f.isFinite then num (.float f) else "null".toList
  | .str s => quoteText s
  | .array items => '[' :: writeItems num true items
  | .object fields => '{' :: fieldsText true
      (sortBy (fun a b => compare a.1 b.1) (writeFields num fields))

def Sp00kyValue.writeItems (num : JsonNumber → List Char) (first : Bool) :
    List Sp00kyValue → List Char
  | [] => [']']
  | v :: vs => comma first ++ v.writeCanonical num ++ writeItems num false vs

def Sp00kyValue.writeFields (num : JsonNumber → List Char) :
    List (String × Sp00kyValue) → List (String × List Char)
  | [] => []
  | (k, v) :: fs => (k, v.writeCanonical num) :: writeFields num fs

end

/-- `is_reserved_key`. -/
def isReservedKey (key : String) : Bool := "_00_".toList.isPrefixOf key.toList

/-- `Sp00kyValue::is_json_null`. -/
def Sp00kyValue.isJsonNull : Sp00kyValue → Bool
  | .null => true
  | .float f => !f.isFinite
  | _ => false

/-- U+27E8. -/
def openAngle : Char := Char.ofNat 0x27e8

/-- U+27E9. -/
def closeAngle : Char := Char.ofNat 0x27e9

/-- U+0060. -/
def backtick : Char := Char.ofNat 0x60

/-- `normalize_record_id`. -/
def normalizeRecordId (id : String) : String :=
  if id.toList.contains openAngle || id.toList.contains backtick then
    String.ofList (id.toList.filter fun c => c != openAngle && c != closeAngle && c != backtick)
  else id

/-- The keys `write_canonical_record` keeps. -/
def keptField (kv : String × Sp00kyValue) : Bool := !isReservedKey kv.1 && !kv.2.isJsonNull

/-- One field of a record, its own `id` normalised. -/
def recordFieldText (num : JsonNumber → List Char) (kv : String × Sp00kyValue) :
    String × List Char :=
  (kv.1, match kv.1 == "id", kv.2 with
    | true, .str s => quoteText (normalizeRecordId s)
    | _, v => v.writeCanonical num)

/-- `Sp00kyValue::write_canonical_record`. -/
def Sp00kyValue.writeCanonicalRecord (num : JsonNumber → List Char) : Sp00kyValue → List Char
  | .object fields => '{' :: fieldsText true
      (sortBy (fun a b => compare a.1 b.1) ((fields.filter keptField).map (recordFieldText num)))
  | v => v.writeCanonical num

/-- `Sp00kyValue::record_digest_into`: `blake3` of the id, a zero byte and the text. -/
def recordDigest (blake3 : List Char → BitVec 256) (num : JsonNumber → List Char) (id : String)
    (v : Sp00kyValue) : BitVec 256 :=
  blake3 (id.toList ++ Char.ofNat 0 :: v.writeCanonicalRecord num)

/-! ## The value a text stands for -/

mutual

/-- Objects are maps: each key once. -/
def Sp00kyValue.WF : Sp00kyValue → Prop
  | .array items => WFItems items
  | .object fields => WFFields fields ∧ (fields.map Prod.fst).Nodup
  | _ => True

def Sp00kyValue.WFItems : List Sp00kyValue → Prop
  | [] => True
  | v :: vs => v.WF ∧ WFItems vs

def Sp00kyValue.WFFields : List (String × Sp00kyValue) → Prop
  | [] => True
  | (_, v) :: fs => v.WF ∧ WFFields fs

end

mutual

/-- The JSON value of a value, its maps in key order. -/
def Sp00kyValue.norm : Sp00kyValue → Json
  | .null => .null
  | .bool b => .bool b
  | .int i => .int i
  | .float f => if f.isFinite then .float f else .null
  | .str s => .str s
  | .array items => .array (normItems items)
  | .object fields => .object (sortBy (fun a b => compare a.1 b.1) (normFields fields))

def Sp00kyValue.normItems : List Sp00kyValue → List Json
  | [] => []
  | v :: vs => v.norm :: normItems vs

def Sp00kyValue.normFields : List (String × Sp00kyValue) → List (String × Json)
  | [] => []
  | (k, v) :: fs => (k, v.norm) :: normFields fs

end

/-- One field of a record. -/
def recordFieldNorm (kv : String × Sp00kyValue) : String × Json :=
  (kv.1, match kv.1 == "id", kv.2 with
    | true, .str s => .str (normalizeRecordId s)
    | _, v => v.norm)

/-- The JSON value of a record. -/
def Sp00kyValue.recordNorm : Sp00kyValue → Json
  | .object fields => .object
      (sortBy (fun a b => compare a.1 b.1) ((fields.filter keptField).map recordFieldNorm))
  | v => v.norm

section Norm

theorem normFields_eq (fields : List (String × Sp00kyValue)) :
    Sp00kyValue.normFields fields = fields.map fun kv => (kv.1, kv.2.norm) := by
  induction fields with
  | nil => rfl
  | cons kv fs ih =>
    obtain ⟨k, v⟩ := kv
    rw [Sp00kyValue.normFields, ih, List.map_cons]

theorem wfFields_iff {fields : List (String × Sp00kyValue)} :
    Sp00kyValue.WFFields fields ↔ ∀ kv ∈ fields, kv.2.WF := by
  induction fields with
  | nil => simp [Sp00kyValue.WFFields]
  | cons kv fs ih =>
    obtain ⟨k, v⟩ := kv
    simp [Sp00kyValue.WFFields, ih]

theorem json_wfFields_iff {fields : List (String × Json)} :
    Json.WFFields fields ↔ ∀ kv ∈ fields, kv.2.WF := by
  induction fields with
  | nil => simp [Json.WFFields]
  | cons kv fs ih =>
    obtain ⟨k, v⟩ := kv
    simp [Json.WFFields, ih]

/-- Well-formed entries with distinct keys, sorted, are a well-formed map. -/
theorem wf_sorted {l : List (String × Json)} (hl : ∀ kv ∈ l, kv.2.WF)
    (hd : (l.map Prod.fst).Nodup) :
    (Json.object (sortBy (fun a b => compare a.1 b.1) l)).WF := by
  refine ⟨json_wfFields_iff.mpr fun kv hkv => hl kv (mem_sortBy.mp hkv), ?_⟩
  refine List.pairwise_map.mpr ?_
  exact increasing_sortBy (keys_lawful hd) (fun b hb => hb) (List.Nodup.of_map _ hd)

mutual

theorem norm_wf : ∀ v : Sp00kyValue, v.WF → v.norm.WF
  | .null, _ => trivial
  | .bool _, _ => trivial
  | .int _, _ => trivial
  | .float f, _ => by
    rw [Sp00kyValue.norm]
    split
    · next h => exact h
    · trivial
  | .str _, _ => trivial
  | .array items, h => normItems_wf items h
  | .object fields, h => by
    refine wf_sorted (fun kv hkv => normFields_wf fields h.1 kv hkv) ?_
    rw [normFields_eq, List.map_map]
    exact h.2

theorem normItems_wf : ∀ l : List Sp00kyValue, Sp00kyValue.WFItems l →
    Json.WFItems (Sp00kyValue.normItems l)
  | [], _ => trivial
  | v :: vs, h => ⟨norm_wf v h.1, normItems_wf vs h.2⟩

theorem normFields_wf : ∀ l : List (String × Sp00kyValue), Sp00kyValue.WFFields l →
    ∀ kv ∈ Sp00kyValue.normFields l, kv.2.WF
  | [], _, kv, hkv => by cases hkv
  | (k, v) :: fs, h, kv, hkv => by
    rw [Sp00kyValue.normFields, List.mem_cons] at hkv
    rcases hkv with rfl | hkv
    · exact norm_wf v h.1
    · exact normFields_wf fs h.2 kv hkv

end

theorem recordFieldNorm_wf {kv : String × Sp00kyValue} (h : kv.2.WF) :
    (recordFieldNorm kv).2.WF := by
  unfold recordFieldNorm
  dsimp only
  split
  · trivial
  · exact norm_wf _ h

theorem recordNorm_wf {v : Sp00kyValue} (h : v.WF) : v.recordNorm.WF := by
  cases v with
  | object fields =>
    refine wf_sorted ?_ ?_
    · intro kv hkv
      obtain ⟨kv', hmem, rfl⟩ := List.mem_map.mp hkv
      exact recordFieldNorm_wf (wfFields_iff.mp h.1 kv' (List.mem_filter.mp hmem).1)
    · rw [List.map_map]
      exact h.2.sublist ((List.filter_sublist).map _)
  | _ => exact norm_wf _ h

variable {num : JsonNumber → List Char}

theorem fieldTexts_eq (l : List (String × Json)) :
    Json.fieldTexts num l = l.map fun kj => (kj.1, kj.2.canonical num) := by
  induction l with
  | nil => rfl
  | cons kj fs ih =>
    obtain ⟨k, j⟩ := kj
    rw [Json.fieldTexts, ih, List.map_cons]

/-- The text of a map that was sorted before its values were written. -/
theorem canonical_sorted {l : List (String × Json)}
    (h : (Json.object (sortBy (fun a b => compare a.1 b.1) l)).WF) :
    (Json.object (sortBy (fun a b => compare a.1 b.1) l)).canonical num =
      '{' :: fieldsText true (sortBy (fun a b => compare a.1 b.1)
        (l.map fun kj => (kj.1, kj.2.canonical num))) := by
  rw [canonical_object h, fieldTexts_eq]
  congr 2
  symm
  apply sortBy_map
  intro a b
  rfl

mutual

theorem writeCanonical_eq : ∀ v : Sp00kyValue, v.WF →
    v.writeCanonical num = v.norm.canonical num
  | .null, _ => rfl
  | .bool _, _ => rfl
  | .int _, _ => rfl
  | .float f, _ => by
    rw [Sp00kyValue.writeCanonical, Sp00kyValue.norm]
    split <;> rfl
  | .str _, _ => rfl
  | .array items, h => by
    rw [Sp00kyValue.writeCanonical, Sp00kyValue.norm, Json.canonical,
      writeItems_eq items h true]
  | .object fields, h => by
    rw [Sp00kyValue.norm, canonical_sorted (norm_wf (.object fields) h),
      Sp00kyValue.writeCanonical, writeFields_eq fields h.1]

theorem writeItems_eq : ∀ l : List Sp00kyValue, Sp00kyValue.WFItems l → ∀ first : Bool,
    Sp00kyValue.writeItems num first l = Json.itemsText num first (Sp00kyValue.normItems l)
  | [], _, _ => rfl
  | v :: vs, h, first => by
    rw [Sp00kyValue.writeItems, Sp00kyValue.normItems, Json.itemsText,
      writeCanonical_eq v h.1, writeItems_eq vs h.2 false]

theorem writeFields_eq : ∀ l : List (String × Sp00kyValue), Sp00kyValue.WFFields l →
    Sp00kyValue.writeFields num l =
      (Sp00kyValue.normFields l).map fun kj => (kj.1, kj.2.canonical num)
  | [], _ => rfl
  | (k, v) :: fs, h => by
    rw [Sp00kyValue.writeFields, Sp00kyValue.normFields, List.map_cons,
      writeCanonical_eq v h.1, writeFields_eq fs h.2]

end

theorem recordFieldText_eq {kv : String × Sp00kyValue} (h : kv.2.WF) :
    recordFieldText num kv =
      ((recordFieldNorm kv).1, (recordFieldNorm kv).2.canonical num) := by
  unfold recordFieldText recordFieldNorm
  dsimp only
  split
  · rfl
  · rw [writeCanonical_eq _ h]

/-- The text of a record is that of its JSON value. -/
theorem writeCanonicalRecord_eq {v : Sp00kyValue} (h : v.WF) :
    v.writeCanonicalRecord num = v.recordNorm.canonical num := by
  cases v with
  | object fields =>
    rw [Sp00kyValue.recordNorm, canonical_sorted (recordNorm_wf (v := .object fields) h),
      Sp00kyValue.writeCanonicalRecord, List.map_map]
    congr 3
    refine List.map_congr_left ?_
    intro kv hkv
    exact recordFieldText_eq (wfFields_iff.mp h.1 kv (List.mem_filter.mp hkv).1)
  | _ => exact writeCanonical_eq _ h

/-- Records with one text have one JSON value. -/
theorem recordNorm_of_text (hnum : NumberText num) {a b : Sp00kyValue} (ha : a.WF) (hb : b.WF)
    (h : a.writeCanonicalRecord num = b.writeCanonicalRecord num) :
    a.recordNorm = b.recordNorm := by
  rw [writeCanonicalRecord_eq ha, writeCanonicalRecord_eq hb] at h
  have hnil : Stop [] := by
    intro c hc
    cases hc
  exact (canonical_inj hnum _ _ [] [] (recordNorm_wf ha) (recordNorm_wf hb) hnil hnil
    (by rw [List.append_nil, List.append_nil, h])).1

theorem lookup_norm {β : Type} (f : Sp00kyValue → β) (fields : List (String × Sp00kyValue))
    (k : String) :
    (fields.map fun kv => (kv.1, f kv.2)).lookup k = (fields.lookup k).map f := by
  induction fields with
  | nil => rfl
  | cons kv fs ih =>
    rw [List.map_cons, List.lookup_cons, List.lookup_cons, ih]
    split <;> rfl

/-- A field of a value, in its JSON value. -/
theorem get_norm {v : Sp00kyValue} (h : v.WF) (k : String) :
    v.norm.get k = (v.get k).map Sp00kyValue.norm := by
  cases v with
  | object fields =>
    have hd : ((Sp00kyValue.normFields fields).map Prod.fst).Nodup := by
      rw [normFields_eq, List.map_map]
      exact h.2
    rw [Sp00kyValue.norm, Json.get, lookup_sortBy hd, normFields_eq, lookup_norm]
    rfl
  | float f =>
    rw [Sp00kyValue.norm]
    split <;> rfl
  | _ => rfl

theorem get_wf {v w : Sp00kyValue} {k : String} (h : v.WF) (hw : v.get k = some w) : w.WF := by
  cases v with
  | object fields => exact wfFields_iff.mp h.1 (k, w) ((lookup_eq_some_iff h.2).mp hw)
  | _ => cases hw

/-- A top-level field of a record, in its JSON value: dropped keys are gone. -/
theorem get_recordNorm {fields : List (String × Sp00kyValue)} (h : (Sp00kyValue.object fields).WF)
    (k : String) :
    (Sp00kyValue.object fields).recordNorm.get k =
      match fieldsGet fields k with
      | some v => if keptField (k, v) then some (recordFieldNorm (k, v)).2 else none
      | none => none := by
  have hd' : ((fields.filter keptField).map Prod.fst).Nodup :=
    h.2.sublist ((List.filter_sublist).map _)
  have hd : (((fields.filter keptField).map recordFieldNorm).map Prod.fst).Nodup := by
    rw [List.map_map]
    exact hd'
  rw [Sp00kyValue.recordNorm, Json.get, lookup_sortBy hd]
  refine Option.ext fun j => ?_
  rw [lookup_eq_some_iff hd, List.mem_map]
  constructor
  · rintro ⟨⟨k', v⟩, hmem, he⟩
    obtain rfl : k' = k := congrArg Prod.fst he
    have hlook : fieldsGet fields k' = some v :=
      (lookup_eq_some_iff h.2).mpr (List.mem_filter.mp hmem).1
    simp only [hlook]
    rw [if_pos (List.mem_filter.mp hmem).2, he]
  · intro hj
    split at hj
    · next v hlook =>
      split at hj
      · next hkept =>
        have hmem : (k, v) ∈ fields := (lookup_eq_some_iff h.2).mp hlook
        refine ⟨(k, v), List.mem_filter.mpr ⟨hmem, hkept⟩, ?_⟩
        exact Prod.ext rfl (Option.some.inj hj)
      · cases hj
    · cases hj

end Norm

/-! ## Reading records with one digest -/

/-- What the text does not tell apart: nothing, null and non-finite numbers. -/
def unhashed : ValueRef → Bool
  | none => true
  | some v => v.isJsonNull

/-- A path as `Path::new` makes them, whose root is no reserved key. -/
def OpenPath (f : Path) : Prop :=
  (∃ s, f = Path.new s) ∧ ∀ seg ∈ f.segments.head?, isReservedKey seg = false

/-- Two bodies agree on what their digests do not see: where both hold nothing, null or a
    non-finite number they hold the same, and their own ids are spelled the same. -/
structure SameUnhashed (a b : Sp00kyValue) : Prop where
  soft : ∀ f, OpenPath f → unhashed (resolveField (some a) f) = true →
    unhashed (resolveField (some b) f) = true →
    resolveField (some a) f = resolveField (some b) f
  id : ∀ i j, a.get "id" = some (.str i) → b.get "id" = some (.str j) → i = j

/-- Values that no comparison, hash or sort key tells apart. -/
def Alike : ValueRef → ValueRef → Prop
  | some (.array _), some (.array _) => True
  | some (.object _), some (.object _) => True
  | x, y => x = y

section Reads

theorem Alike.refl (x : ValueRef) : Alike x x := by
  rcases x with _ | v
  · rfl
  · cases v <;> trivial

variable {v w : Sp00kyValue}

theorem isRecordRef_norm (h : v.norm = w.norm) :
    v.isRecordRef = w.isRecordRef := by
  cases v <;> cases w <;> simp_all [Sp00kyValue.norm, Sp00kyValue.isRecordRef] <;>
    (split at h <;> cases h)

/-- Values with one JSON value read alike. -/
theorem resolveSegments_norm (hv : v.WF) (hw : w.WF) (h : v.norm = w.norm) (segs : List String) :
    (resolveSegments v segs).map Sp00kyValue.norm = (resolveSegments w segs).map Sp00kyValue.norm := by
  induction segs generalizing v w with
  | nil => simp [resolveSegments, h]
  | cons seg rest ih =>
    have hget := get_norm hv seg
    rw [h, get_norm hw seg] at hget
    simp only [resolveSegments, isRecordRef_norm h]
    split
    · simp [h]
    · cases hva : v.get seg with
      | none =>
        cases hwa : w.get seg with
        | none => rfl
        | some y => simp [hva, hwa] at hget
      | some x =>
        cases hwa : w.get seg with
        | none => simp [hva, hwa] at hget
        | some y =>
          rw [hva, hwa] at hget
          exact ih (get_wf hv hva) (get_wf hw hwa) (Option.some.inj hget).symm

theorem norm_null_iff : v.norm = .null ↔ v.isJsonNull = true := by
  cases v with
  | float f =>
    rw [Sp00kyValue.norm, Sp00kyValue.isJsonNull]
    cases f.isFinite <;> simp
  | _ => simp [Sp00kyValue.norm, Sp00kyValue.isJsonNull]

/-- Values with one JSON value are alike where the unhashed ones are equal. -/
theorem alike_of_norm {x y : ValueRef} (h : x.map Sp00kyValue.norm = y.map Sp00kyValue.norm)
    (hsoft : unhashed x = true → unhashed y = true → x = y) : Alike x y := by
  rcases x with _ | v <;> rcases y with _ | w
  · rfl
  · cases h
  · cases h
  · have hn : v.norm = w.norm := Option.some.inj h
    by_cases hv : v.isJsonNull = true
    · have hw : w.isJsonNull = true := by
        rw [← norm_null_iff, ← hn, norm_null_iff]
        exact hv
      rw [hsoft hv hw]
      exact Alike.refl _
    · have hw : ¬ w.isJsonNull = true := by
        rw [← norm_null_iff, ← hn, norm_null_iff]
        exact hv
      cases v <;> cases w <;> simp_all [Sp00kyValue.norm, Alike, Sp00kyValue.isJsonNull]

variable {fields : List (String × Sp00kyValue)}

/-- The first step of a read into a record. -/
theorem resolveField_object {f : Path} {seg : String}
    {rest : List String} (hf : f.segments = seg :: rest) :
    resolveField (some (.object fields)) f =
      (fieldsGet fields seg).bind fun v => resolveSegments v rest := by
  rw [resolveField, hf, resolveSegments]
  have hid : (seg == "id" && (Sp00kyValue.object fields).isRecordRef) = false := by
    exact Bool.and_false _
  rw [hid]
  cases hget : fieldsGet fields seg with
  | none | some v => simp [Sp00kyValue.get, hget]

theorem norm_str {s : String} (h : v.norm = .str s) : v = .str s := by
  cases v with
  | float f =>
    rw [Sp00kyValue.norm] at h
    split at h <;> cases h
  | str t =>
    cases h
    rfl
  | _ => cases h

/-- Two values of one top-level key with one JSON value: equal ids, or one norm. -/
theorem recordFieldNorm_same {k : String}
    (h : (recordFieldNorm (k, v)).2 = (recordFieldNorm (k, w)).2)
    (hid : ∀ i j, k = "id" → v = .str i → w = .str j → i = j) : v.norm = w.norm := by
  by_cases hk : k = "id"
  · subst hk
    cases v with
    | str i =>
      cases w with
      | str j => rw [hid i j rfl rfl rfl]
      | _ => cases norm_str (show _ = Json.str (normalizeRecordId i) from h.symm)
    | _ =>
      cases w with
      | str j => cases norm_str (show _ = Json.str (normalizeRecordId j) from h)
      | _ => exact h
  · have hother : ∀ x : Sp00kyValue, (recordFieldNorm (k, x)).2 = x.norm := by
      intro x
      have hbeq : (k == "id") = false := beq_false_of_ne hk
      simp [recordFieldNorm, hbeq]
    rw [hother, hother] at h
    exact h

/-- Behind a null or a number there is nothing to read. -/
theorem resolveSegments_jsonNull (h : v.isJsonNull = true) (seg : String)
    (rest : List String) : resolveSegments v (seg :: rest) = none := by
  cases v with
  | null | float f => simp [resolveSegments, Sp00kyValue.isRecordRef, Sp00kyValue.get]
  | _ => cases h

theorem recordNorm_object (h : v.recordNorm = (Sp00kyValue.object fields).recordNorm) :
    ∃ fields', v = .object fields' := by
  cases v with
  | object fields' => exact ⟨fields', rfl⟩
  | float f =>
    simp only [Sp00kyValue.recordNorm, Sp00kyValue.norm] at h
    split at h <;> cases h
  | _ => cases h

/-- Reads of a top-level key that one of the records does not hash. -/
theorem read_dropped {f : Path} {seg s : String}
    {rest : List String} (hf : f.segments = seg :: s :: rest)
    (h : unhashed (fieldsGet fields seg) = true) :
    resolveField (some (.object fields)) f = none := by
  rw [resolveField_object hf]
  cases hget : fieldsGet fields seg with
  | none => rfl
  | some v =>
    rw [hget] at h
    exact resolveSegments_jsonNull h s rest

/-- Whether a key of a record is hashed shows in its JSON value. -/
theorem get_recordNorm_none
    (hw : (Sp00kyValue.object fields).WF) {seg : String} (hseg : isReservedKey seg = false) :
    (Sp00kyValue.object fields).recordNorm.get seg = none ↔
      unhashed (fieldsGet fields seg) = true := by
  rw [get_recordNorm hw]
  cases fieldsGet fields seg with
  | none => simp [unhashed]
  | some v =>
    simp only [unhashed, keptField, hseg, Bool.not_false, Bool.true_and]
    cases v.isJsonNull <;> simp

theorem get_recordNorm_some
    (hw : (Sp00kyValue.object fields).WF) {seg : String} (hseg : isReservedKey seg = false) (hget : fieldsGet fields seg = some v) (hv : v.isJsonNull = false) :
    (Sp00kyValue.object fields).recordNorm.get seg = some (recordFieldNorm (seg, v)).2 := by
  rw [get_recordNorm hw, hget]
  simp [keptField, hseg, hv]

/-- Records with one JSON value read alike where they agree on what it leaves out. -/
theorem read_same {a b : Sp00kyValue} (ha : a.WF) (hb : b.WF) (hn : a.recordNorm = b.recordNorm)
    (h : SameUnhashed a b) {f : Path} (hf : OpenPath f) :
    Alike (resolveField (some a) f) (resolveField (some b) f) := by
  have hnorm : a.norm = b.norm → Alike (resolveField (some a) f) (resolveField (some b) f) := by
    intro heq
    exact alike_of_norm (resolveSegments_norm ha hb heq f.segments) (h.soft f hf)
  by_cases hobj : ∃ fields, a = .object fields
  · obtain ⟨fa, rfl⟩ := hobj
    obtain ⟨fb, rfl⟩ := recordNorm_object hn.symm
    cases hsegs : f.segments with
    | nil =>
      rw [resolveField, resolveField, hsegs]
      trivial
    | cons seg rest =>
      have hseg : isReservedKey seg = false := hf.2 seg (by rw [hsegs]; rfl)
      by_cases hsoft : unhashed (fieldsGet fa seg) = true
      · have hsoft' : unhashed (fieldsGet fb seg) = true := by
          rw [← get_recordNorm_none hb hseg, ← hn, get_recordNorm_none ha hseg]
          exact hsoft
        cases rest with
        | nil =>
          have hread : ∀ fields, resolveField (some (.object fields)) f = fieldsGet fields seg := by
            intro fields
            rw [resolveField_object hsegs]
            cases fieldsGet fields seg <;> rfl
          have heq := h.soft f hf (by rw [hread]; exact hsoft) (by rw [hread]; exact hsoft')
          rw [heq]
          exact Alike.refl _
        | cons s rest =>
          rw [read_dropped hsegs hsoft, read_dropped hsegs hsoft']
          exact Alike.refl _
      · have hsoft' : ¬ unhashed (fieldsGet fb seg) = true := by
          rw [← get_recordNorm_none hb hseg, ← hn, get_recordNorm_none ha hseg]
          exact hsoft
        cases hva : fieldsGet fa seg with
        | none => rw [hva] at hsoft; exact absurd rfl hsoft
        | some v =>
          cases hvb : fieldsGet fb seg with
          | none => rw [hvb] at hsoft'; exact absurd rfl hsoft'
          | some w =>
            rw [hva] at hsoft
            rw [hvb] at hsoft'
            have hfield : (recordFieldNorm (seg, v)).2 = (recordFieldNorm (seg, w)).2 := by
              have h1 := get_recordNorm_some ha hseg hva (Bool.not_eq_true _ ▸ hsoft)
              have h2 := get_recordNorm_some hb hseg hvb (Bool.not_eq_true _ ▸ hsoft')
              rw [hn, h2] at h1
              exact (Option.some.inj h1).symm
            have hvw : v.norm = w.norm := by
              refine recordFieldNorm_same hfield ?_
              rintro i j rfl rfl rfl
              exact h.id i j hva hvb
            have hread := resolveSegments_norm (get_wf (v := .object fa) ha hva)
              (get_wf (v := .object fb) hb hvb) hvw rest
            refine alike_of_norm ?_ (h.soft f hf)
            rw [resolveField_object hsegs, resolveField_object hsegs, hva, hvb]
            exact hread
  · -- neither is an object: the text is that of the whole value
    have hnobj : ∀ v : Sp00kyValue, (¬ ∃ fields, v = .object fields) → v.recordNorm = v.norm := by
      intro v hv
      cases v with
      | object fields => exact absurd ⟨fields, rfl⟩ hv
      | _ => rfl
    refine hnorm ?_
    rw [← hnobj a hobj, hn, hnobj b]
    rintro ⟨fields, rfl⟩
    exact hobj (recordNorm_object hn)

end Reads

/-! ## Evaluating alike values -/

section Evaluate

variable {x y : ValueRef}

theorem Alike.cases (h : Alike x y) :
    x = y ∨ (∃ l m, x = some (.array l) ∧ y = some (.array m)) ∨
      ∃ l m, x = some (.object l) ∧ y = some (.object m) := by
  unfold Alike at h
  split at h
  · exact .inr (.inl ⟨_, _, rfl, rfl⟩)
  · exact .inr (.inr ⟨_, _, rfl, rfl⟩)
  · exact .inl h

theorem Alike.compareValues (h : Alike x y) (t : ValueRef) :
    compareValues x t = compareValues y t := by
  rcases h.cases with rfl | ⟨l, m, rfl, rfl⟩ | ⟨l, m, rfl, rfl⟩
  · rfl
  all_goals rcases t with _ | (_ | _ | _ | _ | _ | _ | _) <;> rfl

theorem Alike.compareValues_right (h : Alike x y) (t : ValueRef) :
    Sp00ky.Ssp.compareValues t x = Sp00ky.Ssp.compareValues t y := by
  rcases h.cases with rfl | ⟨l, m, rfl, rfl⟩ | ⟨l, m, rfl, rfl⟩
  · rfl
  all_goals rcases t with _ | (_ | _ | _ | _ | _ | _ | _) <;> rfl

theorem Alike.sameKind (h : Alike x y) (t : ValueRef) : sameKind x t = sameKind y t := by
  rcases h.cases with rfl | ⟨l, m, rfl, rfl⟩ | ⟨l, m, rfl, rfl⟩
  · rfl
  all_goals rcases t with _ | (_ | _ | _ | _ | _ | _ | _) <;> rfl

theorem Alike.hashInput (h : Alike x y) : hashInput x = hashInput y := by
  rcases h.cases with rfl | ⟨l, m, rfl, rfl⟩ | ⟨l, m, rfl, rfl⟩ <;> rfl

theorem Alike.scalar (h : Alike x y) : Scalar.ofValue x = Scalar.ofValue y := by
  rcases h.cases with rfl | ⟨l, m, rfl, rfl⟩ | ⟨l, m, rfl, rfl⟩ <;> rfl

theorem Alike.isSome (h : Alike x y) : x.isSome = y.isSome := by
  rcases h.cases with rfl | ⟨l, m, rfl, rfl⟩ | ⟨l, m, rfl, rfl⟩ <;> rfl

theorem Alike.holdsField (h : Alike x y) (op : CmpOp) (t : ValueRef) :
    op.holdsField x t = op.holdsField y t := by
  unfold CmpOp.holdsField
  rw [h.compareValues, h.sameKind]

end Evaluate

/-! ## What evaluates a row -/

mutual

/-- Every path a predicate reads is open. -/
def Predicate.Open : Predicate → Prop
  | .cmp _ field _ => OpenPath field
  | .prefixed field _ => OpenPath field
  | .and ps => OpenAll ps
  | .or ps => OpenAll ps
  | _ => True

def Predicate.OpenAll : List Predicate → Prop
  | [] => True
  | p :: ps => p.Open ∧ OpenAll ps

end

/-- The sort key of a body. -/
def bodySortKey (orders : List OrderSpec) (body : Sp00kyValue) : SortKey :=
  orders.map fun o => ⟨Scalar.ofValue (resolveField (some body) o.field), o.isDesc⟩

/-- No predicate, join condition or sort order tells two bodies of a row apart. -/
structure Indistinct (env : Env) (key : String) (a b : Sp00kyValue) : Prop where
  predicate : ∀ (p : Predicate) (ctx : Option Sp00kyValue), p.Open →
    p.eval key (some a) ctx = p.eval key (some b) ctx
  join : ∀ (f : Path) (other : ValueRef), OpenPath f →
    joinMatches env (resolveField (some a) f) other =
        joinMatches env (resolveField (some b) f) other ∧
      joinMatches env other (resolveField (some a) f) =
        joinMatches env other (resolveField (some b) f)
  order : ∀ orders : List OrderSpec, (∀ o ∈ orders, OpenPath o.field) →
    bodySortKey orders a = bodySortKey orders b

section Rows

variable {a b : Sp00kyValue}

theorem readField_alike (h : ∀ f, OpenPath f →
    Alike (resolveField (some a) f) (resolveField (some b) f)) (key : String) {f : Path}
    (hf : OpenPath f) : Alike (readField f key (some a)) (readField f key (some b)) := by
  unfold readField
  split
  · exact Alike.refl _
  · exact h f hf

mutual

theorem eval_alike (h : ∀ f, OpenPath f →
    Alike (resolveField (some a) f) (resolveField (some b) f)) (key : String)
    (ctx : Option Sp00kyValue) : ∀ p : Predicate, p.Open →
    p.eval key (some a) ctx = p.eval key (some b) ctx
  | .true, _ => rfl
  | .false, _ => rfl
  | .and ps, hp => evalAll_alike h key ctx ps hp
  | .or ps, hp => evalAny_alike h key ctx ps hp
  | .paramCmp _ _ _, _ => rfl
  | .prefixed field pre, hp => by
    rw [Predicate.eval, Predicate.eval]
    rcases (readField_alike h key hp).cases with heq | ⟨l, m, hl, hm⟩ | ⟨l, m, hl, hm⟩
    · rw [heq]
    · rw [hl, hm]
    · rw [hl, hm]
  | .cmp op field value, hp => by
    have halike := readField_alike h key hp
    rw [Predicate.eval, Predicate.eval]
    cases resolvePredicateValue value ctx with
    | none => rfl
    | some target =>
      dsimp only
      have hsome := halike.isSome
      cases hx : readField field key (some a) with
      | none =>
        cases hy : readField field key (some b) with
        | none => rfl
        | some w =>
          rw [hx, hy] at hsome
          cases hsome
      | some v =>
        cases hy : readField field key (some b) with
        | none =>
          rw [hx, hy] at hsome
          cases hsome
        | some w =>
          rw [hx, hy] at halike
          exact halike.holdsField op _

theorem evalAll_alike (h : ∀ f, OpenPath f →
    Alike (resolveField (some a) f) (resolveField (some b) f)) (key : String)
    (ctx : Option Sp00kyValue) : ∀ ps : List Predicate, Predicate.OpenAll ps →
    Predicate.evalAll key (some a) ctx ps = Predicate.evalAll key (some b) ctx ps
  | [], _ => rfl
  | p :: ps, hp => by
    rw [Predicate.evalAll, Predicate.evalAll, eval_alike h key ctx p hp.1,
      evalAll_alike h key ctx ps hp.2]

theorem evalAny_alike (h : ∀ f, OpenPath f →
    Alike (resolveField (some a) f) (resolveField (some b) f)) (key : String)
    (ctx : Option Sp00kyValue) : ∀ ps : List Predicate, Predicate.OpenAll ps →
    Predicate.evalAny key (some a) ctx ps = Predicate.evalAny key (some b) ctx ps
  | [], _ => rfl
  | p :: ps, hp => by
    rw [Predicate.evalAny, Predicate.evalAny, eval_alike h key ctx p hp.1,
      evalAny_alike h key ctx ps hp.2]

end

/-- Bodies that read alike everywhere are evaluated alike. -/
theorem indistinct_of_alike (env : Env) (key : String) (h : ∀ f, OpenPath f →
    Alike (resolveField (some a) f) (resolveField (some b) f)) : Indistinct env key a b where
  predicate p ctx hp := eval_alike h key ctx p hp
  join f other hf := by
    have halike := h f hf
    have hleft : ∀ x y : ValueRef, Alike x y → joinMatches env x other = joinMatches env y other := by
      intro x y hxy
      simp only [joinMatches, hashValue, hxy.isSome, hxy.hashInput, hxy.compareValues]
    have hright : ∀ x y : ValueRef, Alike x y → joinMatches env other x = joinMatches env other y := by
      intro x y hxy
      simp only [joinMatches, hashValue, hxy.isSome, hxy.hashInput, hxy.compareValues_right]
    exact ⟨hleft _ _ halike, hright _ _ halike⟩
  order orders ho := by
    unfold bodySortKey
    refine List.map_congr_left ?_
    intro o hmem
    rw [(h o.field (ho o hmem)).scalar]

theorem joinMatches_none (env : Env) (x : ValueRef) : joinMatches env none x = false := rfl

/-- A value with no kind but its own to compare with matches itself. -/
theorem joinMatches_self (env : Env) {v : Sp00kyValue}
    (h : compareValues (some v) (some v) = .eq) : joinMatches env (some v) (some v) = true := by
  simp [joinMatches, h]

theorem compareValues_float_self (f : F64) :
    compareValues (some (.float f)) (some (.float f)) = .eq := by
  simp only [compareValues, rank, compareSameRank, F64.partialCmp]
  cases f.isNan <;> simp

/-- What is not hashed is told apart by a join or a sort order. -/
theorem eq_of_observed (env : Env) {x y : ValueRef} (hx : unhashed x = true)
    (hy : unhashed y = true) (hjoin : ∀ other, joinMatches env x other = joinMatches env y other)
    (horder : Scalar.ofValue x = Scalar.ofValue y) : x = y := by
  rcases x with _ | v
  · rcases y with _ | w
    · rfl
    · have h := hjoin (some w)
      cases w with
      | null => rw [joinMatches_none, joinMatches_self env rfl] at h; cases h
      | float g =>
        rw [joinMatches_none, joinMatches_self env (compareValues_float_self g)] at h
        cases h
      | _ => cases hy
  · cases v with
    | null =>
      have h := hjoin (some .null)
      rw [joinMatches_self env rfl] at h
      rcases y with _ | w
      · cases h
      · cases w with
        | null => rfl
        | float g => cases horder
        | _ => cases hy
    | float f =>
      rcases y with _ | w
      · cases horder
      · cases w with
        | null => cases horder
        | float g => rw [Scalar.float.inj horder]
        | _ => cases hy
    | _ => cases hx

/-- Indistinct bodies agree on what is not hashed. -/
theorem sameUnhashed_of_indistinct {env : Env} {key : String} (h : Indistinct env key a b) :
    SameUnhashed a b where
  soft f hf hx hy := by
    refine eq_of_observed env hx hy (fun other => (h.join f other hf).1) ?_
    have hk := h.order [⟨f, "ASC"⟩] (by simpa using hf)
    exact congrArg SortableValue.scalar (List.cons.inj hk).1
  id i j ha hb := by
    have hsegs : (Path.new "id").segments = ["id"] := by decide
    have hread : ∀ (v : Sp00kyValue) (s : String), v.get "id" = some (.str s) →
        resolveField (some v) (Path.new "id") = some (.str s) := by
      intro v s hv
      cases v with
      | object fields =>
        rw [resolveField_object hsegs]
        rw [Sp00kyValue.get] at hv
        rw [hv]
        rfl
      | _ => cases hv
    have hopen : OpenPath (Path.new "id") := by
      refine ⟨⟨"id", rfl⟩, ?_⟩
      rw [hsegs]
      intro seg hseg
      cases hseg
      decide
    have hk := h.order [⟨Path.new "id", "ASC"⟩] (by simpa using hopen)
    have hs := congrArg SortableValue.scalar (List.cons.inj hk).1
    dsimp only at hs
    rw [hread a i ha, hread b j hb] at hs
    exact Scalar.str.inj hs

end Rows

/-! ## Suppressed writes -/

/-- Every row holds the digest of its body. -/
def DigestsRight (env : Env) (c : Collection) : Prop :=
  ∀ (id : String) (r : Row), c.rows[id]? = some r → r.digest = env.digest id r.value

theorem DigestsRight.apply {env : Env} {c : Collection} (h : DigestsRight env c) (op : Operation)
    (id : String) (data : Sp00kyValue) : DigestsRight env (c.apply env op id data).1 := by
  intro i r hr
  unfold Collection.apply at hr
  dsimp only at hr
  split at hr
  · split at hr
    · exact h i r hr
    · rw [ExtTreeMap.getElem?_erase] at hr
      split at hr
      · cases hr
      · exact h i r hr
  · split at hr
    · exact h i r hr
    · rw [ExtTreeMap.getElem?_insert] at hr
      split at hr
      · next hi =>
        obtain rfl := LawfulEqCmp.compare_eq_iff_eq.mp hi
        cases hr
        rfl
      · exact h i r hr

theorem DigestsRight.perform {env : Env} {c : CachedCollection} (h : DigestsRight env c.base)
    (op : CollectionOp) : DigestsRight env (c.perform env op).base := by
  cases op with
  | apply op id data =>
    have hbase : (c.perform env (.apply op id data)).base = (c.base.apply env op id data).1 :=
      (CachedCollection.apply_base env c op id data).1
    rw [hbase]
    exact h.apply op id data
  | compact =>
    intro i r hr
    simp only [CachedCollection.perform, CachedCollection.compact, ExtTreeMap.getElem?_map] at hr
    obtain ⟨r', -, rfl⟩ := Option.map_eq_some_iff.mp hr
    rfl
  | withIndex d =>
    have hbase : (c.perform env (.withIndex d)).base = c.base := by
      simp only [CachedCollection.perform, CachedCollection.withIndex]
      cases c.slot d <;> rfl
    rw [hbase]
    exact h
  | _ => exact h

theorem DigestsRight.run {env : Env} {c : CachedCollection} (h : DigestsRight env c.base)
    (ops : List CollectionOp) : DigestsRight env (c.run env ops).base := by
  induction ops generalizing c with
  | nil => exact h
  | cons op ops ih => exact ih (h.perform op)

theorem DigestsRight.new (env : Env) (name : String) :
    DigestsRight env (CachedCollection.new name).base := by
  intro i r hr
  simp [CachedCollection.new, Collection.new] at hr

/-- A suppressed write found the digest of its body in the store. -/
theorem digest_of_suppressed {env : Env} {c : Collection} (hc : DigestsRight env c)
    {op : Operation} (hop : op = .create ∨ op = .update) {id : String} {data : Sp00kyValue}
    (h : (c.apply env op id data).2.contentChanged = false) {r : Row}
    (hr : c.rows[rawId id]? = some r) :
    env.digest (rawId id) (c.project data) = env.digest (rawId id) r.value := by
  have hbody : c.incoming op (rawId id) data = c.project data := by
    rcases hop with rfl | rfl <;> rfl
  have hne : op ≠ .delete := by rcases hop with rfl | rfl <;> decide
  unfold Collection.apply at h
  dsimp only at h
  rw [if_neg hne, hbody, hr] at h
  split at h
  · next hsame =>
    have hd : r.digest = env.digest (rawId id) (c.project data) := by simpa using hsame
    rw [← hd]
    exact hc _ r hr
  · cases h

/-- A suppressed write is invisible exactly if it agrees with the stored row on what digests do
    not see. -/
theorem suppressed_iff {blake3 : List Char → BitVec 256} {num : JsonNumber → List Char}
    (hnum : NumberText num) {env : Env} (henv : env.digest = recordDigest blake3 num)
    (name : String) (ops : List CollectionOp) {op : Operation}
    (hop : op = .create ∨ op = .update) (id : String) (data : Sp00kyValue) {r : Row}
    (hsame : (((CachedCollection.new name).run env ops).apply env op id data).2.contentChanged =
      false)
    (hleft : (((CachedCollection.new name).run env ops).apply env op id data).1.base.rows[rawId id]?
      = some r)
    (hw : (((CachedCollection.new name).run env ops).base.project data).WF) (hr : r.value.WF)
    (hcollide : recordDigest blake3 num (rawId id)
        (((CachedCollection.new name).run env ops).base.project data) =
          recordDigest blake3 num (rawId id) r.value →
      (((CachedCollection.new name).run env ops).base.project data).writeCanonicalRecord num =
        r.value.writeCanonicalRecord num) :
    Indistinct env (makeKey name id) (((CachedCollection.new name).run env ops).base.project data)
        r.value ↔
      SameUnhashed (((CachedCollection.new name).run env ops).base.project data) r.value := by
  constructor
  · exact sameUnhashed_of_indistinct
  · intro h
    rw [CachedCollection.apply_unchanged env _ op id data hsame] at hleft
    rw [(CachedCollection.apply_base env _ op id data).2] at hsame
    have hdigest := digest_of_suppressed ((DigestsRight.new env name).run ops) hop hsame hleft
    rw [henv] at hdigest
    have hnorm := recordNorm_of_text hnum hw hr (hcollide hdigest)
    exact indistinct_of_alike env _ fun f hf => read_same hw hr hnorm h hf

/-- A hash for the rows below. -/
def sampleBlake3 (text : List Char) : BitVec 256 :=
  BitVec.ofNat 256 (foldTokens (text.map Char.toNat))

/-- Digests of canonical texts. -/
def digestEnv : Env := { Env.sample with digest := recordDigest sampleBlake3 sampleNumber }

/-- One row is written. -/
def oneWrite : List CollectionOp := [.apply .create "1" (.object [("x", .int 1)])]

/-- The same row with a null field. -/
def nullField : Sp00kyValue := .object [("x", .int 1), ("y", .null)]

theorem oneWrite_row : ((CachedCollection.new "t").run digestEnv oneWrite).base.rows["1"]? =
    some ⟨.object [("x", .int 1)], digestEnv.digest "1" (.object [("x", .int 1)])⟩ := rfl

theorem oneWrite_suppressed : (((CachedCollection.new "t").run digestEnv oneWrite).apply digestEnv
    .create "1" nullField).2.contentChanged = false := by decide +kernel

theorem suppressed_iff_nullField :
    Indistinct digestEnv (makeKey "t" "1") nullField (.object [("x", .int 1)]) ↔
      SameUnhashed nullField (.object [("x", .int 1)]) :=
  suppressed_iff (r := ⟨.object [("x", .int 1)], digestEnv.digest "1" (.object [("x", .int 1)])⟩)
    sampleNumber_text (show digestEnv.digest = recordDigest sampleBlake3 sampleNumber from rfl)
    "t" oneWrite (.inl rfl) "1" nullField oneWrite_suppressed
    (by
      rw [CachedCollection.apply_unchanged _ _ _ _ _ oneWrite_suppressed]
      exact oneWrite_row)
    ⟨⟨trivial, trivial, trivial⟩, by decide⟩ ⟨⟨trivial, trivial⟩, by decide⟩ (fun _ => rfl)

/-- The write is suppressed although `y != true` tells the bodies apart. -/
theorem suppressed_null_visible :
    (((CachedCollection.new "t").run digestEnv oneWrite).apply digestEnv .create "1"
        nullField).2.contentChanged = false ∧
      ((CachedCollection.new "t").run digestEnv oneWrite).base.rows["1"]? =
        some ⟨.object [("x", .int 1)], digestEnv.digest "1" (.object [("x", .int 1)])⟩ ∧
      ¬ Indistinct digestEnv (makeKey "t" "1") nullField (.object [("x", .int 1)]) := by
  refine ⟨by decide +kernel, rfl, fun h => ?_⟩
  have hopen : (Predicate.cmp .neq (Path.new "y") (.bool true)).Open := by
    refine ⟨⟨"y", rfl⟩, ?_⟩
    intro seg hseg
    obtain rfl : "y" = seg := by simpa [Path.new, splitDots] using hseg
    decide
  have heval := h.predicate _ none hopen
  revert heval
  decide +kernel

end Sp00ky.Ssp
