/-
  One digest from two writers.

  The scheduler digests a record as `serde_json::Value` (`snapshot_hash::record_digest`), the SSP
  as `Sp00kyValue` (`record_digest_into`). An integer past `i64::MAX` becomes a float on the way
  into `Sp00kyValue` and is written as one, so the two texts are the same exactly when the part of
  the record that is digested has no such integer (`record_digests_agree_iff`).
-/
import Sp00ky.Scheduler.HashEqual

namespace Sp00ky.Scheduler

open Std Lib Ssp

/-! ## A converted record -/

theorem ofJsonFields_eq (fields : List (String × Json)) :
    Sp00kyValue.ofJsonFields fields = fields.map fun kj => (kj.1, .ofJson kj.2) := by
  induction fields with
  | nil => rfl
  | cons kj fields ih =>
    obtain ⟨k, j⟩ := kj
    rw [Sp00kyValue.ofJsonFields, ih, List.map_cons]

theorem keys_nodup {fields : List (String × Json)}
    (h : (fields.map Prod.fst).Pairwise (compare · · = .lt)) : (fields.map Prod.fst).Nodup := by
  refine h.imp ?_
  rintro a b hlt rfl
  rw [Std.ReflOrd.compare_self] at hlt
  cases hlt

mutual

theorem ofJson_wf : ∀ j : Json, j.WF → (Sp00kyValue.ofJson j).WF
  | .null, _ => trivial
  | .bool _, _ => trivial
  | .int i, _ => by
    rw [Sp00kyValue.ofJson]
    split
    · trivial
    · trivial
  | .float _, _ => trivial
  | .str _, _ => trivial
  | .array items, h => ofJsonItems_wf items h
  | .object fields, h => by
    refine ⟨ofJsonFields_wf fields h.1, ?_⟩
    rw [ofJsonFields_eq, List.map_map]
    exact keys_nodup h.2

theorem ofJsonItems_wf : ∀ l : List Json, Json.WFItems l →
    Sp00kyValue.WFItems (Sp00kyValue.ofJsonItems l)
  | [], _ => trivial
  | j :: js, h => ⟨ofJson_wf j h.1, ofJsonItems_wf js h.2⟩

theorem ofJsonFields_wf : ∀ l : List (String × Json), Json.WFFields l →
    Sp00kyValue.WFFields (Sp00kyValue.ofJsonFields l)
  | [], _ => trivial
  | (_, j) :: fs, h => ⟨ofJson_wf j h.1, ofJsonFields_wf fs h.2⟩

end

theorem norm_float_plain (f : F64) : PlainJson (Sp00kyValue.float f).norm := by
  rw [Sp00kyValue.norm]
  split
  next h => exact h
  next => trivial

mutual

/-- Whatever it was converted from, it is written without a large integer. -/
theorem norm_ofJson_plain : ∀ j : Json, PlainJson (Sp00kyValue.ofJson j).norm
  | .null => trivial
  | .bool _ => trivial
  | .int i => by
    rw [Sp00kyValue.ofJson]
    split
    next h => exact h
    next => exact norm_float_plain _
  | .float f => norm_float_plain f
  | .str _ => trivial
  | .array items => normItems_ofJson_plain items
  | .object fields => by
    rw [Sp00kyValue.ofJson, Sp00kyValue.norm, PlainJson, plainFields_iff]
    intro kv hkv
    rw [mem_sortBy, normFields_eq] at hkv
    obtain ⟨kv', hmem, rfl⟩ := List.mem_map.mp hkv
    exact normFields_ofJson_plain fields kv' hmem

theorem normItems_ofJson_plain : ∀ l : List Json,
    PlainItems (Sp00kyValue.normItems (Sp00kyValue.ofJsonItems l))
  | [] => trivial
  | j :: js => ⟨norm_ofJson_plain j, normItems_ofJson_plain js⟩

theorem normFields_ofJson_plain : ∀ l : List (String × Json),
    ∀ kv ∈ Sp00kyValue.ofJsonFields l, PlainJson kv.2.norm
  | [], kv, h => by cases h
  | (k, j) :: fs, kv, h => by
    rw [Sp00kyValue.ofJsonFields] at h
    rcases List.mem_cons.mp h with rfl | h
    · exact norm_ofJson_plain j
    · exact normFields_ofJson_plain fs kv h

end

theorem recordNorm_ofJson_plain (j : Json) : PlainJson (Sp00kyValue.ofJson j).recordNorm := by
  cases j with
  | object fields =>
    rw [Sp00kyValue.ofJson, Sp00kyValue.recordNorm, PlainJson, plainFields_iff]
    intro kv hkv
    rw [mem_sortBy] at hkv
    obtain ⟨kv', hmem, rfl⟩ := List.mem_map.mp hkv
    have hplain := normFields_ofJson_plain fields kv' (List.mem_filter.mp hmem).1
    unfold recordFieldNorm
    dsimp only
    split
    · trivial
    · exact hplain
  | int i =>
    rw [Sp00kyValue.ofJson]
    split
    next h => exact h
    next => exact norm_float_plain _
  | _ => exact norm_ofJson_plain _

/-! ## The two texts -/

theorem strippedField_key (kv : String × Json) : (strippedField kv).1 = kv.1 := by
  unfold strippedField
  split <;> rfl

theorem strippedField_plain_iff (kv : String × Json) :
    PlainJson (strippedField kv).2 ↔ PlainJson kv.2 := by
  obtain ⟨k, j⟩ := kv
  unfold strippedField
  split
  next s hs =>
    cases hs
    exact Iff.rfl
  next => exact Iff.rfl

theorem stripReservedKeys_wf {value : Json} (h : value.WF) : (stripReservedKeys value).WF := by
  cases value with
  | object fields =>
    refine ⟨?_, ?_⟩
    · rw [json_wfFields_iff]
      intro kv hkv
      obtain ⟨kv', hmem, rfl⟩ := List.mem_map.mp hkv
      have hwf := json_wfFields_iff.mp h.1 kv' (List.mem_filter.mp hmem).1
      split
      · trivial
      · exact hwf
    · rw [List.map_map]
      have hkeys : (fields.filter fun kv => !isReservedKey kv.1 && !jsonIsNull kv.2).map
          (Prod.fst ∘ strippedField) =
          (fields.filter fun kv => !isReservedKey kv.1 && !jsonIsNull kv.2).map Prod.fst :=
        List.map_congr_left fun kv _ => strippedField_key kv
      exact hkeys ▸ h.2.sublist (List.filter_sublist.map _)
  | _ => exact h

variable {num : JsonNumber → List Char}

theorem keptField_ofJson {kv : String × Json}
    (h : isReservedKey kv.1 = false → jsonIsNull kv.2 = false → PlainJson kv.2) :
    keptField (kv.1, .ofJson kv.2) = (!isReservedKey kv.1 && !jsonIsNull kv.2) := by
  unfold keptField
  cases hreserved : isReservedKey kv.1 with
  | true => rfl
  | false =>
    cases hnull : jsonIsNull kv.2 with
    | true =>
      have hj : kv.2 = .null := by
        unfold jsonIsNull at hnull
        split at hnull
        next heq => exact heq
        next => cases hnull
      rw [hj]
      rfl
    | false => rw [isJsonNull_ofJson (h hreserved hnull), hnull]

/-- Texts that every hash maps to one digest are the same. -/
theorem separated_by_hash {a b : List Char}
    (h : ∀ blake3 : List Char → Digest, blake3 a = blake3 b) : a = b := by
  by_contra hne
  have := h fun text => if text = a then 0 else 1
  rw [if_pos rfl, if_neg (Ne.symm hne)] at this
  exact absurd this (by decide)

/-- A record without a large integer where it is digested has one text. -/
theorem writeCanonicalRecord_of_plain {value : Json} (h : PlainJson (stripReservedKeys value)) :
    (Sp00kyValue.ofJson value).writeCanonicalRecord num =
      (stripReservedKeys value).canonical num := by
  cases value with
  | object fields =>
    have hkept : ∀ kv ∈ fields, isReservedKey kv.1 = false → jsonIsNull kv.2 = false →
        PlainJson kv.2 := by
      intro kv hkv hreserved hnull
      have hmem : strippedField kv ∈ (fields.filter fun kv => !isReservedKey kv.1 &&
          !jsonIsNull kv.2).map strippedField :=
        List.mem_map_of_mem (List.mem_filter.mpr ⟨hkv, by rw [hreserved, hnull]; rfl⟩)
      exact (strippedField_plain_iff kv).mp (plainFields_iff.mp h _ hmem)
    have htexts : ((Sp00kyValue.ofJsonFields fields).filter keptField).map (recordFieldText num) =
        Json.fieldTexts num ((fields.filter fun kv => !isReservedKey kv.1 && !jsonIsNull kv.2).map
          strippedField) := by
      rw [ofJsonFields_eq, List.filter_map, fieldTexts_eq, List.map_map, List.map_map]
      have hfilter : fields.filter (keptField ∘ fun kj => (kj.1, Sp00kyValue.ofJson kj.2)) =
          fields.filter fun kv => !isReservedKey kv.1 && !jsonIsNull kv.2 :=
        List.filter_congr fun kv hkv => keptField_ofJson (hkept kv hkv)
      rw [hfilter]
      refine List.map_congr_left fun kv hkv => ?_
      obtain ⟨hmem, hk⟩ := List.mem_filter.mp hkv
      rw [Bool.and_eq_true, Bool.not_eq_true', Bool.not_eq_true'] at hk
      exact recordFieldText_ofJson (hkept kv hmem hk.1 hk.2)
    show '{' :: fieldsText true (sortBy _ _) = '{' :: fieldsText true (sortBy _ _)
    rw [htexts]
    rfl
  | int i =>
    have hi : Sp00kyValue.ofJson (.int i) = .int i := if_pos h
    rw [hi]
    rfl
  | null => rfl
  | bool b => rfl
  | float f => exact writeCanonical_ofJson (.float f) h
  | str s => rfl
  | array items => exact writeCanonical_ofJson (.array items) h

/-- The two digests of a record are the same, whatever the hash, exactly when no integer that is
    digested is past `i64::MAX`. -/
theorem record_digests_agree_iff (hnum : NumberText num) {value : Json} (hwf : value.WF)
    (rawId : String) :
    (∀ blake3 : List Char → Digest, jsonRecordDigest blake3 num rawId value =
      recordDigest blake3 num rawId (Sp00kyValue.ofJson value)) ↔
      PlainJson (stripReservedKeys value) := by
  constructor
  · intro h
    have htext := separated_by_hash h
    have hdrop := List.append_cancel_left htext
    have hwrite := (List.cons.inj hdrop).2
    rw [writeCanonicalRecord_eq (ofJson_wf value hwf)] at hwrite
    have hnil : Stop [] := by
      intro c hc
      cases hc
    have heq := (canonical_inj hnum _ _ [] [] (stripReservedKeys_wf hwf)
      (recordNorm_wf (ofJson_wf value hwf)) hnil hnil
      (by rw [List.append_nil, List.append_nil, hwrite])).1
    rw [heq]
    exact recordNorm_ofJson_plain value
  · intro h blake3
    unfold jsonRecordDigest recordDigest
    rw [writeCanonicalRecord_of_plain h]

theorem record_digests_agree_iff_count :
    ((∀ blake3 : List Char → Digest,
      jsonRecordDigest blake3 sampleNumber "1" (.object [("n", .int 5)]) =
        recordDigest blake3 sampleNumber "1" (.ofJson (.object [("n", .int 5)]))) ↔
      PlainJson (stripReservedKeys (.object [("n", .int 5)]))) ∧
    PlainJson (stripReservedKeys (.object [("n", .int 5)])) := by
  have hwf : Json.WF (.object [("n", .int 5)]) :=
    ⟨⟨trivial, trivial⟩, List.pairwise_singleton _ _⟩
  have hsmall : (5 : Int) < 2 ^ 63 := by decide
  exact ⟨record_digests_agree_iff sampleNumber_text hwf "1", hsmall, trivial⟩

/-- `u64::MAX`, the float it becomes and its text, and the integers in decimal. -/
def shortestText : JsonNumber → List Char
  | .float f => if f = F64.ofInt (2 ^ 64) then "1.8446744073709552e19".toList
      else sampleNumber (.float f)
  | n => sampleNumber n

/-- A counter at `u64::MAX` is digested as an integer by the scheduler and as a float by the SSP. -/
theorem record_digests_differ_u64 :
    (Json.object [("n", .int (2 ^ 64 - 1))]).WF ∧
      jsonRecordDigest sampleBlake3 shortestText "1" (.object [("n", .int (2 ^ 64 - 1))]) ≠
        recordDigest sampleBlake3 shortestText "1"
          (.ofJson (.object [("n", .int (2 ^ 64 - 1))])) := by
  refine ⟨⟨⟨trivial, trivial⟩, List.pairwise_singleton _ _⟩, ?_⟩
  decide +kernel

end Sp00ky.Scheduler
