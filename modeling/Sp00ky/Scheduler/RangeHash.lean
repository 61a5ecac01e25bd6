/-
  A table's hash by id ranges (`ssp-protocol/src/range_hash.rs`), over the record digests of
  `snapshot_hash.rs`.

  Range `i` holds the string keys from `starts[i]` up to the next start, with the XOR of
  their digests and their number. `Holds` says that the ranges below a limit agree with a
  table and that those above it are still empty; a change that is folded in keeps it
  (`Holds.fold`), and reading the next window moves the limit (`Holds.scan`).
-/
import Sp00ky.Lib.Tally
import Sp00ky.Ssp.RecordDigest

namespace Sp00ky.Scheduler

open Std Lib Ssp

/-! ## Record digests -/

/-- A digest, or the XOR of some. -/
abbrev Digest := BitVec 256

/-- `Value::is_null`. -/
def jsonIsNull : Json → Bool
  | .null => true
  | _ => false

/-- `strip_reserved_keys`. -/
def stripReservedKeys : Json → Json
  | .object fields => .object <|
      (fields.filter fun kv => !isReservedKey kv.1 && !jsonIsNull kv.2).map fun kv =>
        match kv.1 == "id", kv.2 with
        | true, .str s => (kv.1, .str (normalizeRecordId s))
        | _, _ => kv
  | other => other

/-- `record_digest`. -/
def jsonRecordDigest (blake3 : List Char → Digest) (num : JsonNumber → List Char) (rawId : String)
    (value : Json) : Digest :=
  blake3 (rawId.toList ++ Char.ofNat 0 :: (stripReservedKeys value).canonical num)

/-! ## Ranges -/

/-- What stands between two characters, if they are the outer ones. -/
def between (first last : Char) (s : String) : Option String :=
  match s.toList with
  | c :: cs => if c = first ∧ cs.getLast? = some last then some (String.ofList cs.dropLast) else none
  | [] => none

/-- `string_key`. -/
def stringKey (raw : String) : Option String :=
  let inner := between backtick backtick raw <|> between openAngle closeAngle raw
  let key := inner.getD raw
  let chars := key.toList
  let plain := !chars.isEmpty && chars.all fun c => c.isAlphanum || c == '_' || c == '-'
  let digits := if chars.head? = some '-' then chars.tail else chars
  let numeric := inner.isNone && !digits.isEmpty && digits.all Char.isDigit
  if plain && !numeric then some key else none

/-- `RangeHashes`. -/
structure RangeHashes where
  starts : List String
  accs : List Digest
  counts : List Nat
  starts_pos : 0 < starts.length
  accs_length : accs.length = starts.length
  counts_length : counts.length = starts.length

namespace RangeHashes

/-- `RangeHashes::with_starts`. -/
def withStarts (starts : List String) : Option RangeHashes :=
  let bounds := starts.tail
  let ordered := (("" :: bounds).zip bounds).all fun w => decide (w.1 < w.2)
  let keys := bounds.all fun s => stringKey s == some s
  if ordered && keys then
    some
      { starts := "" :: bounds
        accs := List.replicate (bounds.length + 1) 0
        counts := List.replicate (bounds.length + 1) 0
        starts_pos := Nat.succ_pos _
        accs_length := List.length_replicate
        counts_length := List.length_replicate }
  else none

/-- `MAX_RANGES`. -/
def maxRanges : Nat := 1024

/-- `RangeHashes::from_boundaries`. -/
def fromBoundaries (keys : List String) : Option RangeHashes :=
  let step := max 1 ((keys.length + maxRanges - 1) / maxRanges)
  withStarts ((keys.zipIdx.filter fun ki => ki.2 % step = 0).map Prod.fst)

/-- `RangeHashes::len`. -/
def len (r : RangeHashes) : Nat := r.starts.length

/-- `RangeHashes::range_of_key`. -/
def rangeOfKey (r : RangeHashes) (key : String) : Nat :=
  (r.starts.takeWhile fun s => decide (s ≤ key)).length - 1

/-- `RangeHashes::range_of`. -/
def rangeOf (r : RangeHashes) (rawId : String) : Option Nat := (stringKey rawId).map r.rangeOfKey

/-- `RangeHashes::add_at`. -/
def addAt (r : RangeHashes) (i : Nat) (digest : Digest) : RangeHashes :=
  { r with
    accs := r.accs.modify i (· ^^^ digest)
    counts := r.counts.modify i (· + 1)
    accs_length := by rw [List.length_modify, r.accs_length]
    counts_length := by rw [List.length_modify, r.counts_length] }

/-- `RangeHashes::remove_at`. -/
def removeAt (r : RangeHashes) (i : Nat) (digest : Digest) : RangeHashes :=
  { r with
    accs := r.accs.modify i (· ^^^ digest)
    counts := r.counts.modify i (· - 1)
    accs_length := by rw [List.length_modify, r.accs_length]
    counts_length := by rw [List.length_modify, r.counts_length] }

/-- `RangeHashes::total`. -/
def total (r : RangeHashes) : Digest := r.accs.foldl (· ^^^ ·) 0

/-- One side of `fold_into_ranges`, on the ranges below the limit; it fails on an id without a
    range. -/
def foldSide (r : RangeHashes) (limit : Option Nat)
    (fold : RangeHashes → Nat → Digest → RangeHashes) :
    Option (String × Digest) → Option RangeHashes
  | none => some r
  | some (id, digest) => (r.rangeOf id).map fun i => if limit.all (i < ·) then fold r i digest else r

/-- `fold_into_ranges`: a caller drops ranges it fails on. -/
def foldInto (r : RangeHashes) (before after : Option (String × Digest)) (limit : Option Nat) :
    Option RangeHashes :=
  (r.foldSide limit removeAt before).bind fun r => r.foldSide limit addAt after

/-- The rows a window read returned, added up; it fails on a row that belongs elsewhere. -/
def scanInto (r : RangeHashes) (i : Nat) (rows : List (String × Digest)) : Option RangeHashes :=
  rows.foldlM (fun r row => if r.rangeOf row.1 = some i then some (r.addAt i row.2) else none) r

/-- The window whose key-range scan returns a record. Plain string keys are in byte order; `other`
    says where the database puts the rest. -/
def windowOf (other : List String → String → Nat) (r : RangeHashes) (rawId : String) : Nat :=
  match stringKey rawId with
  | some key => r.rangeOfKey key
  | none => min (other r.starts rawId) (r.len - 1)

/-! ## Agreement with a table -/

theorem len_pos (r : RangeHashes) : 0 < r.len := r.starts_pos

theorem rangeOfKey_lt (r : RangeHashes) (key : String) : r.rangeOfKey key < r.len := by
  have hle : (r.starts.takeWhile fun s => decide (s ≤ key)).length ≤ r.starts.length :=
    (List.takeWhile_sublist _).length_le
  have hpos := r.starts_pos
  unfold rangeOfKey len
  omega

theorem rangeOf_lt {r : RangeHashes} {id : String} {i : Nat} (h : r.rangeOf id = some i) :
    i < r.len := by
  obtain ⟨key, -, rfl⟩ := Option.map_eq_some_iff.mp h
  exact r.rangeOfKey_lt key

theorem windowOf_lt (other : List String → String → Nat) (r : RangeHashes) (id : String) :
    r.windowOf other id < r.len := by
  have hpos := r.len_pos
  unfold windowOf
  split
  · exact r.rangeOfKey_lt _
  · omega

theorem windowOf_of_rangeOf (other : List String → String → Nat) {r : RangeHashes} {id : String}
    {i : Nat} (h : r.rangeOf id = some i) : r.windowOf other id = i := by
  obtain ⟨key, hkey, rfl⟩ := Option.map_eq_some_iff.mp h
  unfold windowOf
  rw [hkey]

theorem rangeOf_congr {r r' : RangeHashes} (h : r'.starts = r.starts) (id : String) :
    r'.rangeOf id = r.rangeOf id := by
  unfold rangeOf rangeOfKey
  rw [h]

section Table

variable {β : Type} (d : String → β → Digest)

/-- What a row adds to a range. -/
def accAt (r : RangeHashes) (i : Nat) (id : String) (v : β) : Digest :=
  if r.rangeOf id = some i then d id v else 0

def countAt (r : RangeHashes) (i : Nat) (id : String) (_ : β) : Nat :=
  if r.rangeOf id = some i then 1 else 0

/-- The accumulator of a range, computed from the rows. -/
def accOf (r : RangeHashes) (rows : ExtTreeMap String β) (i : Nat) : Digest :=
  tally (· ^^^ ·) 0 (r.accAt d i) rows

/-- The number of rows of a range. -/
def countOf (r : RangeHashes) (rows : ExtTreeMap String β) (i : Nat) : Nat :=
  tally (· + ·) 0 (r.countAt i) rows

/-- The ranges below the limit agree with the rows; the others are empty. -/
structure Holds (r : RangeHashes) (rows : ExtTreeMap String β) (limit : Nat) : Prop where
  accs : ∀ i < r.len, r.accs[i]? = some (if i < limit then r.accOf d rows i else 0)
  counts : ∀ i < r.len, r.counts[i]? = some (if i < limit then r.countOf rows i else 0)

variable {d}

/-! ## Folding a change in -/

/-- What a side adds to the accumulator of a range. -/
def sideAcc (r : RangeHashes) (limit : Option Nat) (i : Nat) (side : Option (String × Digest)) :
    Digest :=
  (side.map fun s => if r.rangeOf s.1 = some i ∧ limit.all (i < ·) then s.2 else 0).getD 0

/-- What a side adds to the count of a range. -/
def sideCount (r : RangeHashes) (limit : Option Nat) (i : Nat) (side : Option (String × Digest)) :
    Nat :=
  (side.map fun s => if r.rangeOf s.1 = some i ∧ limit.all (i < ·) then 1 else 0).getD 0

variable {r r' : RangeHashes} {limit : Option Nat}

theorem foldSide_some {f : RangeHashes → Nat → Digest → RangeHashes} {c : Nat → Nat → Nat}
    (hzero : ∀ n, c n 0 = n) (hstarts : ∀ r i x, (f r i x).starts = r.starts)
    (haccs : ∀ r i x, (f r i x).accs = r.accs.modify i (· ^^^ x))
    (hcounts : ∀ r i x, (f r i x).counts = r.counts.modify i (c · 1))
    {side : Option (String × Digest)} (h : r.foldSide limit f side = some r') :
    r'.starts = r.starts ∧
      (∀ i, r'.accs[i]? = r.accs[i]?.map (· ^^^ r.sideAcc limit i side)) ∧
      ∀ i, r'.counts[i]? = r.counts[i]?.map (c · (r.sideCount limit i side)) := by
  cases side with
  | none =>
    obtain rfl := Option.some.inj h
    simp [sideAcc, sideCount, hzero]
  | some s =>
    obtain ⟨id, x⟩ := s
    obtain ⟨j, hj, rfl⟩ := Option.map_eq_some_iff.mp h
    simp only [sideAcc, sideCount, hj, Option.map_some, Option.getD_some, Option.some.injEq]
    by_cases hlim : limit.all (j < ·) = true
    · rw [if_pos hlim, hstarts, haccs, hcounts]
      refine ⟨rfl, fun i => ?_, fun i => ?_⟩
      · rw [List.getElem?_modify]
        by_cases hij : j = i
        · subst hij
          simp [hlim]
        · simp [hij]
      · rw [List.getElem?_modify]
        by_cases hij : j = i
        · subst hij
          simp [hlim]
        · simp [hij, hzero]
    · rw [if_neg hlim]
      refine ⟨rfl, fun i => ?_, fun i => ?_⟩
      · have hn : ¬ (j = i ∧ limit.all (i < ·) = true) := fun hc => hlim (hc.1 ▸ hc.2)
        simp [hn]
      · have hn : ¬ (j = i ∧ limit.all (i < ·) = true) := fun hc => hlim (hc.1 ▸ hc.2)
        simp [hn, hzero]

variable {n i : Nat}

/-- The parts of one key in the two totals of a range. -/
theorem sideAcc_row (r : RangeHashes)
    (hlim : limit.all (i < ·) = decide (i < n)) (k : String) (o : Option β) :
    r.sideAcc limit i (o.map fun v => (k, d k v)) =
      if i < n then (o.map (r.accAt d i k)).getD 0 else 0 := by
  unfold sideAcc accAt
  rw [hlim]
  cases o with
  | none => simp
  | some v => by_cases hn : i < n <;> simp [hn]

theorem sideCount_row (r : RangeHashes)
    (hlim : limit.all (i < ·) = decide (i < n)) (k : String) (o : Option β) :
    r.sideCount limit i (o.map fun v => (k, d k v)) =
      if i < n then (o.map (r.countAt i k)).getD 0 else 0 := by
  unfold sideCount countAt
  rw [hlim]
  cases o with
  | none => simp
  | some v => by_cases hn : i < n <;> simp [hn]

variable {rows : ExtTreeMap String β}

/-- A folded change keeps the agreement. -/
theorem Holds.fold (h : r.Holds d rows n)
    (hlim : ∀ i < r.len, limit.all (i < ·) = decide (i < n)) (k : String) (o : Option β)
    (hfold : r.foldInto (rows[k]?.map fun v => (k, d k v)) (o.map fun v => (k, d k v)) limit =
      some r') :
    r'.starts = r.starts ∧ r'.Holds d (put rows k o) n := by
  obtain ⟨r1, h1, h2⟩ := Option.bind_eq_some_iff.mp hfold
  obtain ⟨hs1, ha1, hc1⟩ := foldSide_some (f := removeAt) (c := (· - ·)) Nat.sub_zero (fun _ _ _ => rfl)
    (fun _ _ _ => rfl) (fun _ _ _ => rfl) h1
  obtain ⟨hs2, ha2, hc2⟩ := foldSide_some (f := addAt) (c := (· + ·)) Nat.add_zero (fun _ _ _ => rfl)
    (fun _ _ _ => rfl) (fun _ _ _ => rfl) h2
  have hstarts : r'.starts = r.starts := hs2.trans hs1
  have hlen : r'.len = r.len := by rw [len, len, hstarts]
  have hr1 : ∀ id, r1.rangeOf id = r.rangeOf id := rangeOf_congr hs1
  have hr' : ∀ id, r'.rangeOf id = r.rangeOf id := rangeOf_congr hstarts
  refine ⟨hstarts, fun i hi => ?_, fun i hi => ?_⟩
  · rw [hlen] at hi
    have hside : r1.sideAcc limit i (o.map fun v => (k, d k v)) =
        r.sideAcc limit i (o.map fun v => (k, d k v)) := by
      unfold sideAcc
      simp only [hr1]
    have hacc : r'.accOf d (put rows k o) i = r.accOf d (put rows k o) i := by
      unfold accOf accAt
      simp only [hr']
    rw [ha2, ha1, h.accs i hi, hside, sideAcc_row r (hlim i hi), sideAcc_row r (hlim i hi), hacc]
    by_cases hn : i < n
    · simp only [if_pos hn, accOf, Option.map_some, Option.some.injEq]
      rw [tally_put, tally_split _ _ _ rows k, BitVec.xor_assoc (tally _ _ _ _), BitVec.xor_self,
        BitVec.xor_zero]
    · simp [hn]
  · rw [hlen] at hi
    have hside : r1.sideCount limit i (o.map fun v => (k, d k v)) =
        r.sideCount limit i (o.map fun v => (k, d k v)) := by
      unfold sideCount
      simp only [hr1]
    have hcount : r'.countOf (put rows k o) i = r.countOf (put rows k o) i := by
      unfold countOf countAt
      simp only [hr']
    rw [hc2, hc1, h.counts i hi, hside, sideCount_row r (hlim i hi), sideCount_row r (hlim i hi),
      hcount]
    by_cases hn : i < n
    · simp only [if_pos hn, countOf, Option.map_some, Option.some.injEq]
      rw [tally_put, tally_split _ _ _ rows k, Nat.add_sub_cancel]
    · simp [hn]

/-- A folded change is about a key that has a range. -/
theorem foldInto_ranged {k : String} {o o' : Option β}
    (hfold : r.foldInto (o.map fun v => (k, d k v)) (o'.map fun v => (k, d k v)) limit = some r') :
    o'.isSome → r.rangeOf k ≠ none := by
  intro hsome hnone
  obtain ⟨v, rfl⟩ := Option.isSome_iff_exists.mp hsome
  obtain ⟨r1, h1, h2⟩ := Option.bind_eq_some_iff.mp hfold
  obtain ⟨hs1, -, -⟩ := foldSide_some (f := removeAt) (c := (· - ·)) Nat.sub_zero (fun _ _ _ => rfl)
    (fun _ _ _ => rfl) (fun _ _ _ => rfl) h1
  obtain ⟨i, hi, -⟩ := Option.map_eq_some_iff.mp h2
  rw [rangeOf_congr hs1, hnone] at hi
  cases hi

/-! ## Reading a window -/

theorem scanInto_some {rows : List (String × Digest)} (h : r.scanInto i rows = some r') :
    r'.starts = r.starts ∧ (∀ row ∈ rows, r.rangeOf row.1 = some i) ∧
      (∀ j, r'.accs[j]? = r.accs[j]?.map fun acc =>
        if i = j then acc ^^^ tallyList (· ^^^ ·) 0 Prod.snd rows else acc) ∧
      ∀ j, r'.counts[j]? = r.counts[j]?.map fun n => if i = j then n + rows.length else n := by
  induction rows generalizing r with
  | nil =>
    obtain rfl := Option.some.inj h
    exact ⟨rfl, fun row hrow => (by cases hrow), by simp [tallyList], by simp⟩
  | cons row rows ih =>
    unfold scanInto at h
    rw [List.foldlM_cons] at h
    obtain ⟨r1, h1, h2⟩ := Option.bind_eq_some_iff.mp h
    split at h1
    next hrow =>
      obtain rfl := Option.some.inj h1
      obtain ⟨hs, hmem, ha, hc⟩ := ih h2
      refine ⟨hs, fun row' hrow' => ?_, fun j => ?_, fun j => ?_⟩
      · rcases List.mem_cons.mp hrow' with rfl | hrow'
        · exact hrow
        · exact hmem row' hrow'
      · rw [ha, tallyList_cons]
        simp only [addAt, List.getElem?_modify]
        by_cases hij : i = j
        · simp [hij, BitVec.xor_assoc, Function.comp_def]
        · simp [hij]
      · rw [hc]
        simp only [addAt, List.getElem?_modify, List.length_cons]
        by_cases hij : i = j
        · simp [hij, Function.comp_def, Nat.add_assoc, Nat.add_comm]
        · simp [hij]
    next => cases h1

/-- The rows a scan of window `i` returns. -/
def windowRows (other : List String → String → Nat) (d : String → β → Digest) (r : RangeHashes)
    (rows : ExtTreeMap String β) (i : Nat) : List (String × Digest) :=
  (rows.toList.filter fun kv => r.windowOf other kv.1 == i).map fun kv => (kv.1, d kv.1 kv.2)

/-- Keys without a range are in windows at or above the limit. -/
def Unread (other : List String → String → Nat) (r : RangeHashes) (rows : ExtTreeMap String β)
    (limit : Nat) : Prop :=
  ∀ (id : String) (v : β), rows[id]? = some v → r.rangeOf id = none → limit ≤ r.windowOf other id

/-- In a window whose rows all belong there, the rows are those of the range. -/
theorem windowRows_mem {other : List String → String → Nat}
    (h : ∀ row ∈ r.windowRows other d rows i, r.rangeOf row.1 = some i) {kv : String × β}
    (hkv : kv ∈ rows.toList) : (r.windowOf other kv.1 == i) = decide (r.rangeOf kv.1 = some i) := by
  rw [Bool.eq_iff_iff, beq_iff_eq, decide_eq_true_eq]
  constructor
  · intro hw
    exact h (kv.1, d kv.1 kv.2) (List.mem_map.mpr ⟨kv, List.mem_filter.mpr ⟨hkv, by simpa using hw⟩,
      rfl⟩)
  · exact windowOf_of_rangeOf other

/-- Reading a window moves the limit past it. -/
theorem Holds.scan {other : List String → String → Nat} (h : r.Holds d rows i) (hu : r.Unread other rows i)
    (hscan : r.scanInto i (r.windowRows other d rows i) = some r') :
    r'.starts = r.starts ∧ r'.Holds d rows (i + 1) ∧ r'.Unread other rows (i + 1) := by
  obtain ⟨hs, hmem, ha, hc⟩ := scanInto_some hscan
  have hlen : r'.len = r.len := by rw [len, len, hs]
  have hr' : ∀ id, r'.rangeOf id = r.rangeOf id := rangeOf_congr hs
  have hw' : ∀ id, r'.windowOf other id = r.windowOf other id := fun id => by
    unfold windowOf rangeOfKey
    rw [hlen, hs]
  have hfilter : (rows.toList.filter fun kv => r.windowOf other kv.1 == i) =
      rows.toList.filter fun kv => decide (r.rangeOf kv.1 = some i) :=
    List.filter_congr fun kv hkv => windowRows_mem hmem hkv
  refine ⟨hs, ⟨fun j hj => ?_, fun j hj => ?_⟩, fun id v hv hnone => ?_⟩
  · rw [hlen] at hj
    have hacc : r'.accOf d rows j = r.accOf d rows j := by
      unfold accOf accAt
      simp only [hr']
    rw [ha, h.accs j hj, hacc, Option.map_some]
    by_cases hij : i = j
    · subst hij
      have hsum : tallyList (· ^^^ ·) 0 Prod.snd (r.windowRows other d rows i) =
          r.accOf d rows i := by
        unfold windowRows accOf accAt tally
        rw [hfilter, tallyList_map, tallyList_filter]
        simp only [decide_eq_true_eq]
      rw [if_pos rfl, if_neg (Nat.lt_irrefl _), if_pos (Nat.lt_succ_self _), hsum]
      exact congrArg some BitVec.zero_xor
    · have hlt : j < i + 1 ↔ j < i := by omega
      simp only [if_neg hij, hlt]
  · rw [hlen] at hj
    have hcount : r'.countOf rows j = r.countOf rows j := by
      unfold countOf countAt
      simp only [hr']
    rw [hc, h.counts j hj, hcount, Option.map_some]
    by_cases hij : i = j
    · subst hij
      have hsum : (r.windowRows other d rows i).length = r.countOf rows i := by
        unfold windowRows countOf countAt tally
        rw [hfilter, List.length_map, ← tallyList_one, tallyList_filter]
        simp only [decide_eq_true_eq]
      rw [if_pos rfl, if_neg (Nat.lt_irrefl _), if_pos (Nat.lt_succ_self _), hsum, Nat.zero_add]
    · have hlt : j < i + 1 ↔ j < i := by omega
      simp only [if_neg hij, hlt]
  · rw [hr'] at hnone
    rw [hw']
    have hle := hu id v hv hnone
    have hne : r.windowOf other id ≠ i := by
      intro he
      have hkv : (id, v) ∈ rows.toList := ExtTreeMap.mem_toList_iff_getElem?_eq_some.mpr hv
      have hd := windowRows_mem hmem hkv
      rw [hnone] at hd
      simp [he] at hd
    omega

/-- Ranges that agree with a table add up to its hash. -/
theorem Holds.total (h : r.Holds d rows r.len)
    (hr : ∀ (id : String) (v : β), rows[id]? = some v → r.rangeOf id ≠ none) :
    r.total = tally (· ^^^ ·) 0 d rows := by
  have haccs : r.accs = (List.range r.len).map (r.accOf d rows) := by
    refine List.ext_getElem? fun i => ?_
    by_cases hi : i < r.len
    · rw [h.accs i hi, if_pos hi]
      simp [hi]
    · rw [List.getElem?_eq_none (by rw [r.accs_length]; exact Nat.le_of_not_lt hi)]
      simp [hi]
  have hparts := tallyList_parts (M := Digest) (· ^^^ ·) 0 (fun kv : String × β => d kv.1 kv.2)
    (fun kv => r.rangeOf kv.1) r.len (l := rows.toList) ?_
  · rw [RangeHashes.total, haccs, List.foldl_map]
    exact hparts
  · intro kv hkv
    have hv := ExtTreeMap.mem_toList_iff_getElem?_eq_some.mp hkv
    obtain ⟨j, hj⟩ := Option.ne_none_iff_exists'.mp (hr kv.1 kv.2 hv)
    exact ⟨j, rangeOf_lt hj, hj⟩

end Table

end RangeHashes

end Sp00ky.Scheduler
