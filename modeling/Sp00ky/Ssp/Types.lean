/-
  Record keys, field paths and record values of the SSP crate
  (`types/key.rs`, `types/path.rs`, `types/value.rs`).

  A Z-set key is `table:raw_id`. `rawId` drops everything up to the first `:`,
  so a key whose table is colon-free splits back into its two parts
  (`parseKey_join`). `f64` is a bit pattern: comparison goes through two
  integer images of the bits, `totalKey` for `f64::total_cmp` and `numKey` for
  `f64::partial_cmp`.

  Rust's `HashMap<String, Sp00kyValue>` in an object is an association list in
  insertion order with unique keys; only lookups, inserts, removals and retains
  reach it, and those do not depend on the order.
-/
import Mathlib.Data.List.TakeWhile
import Mathlib.Algebra.Order.Ring.Int
import Std.Data.ExtTreeMap
import Std.Data.ExtTreeSet

namespace Sp00ky.Ssp

/-! ## Keys -/

/-- `str::split_once(':')`. -/
def splitOnce (s : String) : Option (String × String) :=
  match s.toList.dropWhile (· != ':') with
  | [] => none
  | _ :: rest => some (String.ofList (s.toList.takeWhile (· != ':')), String.ofList rest)

/-- `raw_id`: the id without its first colon-separated prefix. -/
def rawId (id : String) : String :=
  match splitOnce id with
  | some (_, rest) => rest
  | none => id

/-- `make_key`: the Z-set key of record `id` in `table`. -/
def makeKey (table id : String) : String := table ++ ":" ++ rawId id

/-- `parse_key`: a Z-set key as (table, id). -/
def parseKey (key : String) : Option (String × String) := splitOnce key

/-- A name without a colon: what every table name is. -/
def ColonFree (s : String) : Prop := ':' ∉ s.toList

instance (s : String) : Decidable (ColonFree s) := inferInstanceAs (Decidable (_ ∉ _))

theorem splitOnce_join {t : String} (ht : ColonFree t) (id : String) :
    splitOnce (t ++ ":" ++ id) = some (t, id) := by
  have hall : ∀ c ∈ t.toList, (c != ':') = true := by
    intro c hc
    simp only [bne_iff_ne, ne_eq]
    rintro rfl
    exact ht hc
  have hl : (t ++ ":" ++ id).toList = t.toList ++ ':' :: id.toList := by
    simp [String.toList_append]
  unfold splitOnce
  rw [hl, List.dropWhile_append_of_pos hall, List.takeWhile_append_of_pos hall]
  simp

theorem rawId_join {t : String} (ht : ColonFree t) (id : String) : rawId (t ++ ":" ++ id) = id := by
  simp [rawId, splitOnce_join ht]

theorem parseKey_join {t : String} (ht : ColonFree t) (id : String) :
    parseKey (t ++ ":" ++ id) = some (t, id) := splitOnce_join ht id

/-- A key is what it is parsed into. -/
theorem parseKey_eq_some {key t id : String} (h : parseKey key = some (t, id)) :
    key = t ++ ":" ++ id := by
  unfold parseKey splitOnce at h
  have hsplit := List.takeWhile_append_dropWhile (p := (· != ':')) (l := key.toList)
  cases hd : key.toList.dropWhile (· != ':') with
  | nil =>
    rw [hd] at h
    cases h
  | cons c rest =>
    have hc : c = ':' := by
      have := List.head?_dropWhile_not (· != ':') key.toList
      rw [hd] at this
      simpa using this
    rw [hd, hc] at hsplit
    rw [hd] at h
    obtain ⟨rfl, rfl⟩ : String.ofList (key.toList.takeWhile (· != ':')) = t ∧
      String.ofList rest = id := by simpa using h
    refine String.toList_inj.mp ?_
    rw [String.toList_append, String.toList_append, String.toList_ofList, String.toList_ofList]
    exact hsplit.symm.trans (by simp)

theorem ColonFree.ne_join {i : String} (h : ColonFree i) (t x : String) : i ≠ t ++ ":" ++ x := by
  rintro rfl
  exact h (by simp [String.toList_append])

theorem join_injective {t : String} {i j : String} (h : t ++ ":" ++ i = t ++ ":" ++ j) : i = j := by
  have := congrArg String.toList h
  simpa [String.toList_append, String.toList_inj] using this

/-- Keys of two colon-free tables agree only when table and id do. -/
theorem join_eq_join {t u : String} (ht : ColonFree t) (hu : ColonFree u) {i j : String}
    (h : t ++ ":" ++ i = u ++ ":" ++ j) : t = u ∧ i = j := by
  have := splitOnce_join ht i
  rw [h, splitOnce_join hu] at this
  simpa [eq_comm] using this

/-! ## Paths -/

/-- `str::split('.')`, as character lists: always at least one piece. -/
def splitDots : List Char → List (List Char)
  | [] => [[]]
  | c :: cs =>
    if c = '.' then [] :: splitDots cs
    else
      match splitDots cs with
      | [] => [[c]]
      | seg :: segs => (c :: seg) :: segs

/-- A dot-separated field path. -/
structure Path where
  segments : List String
deriving DecidableEq, Repr

/-- `Path::new`. -/
def Path.new (s : String) : Path :=
  if s.isEmpty then ⟨[]⟩ else ⟨(splitDots s.toList).map String.ofList⟩

/-- `Path::as_str`. -/
def Path.asStr (p : Path) : String := String.intercalate "." p.segments

/-! ## Floats by bit pattern -/

/-- An `f64`, held as its bits. -/
structure F64 where
  bits : BitVec 64
deriving DecidableEq, Repr

namespace F64

/-- The bits below the sign bit. -/
def magnitude (f : F64) : Nat := f.bits.toNat % 2 ^ 63

def isNegative (f : F64) : Bool := 2 ^ 63 ≤ f.bits.toNat

/-- Bits of positive infinity: larger magnitudes are NaN. -/
def infMagnitude : Nat := 0x7FF0000000000000

def isNan (f : F64) : Bool := infMagnitude < f.magnitude

def isFinite (f : F64) : Bool := f.magnitude < infMagnitude

/-- Integer image ordered like `f64::total_cmp`: negative patterns run backwards
    below the positive ones, and `-0.0` sits just below `0.0`. -/
def totalKey (f : F64) : Int :=
  if f.isNegative then -(f.magnitude : Int) - 1 else f.magnitude

/-- Integer image ordered like `f64::partial_cmp` away from NaN: the two zeros agree. -/
def numKey (f : F64) : Int :=
  if f.isNegative then -(f.magnitude : Int) else f.magnitude

/-- `f64::total_cmp`. -/
def totalCmp (a b : F64) : Ordering := compare a.totalKey b.totalKey

/-- `f64::partial_cmp`, with `none` when either side is NaN. -/
def partialCmp (a b : F64) : Option Ordering :=
  if a.isNan || b.isNan then none else some (compare a.numKey b.numKey)

/-- Round `m / 2 ^ s` to an integer, halves to even. -/
def roundShift (m s : Nat) : Nat :=
  let q := m / 2 ^ s
  let r := m % 2 ^ s
  if 2 * r < 2 ^ s then q
  else if 2 ^ s < 2 * r then q + 1
  else if q % 2 = 0 then q else q + 1

/-- Magnitude bits of the float nearest to `m > 0`. A significand rounded up to
    `2 ^ 53` carries into the exponent by plain addition. -/
def natMagnitude (m : Nat) : Nat :=
  let e := m.log2
  let significand := if e ≤ 52 then m * 2 ^ (52 - e) else roundShift m (e - 52)
  (e + 1022) * 2 ^ 52 + significand

/-- `i as f64`: round to nearest, ties to even. -/
def ofInt (i : Int) : F64 :=
  if i = 0 then ⟨0⟩
  else if 0 < i then ⟨BitVec.ofNat 64 (natMagnitude i.natAbs)⟩
  else ⟨BitVec.ofNat 64 (2 ^ 63 + natMagnitude i.natAbs)⟩

def zero : F64 := ⟨0⟩

def negZero : F64 := ⟨BitVec.ofNat 64 (2 ^ 63)⟩

end F64

/-! ## Record values -/

/-- `Sp00kyValue`: the content of a record. -/
inductive Sp00kyValue where
  | null
  | bool (b : Bool)
  | int (i : Int)
  | float (f : F64)
  | str (s : String)
  | array (items : List Sp00kyValue)
  | object (fields : List (String × Sp00kyValue))
deriving Repr

/-- Map operations on the fields of an object: `HashMap` lookups, inserts and removals. -/
def fieldsGet (fields : List (String × Sp00kyValue)) (key : String) : Option Sp00kyValue :=
  fields.lookup key

def fieldsRemove (fields : List (String × Sp00kyValue)) (key : String) :
    List (String × Sp00kyValue) :=
  fields.filter (fun kv => kv.1 != key)

def fieldsInsert (fields : List (String × Sp00kyValue)) (key : String) (v : Sp00kyValue) :
    List (String × Sp00kyValue) :=
  fieldsRemove fields key ++ [(key, v)]

/-- `HashMap::extend`: later entries win. -/
def fieldsExtend (base incoming : List (String × Sp00kyValue)) : List (String × Sp00kyValue) :=
  incoming.foldl (fun acc kv => fieldsInsert acc kv.1 kv.2) base

namespace Sp00kyValue

/-- `Sp00kyValue::get`: a field of an object. -/
def get (v : Sp00kyValue) (key : String) : Option Sp00kyValue :=
  match v with
  | object fields => fieldsGet fields key
  | _ => none

/-- `Sp00kyValue::as_str`. -/
def asStr : Sp00kyValue → Option String
  | str s => some s
  | _ => none

/-- `ValueRef::is_record_ref`: a string of the form `table:id`. -/
def isRecordRef : Sp00kyValue → Bool
  | str s => s.toList.contains ':'
  | _ => false

end Sp00kyValue

/-- `serde_json::Value`. A number is an integer of the `i64`/`u64` range or a float. -/
inductive Json where
  | null
  | bool (b : Bool)
  | int (i : Int)
  | float (f : F64)
  | str (s : String)
  | array (items : List Json)
  | object (fields : List (String × Json))
deriving Repr

namespace Json

/-- `Value::get` on an object. -/
def get (j : Json) (key : String) : Option Json :=
  match j with
  | object fields => fields.lookup key
  | _ => none

def asStr : Json → Option String
  | str s => some s
  | _ => none

end Json

mutual

/-- `From<serde_json::Value> for Sp00kyValue`: an integer past `i64::MAX` becomes a float. -/
def Sp00kyValue.ofJson : Json → Sp00kyValue
  | .null => .null
  | .bool b => .bool b
  | .int i => if i < 2 ^ 63 then .int i else .float (F64.ofInt i)
  | .float f => .float f
  | .str s => .str s
  | .array items => .array (ofJsonItems items)
  | .object fields => .object (ofJsonFields fields)

def Sp00kyValue.ofJsonItems : List Json → List Sp00kyValue
  | [] => []
  | j :: js => ofJson j :: ofJsonItems js

def Sp00kyValue.ofJsonFields : List (String × Json) → List (String × Sp00kyValue)
  | [] => []
  | (k, j) :: js => (k, ofJson j) :: ofJsonFields js

end

end Sp00ky.Ssp
