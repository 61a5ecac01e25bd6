/-
  Reading and comparing values (`eval/value_ref.rs`, `eval/value_ops.rs`).

  A `ValueRef` is an optional value: `none` is `ValueRef::Missing`. The flat
  row encoding behind `ObjRef::Flat` reads back the value it was written from,
  so both back ends are the one `Sp00kyValue` here.

  `DefaultHasher` is a parameter (`Env.hasher`): `hashValue` says which bytes
  are written to it, and nothing is assumed about the 64-bit result.
-/
import Sp00ky.Ssp.Types

namespace Sp00ky.Ssp

/-- `ValueRef`: a borrowed value, `none` for `Missing`. -/
abbrev ValueRef := Option Sp00kyValue

/-- What one `Hash::hash` call feeds the hasher. -/
inductive HashInput where
  | u8 (n : Nat)
  | u64 (n : BitVec 64)
  | str (s : String)
deriving DecidableEq, Repr

/-- Functions of the process that the crate takes from libraries: the hasher behind
    join buckets, the record digest, and the hash of a view's sorted keys. -/
structure Env where
  /-- `DefaultHasher::finish` after one write. -/
  hasher : HashInput → UInt64
  /-- `Sp00kyValue::record_digest_into`: the digest of a value stored under a raw id. -/
  digest : String → Sp00kyValue → BitVec 256
  /-- `View::compute_hash`: sorted keys, then the content generation. -/
  viewHash : List String → Nat → String

/-- Iteration order of a hash map or set: some permutation of its keys. -/
structure HashOrder where
  visit : List String → List String
  perm : ∀ keys, (visit keys).Perm keys

/-- The order that visits keys as sorted. -/
def HashOrder.sorted : HashOrder := ⟨id, fun _ => List.Perm.refl _⟩

/-! ## Paths into values -/

/-- The loop of `resolve_field` over the remaining segments. A string of the form
    `table:id` met before a segment `id` is its own answer. -/
def resolveSegments : Sp00kyValue → List String → ValueRef
  | v, [] => some v
  | v, seg :: rest =>
    if seg == "id" && v.isRecordRef then some v
    else
      match v.get seg with
      | none => none
      | some w => resolveSegments w rest

/-- `resolve_field`. -/
def resolveField (value : ValueRef) (path : Path) : ValueRef :=
  match value with
  | none => none
  | some v => resolveSegments v path.segments

@[simp] theorem resolveField_none (path : Path) : resolveField none path = none := rfl

/-! ## Comparison -/

/-- `ValueRef::rank`: missing below null below everything else. -/
def rank : ValueRef → Nat
  | none => 0
  | some .null => 1
  | some _ => 2

/-- The value comparison of `compare_values` once the ranks agree. A NaN and a pair of
    different kinds compare equal. -/
def compareSameRank : Sp00kyValue → Sp00kyValue → Ordering
  | .int a, .int b => compare a b
  | .float a, .float b => (F64.partialCmp a b).getD .eq
  | .int a, .float b => (F64.partialCmp (F64.ofInt a) b).getD .eq
  | .float a, .int b => (F64.partialCmp a (F64.ofInt b)).getD .eq
  | .str a, .str b => compare a b
  | .bool a, .bool b => compare a b
  | _, _ => .eq

/-- `compare_values`. -/
def compareValues (a b : ValueRef) : Ordering :=
  match compare (rank a) (rank b) with
  | .eq =>
    match a, b with
    | some x, some y => compareSameRank x y
    | _, _ => .eq
  | o => o

/-- `same_kind`: numbers are one kind. -/
def sameKind : ValueRef → ValueRef → Bool
  | none, none => true
  | some .null, some .null => true
  | some (.bool _), some (.bool _) => true
  | some (.int _), some (.int _) => true
  | some (.int _), some (.float _) => true
  | some (.float _), some (.int _) => true
  | some (.float _), some (.float _) => true
  | some (.str _), some (.str _) => true
  | some (.array _), some (.array _) => true
  | some (.object _), some (.object _) => true
  | _, _ => false

/-! ## Hashing -/

/-- The bytes `hash_value` writes. Integers go through `f64`; `Bool` writes one byte, so
    `false` writes what a null writes. -/
def hashInput : ValueRef → HashInput
  | none => .u8 0
  | some .null => .u8 0
  | some (.bool b) => .u8 (if b then 1 else 0)
  | some (.int n) => .u64 (F64.ofInt n).bits
  | some (.float f) => .u64 f.bits
  | some (.str s) => .str s
  | some (.array _) => .u8 2
  | some (.object _) => .u8 3

/-- `hash_value`. -/
def hashValue (env : Env) (v : ValueRef) : UInt64 := env.hasher (hashInput v)

/-! ## A sample environment -/

mutual

/-- A value as a list of numbers, kinds first. -/
def Sp00kyValue.tokens : Sp00kyValue → List Nat
  | .null => [1]
  | .bool b => [2, if b then 1 else 0]
  | .int i => [3, if i < 0 then 1 else 0, i.natAbs]
  | .float f => [4, f.bits.toNat]
  | .str s => 5 :: s.toList.map Char.toNat ++ [0]
  | .array items => 6 :: tokensItems items ++ [0]
  | .object fields => 7 :: tokensFields fields ++ [0]

def Sp00kyValue.tokensItems : List Sp00kyValue → List Nat
  | [] => []
  | v :: vs => v.tokens ++ tokensItems vs

def Sp00kyValue.tokensFields : List (String × Sp00kyValue) → List Nat
  | [] => []
  | (k, v) :: fs => 8 :: k.toList.map Char.toNat ++ 0 :: v.tokens ++ tokensFields fs

end

/-- Fold tokens into one number. -/
def foldTokens (tokens : List Nat) : Nat := tokens.foldl (fun acc n => acc * 1114115 + n + 1) 0

/-- An environment for concrete runs: its digests tell small records apart. -/
def Env.sample : Env where
  hasher
    | .u8 n => UInt64.ofNat n
    | .u64 bits => UInt64.ofNat (bits.toNat * 3 + 7)
    | .str s => UInt64.ofNat (foldTokens (s.toList.map Char.toNat))
  digest id v := BitVec.ofNat 256 (foldTokens (id.toList.map Char.toNat ++ 0 :: v.tokens))
  viewHash keys generation := String.join (keys.map (· ++ ";")) ++ toString generation

end Sp00ky.Ssp
