/-
  The JSON of a saved circuit (`CircuitState` in `circuit/circuit.rs`, the derived and
  hand-written serde impls of the types below it).

  A `Json` value stands for the text `serde_json` writes and reads. Objects of derived
  structs are read by field name; a hash map is an object whose fields are its entries.
  Plans are written by `OperatorPlan.json`. What a type skips is not written: of a
  collection only the name and the rows, of a row only its body.
-/
import Sp00ky.Ssp.Merge
import Sp00ky.Ssp.PlanJson
import Sp00ky.Ssp.RecordDigest

namespace Sp00ky.Ssp

open Std Lib

/-! ## Containers -/

namespace Json

def asInt : Json → Option Int
  | int i => some i
  | _ => none

/-- `usize` and `u64`. -/
def asNat : Json → Option Nat
  | int i => if 0 ≤ i then some i.toNat else none
  | _ => none

def asBool : Json → Option Bool
  | bool b => some b
  | _ => none

/-- `Deserialize for Vec`. -/
def asList {α : Type} (f : Json → Option α) : Json → Option (List α)
  | array items => items.mapM f
  | _ => none

/-- `Deserialize for HashMap<String, _>`: a later entry of a key wins. -/
def asMap {α : Type} (f : Json → Option α) : Json → Option (ExtTreeMap String α)
  | object fields =>
    (fields.mapM fun kv => (f kv.2).map (kv.1, ·)).map fun kvs =>
      kvs.foldl (fun m kv => m.insert kv.1 kv.2) ∅
  | _ => none

/-- `Deserialize for Option`: null is `None`, also where the value may be null. -/
def asOption {α : Type} (f : Json → Option α) : Json → Option (Option α)
  | null => some none
  | j => (f j).map some

/-- A field of a derived struct. -/
def field {α : Type} (j : Json) (name : String) (f : Json → Option α) : Option α :=
  (j.get name).bind f

/-- A field under `#[serde(default)]`. -/
def fieldOr {α : Type} (j : Json) (name : String) (default : α) (f : Json → Option α) : Option α :=
  match j.get name with
  | some v => f v
  | none => some default

end Json

/-- `Serialize for HashMap<String, _>`. -/
def mapJson {α : Type} (f : α → Json) (m : ExtTreeMap String α) : Json :=
  .object (m.toList.map fun kv => (kv.1, f kv.2))

/-- `Serialize for Vec`. -/
def listJson {α : Type} (f : α → Json) (l : List α) : Json := .array (l.map f)

/-! ## Values -/

mutual

/-- The derived `Serialize for Sp00kyValue`: externally tagged. `serde_json` writes a
    non-finite float as null. -/
def Sp00kyValue.tagged : Sp00kyValue → Json
  | .null => .str "Null"
  | .bool b => .object [("Bool", .bool b)]
  | .int i => .object [("Int", .int i)]
  | .float f => .object [("Float", if f.isFinite then .float f else .null)]
  | .str s => .object [("Str", .str s)]
  | .array items => .object [("Array", .array (taggedItems items))]
  | .object fields => .object [("Object", .object (taggedFields fields))]

def Sp00kyValue.taggedItems : List Sp00kyValue → List Json
  | [] => []
  | v :: vs => v.tagged :: taggedItems vs

def Sp00kyValue.taggedFields : List (String × Sp00kyValue) → List (String × Json)
  | [] => []
  | (k, v) :: fs => (k, v.tagged) :: taggedFields fs

end

mutual

/-- The derived `Deserialize for Sp00kyValue`. A number is read as a float also where it was
    written as an integer; null is no float. -/
def Sp00kyValue.ofTagged : Json → Option Sp00kyValue
  | .str s => if s = "Null" then some .null else none
  | .object [(tag, .bool b)] => if tag = "Bool" then some (.bool b) else none
  | .object [(tag, .int i)] =>
    if tag = "Int" then some (.int i) else if tag = "Float" then some (.float (F64.ofInt i)) else none
  | .object [(tag, .float f)] => if tag = "Float" then some (.float f) else none
  | .object [(tag, .str s)] => if tag = "Str" then some (.str s) else none
  | .object [(tag, .array items)] =>
    if tag = "Array" then (ofTaggedItems items).map .array else none
  | .object [(tag, .object fields)] =>
    if tag = "Object" then (ofTaggedFields fields).map .object else none
  | _ => none

def Sp00kyValue.ofTaggedItems : List Json → Option (List Sp00kyValue)
  | [] => some []
  | j :: js =>
    match ofTagged j, ofTaggedItems js with
    | some v, some vs => some (v :: vs)
    | _, _ => none

def Sp00kyValue.ofTaggedFields : List (String × Json) → Option (List (String × Sp00kyValue))
  | [] => some []
  | (k, j) :: js =>
    match ofTagged j, ofTaggedFields js with
    | some v, some vs => some ((k, v) :: vs)
    | _, _ => none

end

/-! ## The store -/

/-- `Serialize for Collection`: the name, and the rows as `RowTable` writes them. -/
def Collection.json (c : Collection) : Json :=
  .object [("name", .str c.name), ("rows", mapJson (fun r => r.value.tagged) c.rows)]

/-- `Deserialize for Collection`: `RowTable` takes the digests anew. -/
def Collection.ofJson (env : Env) (j : Json) : Option Collection := do
  let name ← j.field "name" Json.asStr
  let rows ← j.field "rows" (Json.asMap Sp00kyValue.ofTagged)
  pure ⟨name, rows.map fun id v => ⟨v, env.digest id v⟩, 0, none, 0⟩

/-- `Serialize for Store`. -/
def Store.json (s : Store) : Json :=
  .object [("collections", mapJson Collection.json s.collections)]

/-- A store of collections that are each under their own name. -/
def Store.ofCollections (m : ExtTreeMap String Collection) : Option Store :=
  if h : ∀ tc ∈ m.toList, tc.2.name = tc.1 then
    some ⟨m, ∅, fun t c hc => h (t, c) (ExtTreeMap.mem_toList_iff_getElem?_eq_some.mpr hc)⟩
  else none

/-- `Deserialize for Store`. -/
def Store.ofJson (env : Env) (j : Json) : Option Store :=
  (j.field "collections" (Json.asMap (Collection.ofJson env))).bind Store.ofCollections

/-! ## Plans -/

/-- `Deserialize for Path`. -/
def Path.ofJson (j : Json) : Option Path := j.asStr.map Path.new

/-- The comparison of a tag. -/
def CmpOp.ofTag (s : String) : Option CmpOp :=
  [CmpOp.eq, .neq, .gt, .gte, .lt, .lte].find? fun op => op.tag == s

theorem Json.get_sizeOf {j v : Json} {key : String} (h : j.get key = some v) :
    sizeOf v < sizeOf j := by
  have hl : ∀ fields : List (String × Json), fields.lookup key = some v →
      sizeOf v < sizeOf fields := by
    intro fields hf
    induction fields with
    | nil => cases hf
    | cons kv fields ih =>
      obtain ⟨k, w⟩ := kv
      rw [List.lookup_cons] at hf
      split at hf
      · cases hf
        simp only [List.cons.sizeOf_spec, Prod.mk.sizeOf_spec]
        omega
      · have := ih hf
        simp only [List.cons.sizeOf_spec, Prod.mk.sizeOf_spec]
        omega
  cases j with
  | object fields =>
    have := hl fields h
    simp only [Json.object.sizeOf_spec]
    omega
  | _ => cases h

/-- The comparison of the variants `ParamEq` to `ParamLte`. -/
def CmpOp.ofParamTag (s : String) : Option CmpOp :=
  [CmpOp.eq, .neq, .gt, .gte, .lt, .lte].find? fun op => "param" ++ op.tag == s

mutual

/-- `Deserialize for Predicate`, by its tag. -/
def Predicate.ofJson (j : Json) : Option Predicate :=
  match j.field "type" Json.asStr with
  | none => none
  | some tag =>
    if tag = "true" then some .true
    else if tag = "false" then some .false
    else if tag = "and" then
      match h : j.get "predicates" with
      | some (.array ps) => (ofJsonAll ps).map .and
      | _ => none
    else if tag = "or" then
      match h : j.get "predicates" with
      | some (.array ps) => (ofJsonAll ps).map .or
      | _ => none
    else if tag = "prefix" then do
      pure (.prefixed (← j.field "field" Path.ofJson) (← j.field "prefix" Json.asStr))
    else
      match CmpOp.ofTag tag, CmpOp.ofParamTag tag with
      | some op, _ => do pure (.cmp op (← j.field "field" Path.ofJson) (← j.get "value"))
      | none, some op => do pure (.paramCmp op (← j.field "param" Json.asStr) (← j.get "value"))
      | none, none => none
termination_by sizeOf j
decreasing_by
  all_goals
    have := Json.get_sizeOf h
    simp only [Json.array.sizeOf_spec] at this
    omega

def Predicate.ofJsonAll (js : List Json) : Option (List Predicate) :=
  match js with
  | [] => some []
  | j :: js =>
    match ofJson j, ofJsonAll js with
    | some p, some ps => some (p :: ps)
    | _, _ => none
termination_by sizeOf js

end

/-- `Deserialize for JoinCondition`. -/
def JoinCondition.ofJson (j : Json) : Option JoinCondition := do
  pure ⟨← j.field "left_field" Path.ofJson, ← j.field "right_field" Path.ofJson⟩

/-- `Deserialize for OrderSpec`. -/
def OrderSpec.ofJson (j : Json) : Option OrderSpec := do
  pure ⟨← j.field "field" Path.ofJson, ← j.field "direction" Json.asStr⟩

/-- `Deserialize for SubqueryParentKey`. -/
def SubqueryParentKey.ofJson (j : Json) : Option SubqueryParentKey := do
  pure ⟨← j.field "child_field" Json.asStr, ← j.field "parent_field" Json.asStr⟩

mutual

/-- `Deserialize for OperatorPlan`, by its tag. -/
def OperatorPlan.ofJson (j : Json) : Option OperatorPlan :=
  match j.field "op" Json.asStr with
  | none => none
  | some tag =>
    if tag = "scan" then (j.field "table" Json.asStr).map .scan
    else if tag = "filter" then
      match h : j.get "input" with
      | some i => do pure (.filter (← OperatorPlan.ofJson i) (← j.field "predicate" Predicate.ofJson))
      | none => none
    else if tag = "join" ∨ tag = "semijoin" ∨ tag = "antijoin" then
      match hl : j.get "left", hr : j.get "right" with
      | some l, some r => do
        let left ← OperatorPlan.ofJson l
        let right ← OperatorPlan.ofJson r
        let on ← j.field "on" JoinCondition.ofJson
        pure (if tag = "join" then .join left right on
          else if tag = "semijoin" then .semiJoin left right on
          else .antiJoin left right on)
      | _, _ => none
    else if tag = "union" then
      match hl : j.get "left", hr : j.get "right" with
      | some l, some r => do pure (.union (← OperatorPlan.ofJson l) (← OperatorPlan.ofJson r))
      | _, _ => none
    else if tag = "distinct" then
      match h : j.get "input" with
      | some i => (OperatorPlan.ofJson i).map .distinct
      | none => none
    else if tag = "project" then
      match hi : j.get "input", hp : j.get "projections" with
      | some i, some (.array ps) => do
        pure (.project (← OperatorPlan.ofJson i) (← Projection.ofJsonAll ps))
      | _, _ => none
    else if tag = "limit" then
      match h : j.get "input" with
      | some i => do
        pure (.limit (← OperatorPlan.ofJson i) (← j.field "limit" Json.asNat) (← j.fieldOr "start" 0 Json.asNat)
          (← j.fieldOr "order_by" none (Json.asOption (Json.asList OrderSpec.ofJson))))
      | none => none
    else none
termination_by sizeOf j
decreasing_by
  all_goals first
    | exact Json.get_sizeOf h
    | exact Json.get_sizeOf hl
    | exact Json.get_sizeOf hr
    | exact Json.get_sizeOf hi
    | exact Nat.lt_trans (by simp only [Json.array.sizeOf_spec]; omega) (Json.get_sizeOf hp)

/-- `Deserialize for Projection`, by its tag; `field` may also be called `name`. -/
def Projection.ofJson (j : Json) : Option Projection :=
  match j.field "type" Json.asStr with
  | none => none
  | some tag =>
    if tag = "all" then some .all
    else if tag = "field" then do
      pure (.field (← ((j.get "field").or (j.get "name")).bind Path.ofJson)
        (← j.fieldOr "alias" none (Json.asOption Json.asStr)))
    else if tag = "subquery" then
      match h : j.get "plan" with
      | some i => do
        pure (.subquery (← j.field "alias" Json.asStr) (← OperatorPlan.ofJson i)
          (← j.fieldOr "parent_key" none (Json.asOption SubqueryParentKey.ofJson)))
      | none => none
    else none
termination_by sizeOf j
decreasing_by exact Json.get_sizeOf h

def Projection.ofJsonAll (js : List Json) : Option (List Projection) :=
  match js with
  | [] => some []
  | j :: js =>
    match Projection.ofJson j, Projection.ofJsonAll js with
    | some p, some ps => some (p :: ps)
    | _, _ => none
termination_by sizeOf js

end

/-- `Serialize for QueryPlan`. -/
def QueryPlan.json (p : QueryPlan) : Json := .object [("id", .str p.id), ("root", p.root.json)]

/-- `Deserialize for QueryPlan`. -/
def QueryPlan.ofJson (j : Json) : Option QueryPlan := do
  pure ⟨← j.field "id" Json.asStr, ← j.field "root" OperatorPlan.ofJson⟩

/-! ## Queries -/

/-- `QueryState`. The output format is left out: no step reads it. -/
structure QueryState where
  plan : QueryPlan
  params : Option Json
  cache : ZSet
  lastHash : String
  contentGeneration : Nat
  subqueryCache : SubqueryCache
  authId : String
  subscribers : List Subscriber
  detached : Bool
  mergeKey : String

/-- `Serialize for Subscriber`. -/
def Subscriber.json (s : Subscriber) : Json :=
  .object [("auth_id", .str s.authId), ("query_id", .str s.queryId)]

/-- `Deserialize for Subscriber`. -/
def Subscriber.ofJson (j : Json) : Option Subscriber := do
  pure ⟨← j.field "query_id" Json.asStr, ← j.field "auth_id" Json.asStr⟩

/-- An entry of the subquery cache: a tuple is an array. -/
def subqueryEntryJson (e : String × String) : Json := .array [.str e.1, .str e.2]

def subqueryEntryOfJson : Json → Option (String × String)
  | .array [.str parent, .str asName] => some (parent, asName)
  | _ => none

/-- `Serialize for QueryStateRef`. -/
def QueryState.json (q : QueryState) : Json :=
  .object
    [("auth_id", .str q.authId),
      ("cache", mapJson Json.int q.cache),
      ("content_generation", .int q.contentGeneration),
      ("detached", .bool q.detached),
      ("last_hash", .str q.lastHash),
      ("merge_key", .str q.mergeKey),
      ("params", optionJson id q.params),
      ("plan", q.plan.json),
      ("subquery_cache", mapJson subqueryEntryJson q.subqueryCache),
      ("subscribers", listJson Subscriber.json q.subscribers)]

/-- `Deserialize for QueryState`. -/
def QueryState.ofJson (j : Json) : Option QueryState := do
  pure
    { plan := ← j.field "plan" QueryPlan.ofJson
      params := ← j.fieldOr "params" none (Json.asOption some)
      cache := ← j.field "cache" (Json.asMap Json.asInt)
      lastHash := ← j.field "last_hash" Json.asStr
      contentGeneration := ← j.field "content_generation" Json.asNat
      subqueryCache := ← j.fieldOr "subquery_cache" ∅ (Json.asMap subqueryEntryOfJson)
      authId := ← j.fieldOr "auth_id" "" Json.asStr
      subscribers := ← j.fieldOr "subscribers" [] (Json.asList Subscriber.ofJson)
      detached := ← j.fieldOr "detached" false Json.asBool
      mergeKey := ← j.fieldOr "merge_key" "" Json.asStr }

/-- `CircuitState`. -/
structure CircuitState where
  store : Store
  queries : List QueryState

/-- `Serialize for CircuitStateRef`. -/
def CircuitState.json (s : CircuitState) : Json :=
  .object [("queries", listJson QueryState.json s.queries), ("store", s.store.json)]

/-- `Deserialize for CircuitState`. -/
def CircuitState.ofJson (env : Env) (j : Json) : Option CircuitState := do
  pure ⟨← j.field "store" (Store.ofJson env), ← j.field "queries" (Json.asList QueryState.ofJson)⟩

end Sp00ky.Ssp
