/-
  Views and their subquery records (`circuit/view.rs`, and from
  `circuit/circuit.rs` `compute_current_subquery_set`, `has_precise_subqueries`
  and `diff_subquery_sets`).

  The subquery set is computed beside the operator graph: foreign keys of whole
  collections against the keys in the view's cache, in two passes. Loops over hash
  maps visit keys in the order of a `HashOrder`, which decides who wins when two
  parents claim one child.
-/
import Sp00ky.Ssp.Graph

namespace Sp00ky.Ssp

open Std Lib

/-- Child key to (parent key, alias). -/
abbrev SubqueryCache := ExtTreeMap String (String × String)

/-- `View`. The output format is left out: no step reads it. -/
structure View where
  queryId : String
  plan : QueryPlan
  cache : ZSet
  lastHash : String
  params : Option Sp00kyValue
  referencedTables : List String
  subqueryTables : List String
  contentGeneration : Nat
  subqueryCache : SubqueryCache
  authId : String

namespace View

/-- `View::new`. -/
def new (queryId : String) (plan : QueryPlan) (params : Option Sp00kyValue)
    (referencedTables : List String) (authId : String) : View :=
  ⟨queryId, plan, ∅, "", params, referencedTables, plan.root.subqueryTables, 0, ∅, authId⟩

/-- `View::apply_delta` on the cache: a positive sum becomes 1, anything else is absent. -/
def applyDelta (cache delta : ZSet) : ZSet :=
  foldAlter (fun _ old d => if 0 < old.getD 0 + d then some 1 else none) cache delta

/-- `View::compute_hash`. -/
def computeHash (env : Env) (v : View) : String := env.viewHash v.cache.keys v.contentGeneration

end View

/-! ## Subquery records -/

/-- The rows of a collection in hash order, as (raw id, body). -/
def Collection.rowsIn (ho : HashOrder) (c : Collection) : List (String × Sp00kyValue) :=
  (entriesIn c.rows (ho.visit c.rows.keys)).map fun ir => (ir.1, ir.2.value)

/-- Reverse one-to-one: the parent holds the child's id in `parentField`. -/
def reverseChildren (ho : HashOrder) (store : Store) (cache : ZSet) (info : SubqueryInfo)
    (key : SubqueryParentKey) (c : Collection) (result : SubqueryCache) : SubqueryCache :=
  (ho.visit cache.keys).foldl
    (fun acc parent =>
      match (store.getRowByKey parent).bind (·.get key.parentField) with
      | some (.str child) =>
        if c.rows.contains (rawId child) then
          acc.insert (makeKey info.table (rawId child)) (parent, info.asName)
        else acc
      | _ => acc)
    result

/-- Forward: the child's `childField` names a parent in the cache. -/
def forwardChildren (ho : HashOrder) (cache : ZSet) (info : SubqueryInfo)
    (key : SubqueryParentKey) (c : Collection) (result : SubqueryCache) : SubqueryCache :=
  (c.rowsIn ho).foldl
    (fun acc row =>
      match row.2.get key.childField with
      | some (.str fk) =>
        if cache.contains fk then acc.insert (makeKey info.table row.1) (fk, info.asName) else acc
      | _ => acc)
    result

/-- Pass 1 of `compute_current_subquery_set` for one root-level subquery. -/
def rootSubquery (ho : HashOrder) (store : Store) (cache : ZSet) (result : SubqueryCache)
    (info : SubqueryInfo) : SubqueryCache :=
  match info.parentTable, info.parentKey, store.getCollection info.table with
  | none, some key, some c =>
    if key.childField = "id" then reverseChildren ho store cache info key c result
    else forwardChildren ho cache info key c result
  | _, _, _ => result

/-- The index of pass 2: parent field value to parent key, over parents already in the set. -/
def parentFieldIndex (ho : HashOrder) (parentTable : String) (key : SubqueryParentKey)
    (parents : Collection) (result : SubqueryCache) : ExtTreeMap String String :=
  (parents.rowsIn ho).foldl
    (fun acc row =>
      let full := makeKey parentTable row.1
      if result.contains full then
        match row.2.get key.parentField with
        | some (.str val) => acc.insert val full
        | _ => acc
      else acc)
    ∅

/-- Pass 2 for one nested subquery. -/
def nestedSubquery (ho : HashOrder) (store : Store) (result : SubqueryCache)
    (info : SubqueryInfo) : SubqueryCache :=
  match info.parentTable, info.parentKey with
  | some pt, some key =>
    match store.getCollection info.table, store.getCollection pt with
    | some c, some parents =>
      let index := parentFieldIndex ho pt key parents result
      (c.rowsIn ho).foldl
        (fun acc row =>
          match row.2.get key.childField with
          | some (.str val) =>
            match index[val]? with
            | some parent => acc.insert (makeKey info.table row.1) (parent, info.asName)
            | none => acc
          | _ => acc)
        result
    | _, _ => result
  | _, _ => result

/-- `compute_current_subquery_set`. -/
def computeCurrentSubquerySet (ho : HashOrder) (store : Store) (v : View) : SubqueryCache :=
  let infos := v.plan.root.subqueryProjectionInfo
  infos.foldl (nestedSubquery ho store) (infos.foldl (rootSubquery ho store v.cache) ∅)

/-! ## Published subquery changes -/

/-- `SubqueryOp`. -/
inductive SubqueryOp where
  | add | update | remove
deriving DecidableEq, Repr

/-- `SubqueryDeltaItem`. -/
structure SubqueryDeltaItem where
  id : String
  parentKey : String
  asName : String
  op : SubqueryOp
deriving DecidableEq, Repr

mutual

/-- `correlated` of `has_precise_subqueries`: an equality of the child field with
    `$parent.<parent field>` among the conjuncts. -/
def Predicate.correlated (key : SubqueryParentKey) : Predicate → Bool
  | .cmp .eq field value =>
    field.segments == [key.childField]
      && (value.get "$param").bind Json.asStr == some ("parent." ++ key.parentField)
  | .and ps => correlatedAny key ps
  | _ => Bool.false

def Predicate.correlatedAny (key : SubqueryParentKey) : List Predicate → Bool
  | [] => Bool.false
  | p :: ps => p.correlated key || correlatedAny key ps

end

/-- `child` of `has_precise_subqueries`. -/
def OperatorPlan.preciseChild (key : SubqueryParentKey) : OperatorPlan → Option Bool
  | .scan _ => some false
  | .filter input predicate => (input.preciseChild key).map (· || predicate.correlated key)
  | .limit input _ _ _ => (input.preciseChild key).filter (·)
  | .distinct input => input.preciseChild key
  | .project input projections =>
    if projections.all (fun | .subquery _ _ _ => false | _ => true) then input.preciseChild key
    else none
  | _ => none

/-- `has_precise_subqueries`. -/
def OperatorPlan.hasPreciseSubqueries : OperatorPlan → Bool
  | .scan _ => true
  | .filter input _ => input.hasPreciseSubqueries
  | .limit input _ _ _ => input.hasPreciseSubqueries
  | .distinct input => input.hasPreciseSubqueries
  | .project input projections =>
    input.hasPreciseSubqueries && projections.all fun
      | .subquery _ plan (some key) =>
        (key.childField == "id" || key.parentField == "id") && plan.preciseChild key == some true
      | .subquery _ _ none => false
      | _ => true
  | _ => false

/-- `diff_subquery_sets`. `changed = none` publishes every retained child as updated. -/
def diffSubquerySets (ho : HashOrder) (old new : SubqueryCache) (changed : Option (List String)) :
    List SubqueryDeltaItem :=
  ((entriesIn old (ho.visit old.keys)).filterMap fun e =>
    if new[e.1]? = old[e.1]? then none else some ⟨e.1, e.2.1, e.2.2, .remove⟩) ++
  ((entriesIn new (ho.visit new.keys)).filterMap fun e =>
    let same : Bool := old[e.1]? = new[e.1]?
    if !same || changed.all (·.contains e.1) then
      some ⟨e.1, e.2.1, e.2.2, if same then .update else .add⟩
    else none)

/-- `ViewDelta`. -/
structure ViewDelta where
  queryId : String
  additions : List String
  removals : List String
  updates : List String
  rowCount : Nat
  resultHash : String
  subqueryItems : List SubqueryDeltaItem
  authId : String
  initial : Bool
deriving Repr

end Sp00ky.Ssp
