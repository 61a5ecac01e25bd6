/-
  Query plans (`operator/predicate.rs`, `operator/plan.rs`) and the walks over
  them that registration uses: referenced tables, subquery tables, subquery
  projection info and evaluated field references.

  Walks that push into one vector are written as concatenations in the order of
  the pushes; `dedupFirst` is `retain(|x| seen.insert(x))`.
-/
import Sp00ky.Ssp.Eval

namespace Sp00ky.Ssp

/-! ## Predicates -/

/-- The six comparisons shared by the field and the `$param` predicates. -/
inductive CmpOp where
  | eq | neq | gt | gte | lt | lte
deriving DecidableEq, Repr

/-- `Predicate`. `cmp` holds the variants `Eq` to `Lte`, `paramCmp` the variants
    `ParamEq` to `ParamLte`. -/
inductive Predicate where
  | true
  | false
  | cmp (op : CmpOp) (field : Path) (value : Json)
  | prefixed (field : Path) (pre : String)
  | paramCmp (op : CmpOp) (param : String) (value : Json)
  | and (predicates : List Predicate)
  | or (predicates : List Predicate)
deriving Repr

mutual

/-- `Predicate::field_roots`: the head segment of every row field read. -/
def Predicate.fieldRoots : Predicate → List String
  | .cmp _ field _ => field.segments.head?.toList
  | .prefixed field _ => field.segments.head?.toList
  | .and ps => fieldRootsAll ps
  | .or ps => fieldRootsAll ps
  | .true | .false | .paramCmp .. => []

def Predicate.fieldRootsAll : List Predicate → List String
  | [] => []
  | p :: ps => p.fieldRoots ++ fieldRootsAll ps

end

/-! ## Operator plans -/

/-- `JoinCondition`. -/
structure JoinCondition where
  leftField : Path
  rightField : Path
deriving DecidableEq, Repr

/-- `OrderSpec`. -/
structure OrderSpec where
  field : Path
  direction : String
deriving DecidableEq, Repr

/-- `direction.eq_ignore_ascii_case("DESC")`. -/
def OrderSpec.isDesc (o : OrderSpec) : Bool :=
  o.direction.toList.map Char.toLower == ['d', 'e', 's', 'c']

/-- `SubqueryParentKey`: the field of the child that refers to the parent's field. -/
structure SubqueryParentKey where
  childField : String
  parentField : String
deriving DecidableEq, Repr

mutual

/-- `OperatorPlan`. -/
inductive OperatorPlan where
  | scan (table : String)
  | filter (input : OperatorPlan) (predicate : Predicate)
  | join (left right : OperatorPlan) (on : JoinCondition)
  | semiJoin (left right : OperatorPlan) (on : JoinCondition)
  | antiJoin (left right : OperatorPlan) (on : JoinCondition)
  | union (left right : OperatorPlan)
  | distinct (input : OperatorPlan)
  | project (input : OperatorPlan) (projections : List Projection)
  | limit (input : OperatorPlan) (limit start : Nat) (orderBy : Option (List OrderSpec))
deriving Repr

/-- `Projection`. -/
inductive Projection where
  | all
  | field (field : Path) (asName : Option String)
  | subquery (asName : String) (plan : OperatorPlan) (parentKey : Option SubqueryParentKey)
deriving Repr

end

/-- Induction along the operator inputs of a plan, subquery plans left alone. -/
@[elab_as_elim]
theorem OperatorPlan.inputInduction {P : OperatorPlan → Prop} (scan : ∀ table, P (.scan table))
    (filter : ∀ input predicate, P input → P (.filter input predicate))
    (join : ∀ left right on, P left → P right → P (.join left right on))
    (semiJoin : ∀ left right on, P left → P right → P (.semiJoin left right on))
    (antiJoin : ∀ left right on, P left → P right → P (.antiJoin left right on))
    (union : ∀ left right, P left → P right → P (.union left right))
    (distinct : ∀ input, P input → P (.distinct input))
    (project : ∀ input projections, P input → P (.project input projections))
    (limit : ∀ input limit start orderBy, P input → P (.limit input limit start orderBy)) :
    ∀ plan, P plan :=
  @OperatorPlan.rec P (fun _ => True) (fun _ => True) scan filter join semiJoin antiJoin union
    distinct (fun input projections ih _ => project input projections ih) limit trivial
    (fun _ _ => trivial) (fun _ _ _ _ => trivial) trivial fun _ _ _ _ => trivial

/-- `QueryPlan`. -/
structure QueryPlan where
  id : String
  root : OperatorPlan
deriving Repr

/-- Keep the first occurrence of each element. -/
def dedupFirst {α : Type} [DecidableEq α] : List α → List α
  | [] => []
  | a :: l => a :: (dedupFirst l).filter (· ≠ a)

theorem mem_dedupFirst {α : Type} [DecidableEq α] {a : α} {l : List α} :
    a ∈ dedupFirst l ↔ a ∈ l := by
  induction l with
  | nil => simp [dedupFirst]
  | cons b l ih =>
    by_cases h : a = b
    · simp [dedupFirst, h]
    · simp [dedupFirst, h, ih]

mutual

/-- `collect_tables`. -/
def OperatorPlan.collectTables : OperatorPlan → List String
  | .scan table => [table]
  | .filter input _ => input.collectTables
  | .limit input _ _ _ => input.collectTables
  | .distinct input => input.collectTables
  | .project input projections => input.collectTables ++ collectProjectionTables projections
  | .join left right _ => left.collectTables ++ right.collectTables
  | .semiJoin left right _ => left.collectTables ++ right.collectTables
  | .antiJoin left right _ => left.collectTables ++ right.collectTables
  | .union left right => left.collectTables ++ right.collectTables

/-- Tables of the subquery plans of a projection list, as `collect_tables` reaches them. -/
def OperatorPlan.collectProjectionTables : List Projection → List String
  | [] => []
  | .subquery _ plan _ :: ps => plan.collectTables ++ collectProjectionTables ps
  | .all :: ps => collectProjectionTables ps
  | .field _ _ :: ps => collectProjectionTables ps

end

/-- `referenced_tables`. -/
def OperatorPlan.referencedTables (p : OperatorPlan) : List String := dedupFirst p.collectTables

/-- `collect_subquery_tables`. -/
def OperatorPlan.collectSubqueryTables : OperatorPlan → List String
  | .scan _ => []
  | .filter input _ => input.collectSubqueryTables
  | .limit input _ _ _ => input.collectSubqueryTables
  | .distinct input => input.collectSubqueryTables
  | .project input projections =>
    input.collectSubqueryTables ++ collectProjectionTables projections
  | .join left right _ => left.collectSubqueryTables ++ right.collectSubqueryTables
  | .semiJoin left right _ => left.collectSubqueryTables ++ right.collectSubqueryTables
  | .antiJoin left right _ => left.collectSubqueryTables ++ right.collectSubqueryTables
  | .union left right => left.collectSubqueryTables ++ right.collectSubqueryTables

/-- `subquery_tables`. -/
def OperatorPlan.subqueryTables (p : OperatorPlan) : List String :=
  dedupFirst p.collectSubqueryTables

/-- One entry of `subquery_projection_info`. `parentTable` is `none` for a subquery of the
    root pipeline. -/
structure SubqueryInfo where
  asName : String
  table : String
  parentKey : Option SubqueryParentKey
  parentTable : Option String
deriving DecidableEq, Repr

mutual

/-- `collect_subquery_projection_info`. -/
def OperatorPlan.collectSubqueryInfo (parentTable : Option String) :
    OperatorPlan → List SubqueryInfo
  | .scan _ => []
  | .filter input _ => input.collectSubqueryInfo parentTable
  | .limit input _ _ _ => input.collectSubqueryInfo parentTable
  | .distinct input => input.collectSubqueryInfo parentTable
  | .project input projections =>
    input.collectSubqueryInfo parentTable ++ collectProjectionInfo parentTable projections
  | .join left right _ =>
    left.collectSubqueryInfo parentTable ++ right.collectSubqueryInfo parentTable
  | .semiJoin left right _ =>
    left.collectSubqueryInfo parentTable ++ right.collectSubqueryInfo parentTable
  | .antiJoin left right _ =>
    left.collectSubqueryInfo parentTable ++ right.collectSubqueryInfo parentTable
  | .union left right =>
    left.collectSubqueryInfo parentTable ++ right.collectSubqueryInfo parentTable

/-- The entries of one projection list: each subquery, then its nested subqueries with the
    subquery's own first table as parent. -/
def OperatorPlan.collectProjectionInfo (parentTable : Option String) :
    List Projection → List SubqueryInfo
  | [] => []
  | .subquery asName plan parentKey :: ps =>
    (match plan.referencedTables.head? with
      | some table =>
        ⟨asName, table, parentKey, parentTable⟩ :: plan.collectSubqueryInfo (some table)
      | none => [])
      ++ collectProjectionInfo parentTable ps
  | .all :: ps => collectProjectionInfo parentTable ps
  | .field _ _ :: ps => collectProjectionInfo parentTable ps

end

/-- `subquery_projection_info`. -/
def OperatorPlan.subqueryProjectionInfo (p : OperatorPlan) : List SubqueryInfo :=
  p.collectSubqueryInfo none

/-- A field reference of this node's clauses, owned by the first table of `plan`. -/
def ownedRefs (plan : OperatorPlan) (fields : List String) : List (String × String) :=
  match plan.referencedTables.head? with
  | some table => fields.map (table, ·)
  | none => []

/-- The two key fields of a join, each owned by its own side. -/
def joinRefs (left right : OperatorPlan) (on : JoinCondition) :
    List (String × String) :=
  ownedRefs left on.leftField.segments.head?.toList
    ++ ownedRefs right on.rightField.segments.head?.toList

mutual

/-- `collect_evaluated_field_refs`. -/
def OperatorPlan.collectEvaluatedFieldRefs : OperatorPlan → List (String × String)
  | .scan _ => []
  | .filter input predicate =>
    ownedRefs input predicate.fieldRoots ++ input.collectEvaluatedFieldRefs
  | .limit input _ _ orderBy =>
    ownedRefs input ((orderBy.getD []).filterMap (·.field.segments.head?))
      ++ input.collectEvaluatedFieldRefs
  | .distinct input => input.collectEvaluatedFieldRefs
  | .project input projections =>
    input.collectEvaluatedFieldRefs ++ collectProjectionRefs input.referencedTables.head? projections
  | .join left right on => joinRefs left right on
      ++ left.collectEvaluatedFieldRefs ++ right.collectEvaluatedFieldRefs
  | .semiJoin left right on => joinRefs left right on
      ++ left.collectEvaluatedFieldRefs ++ right.collectEvaluatedFieldRefs
  | .antiJoin left right on => joinRefs left right on
      ++ left.collectEvaluatedFieldRefs ++ right.collectEvaluatedFieldRefs
  | .union left right => left.collectEvaluatedFieldRefs ++ right.collectEvaluatedFieldRefs

/-- References of a projection list over an input whose first table is `parentTable`: child
    and parent key of each subquery, then the subquery's own. -/
def OperatorPlan.collectProjectionRefs (parentTable : Option String) :
    List Projection → List (String × String)
  | [] => []
  | .subquery _ plan parentKey :: ps =>
    (match parentKey with
      | some key =>
        (plan.referencedTables.head?.map (·, key.childField)).toList
          ++ (parentTable.map (·, key.parentField)).toList
      | none => [])
      ++ plan.collectEvaluatedFieldRefs ++ collectProjectionRefs parentTable ps
  | .all :: ps => collectProjectionRefs parentTable ps
  | .field _ _ :: ps => collectProjectionRefs parentTable ps

end

/-- `evaluated_field_refs`. -/
def OperatorPlan.evaluatedFieldRefs (p : OperatorPlan) : List (String × String) :=
  dedupFirst p.collectEvaluatedFieldRefs

end Sp00ky.Ssp
