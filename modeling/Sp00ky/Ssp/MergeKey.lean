/-
  Merge keys (`merge_key.rs`): the identity under which registrations share a graph.

  The key hashes the canonical text of the plan and of every registration parameter
  the plan refers to; with an unresolvable reference it hashes the whole parameter
  value. `blake3` is a parameter. The serialised forms of plans and predicates list
  their fields in key order.
-/
import Sp00ky.Ssp.CanonicalJson
import Sp00ky.Ssp.Filter

namespace Sp00ky.Ssp

open Lib

/-! ## Serialised plans -/

/-- The tag of a field comparison. -/
def CmpOp.tag : CmpOp → String
  | .eq => "eq"
  | .neq => "neq"
  | .gt => "gt"
  | .gte => "gte"
  | .lt => "lt"
  | .lte => "lte"

/-- `Serialize for Path`. -/
def Path.json (p : Path) : Json := .str p.asStr

mutual

/-- `Serialize for Predicate`. -/
def Predicate.json : Predicate → Json
  | .true => .object [("type", .str "true")]
  | .false => .object [("type", .str "false")]
  | .cmp op field value =>
    .object [("field", field.json), ("type", .str op.tag), ("value", value)]
  | .prefixed field pre =>
    .object [("field", field.json), ("prefix", .str pre), ("type", .str "prefix")]
  | .paramCmp op param value =>
    .object [("param", .str param), ("type", .str ("param" ++ op.tag)), ("value", value)]
  | .and ps => .object [("predicates", .array (jsonAll ps)), ("type", .str "and")]
  | .or ps => .object [("predicates", .array (jsonAll ps)), ("type", .str "or")]

def Predicate.jsonAll : List Predicate → List Json
  | [] => []
  | p :: ps => p.json :: jsonAll ps

end

/-- `Serialize for JoinCondition`. -/
def JoinCondition.json (on : JoinCondition) : Json :=
  .object [("left_field", on.leftField.json), ("right_field", on.rightField.json)]

/-- `Serialize for OrderSpec`. -/
def OrderSpec.json (o : OrderSpec) : Json :=
  .object [("direction", .str o.direction), ("field", o.field.json)]

/-- `Serialize for SubqueryParentKey`. -/
def SubqueryParentKey.json (k : SubqueryParentKey) : Json :=
  .object [("child_field", .str k.childField), ("parent_field", .str k.parentField)]

/-- `Serialize for Option`. -/
def optionJson {α : Type} (f : α → Json) : Option α → Json
  | some a => f a
  | none => .null

mutual

/-- `Serialize for OperatorPlan`. -/
def OperatorPlan.json : OperatorPlan → Json
  | .scan table => .object [("op", .str "scan"), ("table", .str table)]
  | .filter input predicate =>
    .object [("input", input.json), ("op", .str "filter"), ("predicate", predicate.json)]
  | .join left right on =>
    .object [("left", left.json), ("on", on.json), ("op", .str "join"), ("right", right.json)]
  | .semiJoin left right on =>
    .object [("left", left.json), ("on", on.json), ("op", .str "semijoin"), ("right", right.json)]
  | .antiJoin left right on =>
    .object [("left", left.json), ("on", on.json), ("op", .str "antijoin"), ("right", right.json)]
  | .union left right =>
    .object [("left", left.json), ("op", .str "union"), ("right", right.json)]
  | .distinct input => .object [("input", input.json), ("op", .str "distinct")]
  | .project input projections =>
    .object [("input", input.json), ("op", .str "project"),
      ("projections", .array (Projection.jsonAll projections))]
  | .limit input lim start orderBy =>
    .object [("input", input.json), ("limit", .int lim), ("op", .str "limit"),
      ("order_by", optionJson (fun os => .array (os.map OrderSpec.json)) orderBy),
      ("start", .int start)]

/-- `Serialize for Projection`. -/
def Projection.json : Projection → Json
  | .all => .object [("type", .str "all")]
  | .field field asName =>
    .object [("alias", optionJson .str asName), ("field", field.json), ("type", .str "field")]
  | .subquery asName plan parentKey =>
    .object [("alias", .str asName), ("parent_key", optionJson SubqueryParentKey.json parentKey),
      ("plan", plan.json), ("type", .str "subquery")]

def Projection.jsonAll : List Projection → List Json
  | [] => []
  | p :: ps => p.json :: Projection.jsonAll ps

end

/-! ## Collecting references -/

/-- `push_path`. -/
def pushPath (out : List String) (path : String) : List String :=
  if "parent.".toList.isPrefixOf path.toList || path.isEmpty then out
  else insertBy compare path out

/-- `push_value_ref`. -/
def pushValueRef (out : List String) (value : Json) : List String :=
  match (value.get "$param").bind Json.asStr with
  | some p => pushPath out p
  | none => out

mutual

/-- `walk_predicate`. -/
def walkPredicate (out : List String) : Predicate → List String
  | .cmp _ _ value => pushValueRef out value
  | .paramCmp _ param value => pushValueRef (pushPath out param) value
  | .and ps => walkPredicates out ps
  | .or ps => walkPredicates out ps
  | .prefixed _ _ => out
  | .true => out
  | .false => out

def walkPredicates (out : List String) : List Predicate → List String
  | [] => out
  | p :: ps => walkPredicates (walkPredicate out p) ps

end

mutual

/-- `walk_plan`. -/
def walkPlan (out : List String) : OperatorPlan → List String
  | .scan _ => out
  | .filter input predicate => walkPlan (walkPredicate out predicate) input
  | .join left right _ => walkPlan (walkPlan out left) right
  | .semiJoin left right _ => walkPlan (walkPlan out left) right
  | .antiJoin left right _ => walkPlan (walkPlan out left) right
  | .union left right => walkPlan (walkPlan out left) right
  | .distinct input => walkPlan out input
  | .limit input _ _ _ => walkPlan out input
  | .project input projections => walkProjections (walkPlan out input) projections

def walkProjections (out : List String) : List Projection → List String
  | [] => out
  | .subquery _ plan _ :: ps => walkProjections (walkPlan out plan) ps
  | .all :: ps => walkProjections out ps
  | .field _ _ :: ps => walkProjections out ps

end

/-- `collect_param_refs`: an ordered set of paths. -/
def collectParamRefs (plan : OperatorPlan) : List String := walkPlan [] plan

/-! ## The key -/

/-- A value below an object path. -/
def Json.at (j : Json) : List String → Option Json
  | [] => some j
  | seg :: rest =>
    match j.get seg with
    | some v => v.at rest
    | none => none

/-- `str::split('.')`. -/
def pathSegments (path : String) : List String := (splitDots path.toList).map String.ofList

/-- `merge_key::resolve`. -/
def resolveRef (params : Option Json) (path : String) : Option Json :=
  params.bind fun p => p.at (pathSegments path)

/-- One bound reference. -/
def bindText (num : JsonNumber → List Char) (params : Option Json) (path : String) : List Char :=
  match resolveRef params path with
  | some v => Char.ofNat 0 :: "bind:".toList ++ path.toList ++ '=' :: v.canonical num
  | none => []

/-- The text of `merge_key::compute` before hashing. -/
def mergeText (num : JsonNumber → List Char) (plan : OperatorPlan) (params : Option Json) :
    List Char :=
  let refs := collectParamRefs plan
  "plan:".toList ++ plan.json.canonical num ++ refs.flatMap (bindText num params)
    ++ if refs.any (fun path => (resolveRef params path).isNone) then
        Char.ofNat 0 :: "fallback:".toList ++ (params.getD .null).canonical num
      else []

/-- `merge_key::compute`. -/
def mergeKey (blake3 : List Char → String) (num : JsonNumber → List Char) (plan : OperatorPlan)
    (params : Option Json) : String :=
  "mk1:" ++ blake3 (mergeText num plan params)

end Sp00ky.Ssp
