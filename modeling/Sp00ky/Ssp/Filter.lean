/-
  Predicate evaluation (`operator/filter.rs`).

  A predicate is evaluated against a key and the row behind it. The row comes
  from `get_row_by_key_or_deleted`, so a row deleted in the running step is
  still readable; `id` is the key itself and never the body field.
-/
import Sp00ky.Ssp.Store

namespace Sp00ky.Ssp

/-- `strip_prefix("parent.").unwrap_or(path)`. -/
def stripParent (path : String) : String :=
  if "parent.".toList.isPrefixOf path.toList then String.ofList (path.toList.drop 7) else path

/-- `resolve_param_lookup`: a `$param` reference against the registration's params. -/
def resolveParamLookup (param : String) (ctx : Option Sp00kyValue) : Option Sp00kyValue :=
  match ctx with
  | none => none
  | some c => resolveField (some c) (Path.new (stripParent param))

/-- `resolve_predicate_value`: a literal, or the value a `{"$param": …}` object names. -/
def resolvePredicateValue (value : Json) (ctx : Option Sp00kyValue) : Option Sp00kyValue :=
  match value.get "$param" with
  | some p => resolveParamLookup (p.asStr.getD "") ctx
  | none => some (Sp00kyValue.ofJson value)

/-- What a comparison asks of an ordering. -/
def CmpOp.holds : CmpOp → Ordering → Bool
  | .eq, o => o == .eq
  | .neq, o => o != .eq
  | .gt, o => o == .gt
  | .gte, o => o != .lt
  | .lt, o => o == .lt
  | .lte, o => o != .gt

/-- A field comparison: equality and inequality also look at the kinds. -/
def CmpOp.holdsField (op : CmpOp) (actual target : ValueRef) : Bool :=
  let ord := compareValues actual target
  match op with
  | .eq => ord == .eq && sameKind actual target
  | .neq => ord != .eq || !sameKind actual target
  | op => op.holds ord

/-- The value a predicate reads for `field`: the key for `id`, else the row's. -/
def readField (field : Path) (key : String) (row : ValueRef) : ValueRef :=
  if field.segments = ["id"] then some (.str key) else resolveField row field

mutual

/-- `check_predicate_recursive` on the row behind the key. -/
def Predicate.eval (key : String) (row : ValueRef) (ctx : Option Sp00kyValue) : Predicate → Bool
  | .true => Bool.true
  | .false => Bool.false
  | .and ps => evalAll key row ctx ps
  | .or ps => evalAny key row ctx ps
  | .prefixed field pre =>
    match readField field key row with
    | some (.str s) => pre.toList.isPrefixOf s.toList
    | _ => Bool.false
  | .cmp op field value =>
    match resolvePredicateValue value ctx with
    | none => Bool.false
    | some target =>
      match readField field key row with
      | none => Bool.false
      | some actual => op.holdsField (some actual) (some target)
  | .paramCmp op param value =>
    match resolveParamLookup param ctx, resolvePredicateValue value ctx with
    | some left, some right => op.holds (compareValues (some left) (some right))
    | _, _ => Bool.false

def Predicate.evalAll (key : String) (row : ValueRef) (ctx : Option Sp00kyValue) :
    List Predicate → Bool
  | [] => Bool.true
  | p :: ps => p.eval key row ctx && evalAll key row ctx ps

def Predicate.evalAny (key : String) (row : ValueRef) (ctx : Option Sp00kyValue) :
    List Predicate → Bool
  | [] => Bool.false
  | p :: ps => p.eval key row ctx || evalAny key row ctx ps

end

/-- `check_predicate_recursive`. -/
def checkPredicate (pred : Predicate) (key : String) (store : Store) (ctx : Option Sp00kyValue) :
    Bool :=
  pred.eval key (store.getRowByKeyOrDeleted key) ctx

theorem Predicate.evalAll_eq_all (key : String) (row : ValueRef) (ctx : Option Sp00kyValue)
    (ps : List Predicate) : evalAll key row ctx ps = ps.all (·.eval key row ctx) := by
  induction ps with
  | nil => rfl
  | cons p ps ih => rw [evalAll, ih, List.all_cons]

theorem Predicate.evalAny_eq_any (key : String) (row : ValueRef) (ctx : Option Sp00kyValue)
    (ps : List Predicate) : evalAny key row ctx ps = ps.any (·.eval key row ctx) := by
  induction ps with
  | nil => rfl
  | cons p ps ih => rw [evalAny, ih, List.any_cons]

end Sp00ky.Ssp
