/-
  Index planning (`IndexChoice` of `circuit/index.rs`).

  A filter chain is split into equalities on body fields, predicates that read no
  row, the record key, and the rest. `window` reads a whole `LIMIT` off an index;
  `scan` starts a filter chain from one record, one index range, or one range per
  branch of an `OR`.
-/
import Sp00ky.Ssp.Graph

namespace Sp00ky.Ssp

open Std Lib

/-- `IndexChoice`. -/
structure IndexChoice where
  defs : ExtTreeMap String (List IndexDef)
  params : Option Sp00kyValue

/-- `Conjuncts`. -/
structure Conjuncts where
  eqs : List (String × Json) := []
  gates : List Predicate := []
  id : Option Json := none
  ors : List (List Predicate) := []
  residual : Bool := false

namespace IndexChoice

/-- `IndexChoice::resolve`. -/
def resolve (ic : IndexChoice) (operand : Json) : Option Sp00kyValue :=
  resolvePredicateValue operand ic.params

/-- `IndexChoice::orderable`. -/
def orderable (ic : IndexChoice) (operand : Json) : Bool :=
  match ic.resolve operand with
  | some v => isOrderable (some v)
  | none => false

/-- `IndexChoice::same_operand`. -/
def sameOperand (ic : IndexChoice) (a b : Json) : Bool :=
  match ic.resolve a, ic.resolve b with
  | some x, some y => compareValues (some x) (some y) == .eq
  | _, _ => false

mutual

/-- `IndexChoice::split`. -/
def split (ic : IndexChoice) (out : Conjuncts) : Predicate → Conjuncts
  | .true => out
  | .and ps => splitAll ic out ps
  | .cmp op field value =>
    if op = .eq ∧ field.segments = ["id"] then
      { out with id := out.id <|> some value, residual := true }
    else if op = .eq ∧ field.segments.head?.any (· != "id") ∧ ic.orderable value then
      { out with eqs := out.eqs ++ [(field.asStr, value)] }
    else if field.segments.isEmpty then
      { out with gates := out.gates ++ [.cmp op field value] }
    else { out with residual := true }
  | .or ps =>
    if (Predicate.fieldRootsAll ps).isEmpty then { out with gates := out.gates ++ [.or ps] }
    else { out with ors := out.ors ++ [ps], residual := true }
  | .prefixed field pre =>
    if field.segments.isEmpty then { out with gates := out.gates ++ [.prefixed field pre] }
    else { out with residual := true }
  | .paramCmp op param value => { out with gates := out.gates ++ [.paramCmp op param value] }
  | .false => { out with gates := out.gates ++ [.false] }

def splitAll (ic : IndexChoice) (out : Conjuncts) : List Predicate → Conjuncts
  | [] => out
  | p :: ps => splitAll ic (split ic out p) ps

end

/-- Whether some field is held equal to two operands that differ. -/
def conflicting (ic : IndexChoice) : List (String × Json) → Bool
  | [] => false
  | (f, v) :: rest => rest.any (fun e => e.1 == f && !ic.sameOperand v e.2) || conflicting ic rest

/-- Keep the first equality of each field. -/
def firstPerField : List (String × Json) → List (String × Json)
  | [] => []
  | e :: rest => e :: (firstPerField rest).filter (·.1 != e.1)

/-- `IndexChoice::conjuncts`. -/
def conjuncts (ic : IndexChoice) (predicates : List Predicate) : Option Conjuncts :=
  let out := splitAll ic {} predicates
  if conflicting ic out.eqs then none else some { out with eqs := firstPerField out.eqs }

/-- `IndexChoice::candidates`: the table's indexes without `id`, in a fixed order. -/
def candidates (ic : IndexChoice) (table : String) : List IndexDef :=
  sortBy IndexDef.cmp ((ic.defs[table]?.getD []).filter fun d => !d.fields.contains "id")

/-- `IndexChoice::binding`. Every prefix field is held equal, so the operand is found. -/
def binding (table : String) (d : IndexDef) (eqs : List (String × Json)) (gates : List Predicate)
    (prefixLen : Nat) : IndexBinding :=
  ⟨table, d, (d.fields.take prefixLen).map fun f => (eqs.lookup f).getD .null, gates⟩

/-- The `ORDER BY` a window compares with an index: a trailing `id ASC` is dropped. -/
def windowOrder (orderBy : Option (List OrderSpec)) : List (String × Bool) :=
  let order := (orderBy.getD []).map fun o => (o.field.asStr, o.isDesc)
  match order.getLast? with
  | some ("id", false) => order.dropLast
  | _ => order

/-- `IndexPlanner::window` for `IndexChoice`. -/
def window (ic : IndexChoice) (table : String) (predicates : List Predicate)
    (orderBy : Option (List OrderSpec)) (limit start : Nat) : Option Operator :=
  match ic.conjuncts predicates with
  | none => none
  | some conj =>
    if conj.residual then none
    else
      let order := windowOrder orderBy
      if order.any (fun o => o.1 == "id" || conj.eqs.any (·.1 == o.1)) then none
      else
        let k := conj.eqs.length
        let found := (ic.candidates table).find? fun d =>
          d.fields.length == k + order.length
            && (d.fields.take k).all (fun f => conj.eqs.any (·.1 == f))
            && d.fields.drop k == order.map Prod.fst
        found.map fun d =>
          .indexWindow (IndexWindow.new (binding table d conj.eqs conj.gates k) limit start
            (order.map Prod.snd))

/-- The order `best_prefix` maximises by: prefix length, then leading with a local field, then
    the smaller definition. -/
def prefixCmp (a b : IndexDef × Nat × Bool) : Ordering :=
  (compare a.2.1 b.2.1).then ((compare a.2.2 b.2.2).then (IndexDef.cmp b.1 a.1))

/-- `Iterator::max_by`: the last of the largest. -/
def maxBy {α : Type} (cmp : α → α → Ordering) : List α → Option α
  | [] => none
  | a :: l => some (l.foldl (fun best x => if cmp best x = .gt then best else x) a)

/-- `IndexChoice::best_prefix`. -/
def bestPrefix (ic : IndexChoice) (table : String) (eqs : List (String × Json))
    (loc : List String) : Option (IndexDef × Nat × Bool) :=
  maxBy prefixCmp <|
    ((ic.candidates table).map fun d =>
      (d, (d.fields.takeWhile fun f => eqs.any (·.1 == f)).length,
        d.fields.head?.any loc.contains)).filter fun x => 0 < x.2.1

/-- One branch of `IndexChoice::union`: its own equalities, then the conjunction's. -/
def unionBranch (ic : IndexChoice) (table : String) (outer : List (String × Json))
    (single : Option (IndexDef × Nat)) (branch : Predicate) : Option IndexBinding :=
  match ic.conjuncts [branch] with
  | none => none
  | some conj =>
    if conj.id.isSome then none
    else
      let loc := conj.eqs.map Prod.fst
      let eqs := outer.foldl
        (fun acc e => if acc.any (·.1 == e.1) then acc else acc ++ [e]) conj.eqs
      match ic.bestPrefix table eqs loc with
      | none => none
      | some (d, k, leadsLocal) =>
        let narrower := single.all fun h => decide (h.2 ≤ k) && d != h.1
        if leadsLocal && narrower then some (binding table d eqs [] k) else none

/-- `IndexChoice::union`. -/
def union (ic : IndexChoice) (table : String) (outer : List (String × Json))
    (branches : List Predicate) (single : Option (IndexDef × Nat)) : Option (List IndexBinding) :=
  match branches.mapM (ic.unionBranch table outer single) with
  | none => none
  | some bindings => if bindings.isEmpty then none else some bindings

/-- `IndexPlanner::scan` for `IndexChoice`. -/
def scan (ic : IndexChoice) (table : String) (predicates : List Predicate) : Option Operator :=
  match ic.conjuncts predicates with
  | none => none
  | some conj =>
    match conj.id with
    | some key => some (.keyScan table key)
    | none =>
      let single := ic.bestPrefix table conj.eqs []
      match conj.ors.findSome? fun branches =>
          ic.union table conj.eqs branches (single.map fun s => (s.1, s.2.1)) with
      | some bindings => some (.indexedScan bindings)
      | none =>
        single.map fun s => .indexedScan [binding table s.1 conj.eqs [] s.2.1]

/-- `IndexChoice` as a planner. -/
def planner (ic : IndexChoice) : IndexPlanner := ⟨ic.window, ic.scan⟩

end IndexChoice

/-- How a circuit chooses a planner from its index definitions and a view's params. -/
abbrev Planning := ExtTreeMap String (List IndexDef) → Option Sp00kyValue → IndexPlanner

/-- `Circuit::build_graph`'s choice. -/
def indexPlanning : Planning := fun defs params => IndexChoice.planner ⟨defs, params⟩

/-- Every plan as written. -/
def asWritten : Planning := fun _ _ => noIndexes

end Sp00ky.Ssp
