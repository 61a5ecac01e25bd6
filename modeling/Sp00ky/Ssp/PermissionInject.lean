/-
  Permission injection (`permission_inject.rs`).

  Every scan of a registered plan gets its table's `SELECT` permission: a flat
  permission is and-folded into the filter above the scan, one with a subquery is a
  plan that the view is semi-joined with on `id`. A subquery projection whose plan
  cannot be authorised yields no rows.
-/
import Sp00ky.Ssp.Converter

namespace Sp00ky.Ssp

open Std Lib Lib.Parser

/-- `str::contains`. -/
def hasInfix (needle : List Char) : List Char → Bool
  | [] => needle.isEmpty
  | c :: s => needle.isPrefixOf (c :: s) || hasInfix needle s

/-! ## The session guard -/

/-- `SESSION_GUARD_CALL`. -/
def sessionGuardCall : List Char := "fn::sp00ky::session_live()".toList

/-- A character under `(?i)`: simple case folding also has U+017F for `s`, U+212A for `k`. -/
def foldsTo (pattern c : Char) : Bool :=
  c.toLower == pattern.toLower || (pattern == 's' && c == Char.ofNat 0x17F)
    || (pattern == 'k' && c == Char.ofNat 0x212A)

/-- `\s+`. -/
def spaces1 : Parser (List Char) := takeWhile1 isWhitespace

def guardWord : Parser Unit := tagBy foldsTo sessionGuardCall

def andWord : Parser Unit := tagBy foldsTo "AND".toList

/-- The regular expression of `without_session_guard`. -/
def guardAnd : Parser Unit :=
  alt (do
      let _ ← guardWord
      let _ ← spaces1
      let _ ← andWord
      let _ ← spaces1
      pure ())
    (do
      let _ ← spaces1
      let _ ← andWord
      let _ ← spaces1
      guardWord)

/-- Replace every match, leftmost first; each match is non-empty, so the length bounds the scan. -/
def replaceMatches (p : Parser Unit) (by' : List Char) : Nat → List Char → List Char
  | 0, s => s
  | _ + 1, [] => []
  | fuel + 1, c :: s =>
    match p (c :: s) with
    | .ok rest _ => by' ++ replaceMatches p by' fuel rest
    | _ => c :: replaceMatches p by' fuel s

def replaceAll (p : Parser Unit) (by' s : List Char) : List Char :=
  replaceMatches p by' (s.length + 1) s

/-- `without_session_guard`. -/
def withoutSessionGuard (raw : List Char) : List Char :=
  if hasInfix sessionGuardCall raw then
    replaceAll (tag sessionGuardCall) "true".toList (replaceAll guardAnd [] raw)
  else raw

/-! ## One table's permission -/

/-- `PermInjection`. -/
inductive PermInjection where
  | pred (p : Predicate)
  | plan (p : OperatorPlan)
deriving Repr

/-- Why a registration is refused. -/
inductive InjectError where
  | defaultDeny (table : String)
  | denied (table : String)
  | needsAuth (table : String)
  | unsupported (table snippet : String)
  | parse (table : String)
  | deserialize (table : String)
  | unnamedScan (table : String)
  | nonFlat (table : String)
  | nonFilter (table : String)
deriving DecidableEq, Repr

/-- `eq_ignore_ascii_case`. -/
def eqIgnoreCase (s : List Char) (t : String) : Bool :=
  s.map Char.toLower == t.toList.map Char.toLower

/-- `params_have_auth`. -/
def paramsHaveAuth (params : Option Json) : Bool :=
  match params.bind (·.get "auth") with
  | some .null => false
  | some _ => true
  | none => false

/-- `unsupported_construct`. Beyond ASCII only U+0130 lower-cases into a needle's letter, and
    then with a combining dot that no needle has. -/
def unsupportedConstruct (raw : List Char) : Option String :=
  ["exists (select", "$parent"].find? fun needle =>
    hasInfix needle.toList (raw.map Char.toLower)

/-- `scans_unnamed_table`. -/
def OperatorPlan.scansUnnamedTable : OperatorPlan → Bool
  | .scan table => (trim table.toList).isEmpty
  | .filter input _ => input.scansUnnamedTable
  | .distinct input => input.scansUnnamedTable
  | .project input _ => input.scansUnnamedTable
  | .semiJoin l r _ => l.scansUnnamedTable || r.scansUnnamedTable
  | .union l r => l.scansUnnamedTable || r.scansUnnamedTable
  | _ => false

/-- The query a permission text is parsed in. -/
def syntheticQuery (table : String) (raw : List Char) : List Char :=
  "SELECT * FROM ".toList ++ table.toList ++ " WHERE ".toList ++ raw

/-- The last part of `build_injection`: which plans are accepted. -/
def classifyPermission (table : String) : OperatorPlan → Except InjectError (Option PermInjection)
  | .filter (.scan _) predicate => .ok (some (.pred predicate))
  | .semiJoin l r on => accept (.semiJoin l r on)
  | .union l r => accept (.union l r)
  | .distinct input => accept (.distinct input)
  | .filter _ _ => .error (.nonFlat table)
  | _ => .error (.nonFilter table)
where
  accept (plan : OperatorPlan) : Except InjectError (Option PermInjection) :=
    if plan.scansUnnamedTable then .error (.unnamedScan table) else .ok (some (.plan plan))

/-- A permission text as it is parsed: trimmed, the session guard read as true. -/
def permissionText (text : String) : List Char := trim (withoutSessionGuard (trim text.toList))

/-- `build_injection`. -/
def buildInjection (u : Unicode) (table : String) (perms : ExtTreeMap String String)
    (params : Option Json) (links : LinkMap) : Except InjectError (Option PermInjection) :=
  match perms[table]? with
  | none =>
    if "_00_".toList.isPrefixOf table.toList then .ok none else .error (.defaultDeny table)
  | some text =>
    let raw := permissionText text
    if eqIgnoreCase raw "true" then .ok none
    else if eqIgnoreCase raw "false" then .error (.denied table)
    else if hasInfix "$auth".toList raw && !paramsHaveAuth params then .error (.needsAuth table)
    else
      match unsupportedConstruct raw with
      | some snippet => .error (.unsupported table snippet)
      | none =>
        match convertSurqlToDbspWithLinks u (syntheticQuery table raw) links with
        | none => .error (.parse table)
        | some plan =>
          match plan.decode with
          | none => .error (.deserialize table)
          | some parsed => classifyPermission table parsed

/-! ## Whole plans -/

/-- `push_and_operand`. -/
def andOperands : Predicate → List Predicate
  | .true => []
  | .and ps => all ps
  | p => [p]
where
  all : List Predicate → List Predicate
    | [] => []
    | p :: ps => andOperands p ++ all ps

/-- `and_predicates`. -/
def andPredicates (a b : Predicate) : Predicate :=
  match a, b with
  | .false, _ => .false
  | _, .false => .false
  | a, b =>
    match andOperands a ++ andOperands b with
    | [] => .true
    | [p] => p
    | ps => .and ps

/-- `intersect_with_permission`. -/
def intersectWithPermission (view perm : OperatorPlan) : OperatorPlan :=
  .semiJoin view perm ⟨Path.new "id", Path.new "id"⟩

/-- A plan rewritten in place, and the error the walk stopped at, if any. -/
abbrev InjectResult := OperatorPlan × Option InjectError

section Inject

variable (u : Unicode) (perms : ExtTreeMap String String) (params : Option Json) (links : LinkMap)

/-- The scan of a table, alone or under a filter, with the table's permission. -/
def injectScan (table : String) (view : OperatorPlan) (fold : Predicate → OperatorPlan) :
    InjectResult :=
  match buildInjection u table perms params links with
  | .error e => (view, some e)
  | .ok none => (view, none)
  | .ok (some (.pred p)) => (fold p, none)
  | .ok (some (.plan perm)) => (intersectWithPermission view perm, none)

/-- One input rewritten. -/
def InjectResult.map (f : OperatorPlan → OperatorPlan) (r : InjectResult) : InjectResult :=
  (f r.1, r.2)

/-- Two inputs rewritten, the right one only when the left one went through. -/
def InjectResult.both (f : OperatorPlan → OperatorPlan → OperatorPlan) (r : OperatorPlan)
    (left : InjectResult) (right : InjectResult) : InjectResult :=
  match left.2 with
  | some e => (f left.1 r, some e)
  | none => (f left.1 right.1, right.2)

mutual

/-- `inject_node`. -/
def injectNode : OperatorPlan → InjectResult
  | .scan table => injectScan u perms params links table (.scan table) (.filter (.scan table))
  | .filter (.scan table) predicate =>
    injectScan u perms params links table (.filter (.scan table) predicate)
      fun p => .filter (.scan table) (andPredicates predicate p)
  | .filter input predicate => (injectNode input).map (.filter · predicate)
  | .join l r on => .both (.join · · on) r (injectNode l) (injectNode r)
  | .semiJoin l r on => .both (.semiJoin · · on) r (injectNode l) (injectNode r)
  | .antiJoin l r on => .both (.antiJoin · · on) r (injectNode l) (injectNode r)
  | .union l r => .both .union r (injectNode l) (injectNode r)
  | .project input projections =>
    let i := injectNode input
    match i.2 with
    | some e => (.project i.1 projections, some e)
    | none => (.project i.1 (injectProjections projections), none)
  | .limit input l s o => (injectNode input).map (.limit · l s o)
  | .distinct input => (injectNode input).map .distinct

/-- The subquery projections: one that cannot be authorised is emptied. -/
def injectProjections : List Projection → List Projection
  | [] => []
  | .subquery a plan k :: ps =>
    match injectNode plan with
    | (plan, none) => .subquery a plan k :: injectProjections ps
    | (plan, some _) => .subquery a (.filter plan .false) k :: injectProjections ps
  | .all :: ps => .all :: injectProjections ps
  | .field f n :: ps => .field f n :: injectProjections ps

end

/-- `inject_permissions_with_links`. -/
def injectPermissionsWithLinks (plan : OperatorPlan) : Except InjectError OperatorPlan :=
  match injectNode u perms params links plan with
  | (plan, none) => .ok plan
  | (_, some e) => .error e

end Inject

end Sp00ky.Ssp
