/-
  From SurrealQL text to a plan (`converter.rs`).

  The parser builds JSON nodes that the later passes read back by their `type` and
  `op` tags. `WhereExpr` and `RawPlan` are those nodes: every tag is a constructor,
  and `decode` is `serde_json::from_value` on them, which knows neither a join
  candidate nor an `in_subquery` marker. Character classes beyond ASCII are a
  parameter (`Unicode`).

  The recursive parsers take fuel and run with more than the length of their input;
  every level of nesting consumes a parenthesis.
-/
import Sp00ky.Lib.Nom
import Sp00ky.Ssp.Plan

namespace Sp00ky.Ssp

open Std Lib Lib.Parser

/-! ## Characters -/

/-- `char::is_whitespace`. -/
def isWhitespace (c : Char) : Bool :=
  let n := c.toNat
  (9 ≤ n && n ≤ 13) || n == 32 || n == 0x85 || n == 0xA0 || n == 0x1680
    || (0x2000 ≤ n && n ≤ 0x200A) || n == 0x2028 || n == 0x2029 || n == 0x202F || n == 0x205F
    || n == 0x3000

/-- `char::is_alphanumeric`. -/
structure Unicode where
  alphanumeric : Char → Bool
  ascii : ∀ c : Char, c.toNat < 128 → alphanumeric c = c.isAlphanum
  blank : ∀ c : Char, isWhitespace c = true → alphanumeric c = false

/-- `str::trim_end`. -/
def trimEndBy (f : Char → Bool) (s : List Char) : List Char := (s.reverse.dropWhile f).reverse

/-- `str::trim`. -/
def trim (s : List Char) : List Char := trimEndBy isWhitespace (s.dropWhile isWhitespace)

/-! ## Expressions and plans -/

/-- A parsed `WHERE` expression. -/
inductive WhereExpr where
  | cmp (op : CmpOp) (field : String) (value : Json)
  | prefixed (field pre : String)
  | joinCandidate (left right : String)
  | paramCmp (op : CmpOp) (param : String) (value : Json)
  | inSubquery (left proj table : String) (condition : Option WhereExpr)
  | and (terms : List WhereExpr)
  | or (terms : List WhereExpr)
deriving Repr

mutual

/-- A plan before deserialisation. -/
inductive RawPlan where
  | scan (table : String)
  | filter (input : RawPlan) (predicate : WhereExpr)
  | join (left right : RawPlan) (leftField rightField : String)
  | semiJoin (left right : RawPlan) (leftField rightField : String)
  | union (left right : RawPlan)
  | distinct (input : RawPlan)
  | project (input : RawPlan) (projections : List RawProjection)
  | limit (input : RawPlan) (limit start : Nat) (orderBy : Option (List (String × String)))
deriving Repr

inductive RawProjection where
  | all
  | field (name : String)
  | subquery (asName : String) (plan : RawPlan) (parentKey : Option (String × String))
deriving Repr

end

/-! ## Values -/

/-- What `parse_identifier` goes on with. -/
def Unicode.identChar (u : Unicode) (c : Char) : Bool :=
  u.alphanumeric c || c == '_' || c == ':' || c == '.'

section Parsers

variable (u : Unicode)

/-- `parse_identifier`. -/
def parseIdentifier : Parser String := do
  let head ← alt (takeWhile1 Char.isAlpha) (value ['_'] (tag ['_']))
  let tail ← takeWhile u.identChar
  pure (String.ofList (head ++ tail))

/-- `ParsedValue`. -/
inductive ParsedValue where
  | json (v : Json)
  | identifier (s : String)
  | prefixed (s : String)
deriving Repr

/-- The body of a string literal between two quotes. -/
def quoted (delimiter : Char) : Parser (List Char) :=
  delimited (char delimiter) (takeWhile1 (· != delimiter)) (char delimiter)

/-- `parse_string_literal`: a trailing `*` makes a prefix pattern. -/
def parseStringLiteral : Parser ParsedValue := do
  let s ← alt (quoted '\'') (quoted (Char.ofNat 34))
  if s.getLast? = some '*' then pure (.prefixed (String.ofList (trimEndBy (· == '*') s)))
  else pure (.json (.str (String.ofList s)))

/-- The number a run of digits stands for. -/
def digitsValue (s : List Char) : Nat := s.foldl (fun n c => n * 10 + (c.toNat - 48)) 0

/-- `str::parse` of digits into a type with a largest value. -/
def parseBelow (bound : Nat) (s : List Char) : Option Nat :=
  if digitsValue s < bound then some (digitsValue s) else none

/-- `parse_value_entry`. -/
def parseValueEntry : Parser ParsedValue :=
  altAll [
    parseStringLiteral,
    do
      let s ← preceded (char '$') (parseIdentifier u)
      pure (.json (.object [("$param", .str s)])),
    value (.json (.bool true)) (tagNoCase "true".toList),
    value (.json (.bool false)) (tagNoCase "false".toList),
    mapRes (takeWhile1 Char.isDigit) fun s =>
      (parseBelow (2 ^ 63) s).map fun n : Nat => .json (.int n),
    do
      let s ← parseIdentifier u
      pure (.identifier s)]

/-! ## Comparisons -/

/-- An operator as written. -/
inductive RawOp where
  | cmp (op : CmpOp)
  | contains
  | inside
  | isIn
deriving DecidableEq, Repr

/-- The operators made of symbols, the longer ones first. -/
def symbolOps : List (Parser RawOp) :=
  [value (.cmp .gte) (tag ['>', '=']), value (.cmp .lte) (tag ['<', '=']),
    value (.cmp .neq) (tag ['!', '=']), value (.cmp .eq) (tag ['=']),
    value (.cmp .gt) (tag ['>']), value (.cmp .lt) (tag ['<'])]

/-- `parse_cmp_op`. -/
def parseCmpOp : Parser RawOp :=
  altAll (symbolOps ++ [value .contains (tagNoCase "CONTAINS".toList),
    value .inside (tagNoCase "INSIDE".toList)])

/-- `parse_param_cmp_op`. -/
def parseParamCmpOp : Parser RawOp :=
  altAll (symbolOps ++ [value .inside (tagNoCase "INSIDE".toList),
    value .isIn (tagNoCase "IN".toList)])

/-- The members of a list that are plain strings. -/
def jsonMembers : List ParsedValue → Option (List Json)
  | [] => some []
  | .json v :: items => (jsonMembers items).map (v :: ·)
  | _ :: _ => none

/-- `parse_string_array`. -/
def parseStringArray : Parser (List Json) := do
  let _ ← ws (char '[')
  let items ← separatedList1 (ws (char ',')) (ws parseStringLiteral)
  let _ ← ws (char ']')
  match jsonMembers items with
  | some values => pure values
  | none => reject

/-- One term stands for itself. -/
def oneOr (many : List WhereExpr → WhereExpr) : List WhereExpr → WhereExpr
  | [e] => e
  | es => many es

/-- `parse_leaf_param_lhs`. -/
def parseLeafParamLhs : Parser WhereExpr := do
  let _ ← ws (char '$')
  let param ← parseIdentifier u
  let op ← ws parseParamCmpOp
  match op with
  | .cmp op =>
    let right ← ws (parseValueEntry u)
    match right with
    | .json v => pure (.paramCmp op param v)
    | _ => reject
  | _ =>
    let values ← ws parseStringArray
    pure (oneOr .or (values.map (.paramCmp .eq param)))

/-- `parse_leaf_field_lhs`: an operator that is no comparison counts as equality. -/
def parseLeafFieldLhs : Parser WhereExpr := do
  let left ← ws (parseIdentifier u)
  let op ← ws parseCmpOp
  let right ← ws (parseValueEntry u)
  match right with
  | .json v =>
    match op with
    | .cmp op => pure (.cmp op left v)
    | _ => pure (.cmp .eq left v)
  | .prefixed pre => pure (.prefixed left pre)
  | .identifier r => pure (.joinCandidate left r)

/-- `parse_leaf_predicate`. -/
def parseLeafPredicate : Parser WhereExpr := alt (parseLeafParamLhs u) (parseLeafFieldLhs u)

/-! ## Expressions -/

/-- `parse_where_logic`, over the expression parser. -/
def parseWhereLogic (orExpression : Parser WhereExpr) : Parser WhereExpr :=
  preceded (tagNoCase "WHERE".toList) (cut orExpression)

/-- `parse_in_subquery_leaf`. -/
def parseInSubqueryLeaf (orExpression : Parser WhereExpr) : Parser WhereExpr := do
  let left ← ws (parseIdentifier u)
  let _ ← ws (alt (tagNoCase "INSIDE".toList) (tagNoCase "IN".toList))
  let _ ← ws (char '(')
  let _ ← ws (tagNoCase "SELECT".toList)
  let _ ← ws (tagNoCase "VALUE".toList)
  let proj ← ws (parseIdentifier u)
  let _ ← ws (tagNoCase "FROM".toList)
  let table ← ws (parseIdentifier u)
  let condition ← opt (ws (parseWhereLogic orExpression))
  let _ ← ws (char ')')
  pure (.inSubquery left proj table condition)

/-- `parse_term`. -/
def parseTerm (orExpression : Parser WhereExpr) : Parser WhereExpr :=
  altAll [parseInSubqueryLeaf u orExpression,
    delimited (ws (char '(')) orExpression (ws (char ')')),
    parseLeafPredicate u]

/-- `parse_and_expression`. -/
def parseAndExpression (orExpression : Parser WhereExpr) : Parser WhereExpr := do
  let terms ← separatedList1 (ws (tagNoCase "AND".toList)) (parseTerm u orExpression)
  pure (oneOr .and terms)

/-- `parse_or_expression`, down to a depth. -/
def parseOrAt : Nat → Parser WhereExpr
  | 0 => reject
  | depth + 1 => do
    let terms ← separatedList1 (ws (tagNoCase "OR".toList))
      (parseAndExpression u (parseOrAt depth))
    pure (oneOr .or terms)

/-- `parse_or_expression`. -/
def parseOrExpression : Parser WhereExpr := fun s => parseOrAt u (s.length + 1) s

/-! ## Clauses -/

/-- `parse_limit_clause` and `parse_start_clause`. -/
def parseCount (keyword : List Char) : Parser Nat :=
  preceded (tagNoCase keyword) (ws (mapRes (takeWhile1 Char.isDigit) (parseBelow (2 ^ 64))))

def parseLimitClause : Parser Nat := parseCount "LIMIT".toList

def parseStartClause : Parser Nat := parseCount "START".toList

/-- `parse_order_clause`. -/
def parseOrderClause : Parser (List (String × String)) :=
  preceded (tagNoCase "ORDER BY".toList) <|
    separatedList1 (ws (char ',')) do
      let field ← ws (parseIdentifier u)
      let dir ← opt (ws (alt (value "ASC" (tagNoCase "ASC".toList))
        (value "DESC" (tagNoCase "DESC".toList))))
      pure (field, dir.getD "ASC")

end Parsers

/-! ## Parent keys -/

mutual

/-- `extract_parent_key_from_predicate`: the first comparison with a `$parent` field. -/
def WhereExpr.parentKey : WhereExpr → Option (String × String)
  | .and terms => parentKeyAny terms
  | .or terms => parentKeyAny terms
  | .cmp _ field value =>
    match (value.get "$param").bind Json.asStr with
    | some param =>
      if "parent.".toList.isPrefixOf param.toList then
        some (field, String.ofList (param.toList.drop 7))
      else none
    | none => none
  | _ => none

def WhereExpr.parentKeyAny : List WhereExpr → Option (String × String)
  | [] => none
  | e :: es =>
    match e.parentKey with
    | some k => some k
    | none => parentKeyAny es

end

/-- `extract_parent_key`. -/
def RawPlan.parentKey : RawPlan → Option (String × String)
  | .filter _ predicate => predicate.parentKey
  | .limit input _ _ _ => input.parentKey
  | .project input _ => input.parentKey
  | _ => none

/-! ## Subqueries in a condition -/

mutual

/-- `where_contains_subquery`. -/
def WhereExpr.containsSubquery : WhereExpr → Bool
  | .inSubquery .. => true
  | .and terms => containsSubqueryAny terms
  | .or terms => containsSubqueryAny terms
  | _ => false

def WhereExpr.containsSubqueryAny : List WhereExpr → Bool
  | [] => false
  | e :: es => e.containsSubquery || containsSubqueryAny es

end

/-- `str::split_once('.')`. -/
def splitDot (s : String) : Option (String × String) :=
  let head := s.toList.takeWhile (· != '.')
  match s.toList.dropWhile (· != '.') with
  | [] => none
  | _ :: rest => some (String.ofList head, String.ofList rest)

/-- `semijoin_for_subquery`: a `link.field` projection goes through the linked table. -/
def semijoinForSubquery (base : RawPlan) (left proj table : String)
    (condition : Option WhereExpr) : RawPlan :=
  let inner : RawPlan :=
    match condition with
    | some w => .filter (.scan table) w
    | none => .scan table
  match splitDot proj with
  | some (link, field) =>
    .semiJoin base (.semiJoin (.scan link) inner "id" link) left field
  | none => .semiJoin base inner left proj

/-- The flat conjuncts as one filter. -/
def filterBy (base : RawPlan) (preds : List WhereExpr) : RawPlan :=
  if preds.isEmpty then base else .filter base (oneOr .and preds)

/-- The branches of an `OR` under `Distinct(Union(..))`. -/
def distinctUnion (base : RawPlan) : List RawPlan → RawPlan
  | [] => .distinct base
  | p :: ps => .distinct (ps.foldl .union p)

mutual

/-- `lower_where_to_plan`. -/
def lowerWhereToPlan (base : RawPlan) : WhereExpr → RawPlan
  | .or terms => distinctUnion base (lowerBranches base terms)
  | .and terms =>
    lowerConjuncts (filterBy base (terms.filter fun e => !e.containsSubquery)) terms
  | .inSubquery left proj table condition => semijoinForSubquery base left proj table condition
  | e => .filter base e

def lowerBranches (base : RawPlan) : List WhereExpr → List RawPlan
  | [] => []
  | e :: es => lowerWhereToPlan base e :: lowerBranches base es

/-- Thread the conjuncts with a subquery, in order. -/
def lowerConjuncts (base : RawPlan) : List WhereExpr → RawPlan
  | [] => base
  | e :: es =>
    if e.containsSubquery then lowerConjuncts (lowerWhereToPlan base e) es
    else lowerConjuncts base es

end

/-! ## Joins between fields -/

/-- The join of a candidate `left = table.column`. -/
def joinFor (base : RawPlan) (left right : String) : RawPlan :=
  match (splitDots right.toList).map String.ofList with
  | table :: column :: _ => .join base (.scan table) left column
  | _ => .join base (.scan right) left "id"

/-- `wrap_conditions`. -/
def wrapConditions (input : RawPlan) (predicate : WhereExpr) : RawPlan :=
  let terms := match predicate with
    | .and terms => terms
    | e => [e]
  let joined := terms.foldl
    (fun acc e => match e with
      | .joinCandidate l r => joinFor acc l r
      | _ => acc) input
  filterBy joined (terms.filter fun e => match e with
    | .joinCandidate .. => false
    | _ => true)

/-! ## Whole queries -/

section Query

variable (u : Unicode)

/-- `parse_subquery_projection`. -/
def parseSubqueryProjection (fullQuery : Parser RawPlan) : Parser RawProjection := do
  let plan ← delimited (ws (char '(')) fullQuery (ws (char ')'))
  let _ ← opt (ws (delimited (char '[')
    (mapRes (takeWhile1 Char.isDigit) (parseBelow (2 ^ 64))) (char ']')))
  let _ ← ws (tagNoCase "AS".toList)
  let asName ← ws (parseIdentifier u)
  pure (.subquery asName plan plan.parentKey)

/-- `parse_field_projection`. -/
def parseFieldProjection : Parser RawProjection :=
  alt (value .all (tag ['*'])) do
    let f ← parseIdentifier u
    pure (.field f)

/-- `parse_projection_item`. -/
def parseProjectionItem (fullQuery : Parser RawPlan) : Parser RawProjection :=
  alt (parseSubqueryProjection u fullQuery) (parseFieldProjection u)

/-- The plan built from the parsed clauses. -/
def buildPlan (fields : List RawProjection) (table : String) (condition : Option WhereExpr)
    (orderBy : Option (List (String × String))) (limit start : Option Nat) : RawPlan :=
  let filtered : RawPlan :=
    match condition with
    | some e =>
      if e.containsSubquery then lowerWhereToPlan (.scan table) e
      else wrapConditions (.scan table) e
    | none => .scan table
  let projected : RawPlan :=
    match fields with
    | [.all] => filtered
    | _ => .project filtered fields
  match limit with
  | some l => .limit projected l (start.getD 0) orderBy
  | none => projected

/-- `parse_full_query`, down to a depth. -/
def parseFullAt : Nat → Parser RawPlan
  | 0 => reject
  | depth + 1 => do
    let _ ← ws (tagNoCase "SELECT".toList)
    let fields ← separatedList1 (ws (char ',')) (parseProjectionItem u (parseFullAt depth))
    let _ ← ws (tagNoCase "FROM".toList)
    let table ← ws (parseIdentifier u)
    let condition ← opt (ws (parseWhereLogic (parseOrExpression u)))
    let orderBy ← opt (ws (parseOrderClause u))
    let limit ← opt (ws parseLimitClause)
    let start ← opt (ws parseStartClause)
    pure (buildPlan fields table condition orderBy limit start)

/-- `parse_full_query`. -/
def parseFullQuery : Parser RawPlan := fun s => parseFullAt u (s.length + 1) s

end Query

/-! ## Record links -/

/-- `LinkMap`: table to link field to target table. -/
abbrev LinkMap := ExtTreeMap String (ExtTreeMap String String)

/-- The table a link field of a table points to. -/
def LinkMap.target (links : LinkMap) (table field : String) : Option String :=
  links[table]?.bind fun m => m[field]?

section Links

variable (links : LinkMap) (table : String)

/-- `is_link_leaf`. -/
def isLinkLeaf : WhereExpr → Bool
  | .cmp .eq field _ =>
    match (splitDots field.toList).map String.ofList with
    | [link, rest] => (links.target table link).isSome && rest != "id"
    | link :: _ :: _ => (links.target table link).isSome
    | _ => false
  | _ => false

/-- `is_marker_leaf`. -/
def isMarkerLeaf : WhereExpr → Bool
  | .inSubquery .. => true
  | e => isLinkLeaf links table e

mutual

/-- `predicate_contains_link_leaf`. -/
def containsLinkLeaf : WhereExpr → Bool
  | .and terms => containsLinkLeafAny terms
  | .or terms => containsLinkLeafAny terms
  | e => isLinkLeaf links table e

def containsLinkLeafAny : List WhereExpr → Bool
  | [] => false
  | e :: es => containsLinkLeaf e || containsLinkLeafAny es

end

mutual

/-- `contains_marker`. -/
def containsMarker : WhereExpr → Bool
  | .and terms => containsMarkerAny terms
  | .or terms => containsMarkerAny terms
  | e => isMarkerLeaf links table e

def containsMarkerAny : List WhereExpr → Bool
  | [] => false
  | e :: es => containsMarker e || containsMarkerAny es

end

/-- `semijoin_for_subquery` on `to_marker`: a link leaf is
    `link IN (SELECT VALUE id FROM target WHERE rest = v)`. -/
def semijoinForMarker (base : RawPlan) : WhereExpr → RawPlan
  | .inSubquery left proj inner condition => semijoinForSubquery base left proj inner condition
  | .cmp op field v =>
    let (link, rest) := (splitDot field).getD (field, "id")
    semijoinForSubquery base link "id" ((links.target table link).getD "")
      (some (.cmp op rest v))
  | _ => base

/-- Thread the marker leaves of a conjunction, in order. -/
def threadMarkers (base : RawPlan) : List WhereExpr → RawPlan
  | [] => base
  | e :: es =>
    if isMarkerLeaf links table e then threadMarkers (semijoinForMarker links table base e) es
    else threadMarkers base es

mutual

/-- `lower_predicate_to_plan`. -/
def lowerPredicateToPlan (base : RawPlan) : WhereExpr → RawPlan
  | .or terms => distinctUnion base (lowerPredicateBranches base terms)
  | .and terms =>
    let flat := filterBy base (terms.filter fun e => !containsMarker links table e)
    lowerNested (threadMarkers links table flat terms) terms
  | .inSubquery left proj inner condition => semijoinForSubquery base left proj inner condition
  | e => if isLinkLeaf links table e then semijoinForMarker links table base e else .filter base e

def lowerPredicateBranches (base : RawPlan) : List WhereExpr → List RawPlan
  | [] => []
  | e :: es => lowerPredicateToPlan base e :: lowerPredicateBranches base es

/-- Thread the conjuncts that hold a marker further down, in order. -/
def lowerNested (base : RawPlan) : List WhereExpr → RawPlan
  | [] => base
  | e :: es =>
    if containsMarker links table e && !isMarkerLeaf links table e then
      lowerNested (lowerPredicateToPlan base e) es
    else lowerNested base es

end

end Links

mutual

/-- One pass of `lower_link_traversals`, going on with `again` in a rewritten filter. -/
def lowerLinksWith (links : LinkMap) (again : RawPlan → RawPlan) : RawPlan → RawPlan
  | .scan table => .scan table
  | .filter input predicate =>
    match lowerLinksWith links again input with
    | .scan table =>
      if containsLinkLeaf links table predicate then
        again (lowerPredicateToPlan links table (.scan table) predicate)
      else .filter (.scan table) predicate
    | input => .filter input predicate
  | .join l r lf rf => .join (lowerLinksWith links again l) (lowerLinksWith links again r) lf rf
  | .semiJoin l r lf rf =>
    .semiJoin (lowerLinksWith links again l) (lowerLinksWith links again r) lf rf
  | .union l r => .union (lowerLinksWith links again l) (lowerLinksWith links again r)
  | .distinct input => .distinct (lowerLinksWith links again input)
  | .project input ps =>
    .project (lowerLinksWith links again input) (lowerLinksProjections links again ps)
  | .limit input l s o => .limit (lowerLinksWith links again input) l s o

def lowerLinksProjections (links : LinkMap) (again : RawPlan → RawPlan) :
    List RawProjection → List RawProjection
  | [] => []
  | .subquery a plan k :: ps =>
    .subquery a (lowerLinksWith links again plan) k :: lowerLinksProjections links again ps
  | .all :: ps => .all :: lowerLinksProjections links again ps
  | .field f :: ps => .field f :: lowerLinksProjections links again ps

end

mutual

/-- The dots in the fields of an expression: each rewrite of a filter drops one. -/
def WhereExpr.dots : WhereExpr → Nat
  | .cmp _ field _ => field.toList.count '.'
  | .and terms => dotsAll terms
  | .or terms => dotsAll terms
  | .inSubquery _ _ _ (some w) => w.dots
  | _ => 0

def WhereExpr.dotsAll : List WhereExpr → Nat
  | [] => 0
  | e :: es => e.dots + dotsAll es

end

mutual

def RawPlan.dots : RawPlan → Nat
  | .scan _ => 0
  | .filter input predicate => input.dots + predicate.dots
  | .join l r _ _ => l.dots + r.dots
  | .semiJoin l r _ _ => l.dots + r.dots
  | .union l r => l.dots + r.dots
  | .distinct input => input.dots
  | .project input ps => input.dots + RawProjection.dotsAll ps
  | .limit input _ _ _ => input.dots

def RawProjection.dotsAll : List RawProjection → Nat
  | [] => 0
  | .subquery _ plan _ :: ps => plan.dots + RawProjection.dotsAll ps
  | .all :: ps => RawProjection.dotsAll ps
  | .field _ :: ps => RawProjection.dotsAll ps

end

/-- `lower_link_traversals`, down to a number of nested rewrites. -/
def lowerLinksAt (links : LinkMap) : Nat → RawPlan → RawPlan
  | 0, plan => plan
  | n + 1, plan => lowerLinksWith links (lowerLinksAt links n) plan

/-- `lower_link_traversals`. -/
def lowerLinkTraversals (links : LinkMap) (plan : RawPlan) : RawPlan :=
  if links.isEmpty then plan else lowerLinksAt links (plan.dots + 1) plan

/-- `convert_surql_to_dbsp_with_links`. -/
def convertSurqlToDbspWithLinks (u : Unicode) (sql : List Char) (links : LinkMap) :
    Option RawPlan :=
  match parseFullQuery u (trimEndBy (· == ';') (trim sql)) with
  | .ok _ plan => some (lowerLinkTraversals links plan)
  | _ => none

/-! ## Deserialisation -/

mutual

/-- `Deserialize for Predicate`. -/
def WhereExpr.decode : WhereExpr → Option Predicate
  | .cmp op field v => some (.cmp op (Path.new field) v)
  | .prefixed field pre => some (.prefixed (Path.new field) pre)
  | .paramCmp op param v => some (.paramCmp op param v)
  | .and terms => (decodeAll terms).map .and
  | .or terms => (decodeAll terms).map .or
  | .joinCandidate .. => none
  | .inSubquery .. => none

def WhereExpr.decodeAll : List WhereExpr → Option (List Predicate)
  | [] => some []
  | e :: es =>
    match e.decode, decodeAll es with
    | some p, some ps => some (p :: ps)
    | _, _ => none

end

/-- A join condition from two field names. -/
def joinOn (leftField rightField : String) : JoinCondition :=
  ⟨Path.new leftField, Path.new rightField⟩

mutual

/-- `Deserialize for OperatorPlan`. -/
def RawPlan.decode : RawPlan → Option OperatorPlan
  | .scan table => some (.scan table)
  | .filter input predicate =>
    match input.decode, predicate.decode with
    | some i, some p => some (.filter i p)
    | _, _ => none
  | .join l r lf rf =>
    match l.decode, r.decode with
    | some l, some r => some (.join l r (joinOn lf rf))
    | _, _ => none
  | .semiJoin l r lf rf =>
    match l.decode, r.decode with
    | some l, some r => some (.semiJoin l r (joinOn lf rf))
    | _, _ => none
  | .union l r =>
    match l.decode, r.decode with
    | some l, some r => some (.union l r)
    | _, _ => none
  | .distinct input => input.decode.map .distinct
  | .project input ps =>
    match input.decode, RawProjection.decodeAll ps with
    | some i, some ps => some (.project i ps)
    | _, _ => none
  | .limit input l s orderBy =>
    input.decode.map fun i =>
      .limit i l s (orderBy.map fun os => os.map fun o => ⟨Path.new o.1, o.2⟩)

/-- `Deserialize for Projection`. -/
def RawProjection.decodeAll : List RawProjection → Option (List Projection)
  | [] => some []
  | .all :: ps => (RawProjection.decodeAll ps).map (.all :: ·)
  | .field f :: ps => (RawProjection.decodeAll ps).map (.field (Path.new f) none :: ·)
  | .subquery a plan k :: ps =>
    match plan.decode, RawProjection.decodeAll ps with
    | some p, some ps => some (.subquery a p (k.map fun (c, f) => ⟨c, f⟩) :: ps)
    | _, _ => none

end

end Sp00ky.Ssp
