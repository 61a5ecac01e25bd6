/-
  The local SQL scan of a WHERE plan (`packages/core/src/services/database/sqlite-plan-sql.ts`,
  `sqlite-select.ts`) against the circuit's filter (`packages/ssp/src/operator/filter.rs`).

  SQLite keeps a row where the rendered clause is true: a comparison with NULL is unknown, booleans
  are 1 and 0, and numbers sort before text. The circuit compares a null below everything else and
  lets values of different kinds be equal in order. The two agree on a comparison of values of one
  kind, and of others just where the operator does not see the difference (`scan_agrees`).
-/
import Sp00ky.Ssp.Filter

namespace Sp00ky.Core.SqlScan

open Ssp (CmpOp Predicate Path Sp00kyValue Json Store)

/-! ## Plans -/

/-- A scalar of a row or of the parameters. -/
inductive Scalar where
  | null
  | bool (b : Bool)
  | int (i : Int64)
  | str (s : String)
deriving DecidableEq, Repr

abbrev Row := List (String × Scalar)

/-- `WhereComparison`; `value` may be undefined. A record id is its `table:id` text. -/
structure WhereComparison where
  field : String
  op : CmpOp
  value : Option Scalar
  paramRef : Option String
  swap : Bool

/-- `WhereNode`. -/
inductive WhereNode where
  | cmp (c : WhereComparison)
  | or (cs : List WhereComparison)

/-! ## SQLite -/

inductive SqlValue where
  | null
  | int (i : Int)
  | text (s : String)
deriving DecidableEq, Repr

/-- `scalar`, and what `json_extract` makes of a stored value. -/
def Scalar.sql : Scalar → SqlValue
  | .null => .null
  | .bool b => .int (if b then 1 else 0)
  | .int i => .int i.toInt
  | .str s => .text s

/-- How two values compare; with NULL they do not. -/
def SqlValue.order : SqlValue → SqlValue → Option Ordering
  | .int a, .int b => some (compare a b)
  | .int _, .text _ => some .lt
  | .text _, .int _ => some .gt
  | .text a, .text b => some (compare a b)
  | _, _ => none

/-- TEXT affinity, which the column `id` lends the other side. -/
def SqlValue.asText : SqlValue → SqlValue
  | .int i => .text (toString i)
  | v => v

/-- The column side of a comparison: `id`, or `json_extract(data, '$.path')`. -/
inductive SqlOperand where
  | id
  | extract (path : String)

/-- `lhs op ?`, or `? op lhs`. -/
structure SqlComparison where
  lhs : SqlOperand
  op : CmpOp
  swap : Bool

/-- A conjunct of the clause. -/
inductive SqlConjunct where
  | one (c : SqlComparison)
  | group (cs : List SqlComparison)

/-- Rows are flat: a longer path finds nothing. -/
def SqlOperand.read (key : String) (row : Row) : SqlOperand → SqlValue
  | .id => .text key
  | .extract path =>
    match (Path.new path).segments with
    | [f] => ((row.lookup f).map Scalar.sql).getD .null
    | _ => .null

def SqlOperand.coerce : SqlOperand → SqlValue → SqlValue
  | .id, v => v.asText
  | .extract _, v => v

/-- The truth of a comparison, none where it is unknown. -/
def SqlComparison.truth (key : String) (row : Row) (c : SqlComparison) (bound : SqlValue) :
    Option Bool :=
  let l := c.lhs.read key row
  let r := c.lhs.coerce bound
  (if c.swap then r.order l else l.order r).map c.op.holds

def sqlOr : Option Bool → Option Bool → Option Bool
  | some true, _ | _, some true => some true
  | some false, some false => some false
  | _, _ => none

def sqlAnd : Option Bool → Option Bool → Option Bool
  | some false, _ | _, some false => some false
  | some true, some true => some true
  | _, _ => none

/-- A statement reads its parameters in the order of their placeholders. -/
def readBind (f : SqlValue → Option Bool) : List SqlValue → Option Bool × List SqlValue
  | [] => (f .null, [])
  | v :: bind => (f v, bind)

/-- A group, `(c1 OR c2 …)`. -/
def truthAny (key : String) (row : Row) : List SqlComparison → List SqlValue →
    Option Bool × List SqlValue
  | [], bind => (some false, bind)
  | c :: cs, bind =>
    let (t, bind) := readBind (c.truth key row) bind
    let (u, bind) := truthAny key row cs bind
    (sqlOr t u, bind)

def SqlConjunct.truth (key : String) (row : Row) (bind : List SqlValue) :
    SqlConjunct → Option Bool × List SqlValue
  | .one c => readBind (c.truth key row) bind
  | .group cs => truthAny key row cs bind

/-- The clause, `j1 AND j2 …`; without conjuncts there is none. -/
def truthAll (key : String) (row : Row) : List SqlConjunct → List SqlValue → Option Bool
  | [], _ => some true
  | j :: js, bind =>
    let (t, bind) := j.truth key row bind
    sqlAnd t (truthAll key row js bind)

/-! ## Rendering -/

/-- The value a comparison binds: the parameter, if it is there or nothing else is. -/
def WhereComparison.bound (params : Row) (c : WhereComparison) : SqlValue :=
  match c.paramRef with
  | some p =>
    if c.value.isNone || (params.lookup p).isSome then ((params.lookup p).map Scalar.sql).getD .null
    else (c.value.map Scalar.sql).getD .null
  | none => (c.value.map Scalar.sql).getD .null

def WhereComparison.lhs (c : WhereComparison) : SqlOperand :=
  if c.field = "id" then .id else .extract c.field

/-- `comparisonSql`: the text, and what it pushes. -/
def comparisonSql (c : WhereComparison) (bind : List SqlValue) (params : Row) :
    SqlComparison × List SqlValue :=
  (⟨c.lhs, c.op, c.swap⟩, bind ++ [c.bound params])

def groupSql (params : Row) : List WhereComparison → List SqlValue →
    List SqlComparison × List SqlValue
  | [], bind => ([], bind)
  | c :: cs, bind =>
    let (s, bind) := comparisonSql c bind params
    let (ss, bind) := groupSql params cs bind
    (s :: ss, bind)

/-- `renderWhereSql`. -/
def renderWhereSql (params : Row) : List WhereNode → List SqlValue →
    List SqlConjunct × List SqlValue
  | [], bind => ([], bind)
  | .cmp c :: nodes, bind =>
    let (s, bind) := comparisonSql c bind params
    let (js, bind) := renderWhereSql params nodes bind
    (.one s :: js, bind)
  | .or cs :: nodes, bind =>
    let (ss, bind) := groupSql params cs bind
    let (js, bind) := renderWhereSql params nodes bind
    (.group ss :: js, bind)

/-- `executeSelect` keeps a row: the projection's keys are bound first and stand first in the
    statement. -/
def selectKeeps (select : Option (List String)) (nodes : List WhereNode) (params : Row)
    (key : String) (row : Row) : Bool :=
  let keys := (select.map fun fields => ("id" :: fields).map SqlValue.text).getD []
  let (js, bind) := renderWhereSql params nodes keys
  truthAll key row js (bind.drop keys.length) == some true

/-! ## The circuit's predicate -/

def Scalar.toValue : Scalar → Sp00kyValue
  | .null => .null
  | .bool b => .bool b
  | .int i => .int i.toInt
  | .str s => .str s

def Scalar.toJson : Scalar → Json
  | .null => .null
  | .bool b => .bool b
  | .int i => .int i.toInt
  | .str s => .str s

def rowValue (row : Row) : Sp00kyValue := .object (row.map fun kv => (kv.1, kv.2.toValue))

/-- The operator with its sides exchanged. -/
def flip : CmpOp → CmpOp
  | .gt => .lt
  | .gte => .lte
  | .lt => .gt
  | .lte => .gte
  | op => op

def WhereComparison.predicate (c : WhereComparison) : Predicate :=
  .cmp (if c.swap then flip c.op else c.op) (Path.new c.field)
    (match c.paramRef with
    | some p => .object [("$param", .str p)]
    | none => (c.value.getD .null).toJson)

/-- The same comparison tree. -/
def wherePredicate (nodes : List WhereNode) : Predicate :=
  .and (nodes.map fun
    | .cmp c => c.predicate
    | .or cs => .or (cs.map WhereComparison.predicate))

/-! ## Where the two agree -/

/-- The operator as the column side sees it. -/
def WhereComparison.columnOp (c : WhereComparison) : CmpOp := if c.swap then flip c.op else c.op

/-- What the column side holds, if anything. -/
def WhereComparison.actual (key : String) (row : Row) (c : WhereComparison) : Option Scalar :=
  if c.field = "id" then some (.str key) else row.lookup c.field

/-- What it is compared with, if anything. -/
def WhereComparison.target (params : Row) (c : WhereComparison) : Option Scalar :=
  match c.paramRef with
  | some p => params.lookup p
  | none => some (c.value.getD .null)

/-- The operator does not tell an order from values that are equal in order but of two kinds. -/
def blind (op : CmpOp) (o : Ordering) : Bool :=
  match op with
  | .eq | .neq => o != .eq
  | .gt | .lte => o != .gt
  | .gte | .lt => o != .lt

/-- Both sides are of one kind and not null; or the operator does not see that they are not. -/
def Alike (op : CmpOp) (lhs : SqlOperand) (a t : Scalar) : Bool :=
  match a, t with
  | .null, .null => op == .neq || op == .gt || op == .lt
  | .null, _ => op == .eq || op == .gt || op == .gte
  | _, .null => op == .eq || op == .lt || op == .lte
  | a, t => Ssp.sameKind (some a.toValue) (some t.toValue) ||
      (a.sql.order (lhs.coerce t.sql)).all (blind op)

/-- The names are names, and a parameter is given where the plan has a value of its own. -/
structure WhereComparison.Named (params : Row) (c : WhereComparison) : Prop where
  column : (Path.new c.field).segments = [c.field]
  param : ∀ p, c.paramRef = some p →
    (Path.new (Ssp.stripParent p)).segments = [p] ∧ (c.value = none ∨ (params.lookup p).isSome)

/-- The sides of a comparison, where both are there, are alike for its operator. -/
def WhereComparison.Sees (params : Row) (key : String) (row : Row) (c : WhereComparison) : Prop :=
  ∀ a t, c.actual key row = some a → c.target params = some t →
    Alike c.columnOp c.lhs a t = true

/-! ### One comparison -/

theorem lookup_values (row : Row) (k : String) :
    (row.map fun kv => (kv.1, kv.2.toValue)).lookup k = (row.lookup k).map Scalar.toValue := by
  induction row with
  | nil => rfl
  | cons kv row ih =>
    rw [List.map_cons, List.lookup_cons, List.lookup_cons]
    split
    next => rfl
    next => exact ih

/-- A one-segment path reads a field. -/
theorem resolve_field {path : Path} {k : String} (h : path.segments = [k]) (row : Row) :
    Ssp.resolveField (some (rowValue row)) path = (row.lookup k).map Scalar.toValue := by
  unfold Ssp.resolveField
  simp only [h]
  have hget : (rowValue row).get k = (row.lookup k).map Scalar.toValue := lookup_values row k
  unfold Ssp.resolveSegments
  rw [if_neg (by simp [rowValue, Sp00kyValue.isRecordRef]), hget]
  cases row.lookup k with
  | none => rfl
  | some v => rfl

theorem ofJson_toJson (v : Scalar) : Sp00kyValue.ofJson v.toJson = v.toValue := by
  cases v with
  | int i => exact if_pos (Int64.toInt_lt i)
  | _ => rfl

section

variable {params : Row} {key : String} {row : Row} {c : WhereComparison}

variable (key row) in
/-- What the circuit reads. -/
theorem reads (h : c.Named params) :
    Ssp.readField (Path.new c.field) key (some (rowValue row)) =
        (c.actual key row).map Scalar.toValue ∧
      (Ssp.resolvePredicateValue (match c.paramRef with
        | some p => .object [("$param", .str p)]
        | none => (c.value.getD .null).toJson) (some (rowValue params)) =
        (c.target params).map Scalar.toValue) := by
  constructor
  · unfold Ssp.readField WhereComparison.actual
    rw [h.column]
    by_cases hid : c.field = "id"
    · rw [if_pos (by rw [hid]), if_pos hid]
      rfl
    · rw [if_neg (by simpa using hid), if_neg hid, resolve_field h.column]
  · unfold WhereComparison.target
    cases hp : c.paramRef with
    | none =>
      unfold Ssp.resolvePredicateValue
      have hget : ((c.value.getD .null).toJson).get "$param" = none := by
        cases c.value.getD .null <;> rfl
      rw [hget]
      exact congrArg some (ofJson_toJson _)
    | some p => exact resolve_field (h.param p hp).1 params

variable (key row) in
/-- What SQLite reads: NULL where there is nothing. -/
theorem sql_reads (h : c.Named params) :
    c.lhs.read key row = ((c.actual key row).map Scalar.sql).getD .null ∧
      c.bound params = ((c.target params).map Scalar.sql).getD .null := by
  constructor
  · unfold WhereComparison.lhs WhereComparison.actual
    split
    next => rfl
    next =>
      unfold SqlOperand.read
      simp only [h.column]
  · unfold WhereComparison.bound WhereComparison.target
    cases hp : c.paramRef with
    | none =>
      cases c.value with
      | none => rfl
      | some v => rfl
    | some p =>
      simp only
      rcases (h.param p hp).2 with hv | hv
      · rw [if_pos (by rw [hv]; rfl)]
      · rw [if_pos (by rw [hv, Bool.or_true])]

theorem holds_flip (op : CmpOp) (o : Ordering) : op.holds o.swap = (flip op).holds o := by
  cases op <;> cases o <;> rfl

theorem order_swap (a b : SqlValue) : b.order a = (a.order b).map Ordering.swap := by
  cases a with
  | null => cases b <;> rfl
  | int i =>
    cases b with
    | int j => exact congrArg some Std.OrientedCmp.eq_swap
    | _ => rfl
  | text s =>
    cases b with
    | text t => exact congrArg some Std.OrientedCmp.eq_swap
    | _ => rfl

/-- A comparison, seen from its column side. -/
theorem truth_eq (key : String) (row : Row) (c : WhereComparison) (v : SqlValue) :
    SqlComparison.truth key row ⟨c.lhs, c.op, c.swap⟩ v =
      ((c.lhs.read key row).order (c.lhs.coerce v)).map c.columnOp.holds := by
  unfold SqlComparison.truth WhereComparison.columnOp
  cases c.swap with
  | false => rfl
  | true =>
    simp only [if_true]
    rw [order_swap, Option.map_map]
    congr 1
    exact funext fun o => holds_flip c.op o

/-- Values of one kind compare alike. -/
theorem holds_sameKind (op : CmpOp) (lhs : SqlOperand) {a t : Scalar}
    (hid : lhs = .id → ∃ s, a = .str s) (ha : a ≠ .null)
    (hkind : Ssp.sameKind (some a.toValue) (some t.toValue) = true) :
    (a.sql.order (lhs.coerce t.sql)).map op.holds =
      some (op.holdsField (some a.toValue) (some t.toValue)) := by
  have hfield : op.holdsField (some a.toValue) (some t.toValue) =
      op.holds (Ssp.compareValues (some a.toValue) (some t.toValue)) := by
    unfold CmpOp.holdsField
    rw [hkind]
    cases op <;> simp [CmpOp.holds]
  rw [hfield]
  cases a with
  | null => exact absurd rfl ha
  | str s =>
    cases t with
    | str s' => cases lhs <;> rfl
    | _ => cases hkind
  | bool b =>
    cases lhs with
    | id =>
      obtain ⟨s, hs⟩ := hid rfl
      cases hs
    | extract path =>
      cases t with
      | bool b' => cases b <;> cases b' <;> rfl
      | _ => cases hkind
  | int i =>
    cases lhs with
    | id =>
      obtain ⟨s, hs⟩ := hid rfl
      cases hs
    | extract path =>
      cases t with
      | int j => rfl
      | _ => cases hkind

/-- Values of two kinds are equal in order for the circuit. -/
theorem holdsField_mixed (op : CmpOp) {a t : Scalar} (ha : a ≠ .null) (ht : t ≠ .null)
    (hkind : Ssp.sameKind (some a.toValue) (some t.toValue) = false) :
    op.holdsField (some a.toValue) (some t.toValue) = (op == .neq || op == .gte || op == .lte) := by
  have hcmp : Ssp.compareValues (some a.toValue) (some t.toValue) = .eq := by
    cases a with
    | null => exact absurd rfl ha
    | _ =>
      cases t with
      | null => exact absurd rfl ht
      | _ => first | rfl | cases hkind
  unfold CmpOp.holdsField
  rw [hcmp, hkind]
  cases op <;> rfl

/-- SQLite orders any two values that are not null. -/
theorem order_some (lhs : SqlOperand) {a t : Scalar} (ha : a ≠ .null) (ht : t ≠ .null) :
    ∃ o, a.sql.order (lhs.coerce t.sql) = some o := by
  cases a with
  | null => exact absurd rfl ha
  | _ =>
    cases t with
    | null => exact absurd rfl ht
    | _ => cases lhs <;> exact ⟨_, rfl⟩

/-- Two values fall the same way just where they are alike. -/
theorem alike_iff (op : CmpOp) (lhs : SqlOperand) {a t : Scalar}
    (hid : lhs = .id → ∃ s, a = .str s) :
    ((a.sql.order (lhs.coerce t.sql)).map op.holds = some true ↔
      op.holdsField (some a.toValue) (some t.toValue) = true) ↔ Alike op lhs a t = true := by
  have hnull : ∀ {b : Bool}, ((none : Option Bool) = some true ↔ b = true) ↔ b = false := by
    intro b
    cases b <;> simp
  by_cases ha : a = .null
  · subst ha
    have hnone : Scalar.null.sql.order (lhs.coerce t.sql) = none := by
      cases t <;> cases lhs <;> rfl
    rw [hnone, Option.map_none, hnull]
    cases t <;> cases op <;> first | exact iff_of_true rfl rfl | exact iff_of_false nofun nofun
  by_cases ht : t = .null
  · subst ht
    have hnone : a.sql.order (lhs.coerce Scalar.null.sql) = none := by
      cases a <;> cases lhs <;> rfl
    rw [hnone, Option.map_none, hnull]
    cases a with
    | null => exact absurd rfl ha
    | _ => cases op <;> first | exact iff_of_true rfl rfl | exact iff_of_false nofun nofun
  have halike : Alike op lhs a t = (Ssp.sameKind (some a.toValue) (some t.toValue) ||
      (a.sql.order (lhs.coerce t.sql)).all (blind op)) := by
    cases a with
    | null => exact absurd rfl ha
    | _ =>
      cases t with
      | null => exact absurd rfl ht
      | _ => rfl
  rw [halike]
  cases hkind : Ssp.sameKind (some a.toValue) (some t.toValue) with
  | true =>
    rw [holds_sameKind op lhs hid ha hkind, Option.some.injEq, Bool.true_or]
    exact ⟨fun _ => rfl, fun _ => Iff.rfl⟩
  | false =>
    obtain ⟨o, ho⟩ := order_some lhs ha ht
    rw [ho, holdsField_mixed op ha ht hkind, Option.map_some, Option.some.injEq, Option.all_some,
      Bool.false_or]
    cases op <;> cases o <;> decide

/-- The truth of a comparison as it is rendered. -/
def WhereComparison.sqlTruth (params : Row) (key : String) (row : Row) (c : WhereComparison) :
    Option Bool :=
  SqlComparison.truth key row ⟨c.lhs, c.op, c.swap⟩ (c.bound params)

/-- The circuit's answer on a comparison. -/
def WhereComparison.checks (params : Row) (key : String) (row : Row) (c : WhereComparison) : Bool :=
  c.predicate.eval key (some (rowValue row)) (some (rowValue params))

theorem checks_eq (h : c.Named params) :
    c.checks params key row =
      match c.actual key row, c.target params with
      | some a, some t => c.columnOp.holdsField (some a.toValue) (some t.toValue)
      | _, _ => false := by
  obtain ⟨hactual, htarget⟩ := reads key row h
  unfold WhereComparison.checks WhereComparison.predicate Predicate.eval
  rw [hactual, htarget]
  cases c.target params with
  | none | some t => cases c.actual key row <;> rfl

/-- **One comparison**: it falls the same way just where its sides are alike. -/
theorem comparison_agrees (h : c.Named params) :
    (c.sqlTruth params key row = some true ↔ c.checks params key row = true) ↔
      c.Sees params key row := by
  obtain ⟨hread, hbound⟩ := sql_reads key row h
  have hunknown : ∀ v w : SqlValue, v = .null ∨ w = .null → v.order (c.lhs.coerce w) = none := by
    rintro v w (rfl | rfl)
    · cases c.lhs.coerce w <;> rfl
    · cases v <;> cases c.lhs <;> rfl
  unfold WhereComparison.sqlTruth
  rw [truth_eq, checks_eq h, hread, hbound]
  unfold WhereComparison.Sees
  cases ha : c.actual key row with
  | none =>
    rw [Option.map_none, Option.getD_none, hunknown _ _ (.inl rfl)]
    exact iff_of_true (iff_of_false nofun nofun) fun _ _ h => nomatch h
  | some a =>
    cases ht : c.target params with
    | none =>
      rw [Option.map_none, Option.getD_none, hunknown _ _ (.inr rfl)]
      exact iff_of_true (iff_of_false nofun nofun) fun _ _ _ h => nomatch h
    | some t =>
      refine (alike_iff c.columnOp c.lhs ?_).trans
        ⟨fun hal a' t' ha' ht' => ?_, fun hsees => hsees a t rfl rfl⟩
      · intro hid
        unfold WhereComparison.lhs at hid
        unfold WhereComparison.actual at ha
        split at hid
        next heq =>
          rw [if_pos heq] at ha
          exact ⟨key, (Option.some.inj ha).symm⟩
        next => cases hid
      · rw [← Option.some.inj ha', ← Option.some.inj ht']
        exact hal

/-! ### Every plan -/

def WhereNode.comparisons : WhereNode → List WhereComparison
  | .cmp c => [c]
  | .or cs => cs

theorem sqlOr_true {t u : Option Bool} :
    sqlOr t u = some true ↔ t = some true ∨ u = some true := by
  rcases t with _ | _ | _ <;> rcases u with _ | _ | _ <;> simp [sqlOr]

theorem sqlAnd_true {t u : Option Bool} :
    sqlAnd t u = some true ↔ t = some true ∧ u = some true := by
  rcases t with _ | _ | _ <;> rcases u with _ | _ | _ <;> simp [sqlAnd]

/-- A group reads what it bound, and is true where one of its comparisons is. -/
theorem groupSql_spec (params : Row) (key : String) (row : Row) (cs : List WhereComparison)
    (bind rest : List SqlValue) :
    (groupSql params cs bind).2 = bind ++ cs.map (·.bound params) ∧
      (truthAny key row (groupSql params cs bind).1 (cs.map (·.bound params) ++ rest)).2 = rest ∧
      ((truthAny key row (groupSql params cs bind).1 (cs.map (·.bound params) ++ rest)).1 =
        some true ↔ ∃ c ∈ cs, c.sqlTruth params key row = some true) := by
  induction cs generalizing bind with
  | nil => exact ⟨(List.append_nil _).symm, rfl, by simp [groupSql, truthAny]⟩
  | cons c cs ih =>
    obtain ⟨hbind, hrest, htrue⟩ := ih (bind ++ [c.bound params])
    refine ⟨hbind.trans (List.append_assoc ..), hrest, ?_⟩
    refine Iff.trans sqlOr_true ?_
    rw [List.exists_mem_cons_iff, ← htrue]
    rfl

/-- The clause reads what it bound, and is true where each conjunct is. -/
theorem renderWhereSql_spec (params : Row) (key : String) (row : Row) (nodes : List WhereNode)
    (bind : List SqlValue) : ∃ bound : List SqlValue,
      (renderWhereSql params nodes bind).2 = bind ++ bound ∧
      (truthAll key row (renderWhereSql params nodes bind).1 bound = some true ↔
        ∀ n ∈ nodes, ∃ c ∈ n.comparisons, c.sqlTruth params key row = some true) := by
  induction nodes generalizing bind with
  | nil => exact ⟨[], (List.append_nil _).symm, by simp [renderWhereSql, truthAll]⟩
  | cons n nodes ih =>
    cases n with
    | cmp c =>
      obtain ⟨bound, hbind, htrue⟩ := ih (bind ++ [c.bound params])
      refine ⟨c.bound params :: bound, hbind.trans (List.append_assoc ..), ?_⟩
      refine Iff.trans sqlAnd_true ?_
      rw [List.forall_mem_cons, ← htrue]
      refine and_congr_left fun _ => ?_
      exact ⟨fun h => ⟨c, List.mem_singleton_self c, h⟩, fun ⟨c', hc', h⟩ =>
        List.mem_singleton.mp hc' ▸ h⟩
    | or cs =>
      obtain ⟨hgroup, -, -⟩ := groupSql_spec params key row cs bind []
      obtain ⟨bound, hbind, htrue⟩ := ih (bind ++ cs.map (·.bound params))
      obtain ⟨-, hrest, hany⟩ := groupSql_spec params key row cs bind bound
      refine ⟨cs.map (·.bound params) ++ bound, ?_, ?_⟩
      · unfold renderWhereSql
        simp only [hgroup]
        exact hbind.trans (List.append_assoc ..)
      · unfold renderWhereSql
        simp only [hgroup]
        refine Iff.trans sqlAnd_true ?_
        rw [List.forall_mem_cons, ← htrue]
        refine and_congr hany ?_
        exact iff_of_eq (congrArg (fun l => truthAll key row _ l = some true) hrest)

/-- What the scan keeps. -/
theorem selectKeeps_iff (select : Option (List String)) (nodes : List WhereNode) (params : Row)
    (key : String) (row : Row) : selectKeeps select nodes params key row = true ↔
      ∀ n ∈ nodes, ∃ c ∈ n.comparisons, c.sqlTruth params key row = some true := by
  unfold selectKeeps
  simp only
  generalize (select.map fun fields => ("id" :: fields).map SqlValue.text).getD [] = keys
  obtain ⟨bound, hbind, htrue⟩ := renderWhereSql_spec params key row nodes keys
  rw [hbind, List.drop_left, beq_iff_eq]
  exact htrue

/-- What the circuit keeps. -/
theorem checkPredicate_iff (nodes : List WhereNode) (params : Row) {key : String} {row : Row}
    {store : Store} (hrow : store.getRowByKeyOrDeleted key = some (rowValue row)) :
    Ssp.checkPredicate (wherePredicate nodes) key store (some (rowValue params)) = true ↔
      ∀ n ∈ nodes, ∃ c ∈ n.comparisons, c.checks params key row = true := by
  unfold Ssp.checkPredicate wherePredicate
  rw [hrow, Predicate.eval, Predicate.evalAll_eq_all, List.all_map, List.all_eq_true]
  refine forall₂_congr fun n _ => ?_
  cases n with
  | cmp c =>
    exact ⟨fun h => ⟨c, List.mem_singleton_self c, h⟩, fun ⟨c', hc', h⟩ =>
      List.mem_singleton.mp hc' ▸ h⟩
  | or cs =>
    rw [Function.comp_apply, Predicate.eval, Predicate.evalAny_eq_any, List.any_map,
      List.any_eq_true]
    rfl

/-- **The scan and the filter**: on one comparison they agree just where its sides are alike, and
    so on every plan of such comparisons. -/
theorem scan_agrees (select : Option (List String)) (params : Row) (key : String) (row : Row)
    (store : Store) (hrow : store.getRowByKeyOrDeleted key = some (rowValue row)) :
    (∀ c : WhereComparison, c.Named params →
      ((selectKeeps select [.cmp c] params key row =
        Ssp.checkPredicate (wherePredicate [.cmp c]) key store (some (rowValue params))) ↔
          c.Sees params key row)) ∧
      ∀ nodes : List WhereNode,
        (∀ n ∈ nodes, ∀ c ∈ n.comparisons, c.Named params ∧ c.Sees params key row) →
        selectKeeps select nodes params key row =
          Ssp.checkPredicate (wherePredicate nodes) key store (some (rowValue params)) := by
  constructor
  · intro c hc
    rw [Bool.eq_iff_iff, selectKeeps_iff, checkPredicate_iff [.cmp c] params hrow,
      ← comparison_agrees hc]
    simp [WhereNode.comparisons]
  · intro nodes hall
    rw [Bool.eq_iff_iff, selectKeeps_iff, checkPredicate_iff nodes params hrow]
    refine forall₂_congr fun n hn => exists_congr fun c => and_congr_right fun hc => ?_
    obtain ⟨hnamed, hsees⟩ := hall n hn c hc
    exact (comparison_agrees hnamed).mpr hsees

/-! ### Two rows -/

/-- A store of one row, `t:1`. -/
def oneRow (row : Row) : Store :=
  Ssp.Store.new.setCollection { Ssp.Collection.new "t" with
    rows := (∅ : Std.ExtTreeMap String Ssp.Row).insert "1" ⟨rowValue row, 0⟩ }

theorem oneRow_row (row : Row) :
    (oneRow row).getRowByKeyOrDeleted "t:1" = some (rowValue row) := by
  have hkey : Ssp.parseKey "t:1" = some ("t", "1") := by decide
  unfold Store.getRowByKeyOrDeleted Store.getRowByKey oneRow Store.setCollection
  simp [hkey, Ssp.Collection.new, Ssp.Collection.get]

theorem scan_agrees_on_age : selectKeeps none [.cmp ⟨"age", .lte, none, some "max", true⟩]
      [("max", .int 30)] "t:1" [("age", .int 40)] =
    Ssp.checkPredicate (wherePredicate [.cmp ⟨"age", .lte, none, some "max", true⟩]) "t:1"
      (oneRow [("age", .int 40)]) (some (rowValue [("max", .int 30)])) := by
  refine (scan_agrees none _ _ _ _ (oneRow_row _)).2 _ fun n hn c hc => ?_
  obtain rfl := List.mem_singleton.mp hn
  obtain rfl := List.mem_singleton.mp hc
  refine ⟨⟨by decide, fun p hp => ?_⟩, fun a t ha ht => ?_⟩
  · obtain rfl := Option.some.inj hp
    exact ⟨by decide, .inl rfl⟩
  · obtain rfl := Option.some.inj ha
    obtain rfl := Option.some.inj ht
    decide

/-- A null is not `true`: the circuit keeps the row, for SQLite it is unknown. -/
theorem scan_disagrees_on_null :
    ¬ ∀ (select : Option (List String)) (nodes : List WhereNode) (params : Row) (key : String)
      (row : Row) (store : Store), store.getRowByKeyOrDeleted key = some (rowValue row) →
      selectKeeps select nodes params key row =
        Ssp.checkPredicate (wherePredicate nodes) key store (some (rowValue params)) := by
  intro hall
  have hboth := hall none [.cmp ⟨"archived", .neq, some (.bool true), none, false⟩] [] "t:1"
    [("archived", .null)] _ (oneRow_row _)
  have hkept : Ssp.checkPredicate
      (wherePredicate [.cmp ⟨"archived", .neq, some (.bool true), none, false⟩]) "t:1"
      (oneRow [("archived", .null)]) (some (rowValue [])) = true :=
    (checkPredicate_iff _ [] (oneRow_row _)).mpr fun n hn =>
      List.mem_singleton.mp hn ▸ ⟨_, List.mem_singleton_self _, by decide⟩
  rw [hkept] at hboth
  exact absurd hboth (by decide)

end

end Sp00ky.Core.SqlScan
