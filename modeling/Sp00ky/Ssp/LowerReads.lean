/-
  Reading a `WHERE` expression and a lowered plan.

  An expression is read directly on the rows of a table (`WhereExpr.Reads`): a leaf is
  `check_predicate`, `left IN (SELECT VALUE p FROM u WHERE w)` asks for a row of `u` that
  satisfies `w` with the same value, a comparison through a mapped link follows the link
  by id, and `AND` and `OR` are boolean. A raw plan means what its operators select, where
  a filter right on a scan may follow links (`RawPlan.Follows`) or not (`RawPlan.Shows`);
  the snapshot of the decoded plan is the latter.
-/
import Sp00ky.Ssp.InjectFacts
import Sp00ky.Ssp.OneChange

namespace Sp00ky.Ssp

open Std Lib

/-! ## Snapshots of positive weight -/

/-- Every key has a positive weight. -/
def ZSet.Positive (z : ZSet) : Prop := ∀ (k : String) (w : Int), z[k]? = some w → 0 < w

theorem ZSet.Positive.weight_iff {z : ZSet} (h : z.Positive) (k : String) :
    0 < z.weight k ↔ k ∈ z := by
  rw [ExtTreeMap.mem_iff_isSome_getElem?, ZSet.weight]
  cases hk : z[k]? with
  | none => simp
  | some w => simp [h k w hk]

section Snapshots

variable {env : Env} {store : Store} {ctx : Option Sp00kyValue}

theorem held_positive (t : String) : (store.held t).Positive := by
  intro k w hw
  rcases @held_binary store t k with h | h <;> rw [h] at hw <;> cases hw
  decide

theorem ZSet.Positive.filter {z : ZSet} (h : z.Positive) (f : String → Int → Bool) :
    ZSet.Positive (z.filter f) := by
  intro k w hw
  rw [ExtTreeMap.getElem?_filter'] at hw
  exact h k w (Option.filter_eq_some_iff.mp hw).1

theorem mem_filter_key {z : ZSet} (f : String → Bool) (k : String) :
    k ∈ z.filter (fun k _ => f k) ↔ k ∈ z ∧ f k = true := by
  rw [mem_filter_exists, ExtTreeMap.mem_iff_isSome_getElem?, Option.isSome_iff_exists]
  constructor
  · rintro ⟨w, hw, hf⟩
    exact ⟨⟨w, hw⟩, hf⟩
  · rintro ⟨⟨w, hw⟩, hf⟩
    exact ⟨w, hw, hf⟩

theorem semiJoinSnapshot_positive (left right : ZSet) (on : JoinCondition) :
    (semiJoinSnapshot env left right on store).Positive := by
  intro k w hw
  rw [semiJoinSnapshot, ExtTreeMap.getElem?_filterMap'] at hw
  obtain ⟨lw, -, hw⟩ := Option.bind_eq_some_iff.mp hw
  split at hw <;> cases hw
  decide

theorem mem_semiJoin_iff {left right : ZSet} (hl : left.Positive) (hr : right.Positive)
    (on : JoinCondition) (k : String) :
    k ∈ semiJoinSnapshot env left right on store ↔ k ∈ left ∧ ∃ k' ∈ right,
      joinMatches env (joinField store on.leftField k) (joinField store on.rightField k') = true := by
  constructor
  · intro h
    obtain ⟨hk, k', w, hw, -, hm⟩ := mem_semiJoinSnapshot h
    exact ⟨hk, k', mem_of_getElem? hw, hm⟩
  · rintro ⟨hk, k', hk', hm⟩
    rw [ExtTreeMap.mem_iff_isSome_getElem?, Option.isSome_iff_exists] at hk hk'
    obtain ⟨w, hw⟩ := hk
    obtain ⟨w', hw'⟩ := hk'
    refine mem_filterMap_exists.mpr ⟨w, hw, ?_⟩
    rw [if_pos]
    · rfl
    · refine ⟨hl k w hw, List.any_eq_true.mpr ⟨(k', w'), ?_, ?_⟩⟩
      · exact ExtTreeMap.mem_toList_iff_getElem?_eq_some.mpr hw'
      · simp [hr k' w' hw', hm]

theorem union_positive {a b : ZSet} (ha : a.Positive) (hb : b.Positive) :
    (ZSet.add (ZSet.add ∅ a) b).Positive ∧
      ∀ k, k ∈ ZSet.add (ZSet.add ∅ a) b ↔ k ∈ a ∨ k ∈ b := by
  have hempty : (∅ : ZSet).NoZero := fun k => by simp
  have hnz := (hempty.add a).add b
  have hwt : ∀ k, (ZSet.add (ZSet.add ∅ a) b).weight k = a.weight k + b.weight k := by
    intro k
    rw [ZSet.weight_add, ZSet.weight_add]
    simp [ZSet.weight]
  have hnn : ∀ {z : ZSet}, z.Positive → ∀ k, 0 ≤ z.weight k := by
    intro z hz k
    rw [ZSet.weight]
    cases hk : z[k]? with
    | none => simp
    | some w => exact Int.le_of_lt (hz k w hk)
  have hpos : (ZSet.add (ZSet.add ∅ a) b).Positive := by
    intro k w hw
    have h := hwt k
    have hne : w ≠ 0 := fun h0 => hnz k (by rw [hw, h0])
    have := hnn ha k
    have := hnn hb k
    rw [ZSet.weight, hw, Option.getD_some] at h
    omega
  refine ⟨hpos, fun k => ?_⟩
  rw [← hpos.weight_iff, ← ha.weight_iff, ← hb.weight_iff, hwt]
  have := hnn ha k
  have := hnn hb k
  omega

theorem threshold_positive {z : ZSet} (h : z.Positive) :
    (threshold z).Positive ∧ ∀ k, k ∈ threshold z ↔ k ∈ z := by
  constructor
  · intro k w hw
    rw [threshold, ExtTreeMap.getElem?_filterMap'] at hw
    obtain ⟨lw, -, hw⟩ := Option.bind_eq_some_iff.mp hw
    split at hw <;> cases hw
    decide
  · intro k
    rw [threshold, mem_filterMap_exists, ExtTreeMap.mem_iff_isSome_getElem?,
      Option.isSome_iff_exists]
    refine exists_congr fun w => ?_
    constructor
    · exact And.left
    · intro hw
      exact ⟨hw, by rw [if_pos (h k w hw)]; rfl⟩

end Snapshots

/-! ## Reading an expression directly -/

section Reading

variable (env : Env) (links : LinkMap) (store : Store) (ctx : Option Sp00kyValue)

mutual

/-- An expression read on one row. -/
def WhereExpr.Flat (k : String) : WhereExpr → Prop
  | .cmp op field v => checkPredicate (.cmp op (Path.new field) v) k store ctx = true
  | .prefixed field pre => checkPredicate (.prefixed (Path.new field) pre) k store ctx = true
  | .paramCmp op param v => checkPredicate (.paramCmp op param v) k store ctx = true
  | .and terms => FlatAll k terms
  | .or terms => FlatAny k terms
  | .joinCandidate .. => False
  | .inSubquery .. => False

def WhereExpr.FlatAll (k : String) : List WhereExpr → Prop
  | [] => True
  | e :: es => e.Flat k ∧ FlatAll k es

def WhereExpr.FlatAny (k : String) : List WhereExpr → Prop
  | [] => False
  | e :: es => e.Flat k ∨ FlatAny k es

end

/-- Two fields of two rows are equal, by hash and by `compare_values`. -/
def SameField (left k right k' : String) : Prop :=
  joinMatches env (joinField store (Path.new left) k) (joinField store (Path.new right) k') = true

theorem splitDot_length {s link rest : String} (h : splitDot s = some (link, rest)) :
    rest.toList.length < s.toList.length := by
  unfold splitDot at h
  dsimp only at h
  split at h
  next => cases h
  next c cs hd =>
    cases h
    have hlen := congrArg List.length (List.takeWhile_append_dropWhile (p := (· != '.')) (l := s.toList))
    rw [hd, List.length_append, List.length_cons] at hlen
    rw [String.toList_ofList]
    omega

/-- `field = v` on a row of `t`: a mapped link is followed by id to a row that has the rest. -/
def LinkReads (v : Json) (t field k : String) : Prop :=
  match h : splitDot field with
  | some (link, rest) =>
    if isLinkLeaf links t (.cmp .eq field v) then
      ∃ m ∈ store.held ((links.target t link).getD ""), SameField env store link k "id" m ∧
        LinkReads v ((links.target t link).getD "") rest m
    else checkPredicate (.cmp .eq (Path.new field) v) k store ctx = true
  | none => checkPredicate (.cmp .eq (Path.new field) v) k store ctx = true
termination_by field.toList.length
decreasing_by exact splitDot_length h

/-- `left IN (SELECT VALUE proj FROM u WHERE ..)` for the rows of `u` that `cond` admits. A
    `link.field` projection goes through the table named like the link. -/
def SubqueryReads (left proj u : String) (cond : String → Prop) (k : String) : Prop :=
  match splitDot proj with
  | some (link, field) => ∃ m, (m ∈ store.held link ∧
      ∃ k', (k' ∈ store.held u ∧ cond k') ∧ SameField env store "id" m link k') ∧
      SameField env store left k field m
  | none => ∃ k', (k' ∈ store.held u ∧ cond k') ∧ SameField env store left k proj k'

mutual

/-- An expression read on a row of a table. -/
def WhereExpr.Reads (t k : String) : WhereExpr → Prop
  | .cmp op field v =>
    if op = .eq then LinkReads env links store ctx v t field k
    else checkPredicate (.cmp op (Path.new field) v) k store ctx = true
  | .prefixed field pre => checkPredicate (.prefixed (Path.new field) pre) k store ctx = true
  | .paramCmp op param v => checkPredicate (.paramCmp op param v) k store ctx = true
  | .and terms => ReadsAll t k terms
  | .or terms => ReadsAny t k terms
  | .joinCandidate .. => False
  | .inSubquery left proj u none => SubqueryReads env store left proj u (fun _ => True) k
  | .inSubquery left proj u (some w) =>
    SubqueryReads env store left proj u (fun k' => WhereExpr.Reads u k' w) k

def WhereExpr.ReadsAll (t k : String) : List WhereExpr → Prop
  | [] => True
  | e :: es => WhereExpr.Reads t k e ∧ ReadsAll t k es

def WhereExpr.ReadsAny (t k : String) : List WhereExpr → Prop
  | [] => False
  | e :: es => WhereExpr.Reads t k e ∨ ReadsAny t k es

end

/-- What a raw plan selects, with a reading for the filters right on a scan. -/
def RawPlan.Means (onScan : String → WhereExpr → String → Prop) : RawPlan → String → Prop
  | .scan t, k => k ∈ store.held t
  | .filter (.scan t) e, k => k ∈ store.held t ∧ onScan t e k
  | .filter input e, k => RawPlan.Means onScan input k ∧ e.Flat store ctx k
  | .semiJoin l r lf rf, k => RawPlan.Means onScan l k ∧
      ∃ k', RawPlan.Means onScan r k' ∧ SameField env store lf k rf k'
  | .union l r, k => RawPlan.Means onScan l k ∨ RawPlan.Means onScan r k
  | .distinct input, k => RawPlan.Means onScan input k
  | _, _ => False

/-- What a raw plan selects as it is. -/
def RawPlan.Shows : RawPlan → String → Prop :=
  RawPlan.Means env store ctx fun _ e k => e.Flat store ctx k

/-- What a raw plan selects once its links are lowered. -/
def RawPlan.Follows : RawPlan → String → Prop :=
  RawPlan.Means env store ctx fun t e k => e.Reads env links store ctx t k

end Reading

mutual

/-- No `IN` marker and no join candidate in the tree, and no empty `OR`. -/
def WhereExpr.plain : WhereExpr → Bool
  | .cmp .. => true
  | .prefixed .. => true
  | .paramCmp .. => true
  | .joinCandidate .. => false
  | .inSubquery .. => false
  | .and terms => plainAll terms
  | .or terms => !terms.isEmpty && plainAll terms

def WhereExpr.plainAll : List WhereExpr → Bool
  | [] => true
  | e :: es => e.plain && plainAll es

end

/-- The plans a condition is lowered to. -/
def RawPlan.selects : RawPlan → Bool
  | .scan _ => true
  | .filter input e => input.selects && e.plain
  | .semiJoin l r _ _ => l.selects && r.selects
  | .union l r => l.selects && r.selects
  | .distinct input => input.selects
  | _ => false

theorem RawPlan.selectsInduction {P : RawPlan → Prop} (scan : ∀ t, P (.scan t))
    (filter : ∀ input e, input.selects = true → e.plain = true → P input → P (.filter input e))
    (semiJoin : ∀ l r lf rf, l.selects = true → r.selects = true → P l → P r →
      P (.semiJoin l r lf rf))
    (union : ∀ l r, l.selects = true → r.selects = true → P l → P r → P (.union l r))
    (distinct : ∀ input, input.selects = true → P input → P (.distinct input)) :
    ∀ plan : RawPlan, plan.selects = true → P plan
  | .scan t, _ => scan t
  | .filter input e, h => by
    rw [RawPlan.selects, Bool.and_eq_true] at h
    exact filter input e h.1 h.2
      (RawPlan.selectsInduction scan filter semiJoin union distinct input h.1)
  | .semiJoin l r lf rf, h => by
    rw [RawPlan.selects, Bool.and_eq_true] at h
    exact semiJoin l r lf rf h.1 h.2
      (RawPlan.selectsInduction scan filter semiJoin union distinct l h.1)
      (RawPlan.selectsInduction scan filter semiJoin union distinct r h.2)
  | .union l r, h => by
    rw [RawPlan.selects, Bool.and_eq_true] at h
    exact union l r h.1 h.2 (RawPlan.selectsInduction scan filter semiJoin union distinct l h.1)
      (RawPlan.selectsInduction scan filter semiJoin union distinct r h.2)
  | .distinct input, h =>
    distinct input h (RawPlan.selectsInduction scan filter semiJoin union distinct input h)

section Decoding

variable {env : Env} {store : Store} {ctx : Option Sp00kyValue}

mutual

theorem WhereExpr.decode_flat {e : WhereExpr} {p : Predicate} (h : e.decode = some p) (k : String) :
    checkPredicate p k store ctx = true ↔ e.Flat store ctx k := by
  cases e with
  | cmp op field v | prefixed field pre | paramCmp op param v => cases h; exact Iff.rfl
  | joinCandidate l r | inSubquery l pr u w => cases h
  | and terms =>
    rw [WhereExpr.decode, Option.map_eq_some_iff] at h
    obtain ⟨ps, hps, rfl⟩ := h
    rw [checkPredicate, Predicate.eval, WhereExpr.Flat]
    exact (WhereExpr.decodeAll_flat hps k).1
  | or terms =>
    rw [WhereExpr.decode, Option.map_eq_some_iff] at h
    obtain ⟨ps, hps, rfl⟩ := h
    rw [checkPredicate, Predicate.eval, WhereExpr.Flat]
    exact (WhereExpr.decodeAll_flat hps k).2

theorem WhereExpr.decodeAll_flat {es : List WhereExpr} {ps : List Predicate}
    (h : WhereExpr.decodeAll es = some ps) (k : String) :
    (Predicate.evalAll k (store.getRowByKeyOrDeleted k) ctx ps = true ↔
        WhereExpr.FlatAll store ctx k es) ∧
      (Predicate.evalAny k (store.getRowByKeyOrDeleted k) ctx ps = true ↔
        WhereExpr.FlatAny store ctx k es) := by
  cases es with
  | nil =>
    cases h
    simp [Predicate.evalAll, Predicate.evalAny, WhereExpr.FlatAll, WhereExpr.FlatAny]
  | cons e es =>
    rw [WhereExpr.decodeAll] at h
    split at h
    next p qs hp hqs =>
      cases h
      obtain ⟨h1, h2⟩ := WhereExpr.decodeAll_flat hqs k
      have he : p.eval k (store.getRowByKeyOrDeleted k) ctx = true ↔ e.Flat store ctx k :=
        WhereExpr.decode_flat hp k
      rw [Predicate.evalAll, Predicate.evalAny, WhereExpr.FlatAll, WhereExpr.FlatAny,
        Bool.and_eq_true, Bool.or_eq_true, h1, h2, he]
      exact ⟨Iff.rfl, Iff.rfl⟩
    next => cases h

end

/-- The rows of a filter that reads its predicate flat. -/
theorem shows_filter (input : RawPlan) (e : WhereExpr) (k : String) :
    (RawPlan.filter input e).Shows env store ctx k ↔
      input.Shows env store ctx k ∧ e.Flat store ctx k := by
  cases input <;> rfl

/-- The snapshot of a decoded plan selects what the raw plan shows. -/
theorem RawPlan.decode_shows {plan : RawPlan} (hs : plan.selects = true) :
    ∀ p, plan.decode = some p → (p.snapshot env store ctx).Positive ∧
      ∀ k, k ∈ p.snapshot env store ctx ↔ plan.Shows env store ctx k := by
  refine RawPlan.selectsInduction (P := fun plan => ∀ p, plan.decode = some p →
    (p.snapshot env store ctx).Positive ∧
      ∀ k, k ∈ p.snapshot env store ctx ↔ plan.Shows env store ctx k) ?_ ?_ ?_ ?_ ?_ plan hs
  · intro t p h
    cases h
    exact ⟨held_positive t, fun k => Iff.rfl⟩
  · intro input e _ _ ih p h
    rw [RawPlan.decode] at h
    split at h
    next i q hi hq =>
      cases h
      obtain ⟨h1, h2⟩ := ih i hi
      refine ⟨h1.filter _, fun k => ?_⟩
      rw [shows_filter, ← h2 k, ← WhereExpr.decode_flat hq k]
      exact mem_filter_key _ k
    next => cases h
  · intro l r lf rf _ _ ihl ihr p h
    rw [RawPlan.decode] at h
    split at h
    next l' r' hl hr =>
      cases h
      obtain ⟨l1, l2⟩ := ihl l' hl
      obtain ⟨r1, r2⟩ := ihr r' hr
      refine ⟨semiJoinSnapshot_positive _ _ _, fun k => (mem_semiJoin_iff l1 r1 _ k).trans ?_⟩
      exact and_congr (l2 k) (exists_congr fun k' => and_congr (r2 k') Iff.rfl)
    next => cases h
  · intro l r _ _ ihl ihr p h
    rw [RawPlan.decode] at h
    split at h
    next l' r' hl hr =>
      cases h
      obtain ⟨l1, l2⟩ := ihl l' hl
      obtain ⟨r1, r2⟩ := ihr r' hr
      obtain ⟨h1, h2⟩ := union_positive l1 r1
      exact ⟨h1, fun k => (h2 k).trans (or_congr (l2 k) (r2 k))⟩
    next => cases h
  · intro input _ ih p h
    rw [RawPlan.decode, Option.map_eq_some_iff] at h
    obtain ⟨i, hi, rfl⟩ := h
    obtain ⟨h1, h2⟩ := ih i hi
    obtain ⟨t1, t2⟩ := threshold_positive h1
    exact ⟨t1, fun k => (t2 k).trans (h2 k)⟩

end Decoding

end Sp00ky.Ssp
