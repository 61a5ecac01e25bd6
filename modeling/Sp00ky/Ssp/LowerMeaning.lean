/-
  What a lowered `WHERE` selects (`lower_where_to_plan`).

  The conjuncts with a subquery are lowered one over the other, each over the filter of the
  flat conjuncts. A link leaf among them is lowered over that filter and not over the scan,
  where the later pass does not find it. The plan selects the rows of its expression as long
  as every link leaf ends up right on the scan (`WhereExpr.linksOnScan`).
-/
import Sp00ky.Ssp.LowerLinks

namespace Sp00ky.Ssp

open Std Lib

/-! ## Lowering a condition -/

section Below

variable (env : Env) (links : LinkMap) (store : Store) (ctx : Option Sp00kyValue) (t k : String)

/-- How a filter reads an expression: right on the scan its links are followed. -/
def FilterReads (onScan : Bool) (e : WhereExpr) : Prop :=
  if onScan then e.Reads env links store ctx t k else e.Flat store ctx k

mutual

/-- How a lowered expression is read over a plan. -/
def WhereExpr.ReadsOver (onScan : Bool) : WhereExpr → Prop
  | .or terms => ReadsOverAny onScan terms
  | .and terms =>
    (∀ e ∈ terms.filter fun e => !e.containsSubquery,
      FilterReads env links store ctx t k onScan e) ∧
      ReadsOverAll (onScan && (terms.filter fun e => !e.containsSubquery).isEmpty) terms
  | .inSubquery left proj u w =>
    WhereExpr.Reads env links store ctx t k (.inSubquery left proj u w)
  | e => FilterReads env links store ctx t k onScan e

def WhereExpr.ReadsOverAny (onScan : Bool) : List WhereExpr → Prop
  | [] => False
  | e :: es => e.ReadsOver onScan ∨ ReadsOverAny onScan es

/-- The conjuncts with a subquery, in order: only the first can be right on the scan. -/
def WhereExpr.ReadsOverAll (onScan : Bool) : List WhereExpr → Prop
  | [] => True
  | e :: es =>
    if e.containsSubquery then e.ReadsOver onScan ∧ ReadsOverAll false es
    else ReadsOverAll onScan es

end

end Below

mutual

/-- Comparisons and subqueries with a plain `WHERE`, under `AND` and non-empty `OR`. -/
def WhereExpr.shaped : WhereExpr → Bool
  | .cmp .. => true
  | .prefixed .. => true
  | .paramCmp .. => true
  | .joinCandidate .. => false
  | .inSubquery _ _ _ none => true
  | .inSubquery _ _ _ (some w) => w.plain
  | .and terms => shapedAll terms
  | .or terms => !terms.isEmpty && shapedAll terms

def WhereExpr.shapedAll : List WhereExpr → Bool
  | [] => true
  | e :: es => e.shaped && shapedAll es

end

section Conditions

variable {env : Env} {links : LinkMap} {store : Store} {ctx : Option Sp00kyValue} {t : String}

theorem shapedAll_iff {es : List WhereExpr} :
    WhereExpr.shapedAll es = true ↔ ∀ e ∈ es, e.shaped = true := by
  induction es with
  | nil => simp [WhereExpr.shapedAll]
  | cons e es ih => rw [WhereExpr.shapedAll, Bool.and_eq_true, ih, List.forall_mem_cons]

theorem containsSubqueryAny_iff {es : List WhereExpr} :
    WhereExpr.containsSubqueryAny es = true ↔ ∃ e ∈ es, e.containsSubquery = true := by
  induction es with
  | nil => simp [WhereExpr.containsSubqueryAny]
  | cons e es ih =>
    rw [WhereExpr.containsSubqueryAny, Bool.or_eq_true, ih, List.exists_mem_cons_iff]

mutual

/-- Without a subquery in it, a condition is plain. -/
theorem plain_of_shaped {e : WhereExpr} (h : e.shaped = true) (hs : e.containsSubquery = false) :
    e.plain = true := by
  cases e with
  | and terms => exact plainAll_of_shaped h hs
  | or terms =>
    rw [WhereExpr.shaped, Bool.and_eq_true] at h
    rw [WhereExpr.plain, Bool.and_eq_true]
    exact ⟨h.1, plainAll_of_shaped h.2 hs⟩
  | cmp => rfl
  | prefixed => rfl
  | paramCmp => rfl
  | joinCandidate => cases h
  | inSubquery => cases hs

theorem plainAll_of_shaped {es : List WhereExpr} (h : WhereExpr.shapedAll es = true)
    (hs : WhereExpr.containsSubqueryAny es = false) : WhereExpr.plainAll es = true := by
  cases es with
  | nil => rfl
  | cons e es =>
    rw [WhereExpr.shapedAll, Bool.and_eq_true] at h
    rw [WhereExpr.containsSubqueryAny, Bool.or_eq_false_iff] at hs
    rw [WhereExpr.plainAll, plain_of_shaped h.1 hs.1, plainAll_of_shaped h.2 hs.2]
    rfl

end

theorem flatAll_iff {k : String} {terms : List WhereExpr} :
    WhereExpr.FlatAll store ctx k terms ↔ ∀ e ∈ terms, e.Flat store ctx k := by
  induction terms with
  | nil => simp [WhereExpr.FlatAll]
  | cons e es ih => rw [WhereExpr.FlatAll, ih, List.forall_mem_cons]

theorem filterReads_oneOr {terms : List WhereExpr} (hne : terms ≠ []) (onScan : Bool) (k : String) :
    FilterReads env links store ctx t k onScan (oneOr .and terms) ↔
      ∀ e ∈ terms, FilterReads env links store ctx t k onScan e := by
  cases onScan with
  | true => exact oneOr_and_reads hne k
  | false =>
    unfold oneOr
    split
    next e => simp
    next => exact flatAll_iff

variable {base : RawPlan}

theorem follows_filterReads (hb : base.Over t) (e : WhereExpr) (k : String) :
    (RawPlan.filter base e).Follows env links store ctx k ↔
      base.Follows env links store ctx k ∧
        FilterReads env links store ctx t k base.isScan e := by
  rcases hb with rfl | hb
  · exact Iff.rfl
  · rw [hb]
    exact RawPlan.means_filter hb e k

theorem follows_filterReads_all (hb : base.Over t) (preds : List WhereExpr)
    (k : String) :
    (filterBy base preds).Follows env links store ctx k ↔
      base.Follows env links store ctx k ∧
        ∀ e ∈ preds, FilterReads env links store ctx t k base.isScan e := by
  unfold filterBy
  cases preds with
  | nil => simp
  | cons e es =>
    rw [List.isEmpty_cons, if_neg (by simp), follows_filterReads hb,
      filterReads_oneOr (by simp)]

theorem filterBy_isScan (base : RawPlan) (preds : List WhereExpr) :
    (filterBy base preds).isScan = (base.isScan && preds.isEmpty) := by
  unfold filterBy
  cases preds with
  | nil => simp
  | cons e es => rw [List.isEmpty_cons, if_neg (by simp), Bool.and_false]; rfl

mutual

/-- What a condition with a subquery is lowered to is a join or a `Distinct`. -/
theorem joined_lowerWhere {e : WhereExpr} (base : RawPlan) (hs : e.containsSubquery = true) :
    (lowerWhereToPlan base e).joined = true := by
  cases e with
  | or terms => exact joined_distinctUnion _ _
  | and terms =>
    rw [lowerWhereToPlan]
    exact joined_lowerConjuncts _ (.inr (containsSubqueryAny_iff.mp hs))
  | inSubquery left proj u w => exact joined_semijoin _ _ _ _ _
  | cmp | prefixed | paramCmp | joinCandidate => cases hs

theorem joined_lowerConjuncts {es : List WhereExpr} (base : RawPlan)
    (h : base.joined = true ∨ ∃ e ∈ es, e.containsSubquery = true) :
    (lowerConjuncts base es).joined = true := by
  cases es with
  | nil => simpa [lowerConjuncts] using h
  | cons e es =>
    rw [lowerConjuncts]
    rw [List.exists_mem_cons_iff] at h
    split
    next hs => exact joined_lowerConjuncts _ (.inl (joined_lowerWhere base hs))
    next hs => exact joined_lowerConjuncts _ (h.imp_right fun h => h.resolve_left hs)

end

mutual

/-- A lowered condition selects the rows it is read to hold on. -/
theorem follows_lowerWhere {e : WhereExpr} {base : RawPlan} (hb : base.Over t)
    (h : e.shaped = true) (k : String) :
    (lowerWhereToPlan base e).Follows env links store ctx k ↔
      base.Follows env links store ctx k ∧ e.ReadsOver env links store ctx t k base.isScan := by
  cases e with
  | or terms =>
    rw [WhereExpr.shaped, Bool.and_eq_true, Bool.not_eq_true', List.isEmpty_eq_false_iff] at h
    have hne : lowerBranches base terms ≠ [] := by
      cases terms with
      | nil => exact absurd rfl h.1
      | cons e es => rw [lowerBranches]; simp
    rw [lowerWhereToPlan, follows_distinctUnion _ hne, follows_lowerBranches hb h.2,
      WhereExpr.ReadsOver]
  | and terms =>
    rw [lowerWhereToPlan, follows_lowerConjuncts (filterBy_over hb _) h,
      follows_filterReads_all hb, filterBy_isScan, WhereExpr.ReadsOver, and_assoc]
  | inSubquery left proj u w =>
    rw [lowerWhereToPlan, WhereExpr.ReadsOver]
    exact follows_semijoin base left proj u w k
  | cmp op field v | prefixed field pre | paramCmp op param v => exact follows_filterReads hb _ k
  | joinCandidate l r => cases h

theorem follows_lowerBranches {es : List WhereExpr} {base : RawPlan} (hb : base.Over t)
    (h : WhereExpr.shapedAll es = true) (k : String) :
    (∃ q ∈ lowerBranches base es, q.Follows env links store ctx k) ↔
      base.Follows env links store ctx k ∧
        WhereExpr.ReadsOverAny env links store ctx t k base.isScan es := by
  cases es with
  | nil => simp [lowerBranches, WhereExpr.ReadsOverAny]
  | cons e es =>
    rw [WhereExpr.shapedAll, Bool.and_eq_true] at h
    rw [lowerBranches, List.exists_mem_cons_iff, follows_lowerWhere hb h.1,
      follows_lowerBranches hb h.2, WhereExpr.ReadsOverAny, and_or_left]

theorem follows_lowerConjuncts {es : List WhereExpr} {base : RawPlan} (hb : base.Over t)
    (h : WhereExpr.shapedAll es = true) (k : String) :
    (lowerConjuncts base es).Follows env links store ctx k ↔
      base.Follows env links store ctx k ∧
        WhereExpr.ReadsOverAll env links store ctx t k base.isScan es := by
  cases es with
  | nil => simp [lowerConjuncts, WhereExpr.ReadsOverAll]
  | cons e es =>
    rw [WhereExpr.shapedAll, Bool.and_eq_true] at h
    rw [lowerConjuncts, WhereExpr.ReadsOverAll]
    split
    next hs =>
      have hj := joined_lowerWhere base hs
      rw [follows_lowerConjuncts (RawPlan.joined_over hj) h.2, follows_lowerWhere hb h.1,
        RawPlan.joined_scan hj, and_assoc]
    next => exact follows_lowerConjuncts hb h.2 k

end

/-! ## The plans are well formed -/

theorem selects_filter {e : WhereExpr} (hb : base.selects = true)
    (he : e.plain = true) : (RawPlan.filter base e).selects = true := by
  rw [RawPlan.selects, hb, he]
  rfl

theorem selects_filterBy (hb : base.selects = true) {preds : List WhereExpr}
    (h : ∀ e ∈ preds, e.plain = true) : (filterBy base preds).selects = true := by
  unfold filterBy
  split
  · exact hb
  · exact selects_filter hb (oneOr_plain h)

theorem selects_semijoin (hb : base.selects = true) {left proj u : String}
    {condition : Option WhereExpr} (h : ∀ w, condition = some w → w.plain = true) :
    (semijoinForSubquery base left proj u condition).selects = true := by
  unfold semijoinForSubquery
  extract_lets inner
  have hi : inner.selects = true := by
    cases condition with
    | none => rfl
    | some w => exact selects_filter rfl (h w rfl)
  split
  · rw [RawPlan.selects, hb, RawPlan.selects, hi]
    rfl
  · rw [RawPlan.selects, hb, hi]
    rfl

theorem selects_distinctUnion (hb : base.selects = true) {ps : List RawPlan}
    (h : ∀ q ∈ ps, q.selects = true) : (distinctUnion base ps).selects = true := by
  cases ps with
  | nil => exact hb
  | cons p ps =>
    show (ps.foldl RawPlan.union p).selects = true
    induction ps generalizing p with
    | nil => exact h p (List.mem_singleton_self p)
    | cons q ps ih =>
      refine ih (.union p q) fun r hr => ?_
      rcases List.mem_cons.mp hr with rfl | hr
      · rw [RawPlan.selects, h p (by simp), h q (by simp)]
        rfl
      · exact h r (by simp [hr])

mutual

theorem selects_lowerWhere {e : WhereExpr} {base : RawPlan} (hb : base.selects = true)
    (h : e.shaped = true) : (lowerWhereToPlan base e).selects = true := by
  cases e with
  | or terms =>
    rw [WhereExpr.shaped, Bool.and_eq_true] at h
    exact selects_distinctUnion hb (selects_lowerBranches hb h.2)
  | and terms =>
    rw [lowerWhereToPlan]
    refine selects_lowerConjuncts (selects_filterBy hb fun e he => ?_) h
    have hm := List.mem_filter.mp he
    exact plain_of_shaped (shapedAll_iff.mp h e hm.1) (by simpa using hm.2)
  | inSubquery left proj u w =>
    rw [lowerWhereToPlan]
    refine selects_semijoin hb fun w' hw => ?_
    subst hw
    exact h
  | cmp op field v | prefixed field pre | paramCmp op param v => exact selects_filter hb rfl
  | joinCandidate l r => cases h

theorem selects_lowerBranches {es : List WhereExpr} {base : RawPlan} (hb : base.selects = true)
    (h : WhereExpr.shapedAll es = true) : ∀ q ∈ lowerBranches base es, q.selects = true := by
  cases es with
  | nil => simp [lowerBranches]
  | cons e es =>
    rw [WhereExpr.shapedAll, Bool.and_eq_true] at h
    rw [lowerBranches, List.forall_mem_cons]
    exact ⟨selects_lowerWhere hb h.1, selects_lowerBranches hb h.2⟩

theorem selects_lowerConjuncts {es : List WhereExpr} {base : RawPlan} (hb : base.selects = true)
    (h : WhereExpr.shapedAll es = true) : (lowerConjuncts base es).selects = true := by
  cases es with
  | nil => exact hb
  | cons e es =>
    rw [WhereExpr.shapedAll, Bool.and_eq_true] at h
    rw [lowerConjuncts]
    split
    · exact selects_lowerConjuncts (selects_lowerWhere hb h.1) h.2
    · exact selects_lowerConjuncts hb h.2

end

end Conditions

/-! ## Where the two readings agree -/

section Agreement

variable (links : LinkMap) (t : String)

mutual

/-- Every link leaf of a condition ends up in a filter right on the scan: none sits in a branch
    that is lowered over a filter or a join. -/
def WhereExpr.linksOnScan (onScan : Bool) : WhereExpr → Bool
  | .or terms => linksOnScanAny onScan terms
  | .and terms =>
    ((terms.filter fun e => !e.containsSubquery).all
        fun e => onScan || !containsLinkLeaf links t e) &&
      linksOnScanAll (onScan && (terms.filter fun e => !e.containsSubquery).isEmpty) terms
  | .inSubquery .. => true
  | e => onScan || !containsLinkLeaf links t e

def WhereExpr.linksOnScanAny (onScan : Bool) : List WhereExpr → Bool
  | [] => true
  | e :: es => e.linksOnScan onScan && linksOnScanAny onScan es

def WhereExpr.linksOnScanAll (onScan : Bool) : List WhereExpr → Bool
  | [] => true
  | e :: es =>
    if e.containsSubquery then e.linksOnScan onScan && linksOnScanAll false es
    else linksOnScanAll onScan es

end

variable {links t} {env : Env} {store : Store} {ctx : Option Sp00kyValue}

theorem filterReads_iff {e : WhereExpr} (hp : e.plain = true) {onScan : Bool}
    (h : (onScan || !containsLinkLeaf links t e) = true) (k : String) :
    FilterReads env links store ctx t k onScan e ↔ e.Reads env links store ctx t k := by
  cases onScan with
  | true => exact Iff.rfl
  | false =>
    rw [Bool.false_or, Bool.not_eq_true', ← containsMarker_plain hp] at h
    exact (reads_flat h k).symm

mutual

theorem readsOver_iff {e : WhereExpr} (hs : e.shaped = true) {onScan : Bool}
    (h : e.linksOnScan links t onScan = true) (k : String) :
    e.ReadsOver env links store ctx t k onScan ↔ e.Reads env links store ctx t k := by
  cases e with
  | or terms =>
    rw [WhereExpr.shaped, Bool.and_eq_true] at hs
    rw [WhereExpr.ReadsOver, WhereExpr.Reads, readsAny_iff]
    exact readsOverAny_iff hs.2 h k
  | and terms =>
    rw [WhereExpr.linksOnScan, Bool.and_eq_true, List.all_eq_true] at h
    rw [WhereExpr.ReadsOver, WhereExpr.Reads, readsAll_iff, readsOverAll_iff hs h.2]
    have hf : ∀ e ∈ terms.filter fun e => !e.containsSubquery,
        (FilterReads env links store ctx t k onScan e ↔ e.Reads env links store ctx t k) := by
      intro e he
      have hm := List.mem_filter.mp he
      exact filterReads_iff (plain_of_shaped (shapedAll_iff.mp hs e hm.1) (by simpa using hm.2))
        (h.1 e he) k
    rw [forall₂_congr hf]
    constructor
    · rintro ⟨h1, h2⟩ e he
      cases hq : e.containsSubquery with
      | true => exact h2 e he hq
      | false => exact h1 e (List.mem_filter.mpr ⟨he, by rw [hq]; rfl⟩)
    · exact fun h => ⟨fun e he => h e (List.mem_filter.mp he).1, fun e he _ => h e he⟩
  | inSubquery left proj u w => rw [WhereExpr.ReadsOver]
  | cmp op field v => exact filterReads_iff (e := .cmp op field v) rfl h k
  | prefixed field pre => exact filterReads_iff (e := .prefixed field pre) rfl h k
  | paramCmp op param v => exact filterReads_iff (e := .paramCmp op param v) rfl h k
  | joinCandidate l r => cases hs

theorem readsOverAny_iff {es : List WhereExpr} (hs : WhereExpr.shapedAll es = true) {onScan : Bool}
    (h : WhereExpr.linksOnScanAny links t onScan es = true) (k : String) :
    WhereExpr.ReadsOverAny env links store ctx t k onScan es ↔
      ∃ e ∈ es, e.Reads env links store ctx t k := by
  cases es with
  | nil => simp [WhereExpr.ReadsOverAny]
  | cons e es =>
    rw [WhereExpr.shapedAll, Bool.and_eq_true] at hs
    rw [WhereExpr.linksOnScanAny, Bool.and_eq_true] at h
    rw [WhereExpr.ReadsOverAny, List.exists_mem_cons_iff, readsOver_iff hs.1 h.1,
      readsOverAny_iff hs.2 h.2]

theorem readsOverAll_iff {es : List WhereExpr} (hs : WhereExpr.shapedAll es = true) {onScan : Bool}
    (h : WhereExpr.linksOnScanAll links t onScan es = true) (k : String) :
    WhereExpr.ReadsOverAll env links store ctx t k onScan es ↔
      ∀ e ∈ es, e.containsSubquery = true → e.Reads env links store ctx t k := by
  cases es with
  | nil => simp [WhereExpr.ReadsOverAll]
  | cons e es =>
    rw [WhereExpr.shapedAll, Bool.and_eq_true] at hs
    rw [WhereExpr.ReadsOverAll, List.forall_mem_cons]
    cases hq : e.containsSubquery with
    | true =>
      rw [WhereExpr.linksOnScanAll, if_pos hq, Bool.and_eq_true] at h
      rw [if_pos rfl, readsOver_iff hs.1 h.1, readsOverAll_iff hs.2 h.2]
      simp
    | false =>
      rw [WhereExpr.linksOnScanAll, if_neg (by simp [hq])] at h
      rw [if_neg (by simp), readsOverAll_iff hs.2 h]
      simp

end

end Agreement

/-! ## The plan of a query -/

section Whole

variable {env : Env} {links : LinkMap} {store : Store} {ctx : Option Sp00kyValue} {t : String}

/-- The conditions `wrap_conditions` goes through. -/
def WhereExpr.conjuncts : WhereExpr → List WhereExpr
  | .and terms => terms
  | e => [e]

theorem conjuncts_plain {e : WhereExpr} (h : e.plain = true) :
    ∀ e' ∈ e.conjuncts, e'.plain = true := by
  cases e with
  | and terms => exact plainAll_iff.mp h
  | cmp | prefixed | paramCmp | or terms => simpa [WhereExpr.conjuncts] using h
  | joinCandidate | inSubquery => cases h

theorem conjuncts_reads (e : WhereExpr) (k : String) :
    (∀ e' ∈ e.conjuncts, e'.Reads env links store ctx t k) ↔ e.Reads env links store ctx t k := by
  cases e with
  | and terms => rw [WhereExpr.Reads, readsAll_iff]; rfl
  | cmp | prefixed | paramCmp | joinCandidate | inSubquery | or terms => simp [WhereExpr.conjuncts]

theorem foldl_joins_plain (f : RawPlan → String → String → RawPlan) (input : RawPlan)
    {terms : List WhereExpr} (h : ∀ e ∈ terms, e.plain = true) :
    terms.foldl (fun acc e => match e with
      | .joinCandidate l r => f acc l r
      | _ => acc) input = input := by
  induction terms with
  | nil => rfl
  | cons e es ih =>
    rw [List.forall_mem_cons] at h
    rw [List.foldl_cons]
    cases e <;> first | exact ih h.2 | cases h.1

/-- Without join candidates, `wrap_conditions` is one filter. -/
theorem wrapConditions_plain (input : RawPlan) {e : WhereExpr} (h : e.plain = true) :
    wrapConditions input e = filterBy input e.conjuncts := by
  have hc := conjuncts_plain h
  have hf : e.conjuncts.filter (fun e => match e with
      | .joinCandidate .. => false
      | _ => true) = e.conjuncts := by
    rw [List.filter_eq_self]
    intro e' he'
    have := hc e' he'
    cases e' <;> first | rfl | cases this
  have hw : wrapConditions input e = filterBy (e.conjuncts.foldl (fun acc e => match e with
      | .joinCandidate l r => joinFor acc l r
      | _ => acc) input) (e.conjuncts.filter (fun e => match e with
      | .joinCandidate .. => false
      | _ => true)) := by
    cases e <;> rfl
  rw [hw, hf, foldl_joins_plain joinFor input hc]

/-- How the plan of a query reads its condition. -/
def WhereExpr.QueryReads (env : Env) (links : LinkMap) (store : Store) (ctx : Option Sp00kyValue)
    (t k : String) (e : WhereExpr) : Prop :=
  if e.containsSubquery then e.ReadsOver env links store ctx t k true
  else e.Reads env links store ctx t k

/-- A lowered query selects the rows of its table on which its condition is read to hold. -/
theorem snapshot_lowered {e : WhereExpr} (hs : e.shaped = true) {p : OperatorPlan}
    (hd : (lowerLinkTraversals links (buildPlan [.all] t (some e) none none none)).decode = some p)
    (k : String) :
    k ∈ p.snapshot env store ctx ↔
      k ∈ store.held t ∧ e.QueryReads env links store ctx t k := by
  have key : ∀ plan : RawPlan, plan.selects = true →
      (lowerLinkTraversals links plan).decode = some p →
      (k ∈ p.snapshot env store ctx ↔ plan.Follows env links store ctx k) := by
    intro plan hsel hp
    have hl : plan.LinksLowered env links store ctx (lowerLinkTraversals links plan) :=
      linksLowered_traversals hsel
    rw [(RawPlan.decode_shows hl.selects p hp).2 k, hl.shows k]
  rw [WhereExpr.QueryReads]
  cases hq : e.containsSubquery with
  | true =>
    have hb : buildPlan [.all] t (some e) none none none = lowerWhereToPlan (.scan t) e := by
      simp [buildPlan, hq]
    rw [hb] at hd
    rw [if_pos rfl, key _ (selects_lowerWhere rfl hs) hd, follows_lowerWhere (.inl rfl) hs]
    exact Iff.rfl
  | false =>
    have hp := plain_of_shaped hs hq
    have hb : buildPlan [.all] t (some e) none none none = filterBy (.scan t) e.conjuncts := by
      rw [← wrapConditions_plain _ hp]
      simp [buildPlan, hq]
    rw [hb] at hd
    rw [if_neg (by simp), key _ (selects_filterBy rfl (conjuncts_plain hp)) hd,
      follows_filterReads_all (.inl rfl)]
    exact and_congr Iff.rfl (conjuncts_reads e k)

end Whole

/-- A lowered `WHERE` selects the rows its expression is true on exactly when no row of the table
    reads differently once the link leaves below a filter or a join are taken flat; so it does
    when every link leaf is lowered on the scan. -/
theorem lowered_where_meaning (env : Env) (links : LinkMap) (store : Store)
    (ctx : Option Sp00kyValue) (t : String) (e : WhereExpr) (hs : e.shaped = true)
    (p : OperatorPlan)
    (hd : (lowerLinkTraversals links (buildPlan [.all] t (some e) none none none)).decode =
      some p) :
    ((∀ k, k ∈ p.snapshot env store ctx ↔
        k ∈ store.held t ∧ e.Reads env links store ctx t k) ↔
      ∀ k ∈ store.held t,
        (e.QueryReads env links store ctx t k ↔ e.Reads env links store ctx t k)) ∧
    ((e.containsSubquery = true → e.linksOnScan links t true = true) →
      ∀ k, k ∈ p.snapshot env store ctx ↔
        k ∈ store.held t ∧ e.Reads env links store ctx t k) := by
  have hsel : ∀ k, k ∈ p.snapshot env store ctx ↔
      k ∈ store.held t ∧ e.QueryReads env links store ctx t k := snapshot_lowered hs hd
  refine ⟨?_, fun hl k => ?_⟩
  · constructor
    · intro h k hk
      have := (hsel k).symm.trans (h k)
      rwa [and_congr_right_iff, forall_prop_of_true hk] at this
    · intro h k
      rw [hsel k, and_congr_right_iff]
      exact h k
  · rw [hsel k, WhereExpr.QueryReads]
    split
    next hq => rw [readsOver_iff hs (hl hq)]
    next => exact Iff.rfl

/-- Tasks that are open and either wait for a row of `u` or hang on a document with an owner. -/
def openTasks : WhereExpr :=
  .and [.cmp .eq "status" (.str "open"),
    .or [.inSubquery "waits" "name" "u" none, .cmp .eq "doc.owner" (.str "o")]]

/-- Tasks that wait for a row of `u` or hang on a document with an owner. -/
def waitingTasks : WhereExpr :=
  .or [.inSubquery "waits" "name" "u" none, .cmp .eq "doc.owner" (.str "o")]

/-- A task links to a document. -/
def taskLinks : LinkMap :=
  ExtTreeMap.insert ∅ "task" (ExtTreeMap.insert ∅ "doc" "document")

/-- A task and its document. -/
def taskStored : Circuit :=
  (Circuit.new.step Env.sample asWritten .sorted
    [⟨"task", .create, "1", .object [("status", .str "open"), ("waits", .str "x"),
        ("doc", .str "document:1")]⟩,
      ⟨"document", .create, "1", .object [("owner", .str "o"), ("id", .str "document:1")]⟩]).1

/-- The plan of a condition on tasks. -/
def taskPlan (e : WhereExpr) : Option OperatorPlan :=
  (lowerLinkTraversals taskLinks (buildPlan [.all] "task" (some e) none none none)).decode

/-- The document's owner is found along the link. -/
theorem taskStored_link :
    LinkReads Env.sample taskLinks taskStored.store none (.str "o") "task" "doc.owner" "task:1" := by
  have hs : splitDot "doc.owner" = some ("doc", "owner") := by decide +kernel
  rw [linkReads_link (by decide +kernel) hs]
  refine ⟨"document:1", by decide +kernel, by unfold SameField; decide +kernel, ?_⟩
  rw [linkReads_flat (by decide +kernel)]
  decide +kernel

theorem lowered_where_meaning_waiting :
    ∃ p, taskPlan waitingTasks = some p ∧
      "task:1" ∈ p.snapshot Env.sample taskStored.store none := by
  obtain ⟨p, hp⟩ := Option.isSome_iff_exists.mp
    (by decide +kernel : (taskPlan waitingTasks).isSome = true)
  refine ⟨p, hp, ?_⟩
  rw [(lowered_where_meaning Env.sample taskLinks taskStored.store none "task" waitingTasks
    (by decide) p hp).2 (fun _ => by decide +kernel)]
  exact ⟨by decide +kernel, .inr (.inl taskStored_link)⟩

/-- Behind the filter on the status, the owner of the linked document is looked for in the task
    itself: the task is missing. -/
theorem lowered_where_misses_link :
    openTasks.shaped = true ∧ ∃ p, taskPlan openTasks = some p ∧
      "task:1" ∈ taskStored.store.held "task" ∧
      openTasks.Reads Env.sample taskLinks taskStored.store none "task" "task:1" ∧
      "task:1" ∉ p.snapshot Env.sample taskStored.store none := by
  obtain ⟨p, hp⟩ := Option.isSome_iff_exists.mp
    (by decide +kernel : (taskPlan openTasks).isSome = true)
  refine ⟨by decide, p, hp, by decide +kernel, ⟨?_, .inr (.inl taskStored_link), trivial⟩, ?_⟩
  · rw [WhereExpr.Reads, if_pos rfl, linkReads_flat (by decide +kernel)]
    decide +kernel
  · have h : (taskPlan openTasks).any (fun p =>
        (p.snapshot Env.sample taskStored.store none).contains "task:1") = false := by
      decide +kernel
    rw [hp, Option.any_some] at h
    rw [← ExtTreeMap.contains_iff_mem, h]
    decide

end Sp00ky.Ssp
