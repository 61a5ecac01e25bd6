/-
  Lowering links (`lower_link_traversals`, `lower_predicate_to_plan`).

  A link leaf in a filter right on a scan becomes a semi-join with the rows the rest of its
  path selects, under the `AND` and `OR` around it; what the filter read along the link is
  then read by the join. Every rewrite drops a dot, so the passes come to an end.
-/
import Sp00ky.Ssp.LowerReads

namespace Sp00ky.Ssp

open Std Lib

/-! ## The lowered operators -/

/-- A scan. -/
def RawPlan.isScan : RawPlan → Bool
  | .scan _ => true
  | _ => false

/-- The scan of a table, or no scan. -/
def RawPlan.Over (t : String) (plan : RawPlan) : Prop := plan = .scan t ∨ plan.isScan = false

section Lowering

variable {env : Env} {links : LinkMap} {store : Store} {ctx : Option Sp00kyValue} {t : String}

variable {k field : String} {terms : List WhereExpr}

theorem readsAll_iff :
    WhereExpr.ReadsAll env links store ctx t k terms ↔
      ∀ e ∈ terms, e.Reads env links store ctx t k := by
  induction terms with
  | nil => simp [WhereExpr.ReadsAll]
  | cons e es ih => rw [WhereExpr.ReadsAll, ih, List.forall_mem_cons]

theorem readsAny_iff :
    WhereExpr.ReadsAny env links store ctx t k terms ↔
      ∃ e ∈ terms, e.Reads env links store ctx t k := by
  induction terms with
  | nil => simp [WhereExpr.ReadsAny]
  | cons e es ih => rw [WhereExpr.ReadsAny, ih, List.exists_mem_cons_iff]

theorem linkReads_flat {v : Json} (h : isLinkLeaf links t (.cmp .eq field v) = false) :
    LinkReads env links store ctx v t field k ↔
      checkPredicate (.cmp .eq (Path.new field) v) k store ctx = true := by
  rw [LinkReads]
  split
  next => rw [if_neg (by simp [h])]
  next => exact Iff.rfl

mutual

/-- Without a marker in it, an expression reads flat. -/
theorem reads_flat {e : WhereExpr} (h : containsMarker links t e = false) (k : String) :
    e.Reads env links store ctx t k ↔ e.Flat store ctx k := by
  cases e with
  | cmp op field v =>
    rw [WhereExpr.Reads, WhereExpr.Flat]
    split
    next ho =>
      subst ho
      exact linkReads_flat h
    next => exact Iff.rfl
  | prefixed field pre | paramCmp op param v | joinCandidate l r => exact Iff.rfl
  | inSubquery l pr u w => cases h
  | and terms =>
    rw [WhereExpr.Reads, WhereExpr.Flat]
    exact (readsTerms_flat h k).1
  | or terms =>
    rw [WhereExpr.Reads, WhereExpr.Flat]
    exact (readsTerms_flat h k).2

theorem readsTerms_flat {es : List WhereExpr} (h : containsMarkerAny links t es = false)
    (k : String) :
    (WhereExpr.ReadsAll env links store ctx t k es ↔ WhereExpr.FlatAll store ctx k es) ∧
      (WhereExpr.ReadsAny env links store ctx t k es ↔ WhereExpr.FlatAny store ctx k es) := by
  cases es with
  | nil => exact ⟨Iff.rfl, Iff.rfl⟩
  | cons e es =>
    rw [containsMarkerAny, Bool.or_eq_false_iff] at h
    have he : e.Reads env links store ctx t k ↔ e.Flat store ctx k := reads_flat h.1 k
    have hes : (WhereExpr.ReadsAll env links store ctx t k es ↔ WhereExpr.FlatAll store ctx k es) ∧
        (WhereExpr.ReadsAny env links store ctx t k es ↔ WhereExpr.FlatAny store ctx k es) :=
      readsTerms_flat h.2 k
    exact ⟨and_congr he hes.1, or_congr he hes.2⟩

end

variable {base : RawPlan}

theorem RawPlan.means_filter {onScan : String → WhereExpr → String → Prop}
    (hb : base.isScan = false) (e : WhereExpr) (k : String) :
    (RawPlan.filter base e).Means env store ctx onScan k ↔
      base.Means env store ctx onScan k ∧ e.Flat store ctx k := by
  cases base <;> first | rfl | cases hb

variable {e : WhereExpr}

/-- A filter without markers, on a plan over the table. -/
theorem follows_filter (hb : base.Over t) (h : containsMarker links t e = false) (k : String) :
    (RawPlan.filter base e).Follows env links store ctx k ↔
      base.Follows env links store ctx k ∧ e.Reads env links store ctx t k := by
  rcases hb with rfl | hb
  · exact Iff.rfl
  · rw [reads_flat h]
    exact RawPlan.means_filter hb e k

theorem oneOr_and_reads (hne : terms ≠ []) (k : String) :
    (oneOr .and terms).Reads env links store ctx t k ↔
      ∀ e ∈ terms, e.Reads env links store ctx t k := by
  unfold oneOr
  split
  next e => simp
  next => rw [WhereExpr.Reads, readsAll_iff]

theorem containsMarkerAny_iff :
    containsMarkerAny links t terms = true ↔ ∃ e ∈ terms, containsMarker links t e = true := by
  induction terms with
  | nil => simp [containsMarkerAny]
  | cons e es ih => rw [containsMarkerAny, Bool.or_eq_true, ih, List.exists_mem_cons_iff]

theorem oneOr_and_marker (h : ∀ e ∈ terms, containsMarker links t e = false) :
    containsMarker links t (oneOr .and terms) = false := by
  unfold oneOr
  split
  next e => exact h e (List.mem_singleton_self e)
  next =>
    rw [containsMarker, ← Bool.not_eq_true, containsMarkerAny_iff]
    rintro ⟨e, he, hm⟩
    rw [h e he] at hm
    cases hm

theorem follows_filterBy (hb : base.Over t) {preds : List WhereExpr}
    (h : ∀ e ∈ preds, containsMarker links t e = false) (k : String) :
    (filterBy base preds).Follows env links store ctx k ↔
      base.Follows env links store ctx k ∧ ∀ e ∈ preds, e.Reads env links store ctx t k := by
  unfold filterBy
  cases preds with
  | nil => simp
  | cons e es =>
    rw [List.isEmpty_cons, if_neg (by simp), follows_filter hb (oneOr_and_marker h),
      oneOr_and_reads (by simp)]

theorem filterBy_over (hb : base.Over t) (preds : List WhereExpr) :
    (filterBy base preds).Over t := by
  unfold filterBy
  split
  · exact hb
  · exact .inr rfl

theorem follows_semijoin (base : RawPlan) (left proj u : String) (condition : Option WhereExpr)
    (k : String) :
    (semijoinForSubquery base left proj u condition).Follows env links store ctx k ↔
      base.Follows env links store ctx k ∧
        (WhereExpr.inSubquery left proj u condition).Reads env links store ctx t k := by
  unfold semijoinForSubquery
  cases condition with
  | none =>
    rw [WhereExpr.Reads, SubqueryReads]
    cases splitDot proj with
    | none | some lf => exact and_congr Iff.rfl (by simp only [and_true]; exact Iff.rfl)
  | some w =>
    rw [WhereExpr.Reads, SubqueryReads]
    cases splitDot proj with
    | none | some lf => exact Iff.rfl

theorem splitDots_eq (cs : List Char) :
    splitDots cs = cs.takeWhile (· != '.') ::
      match cs.dropWhile (· != '.') with
      | [] => []
      | _ :: rest => splitDots rest := by
  induction cs with
  | nil => rfl
  | cons c cs ih =>
    rw [splitDots]
    by_cases hc : c = '.'
    · subst hc
      rfl
    · rw [if_neg hc, ih, List.takeWhile_cons_of_pos (by simpa using hc),
        List.dropWhile_cons_of_pos (by simpa using hc)]

theorem splitDot_none (h : splitDot field = none) :
    splitDots field.toList = [field.toList.takeWhile (· != '.')] := by
  rw [splitDots_eq]
  unfold splitDot at h
  dsimp only at h
  split at h
  next hd => simp only [hd]
  next => cases h

/-- A link leaf compares a field behind a link for equality. -/
theorem isLinkLeaf_split (h : isLinkLeaf links t e = true) :
    ∃ field v link rest, e = .cmp .eq field v ∧ splitDot field = some (link, rest) := by
  cases e with
  | cmp op field v =>
    cases op
    case eq =>
      cases hs : splitDot field with
      | some lr => exact ⟨field, v, lr.1, lr.2, rfl, hs⟩
      | none =>
        unfold isLinkLeaf at h
        dsimp only at h
        rw [splitDot_none hs] at h
        cases h
    all_goals cases h
  | prefixed | joinCandidate | paramCmp | inSubquery | and | or => cases h

theorem splitDot_id : splitDot "id" = none := by decide +kernel

/-- A link leaf reads one step along its link. -/
theorem linkReads_link {field link rest : String} {v : Json}
    (h : isLinkLeaf links t (.cmp .eq field v) = true) (hs : splitDot field = some (link, rest))
    (k : String) :
    LinkReads env links store ctx v t field k ↔
      ∃ m ∈ store.held ((links.target t link).getD ""), SameField env store link k "id" m ∧
        LinkReads env links store ctx v ((links.target t link).getD "") rest m := by
  rw [LinkReads]
  split
  next link' rest' hs' =>
    rw [hs] at hs'
    cases hs'
    rw [if_pos h]
  next hs' => rw [hs] at hs'; cases hs'

/-- A link leaf joins the rows the rest of its path selects. -/
theorem follows_linkLeaf (base : RawPlan) (h : isLinkLeaf links t e = true) (k : String) :
    (semijoinForMarker links t base e).Follows env links store ctx k ↔
      base.Follows env links store ctx k ∧ e.Reads env links store ctx t k := by
  obtain ⟨field, v, link, rest, rfl, hs⟩ := isLinkLeaf_split h
  unfold semijoinForMarker
  dsimp only
  rw [hs, Option.getD_some, follows_semijoin (t := t)]
  have hl : WhereExpr.Reads env links store ctx t k (.inSubquery link "id"
      ((links.target t link).getD "") (some (.cmp .eq rest v))) ↔
        ∃ m, (m ∈ store.held ((links.target t link).getD "") ∧
          LinkReads env links store ctx v ((links.target t link).getD "") rest m) ∧
          SameField env store link k "id" m := by
    rw [WhereExpr.Reads, SubqueryReads, splitDot_id]
    simp only [WhereExpr.Reads, if_true]
  rw [hl, WhereExpr.Reads, if_pos rfl, linkReads_link h hs]
  refine and_congr Iff.rfl (exists_congr fun m => ?_)
  exact ⟨fun hm => ⟨hm.1.1, hm.2, hm.1.2⟩, fun hm => ⟨⟨hm.1, hm.2.2⟩, hm.2.1⟩⟩

theorem follows_union (p : RawPlan) (ps : List RawPlan) (k : String) :
    (ps.foldl .union p).Follows env links store ctx k ↔
      ∃ q ∈ p :: ps, q.Follows env links store ctx k := by
  induction ps generalizing p with
  | nil => simp
  | cons q ps ih =>
    have h : (RawPlan.union p q).Follows env links store ctx k ↔
        p.Follows env links store ctx k ∨ q.Follows env links store ctx k := Iff.rfl
    rw [List.foldl_cons, ih, List.exists_mem_cons_iff, h, List.exists_mem_cons_iff,
      List.exists_mem_cons_iff, or_assoc]

theorem follows_distinctUnion (base : RawPlan) {ps : List RawPlan} (hne : ps ≠ []) (k : String) :
    (distinctUnion base ps).Follows env links store ctx k ↔
      ∃ q ∈ ps, q.Follows env links store ctx k := by
  cases ps with
  | nil => exact absurd rfl hne
  | cons p ps => exact follows_union p ps k

/-- The plan is a join or a `Distinct`. -/
def RawPlan.joined : RawPlan → Bool
  | .semiJoin .. => true
  | .distinct _ => true
  | _ => false

theorem RawPlan.joined_scan {plan : RawPlan} (h : plan.joined = true) : plan.isScan = false := by
  cases plan <;> first | rfl | cases h

theorem RawPlan.joined_over {plan : RawPlan} (h : plan.joined = true) : plan.Over t :=
  .inr (RawPlan.joined_scan h)

theorem joined_semijoin (base : RawPlan) (left proj u : String) (condition : Option WhereExpr) :
    (semijoinForSubquery base left proj u condition).joined = true := by
  unfold semijoinForSubquery
  dsimp only
  split <;> rfl

theorem joined_distinctUnion (base : RawPlan) (ps : List RawPlan) :
    (distinctUnion base ps).joined = true := by
  cases ps <;> rfl

theorem joined_linkLeaf (base : RawPlan) (h : isLinkLeaf links t e = true) :
    (semijoinForMarker links t base e).joined = true := by
  obtain ⟨field, v, link, rest, rfl, hs⟩ := isLinkLeaf_split h
  unfold semijoinForMarker
  exact joined_semijoin _ _ _ _ _

end Lowering

/-! ## Lowering the links of one filter -/

section Links

variable {env : Env} {links : LinkMap} {store : Store} {ctx : Option Sp00kyValue} {t : String}

variable {es : List WhereExpr}

theorem plainAll_iff :
    WhereExpr.plainAll es = true ↔ ∀ e ∈ es, e.plain = true := by
  induction es with
  | nil => simp [WhereExpr.plainAll]
  | cons e es ih => rw [WhereExpr.plainAll, Bool.and_eq_true, ih, List.forall_mem_cons]

/-- In a plain expression the marker leaves are the link leaves. -/
theorem isMarkerLeaf_plain {e : WhereExpr} (h : e.plain = true) :
    isMarkerLeaf links t e = isLinkLeaf links t e := by
  cases e <;> first | rfl | cases h

/-- The marker leaves of a conjunction are joined one after the other. -/
theorem follows_threadMarkers {base : RawPlan} (h : WhereExpr.plainAll es = true) (k : String) :
    (threadMarkers links t base es).Follows env links store ctx k ↔
      base.Follows env links store ctx k ∧
        ∀ e ∈ es, isMarkerLeaf links t e = true → e.Reads env links store ctx t k := by
  induction es generalizing base with
  | nil => simp [threadMarkers]
  | cons e es ih =>
    rw [WhereExpr.plainAll, Bool.and_eq_true] at h
    rw [threadMarkers, List.forall_mem_cons]
    cases hm : isMarkerLeaf links t e with
    | true =>
      rw [if_pos rfl, ih h.2, follows_linkLeaf base (by rw [← isMarkerLeaf_plain h.1, hm])]
      simp [and_assoc]
    | false =>
      rw [if_neg (by simp), ih h.2]
      simp

theorem threadMarkers_over {base : RawPlan} (hb : base.Over t)
    (h : WhereExpr.plainAll es = true) : (threadMarkers links t base es).Over t := by
  induction es generalizing base with
  | nil => exact hb
  | cons e es ih =>
    rw [WhereExpr.plainAll, Bool.and_eq_true] at h
    rw [threadMarkers]
    split
    next hm =>
      rw [isMarkerLeaf_plain h.1] at hm
      exact ih (RawPlan.joined_over (joined_linkLeaf base hm)) h.2
    next => exact ih hb h.2

theorem joined_threadMarkers {base : RawPlan} (h : WhereExpr.plainAll es = true)
    (hj : base.joined = true ∨ ∃ e ∈ es, isMarkerLeaf links t e = true) :
    (threadMarkers links t base es).joined = true := by
  induction es generalizing base with
  | nil => simpa [threadMarkers] using hj
  | cons e es ih =>
    rw [WhereExpr.plainAll, Bool.and_eq_true] at h
    rw [threadMarkers]
    rw [List.exists_mem_cons_iff] at hj
    split
    next hm =>
      rw [isMarkerLeaf_plain h.1] at hm
      exact ih h.2 (.inl (joined_linkLeaf base hm))
    next hm => exact ih h.2 (hj.imp_right fun hj => hj.resolve_left hm)

mutual

/-- What a marker is lowered to is a join or a `Distinct`. -/
theorem joined_lowerPredicate {e : WhereExpr} (base : RawPlan) (h : e.plain = true)
    (hm : containsMarker links t e = true) :
    (lowerPredicateToPlan links t base e).joined = true := by
  cases e with
  | or terms => exact joined_distinctUnion _ _
  | and terms =>
    rw [lowerPredicateToPlan]
    obtain ⟨e, he, hm⟩ := containsMarkerAny_iff.mp hm
    refine joined_lowerNested h ?_
    cases hl : isMarkerLeaf links t e with
    | true => exact .inl (joined_threadMarkers h (.inr ⟨e, he, hl⟩))
    | false => exact .inr ⟨e, he, hm, hl⟩
  | cmp op field v =>
    have hl : isLinkLeaf links t (.cmp op field v) = true := hm
    simp only [lowerPredicateToPlan, hl, if_true]
    exact joined_linkLeaf base hl
  | prefixed field pre | paramCmp op param v | joinCandidate l r => cases hm
  | inSubquery l pr u w => cases h

theorem joined_lowerNested {es : List WhereExpr} {base : RawPlan} (h : WhereExpr.plainAll es = true)
    (hj : base.joined = true ∨
      ∃ e ∈ es, containsMarker links t e = true ∧ isMarkerLeaf links t e = false) :
    (lowerNested links t base es).joined = true := by
  cases es with
  | nil => simpa [lowerNested] using hj
  | cons e es =>
    rw [WhereExpr.plainAll, Bool.and_eq_true] at h
    rw [lowerNested]
    rw [List.exists_mem_cons_iff] at hj
    split
    next hm =>
      rw [Bool.and_eq_true] at hm
      exact joined_lowerNested h.2 (.inl (joined_lowerPredicate base h.1 hm.1))
    next hm =>
      refine joined_lowerNested h.2 (hj.imp_right fun hj => hj.resolve_left ?_)
      rintro ⟨h1, h2⟩
      simp [h1, h2] at hm

end

/-- A condition of a conjunction is read by the filter, as a marker leaf, or further down. -/
theorem conjuncts_iff {R : WhereExpr → Prop} :
    (∀ e ∈ es, R e) ↔ (∀ e ∈ es.filter fun e => !containsMarker links t e, R e) ∧
      (∀ e ∈ es, isMarkerLeaf links t e = true → R e) ∧
      ∀ e ∈ es, (containsMarker links t e && !isMarkerLeaf links t e) = true → R e := by
  constructor
  · intro h
    exact ⟨fun e he => h e (List.mem_filter.mp he).1, fun e he _ => h e he, fun e he _ => h e he⟩
  · rintro ⟨h1, h2, h3⟩ e he
    cases hm : containsMarker links t e with
    | false => exact h1 e (List.mem_filter.mpr ⟨he, by rw [hm]; rfl⟩)
    | true =>
      cases hl : isMarkerLeaf links t e with
      | true => exact h2 e he hl
      | false => exact h3 e he (by rw [hm, hl]; rfl)

mutual

/-- Lowering the links of an expression keeps its reading. -/
theorem follows_lowerPredicate {e : WhereExpr} {base : RawPlan} (hb : base.Over t)
    (h : e.plain = true) (k : String) :
    (lowerPredicateToPlan links t base e).Follows env links store ctx k ↔
      base.Follows env links store ctx k ∧ e.Reads env links store ctx t k := by
  cases e with
  | or terms =>
    rw [WhereExpr.plain, Bool.and_eq_true, Bool.not_eq_true', List.isEmpty_eq_false_iff] at h
    have hne : lowerPredicateBranches links t base terms ≠ [] := by
      cases terms with
      | nil => exact absurd rfl h.1
      | cons e es => rw [lowerPredicateBranches]; simp
    rw [lowerPredicateToPlan, follows_distinctUnion _ hne, follows_lowerPredicateBranches hb h.2,
      WhereExpr.Reads, readsAny_iff]
  | and terms =>
    have hf : ∀ e ∈ terms.filter fun e => !containsMarker links t e,
        containsMarker links t e = false := fun e he => by
      simpa using (List.mem_filter.mp he).2
    have hfb := filterBy_over hb (terms.filter fun e => !containsMarker links t e)
    rw [lowerPredicateToPlan, follows_lowerNested (threadMarkers_over hfb h) h,
      follows_threadMarkers h, follows_filterBy hb hf, WhereExpr.Reads, readsAll_iff, and_assoc,
      and_assoc]
    exact and_congr Iff.rfl conjuncts_iff.symm
  | cmp op field v =>
    cases hl : isLinkLeaf links t (.cmp op field v) with
    | true =>
      simp only [lowerPredicateToPlan, hl, if_true]
      exact follows_linkLeaf base hl k
    | false =>
      have hm : containsMarker links t (.cmp op field v) = false := hl
      simp only [lowerPredicateToPlan, hl]
      exact follows_filter hb hm k
  | prefixed field pre | paramCmp op param v => exact follows_filter hb rfl k
  | joinCandidate l r | inSubquery l pr u w => cases h

theorem follows_lowerPredicateBranches {es : List WhereExpr} {base : RawPlan} (hb : base.Over t)
    (h : WhereExpr.plainAll es = true) (k : String) :
    (∃ q ∈ lowerPredicateBranches links t base es, q.Follows env links store ctx k) ↔
      base.Follows env links store ctx k ∧ ∃ e ∈ es, e.Reads env links store ctx t k := by
  cases es with
  | nil => simp [lowerPredicateBranches]
  | cons e es =>
    rw [WhereExpr.plainAll, Bool.and_eq_true] at h
    rw [lowerPredicateBranches, List.exists_mem_cons_iff, follows_lowerPredicate hb h.1,
      follows_lowerPredicateBranches hb h.2, List.exists_mem_cons_iff, and_or_left]

theorem follows_lowerNested {es : List WhereExpr} {base : RawPlan} (hb : base.Over t)
    (h : WhereExpr.plainAll es = true) (k : String) :
    (lowerNested links t base es).Follows env links store ctx k ↔
      base.Follows env links store ctx k ∧
        ∀ e ∈ es, (containsMarker links t e && !isMarkerLeaf links t e) = true →
          e.Reads env links store ctx t k := by
  cases es with
  | nil => simp [lowerNested]
  | cons e es =>
    rw [WhereExpr.plainAll, Bool.and_eq_true] at h
    rw [lowerNested, List.forall_mem_cons]
    split
    next hm =>
      rw [Bool.and_eq_true] at hm
      rw [follows_lowerNested (RawPlan.joined_over (joined_lowerPredicate base h.1 hm.1)) h.2,
        follows_lowerPredicate hb h.1, and_assoc]
      simp [hm.1, hm.2]
    next hm =>
      rw [follows_lowerNested hb h.2]
      simp [hm]

end

/-! ## How far the links reach -/

theorem splitDot_count {s link rest : String} (h : splitDot s = some (link, rest)) :
    s.toList.count '.' = rest.toList.count '.' + 1 := by
  unfold splitDot at h
  dsimp only at h
  split at h
  next => cases h
  next c cs hd =>
    cases h
    have hc : c = '.' := by
      have := List.head?_dropWhile_not (· != '.') s.toList
      simpa [hd] using this
    have hn : (s.toList.takeWhile (· != '.')).count '.' = 0 := by
      rw [List.count_eq_zero]
      intro hm
      simpa using List.mem_takeWhile_imp hm
    conv_lhs => rw [← List.takeWhile_append_dropWhile (p := (· != '.')) (l := s.toList)]
    rw [hd, List.count_append, hn, hc, List.count_cons_self, String.toList_ofList, Nat.zero_add]

end Links

section Within

variable (links : LinkMap) (t : String) (n : Nat)

mutual

/-- Every link leaf has at most `n` dots. -/
def WhereExpr.Within : WhereExpr → Prop
  | .and terms => WithinAll terms
  | .or terms => WithinAll terms
  | e => isLinkLeaf links t e = true → e.dots ≤ n

def WhereExpr.WithinAll : List WhereExpr → Prop
  | [] => True
  | e :: es => e.Within ∧ WithinAll es

end

/-- Every link leaf in a filter right on a scan has at most `n` dots. -/
def RawPlan.Within : RawPlan → Prop
  | .filter (.scan t) e => e.Within links t n
  | .filter input _ => input.Within
  | .semiJoin l r _ _ => l.Within ∧ r.Within
  | .union l r => l.Within ∧ r.Within
  | .distinct input => input.Within
  | _ => True

end Within

section Reach

variable {env : Env} {links : LinkMap} {store : Store} {ctx : Option Sp00kyValue} {t : String}

variable {n : Nat}

theorem withinAll_iff {es : List WhereExpr} :
    WhereExpr.WithinAll links t n es ↔ ∀ e ∈ es, e.Within links t n := by
  induction es with
  | nil => simp [WhereExpr.WithinAll]
  | cons e es ih => rw [WhereExpr.WithinAll, ih, List.forall_mem_cons]

mutual

theorem within_dots {e : WhereExpr} {n : Nat} (h : e.dots ≤ n) : e.Within links t n := by
  cases e with
  | and terms | or terms =>
    rw [WhereExpr.Within]
    exact withinAll_dots h
  | cmp | prefixed | paramCmp | joinCandidate | inSubquery => exact fun _ => h

theorem withinAll_dots {es : List WhereExpr} {n : Nat} (h : WhereExpr.dotsAll es ≤ n) :
    WhereExpr.WithinAll links t n es := by
  cases es with
  | nil => exact trivial
  | cons e es =>
    rw [WhereExpr.dotsAll] at h
    exact ⟨within_dots (by omega), withinAll_dots (by omega)⟩

end

mutual

/-- Without markers there is no link leaf to bound. -/
theorem within_unmarked {e : WhereExpr} (h : containsMarker links t e = false) (n : Nat) :
    e.Within links t n := by
  cases e with
  | and terms | or terms =>
    rw [WhereExpr.Within]
    exact withinAll_unmarked h n
  | cmp op field v =>
    have hl : isLinkLeaf links t (.cmp op field v) = false := h
    exact fun h' => by rw [hl] at h'; cases h'
  | prefixed | paramCmp | joinCandidate => exact fun h => by cases h
  | inSubquery => cases h

theorem withinAll_unmarked {es : List WhereExpr} (h : containsMarkerAny links t es = false)
    (n : Nat) : WhereExpr.WithinAll links t n es := by
  cases es with
  | nil => exact trivial
  | cons e es =>
    rw [containsMarkerAny, Bool.or_eq_false_iff] at h
    exact ⟨within_unmarked h.1 n, withinAll_unmarked h.2 n⟩

end

mutual

/-- A link leaf has a dot. -/
theorem unmarked_of_within {e : WhereExpr} (hp : e.plain = true) (h : e.Within links t 0) :
    containsMarker links t e = false := by
  cases e with
  | and terms =>
    rw [WhereExpr.Within] at h
    exact unmarkedAny_of_within hp h
  | or terms =>
    rw [WhereExpr.Within] at h
    rw [WhereExpr.plain, Bool.and_eq_true] at hp
    exact unmarkedAny_of_within hp.2 h
  | cmp op field v =>
    rw [← Bool.not_eq_true]
    intro hl
    obtain ⟨field', v', link, rest, he, hs⟩ := isLinkLeaf_split (e := .cmp op field v) hl
    cases he
    have hd : field.toList.count '.' ≤ 0 := h hl
    rw [splitDot_count hs] at hd
    omega
  | prefixed | paramCmp => rfl
  | joinCandidate | inSubquery => cases hp

theorem unmarkedAny_of_within {es : List WhereExpr} (hp : WhereExpr.plainAll es = true)
    (h : WhereExpr.WithinAll links t 0 es) : containsMarkerAny links t es = false := by
  cases es with
  | nil => rfl
  | cons e es =>
    rw [WhereExpr.plainAll, Bool.and_eq_true] at hp
    rw [containsMarkerAny, Bool.or_eq_false_iff]
    exact ⟨unmarked_of_within hp.1 h.1, unmarkedAny_of_within hp.2 h.2⟩

end

/-- A lowered condition whose links reach at most `n` tables further. -/
def RawPlan.Ready (links : LinkMap) (n : Nat) (plan : RawPlan) : Prop :=
  plan.selects = true ∧ plan.Within links n

variable {base plan : RawPlan}

theorem RawPlan.within_filter_join (hb : base.isScan = false) (e : WhereExpr)
    (n : Nat) : (RawPlan.filter base e).Within links n ↔ base.Within links n := by
  cases base <;> first | exact Iff.rfl | cases hb

theorem ready_filter (hb : base.Over t) (h : base.Ready links n)
    {e : WhereExpr} (hp : e.plain = true) (he : e.Within links t n) :
    (RawPlan.filter base e).Ready links n := by
  refine ⟨by rw [RawPlan.selects, h.1, hp]; rfl, ?_⟩
  rcases hb with rfl | hb
  · exact he
  · exact (RawPlan.within_filter_join hb e n).mpr h.2

theorem oneOr_plain {terms : List WhereExpr} (h : ∀ e ∈ terms, e.plain = true) :
    (oneOr .and terms).plain = true := by
  unfold oneOr
  split
  next e => exact h e (List.mem_singleton_self e)
  next => exact plainAll_iff.mpr h

theorem oneOr_within {terms : List WhereExpr} (h : ∀ e ∈ terms, e.Within links t n) :
    (oneOr .and terms).Within links t n := by
  unfold oneOr
  split
  next e => exact h e (List.mem_singleton_self e)
  next =>
    rw [WhereExpr.Within]
    exact withinAll_iff.mpr h

theorem ready_filterBy (hb : base.Over t) (h : base.Ready links n)
    {preds : List WhereExpr} (hp : ∀ e ∈ preds, e.plain = true)
    (hw : ∀ e ∈ preds, e.Within links t n) : (filterBy base preds).Ready links n := by
  unfold filterBy
  split
  · exact h
  · exact ready_filter hb h (oneOr_plain hp) (oneOr_within hw)

theorem ready_linkLeaf (h : base.Ready links n) {e : WhereExpr}
    (hl : isLinkLeaf links t e = true) (he : e.Within links t (n + 1)) :
    (semijoinForMarker links t base e).Ready links n := by
  obtain ⟨field, v, link, rest, rfl, hs⟩ := isLinkLeaf_split hl
  have hd : field.toList.count '.' ≤ n + 1 := he hl
  rw [splitDot_count hs] at hd
  unfold semijoinForMarker
  dsimp only
  rw [hs, Option.getD_some]
  unfold semijoinForSubquery
  dsimp only
  rw [splitDot_id]
  have hr : (WhereExpr.cmp .eq rest v).Within links ((links.target t link).getD "") n :=
    fun _ => Nat.le_of_succ_le_succ hd
  exact ⟨by rw [RawPlan.selects, h.1]; rfl, h.2, hr⟩

theorem ready_distinctUnion {ps : List RawPlan} (hne : ps ≠ [])
    (h : ∀ q ∈ ps, q.Ready links n) : (distinctUnion base ps).Ready links n := by
  cases ps with
  | nil => exact absurd rfl hne
  | cons p ps =>
    have hu : (ps.foldl .union p).Ready links n := by
      induction ps generalizing p with
      | nil => exact h p (List.mem_singleton_self p)
      | cons q ps ih =>
        refine ih (.union p q) (by simp) fun r hr => ?_
        rcases List.mem_cons.mp hr with rfl | hr
        · obtain ⟨p1, p2⟩ := h p (by simp)
          obtain ⟨q1, q2⟩ := h q (by simp)
          exact ⟨by rw [RawPlan.selects, p1, q1]; rfl, p2, q2⟩
        · exact h r (by simp [hr])
    exact ⟨hu.1, hu.2⟩

theorem ready_threadMarkers (h : base.Ready links n)
    {es : List WhereExpr} (hp : WhereExpr.plainAll es = true)
    (he : WhereExpr.WithinAll links t (n + 1) es) :
    (threadMarkers links t base es).Ready links n := by
  induction es generalizing base with
  | nil => exact h
  | cons e es ih =>
    rw [WhereExpr.plainAll, Bool.and_eq_true] at hp
    rw [threadMarkers]
    split
    next hm =>
      rw [isMarkerLeaf_plain hp.1] at hm
      exact ih (ready_linkLeaf h hm he.1) hp.2 he.2
    next => exact ih h hp.2 he.2

mutual

/-- Lowering an expression takes one step along its links. -/
theorem ready_lowerPredicate {e : WhereExpr} {base : RawPlan} {n : Nat} (hb : base.Over t)
    (h : base.Ready links n) (hp : e.plain = true) (he : e.Within links t (n + 1)) :
    (lowerPredicateToPlan links t base e).Ready links n := by
  cases e with
  | or terms =>
    rw [WhereExpr.plain, Bool.and_eq_true, Bool.not_eq_true', List.isEmpty_eq_false_iff] at hp
    rw [WhereExpr.Within] at he
    have hne : lowerPredicateBranches links t base terms ≠ [] := by
      cases terms with
      | nil => exact absurd rfl hp.1
      | cons e es => rw [lowerPredicateBranches]; simp
    rw [lowerPredicateToPlan]
    exact ready_distinctUnion hne (ready_lowerPredicateBranches hb h hp.2 he)
  | and terms =>
    rw [WhereExpr.Within] at he
    have hf : ∀ e ∈ terms.filter fun e => !containsMarker links t e,
        containsMarker links t e = false := fun e he => by
      simpa using (List.mem_filter.mp he).2
    have hfb : (filterBy base (terms.filter fun e => !containsMarker links t e)).Ready links n :=
      ready_filterBy hb h (fun e he => plainAll_iff.mp hp e (List.mem_filter.mp he).1)
        fun e he => within_unmarked (hf e he) n
    rw [lowerPredicateToPlan]
    exact ready_lowerNested (threadMarkers_over (filterBy_over hb _) hp)
      (ready_threadMarkers hfb hp he) hp he
  | cmp op field v =>
    cases hl : isLinkLeaf links t (.cmp op field v) with
    | true =>
      simp only [lowerPredicateToPlan, hl, if_true]
      exact ready_linkLeaf h hl he
    | false =>
      have hm : containsMarker links t (.cmp op field v) = false := hl
      simp only [lowerPredicateToPlan, hl]
      exact ready_filter hb h hp (within_unmarked hm n)
  | prefixed field pre | paramCmp op param v => exact ready_filter hb h hp (within_unmarked rfl n)
  | joinCandidate l r | inSubquery l pr u w => cases hp

theorem ready_lowerPredicateBranches {es : List WhereExpr} {base : RawPlan} {n : Nat}
    (hb : base.Over t) (h : base.Ready links n) (hp : WhereExpr.plainAll es = true)
    (he : WhereExpr.WithinAll links t (n + 1) es) :
    ∀ q ∈ lowerPredicateBranches links t base es, q.Ready links n := by
  cases es with
  | nil => simp [lowerPredicateBranches]
  | cons e es =>
    rw [WhereExpr.plainAll, Bool.and_eq_true] at hp
    rw [lowerPredicateBranches, List.forall_mem_cons]
    exact ⟨ready_lowerPredicate hb h hp.1 he.1, ready_lowerPredicateBranches hb h hp.2 he.2⟩

theorem ready_lowerNested {es : List WhereExpr} {base : RawPlan} {n : Nat} (hb : base.Over t)
    (h : base.Ready links n) (hp : WhereExpr.plainAll es = true)
    (he : WhereExpr.WithinAll links t (n + 1) es) :
    (lowerNested links t base es).Ready links n := by
  cases es with
  | nil => exact h
  | cons e es =>
    rw [WhereExpr.plainAll, Bool.and_eq_true] at hp
    rw [lowerNested]
    split
    next hm =>
      rw [Bool.and_eq_true] at hm
      exact ready_lowerNested (RawPlan.joined_over (joined_lowerPredicate base hp.1 hm.1))
        (ready_lowerPredicate hb h hp.1 he.1) hp.2 he.2
    next => exact ready_lowerNested hb h hp.2 he.2

end

mutual

theorem containsMarker_plain {e : WhereExpr} (h : e.plain = true) :
    containsMarker links t e = containsLinkLeaf links t e := by
  cases e with
  | and terms => exact containsMarkerAny_plain h
  | or terms =>
    rw [WhereExpr.plain, Bool.and_eq_true] at h
    exact containsMarkerAny_plain h.2
  | cmp | prefixed | paramCmp => rfl
  | joinCandidate | inSubquery => cases h

theorem containsMarkerAny_plain {es : List WhereExpr} (h : WhereExpr.plainAll es = true) :
    containsMarkerAny links t es = containsLinkLeafAny links t es := by
  cases es with
  | nil => rfl
  | cons e es =>
    rw [WhereExpr.plainAll, Bool.and_eq_true] at h
    rw [containsMarkerAny, containsLinkLeafAny, containsMarker_plain h.1,
      containsMarkerAny_plain h.2]

end

/-- A plan with its links lowered: it selects as before, and is a scan only where it was. -/
structure RawPlan.LinksLowered (env : Env) (links : LinkMap) (store : Store)
    (ctx : Option Sp00kyValue) (plan lowered : RawPlan) : Prop where
  selects : lowered.selects = true
  scan : lowered.isScan = plan.isScan
  shows : ∀ k, lowered.Shows env store ctx k ↔ plan.Follows env links store ctx k

/-- What follows no link is already lowered. -/
theorem linksLowered_zero (h : plan.Ready links 0) :
    plan.LinksLowered env links store ctx plan := by
  refine ⟨h.1, rfl, ?_⟩
  obtain ⟨hs, hw⟩ := h
  revert hw
  refine RawPlan.selectsInduction (P := fun plan => plan.Within links 0 →
    ∀ k, plan.Shows env store ctx k ↔ plan.Follows env links store ctx k) ?_ ?_ ?_ ?_ ?_ plan hs
  · exact fun t _ k => Iff.rfl
  · intro input e hi he ih hw k
    rw [shows_filter]
    cases hsc : input.isScan with
    | true =>
      cases input <;> try cases hsc
      rw [← reads_flat (unmarked_of_within he hw)]
      exact Iff.rfl
    | false =>
      rw [RawPlan.within_filter_join hsc] at hw
      rw [ih hw k]
      exact (RawPlan.means_filter hsc e k).symm
  · intro l r lf rf _ _ ihl ihr hw k
    exact and_congr (ihl hw.1 k) (exists_congr fun k' => and_congr (ihr hw.2 k') Iff.rfl)
  · intro l r _ _ ihl ihr hw k
    exact or_congr (ihl hw.1 k) (ihr hw.2 k)
  · exact fun input _ ih hw k => ih hw k

/-- A pass whose rewritten filters are lowered further lowers the links of a plan. -/
theorem linksLowered_step {again : RawPlan → RawPlan} (ha : ∀ {plan : RawPlan}, plan.Ready links n →
      plan.LinksLowered env links store ctx (again plan))
    (h : plan.Ready links (n + 1)) :
    plan.LinksLowered env links store ctx (lowerLinksWith links again plan) := by
  obtain ⟨hs, hw⟩ := h
  revert hw
  refine RawPlan.selectsInduction (P := fun plan => plan.Within links (n + 1) →
    plan.LinksLowered env links store ctx (lowerLinksWith links again plan))
    ?_ ?_ ?_ ?_ ?_ plan hs
  · exact fun t _ => ⟨rfl, rfl, fun k => Iff.rfl⟩
  · intro input e hi he ih hw
    cases hsc : input.isScan with
    | true =>
      cases input <;> try cases hsc
      next t =>
        rw [lowerLinksWith, lowerLinksWith]
        dsimp only
        split
        next hl =>
          rw [← containsMarker_plain he] at hl
          have hr : (lowerPredicateToPlan links t (.scan t) e).Ready links n :=
            ready_lowerPredicate (.inl rfl) ⟨rfl, trivial⟩ he hw
          obtain ⟨h1, h2, h3⟩ := ha hr
          refine ⟨h1, ?_, fun k => ?_⟩
          · rw [h2]
            exact RawPlan.joined_scan (joined_lowerPredicate _ he hl)
          · rw [h3, follows_lowerPredicate (.inl rfl) he]
            exact Iff.rfl
        next hl =>
          rw [Bool.not_eq_true, ← containsMarker_plain he] at hl
          refine ⟨by rw [RawPlan.selects, he]; rfl, rfl, fun k => ?_⟩
          rw [shows_filter, ← reads_flat hl]
          exact Iff.rfl
    | false =>
      rw [RawPlan.within_filter_join hsc] at hw
      obtain ⟨h1, h2, h3⟩ := ih hw
      rw [hsc] at h2
      have hf : lowerLinksWith links again (.filter input e) =
          .filter (lowerLinksWith links again input) e := by
        rw [lowerLinksWith]
        split
        next t ht => rw [ht] at h2; cases h2
        next => rfl
      rw [hf]
      refine ⟨by rw [RawPlan.selects, h1, he]; rfl, rfl, fun k => ?_⟩
      rw [shows_filter, h3 k]
      exact (RawPlan.means_filter hsc e k).symm
  · intro l r lf rf _ _ ihl ihr hw
    obtain ⟨l1, -, l3⟩ := ihl hw.1
    obtain ⟨r1, -, r3⟩ := ihr hw.2
    refine ⟨by rw [lowerLinksWith, RawPlan.selects, l1, r1]; rfl, rfl, fun k => ?_⟩
    exact and_congr (l3 k) (exists_congr fun k' => and_congr (r3 k') Iff.rfl)
  · intro l r _ _ ihl ihr hw
    obtain ⟨l1, -, l3⟩ := ihl hw.1
    obtain ⟨r1, -, r3⟩ := ihr hw.2
    refine ⟨by rw [lowerLinksWith, RawPlan.selects, l1, r1]; rfl, rfl, fun k => ?_⟩
    exact or_congr (l3 k) (r3 k)
  · intro input _ ih hw
    obtain ⟨h1, -, h3⟩ := ih hw
    exact ⟨h1, rfl, h3⟩

theorem linksLowered_at (h : plan.Ready links n) :
    plan.LinksLowered env links store ctx (lowerLinksAt links n plan) := by
  induction n generalizing plan with
  | zero => exact linksLowered_zero h
  | succ n ih => exact linksLowered_step ih h

theorem RawPlan.within_dots (hs : plan.selects = true) :
    plan.dots ≤ n → plan.Within links n := by
  refine RawPlan.selectsInduction (P := fun plan => plan.dots ≤ n → plan.Within links n)
    ?_ ?_ ?_ ?_ ?_ plan hs
  · exact fun t _ => trivial
  · intro input e _ _ ih h
    rw [RawPlan.dots] at h
    cases hsc : input.isScan with
    | true =>
      cases input <;> try cases hsc
      exact Sp00ky.Ssp.within_dots (Nat.le_trans (Nat.le_add_left ..) h)
    | false => exact (RawPlan.within_filter_join hsc e n).mpr (ih (by omega))
  · intro l r lf rf _ _ ihl ihr h
    rw [RawPlan.dots] at h
    exact ⟨ihl (by omega), ihr (by omega)⟩
  · intro l r _ _ ihl ihr h
    rw [RawPlan.dots] at h
    exact ⟨ihl (by omega), ihr (by omega)⟩
  · exact fun input _ ih h => ih h

/-- Without links there is no link leaf. -/
theorem isLinkLeaf_empty (h : links.isEmpty = true) (e : WhereExpr) :
    isLinkLeaf links t e = false := by
  have ht : ∀ f, links.target t f = none := fun f => by
    rw [LinkMap.target, ExtTreeMap.isEmpty_iff.mp h]
    rfl
  unfold isLinkLeaf
  split
  · split <;> simp [ht]
  · rfl

mutual

theorem unmarked_empty (h : links.isEmpty = true) {e : WhereExpr} (hp : e.plain = true) :
    containsMarker links t e = false := by
  cases e with
  | and terms => exact unmarkedAny_empty h hp
  | or terms =>
    rw [WhereExpr.plain, Bool.and_eq_true] at hp
    exact unmarkedAny_empty h hp.2
  | cmp op field v => exact isLinkLeaf_empty h (.cmp op field v)
  | prefixed | paramCmp => rfl
  | joinCandidate | inSubquery => cases hp

theorem unmarkedAny_empty (h : links.isEmpty = true) {es : List WhereExpr}
    (hp : WhereExpr.plainAll es = true) : containsMarkerAny links t es = false := by
  cases es with
  | nil => rfl
  | cons e es =>
    rw [WhereExpr.plainAll, Bool.and_eq_true] at hp
    rw [containsMarkerAny, unmarked_empty h hp.1, unmarkedAny_empty h hp.2]
    rfl

end

theorem RawPlan.within_empty (h : links.isEmpty = true)
    (hs : plan.selects = true) : plan.Within links 0 := by
  refine RawPlan.selectsInduction (P := fun plan => plan.Within links 0) ?_ ?_ ?_ ?_ ?_ plan hs
  · exact fun t => trivial
  · intro input e _ he ih
    cases hsc : input.isScan with
    | true =>
      cases input <;> try cases hsc
      exact within_unmarked (unmarked_empty h he) 0
    | false => exact (RawPlan.within_filter_join hsc e 0).mpr ih
  · exact fun l r lf rf _ _ ihl ihr => ⟨ihl, ihr⟩
  · exact fun l r _ _ ihl ihr => ⟨ihl, ihr⟩
  · exact fun input _ ih => ih

/-- `lower_link_traversals` makes a plan follow its links. -/
theorem linksLowered_traversals (hs : plan.selects = true) :
    plan.LinksLowered env links store ctx (lowerLinkTraversals links plan) := by
  unfold lowerLinkTraversals
  split
  next h => exact linksLowered_zero ⟨hs, RawPlan.within_empty h hs⟩
  next => exact linksLowered_at ⟨hs, RawPlan.within_dots hs (Nat.le_succ _)⟩

end Reach

end Sp00ky.Ssp
