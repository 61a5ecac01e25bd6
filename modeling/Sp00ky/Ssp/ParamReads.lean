/-
  What a graph reads of its registration's parameters.

  Predicates read parameters through `resolveParamLookup` only, at the references
  listed by `Predicate.reads`. Two contexts that agree on the references of a plan
  build the same graph, index-backed sources included, and prime it alike
  (`primed_congr`).
-/
import Sp00ky.Ssp.GraphFacts
import Sp00ky.Ssp.Planner

namespace Sp00ky.Ssp

open Std Lib

/-! ## References -/

/-- The reference a comparison operand names, if it names one. -/
def Json.paramRefs (value : Json) : List String :=
  match value.get "$param" with
  | some p => [p.asStr.getD ""]
  | none => []

mutual

/-- The parameter references a predicate reads. -/
def Predicate.reads : Predicate → List String
  | .cmp _ _ value => value.paramRefs
  | .paramCmp _ param value => param :: value.paramRefs
  | .and ps => readsAll ps
  | .or ps => readsAll ps
  | .prefixed _ _ => []
  | .true => []
  | .false => []

def Predicate.readsAll : List Predicate → List String
  | [] => []
  | p :: ps => p.reads ++ readsAll ps

end

/-- The references of the predicates in a plan's graph: subquery plans are not part of it. -/
def OperatorPlan.reads : OperatorPlan → List String
  | .scan _ => []
  | .filter input p => p.reads ++ input.reads
  | .join l r _ => l.reads ++ r.reads
  | .semiJoin l r _ => l.reads ++ r.reads
  | .antiJoin l r _ => l.reads ++ r.reads
  | .union l r => l.reads ++ r.reads
  | .distinct input => input.reads
  | .project input _ => input.reads
  | .limit input _ _ _ => input.reads

/-- Two contexts give every reference of a list the same value. -/
def AgreeOn (refs : List String) (ctx ctx' : Option Sp00kyValue) : Prop :=
  ∀ r ∈ refs, resolveParamLookup r ctx = resolveParamLookup r ctx'

theorem AgreeOn.mono {refs refs' : List String} {ctx ctx' : Option Sp00kyValue}
    (h : AgreeOn refs ctx ctx') (hs : refs' ⊆ refs) : AgreeOn refs' ctx ctx' :=
  fun r hr => h r (hs hr)

theorem Predicate.mem_readsAll {ps : List Predicate} {r : String} :
    r ∈ readsAll ps ↔ ∃ p ∈ ps, r ∈ p.reads := by
  induction ps with
  | nil => simp [readsAll]
  | cons p ps ih => simp [readsAll, ih]

theorem any_congr_mem {α : Type} {l : List α} {p q : α → Bool} (h : ∀ a ∈ l, p a = q a) :
    l.any p = l.any q := by
  induction l with
  | nil => rfl
  | cons a l ih =>
    rw [List.any_cons, List.any_cons, h a List.mem_cons_self,
      ih (List.forall_mem_cons.mp h).2]

section Congr

variable {ctx ctx' : Option Sp00kyValue}

theorem resolvePredicateValue_congr (value : Json) (h : AgreeOn value.paramRefs ctx ctx') :
    resolvePredicateValue value ctx = resolvePredicateValue value ctx' := by
  unfold resolvePredicateValue
  unfold Json.paramRefs at h
  split
  · next p hp =>
    rw [hp] at h
    exact h _ (by simp)
  · rfl

mutual

theorem Predicate.eval_congr : ∀ (p : Predicate) (key : String) (row : ValueRef),
    AgreeOn p.reads ctx ctx' → p.eval key row ctx = p.eval key row ctx'
  | .true, _, _, _ => rfl
  | .false, _, _, _ => rfl
  | .prefixed _ _, _, _, _ => rfl
  | .cmp op field value, key, row, h => by
    simp only [Predicate.eval, resolvePredicateValue_congr value h]
  | .paramCmp op param value, key, row, h => by
    have h1 := h param List.mem_cons_self
    have h2 : AgreeOn value.paramRefs ctx ctx' := (List.forall_mem_cons.mp h).2
    simp only [Predicate.eval, h1, resolvePredicateValue_congr value h2]
  | .and ps, key, row, h => Predicate.evalAll_congr ps key row h
  | .or ps, key, row, h => Predicate.evalAny_congr ps key row h

theorem Predicate.evalAll_congr : ∀ (ps : List Predicate) (key : String) (row : ValueRef),
    AgreeOn (readsAll ps) ctx ctx' → evalAll key row ctx ps = evalAll key row ctx' ps
  | [], _, _, _ => rfl
  | p :: ps, key, row, h => by
    rw [Predicate.evalAll, Predicate.evalAll,
      Predicate.eval_congr p key row (h.mono (List.subset_append_left _ _)),
      Predicate.evalAll_congr ps key row (h.mono (List.subset_append_right _ _))]

theorem Predicate.evalAny_congr : ∀ (ps : List Predicate) (key : String) (row : ValueRef),
    AgreeOn (readsAll ps) ctx ctx' → evalAny key row ctx ps = evalAny key row ctx' ps
  | [], _, _, _ => rfl
  | p :: ps, key, row, h => by
    rw [Predicate.evalAny, Predicate.evalAny,
      Predicate.eval_congr p key row (h.mono (List.subset_append_left _ _)),
      Predicate.evalAny_congr ps key row (h.mono (List.subset_append_right _ _))]

end

/-! ## Operators -/

def IndexBinding.reads (b : IndexBinding) : List String :=
  b.pre.flatMap Json.paramRefs ++ Predicate.readsAll b.gates

/-- The references an operator reads. -/
def Operator.reads : Operator → List String
  | .filter p => p.reads
  | .indexedScan bindings => bindings.flatMap IndexBinding.reads
  | .indexWindow w => w.binding.reads
  | .keyScan _ key => key.paramRefs
  | _ => []

theorem IndexBinding.prefixValues_congr {b : IndexBinding} (h : AgreeOn b.reads ctx ctx')
    (store : Store) : b.prefixValues store ctx = b.prefixValues store ctx' := by
  have hgates : ∀ g ∈ b.gates, checkPredicate g "" store ctx = checkPredicate g "" store ctx' := by
    intro g hg
    refine Predicate.eval_congr g _ _ (h.mono fun r hr => ?_)
    exact List.mem_append_right _ (Predicate.mem_readsAll.mpr ⟨g, hg, hr⟩)
  have hpre : ∀ l : List Json, (∀ v ∈ l, AgreeOn v.paramRefs ctx ctx') →
      l.mapM (operandScalar ctx) = l.mapM (operandScalar ctx') := by
    intro l hl
    induction l with
    | nil => rfl
    | cons v l ih =>
      have hv : operandScalar ctx v = operandScalar ctx' v := by
        unfold operandScalar
        rw [resolvePredicateValue_congr v (hl v List.mem_cons_self)]
      rw [List.mapM_cons, List.mapM_cons, hv, ih (List.forall_mem_cons.mp hl).2]
  unfold prefixValues
  rw [hpre b.pre fun v hv => h.mono fun r hr =>
    List.mem_append_left _ (List.mem_flatMap.mpr ⟨v, hv, hr⟩)]
  have hall : b.gates.all (fun g => checkPredicate g "" store ctx) =
      b.gates.all (fun g => checkPredicate g "" store ctx') := by
    rw [List.all_eq_not_any_not, List.all_eq_not_any_not,
      any_congr_mem fun g hg => congrArg not (hgates g hg)]
  rw [hall]

theorem indexedRangeKeys_congr {bindings : List IndexBinding}
    (h : AgreeOn (bindings.flatMap IndexBinding.reads) ctx ctx') (store : Store) :
    indexedRangeKeys bindings store ctx = indexedRangeKeys bindings store ctx' := by
  unfold indexedRangeKeys
  generalize (∅ : ZSet) = z
  induction bindings generalizing z with
  | nil => rfl
  | cons b bs ih =>
    have hb : b.rangeKeys store ctx = b.rangeKeys store ctx' := by
      unfold IndexBinding.rangeKeys
      rw [IndexBinding.prefixValues_congr (h.mono (List.subset_append_left _ _))]
    rw [List.foldl_cons, List.foldl_cons, hb]
    exact ih (h.mono (List.subset_append_right _ _)) _

theorem IndexWindow.read_congr {w : IndexWindow} (h : AgreeOn w.binding.reads ctx ctx')
    (store : Store) : w.read store ctx = w.read store ctx' := by
  unfold IndexWindow.read
  rw [IndexBinding.prefixValues_congr h]

theorem Operator.step_congr {op : Operator} (h : AgreeOn op.reads ctx ctx') (env : Env)
    (ho : HashOrder) (inputs : List ZSet) (store : Store) :
    op.step env ho inputs store ctx = op.step env ho inputs store ctx' := by
  cases op with
  | filter p =>
    have hp : ∀ k, checkPredicate p k store ctx = checkPredicate p k store ctx' := fun k =>
      Predicate.eval_congr p _ _ h
    simp only [Operator.step, hp]
  | indexWindow w =>
    simp only [Operator.step, IndexWindow.refresh, IndexWindow.read_congr (w := w) h]
  | _ => rfl

theorem Operator.initialInput_congr {op : Operator} (h : AgreeOn op.reads ctx ctx')
    (store : Store) : op.initialInput store ctx = op.initialInput store ctx' := by
  cases op with
  | indexedScan bindings => simp only [Operator.initialInput, indexedRangeKeys_congr h]
  | keyScan table key =>
    simp only [Operator.initialInput, keyScanStart, resolvePredicateValue_congr key h]
  | _ => rfl

/-- Priming a graph reads the parameters at its operators' references only. -/
theorem primeGraph_congr {g : Graph} (h : ∀ node ∈ g.nodes, AgreeOn node.operator.reads ctx ctx')
    (env : Env) (ho : HashOrder) (store : Store) :
    primeGraph env ho g store ctx = primeGraph env ho g store ctx' := by
  have hpass : stepPass env ho store ctx g.nodes (primeInputs store ctx) g.topoOrder =
      stepPass env ho store ctx' g.nodes (primeInputs store ctx') g.topoOrder := by
    unfold stepPass
    congr 1
    funext i acc
    cases hn : g.nodes[i]? with
    | none => rfl
    | some node =>
      have hr := h node (List.mem_of_getElem? hn)
      have hin : primeInputs store ctx i node acc = primeInputs store ctx' i node acc := by
        unfold primeInputs sourceStart
        rw [Operator.initialInput_congr hr]
      rw [Option.map_some, Option.map_some, hin, Operator.step_congr hr]
  unfold primeGraph
  rw [hpass]

/-! ## Index planning -/

/-- The operands and predicates of a split conjunction refer to `refs` only. -/
structure Conjuncts.Within (refs : List String) (c : Conjuncts) : Prop where
  eqs : ∀ e ∈ c.eqs, e.2.paramRefs ⊆ refs
  gates : Predicate.readsAll c.gates ⊆ refs
  id : ∀ v ∈ c.id, v.paramRefs ⊆ refs
  ors : ∀ ps ∈ c.ors, Predicate.readsAll ps ⊆ refs

theorem readsAll_append (ps qs : List Predicate) :
    Predicate.readsAll (ps ++ qs) = Predicate.readsAll ps ++ Predicate.readsAll qs := by
  induction ps with
  | nil => rfl
  | cons p ps ih => rw [List.cons_append, Predicate.readsAll, ih, Predicate.readsAll,
      List.append_assoc]

namespace IndexChoice

variable {refs : List String} (defs : ExtTreeMap String (List IndexDef))

theorem within_gate {out : Conjuncts} (h : out.Within refs) {p : Predicate} (hp : p.reads ⊆ refs) :
    Conjuncts.Within refs { out with gates := out.gates ++ [p] } := by
  refine ⟨h.eqs, ?_, h.id, h.ors⟩
  dsimp only
  rw [readsAll_append]
  exact List.append_subset.mpr ⟨h.gates, by simpa [Predicate.readsAll] using hp⟩

mutual

theorem split_within (ic : IndexChoice) : ∀ (p : Predicate) (out : Conjuncts), out.Within refs →
    p.reads ⊆ refs → (split ic out p).Within refs
  | .true, out, h, _ => h
  | .false, out, h, hp => within_gate h hp
  | .and ps, out, h, hp => splitAll_within ic ps out h hp
  | .paramCmp _ _ _, out, h, hp => within_gate h hp
  | .cmp op field value, out, h, hp => by
    rw [split]
    split
    · refine ⟨h.eqs, h.gates, ?_, h.ors⟩
      intro v hv
      cases ho : out.id with
      | some w =>
        refine h.id v ?_
        simpa [ho] using hv
      | none =>
        obtain rfl : value = v := by simpa [ho] using hv
        exact hp
    · split
      · refine ⟨?_, h.gates, h.id, h.ors⟩
        intro e he
        rcases List.mem_append.mp he with he | he
        · exact h.eqs e he
        · obtain rfl : e = _ := by simpa using he
          exact hp
      · split
        · exact within_gate h hp
        · exact ⟨h.eqs, h.gates, h.id, h.ors⟩
  | .or ps, out, h, hp => by
    rw [split]
    split
    · exact within_gate h hp
    · refine ⟨h.eqs, h.gates, h.id, ?_⟩
      intro qs hqs
      rcases List.mem_append.mp hqs with hqs | hqs
      · exact h.ors qs hqs
      · obtain rfl : qs = ps := by simpa using hqs
        exact hp
  | .prefixed _ _, out, h, hp => by
    rw [split]
    split
    · exact within_gate h hp
    · exact ⟨h.eqs, h.gates, h.id, h.ors⟩

theorem splitAll_within (ic : IndexChoice) : ∀ (ps : List Predicate) (out : Conjuncts),
    out.Within refs → Predicate.readsAll ps ⊆ refs → (splitAll ic out ps).Within refs
  | [], _, h, _ => h
  | p :: ps, out, h, hp => by
    rw [splitAll]
    obtain ⟨h1, h2⟩ := List.append_subset.mp hp
    exact splitAll_within ic ps _ (split_within ic p out h h1) h2

end

theorem orderable_congr (h : AgreeOn refs ctx ctx') {v : Json} (hv : v.paramRefs ⊆ refs) :
    orderable ⟨defs, ctx⟩ v = orderable ⟨defs, ctx'⟩ v := by
  unfold orderable resolve
  rw [resolvePredicateValue_congr v (h.mono hv)]

theorem sameOperand_congr (h : AgreeOn refs ctx ctx') {v w : Json} (hv : v.paramRefs ⊆ refs)
    (hw : w.paramRefs ⊆ refs) :
    sameOperand ⟨defs, ctx⟩ v w = sameOperand ⟨defs, ctx'⟩ v w := by
  unfold sameOperand resolve
  rw [resolvePredicateValue_congr v (h.mono hv), resolvePredicateValue_congr w (h.mono hw)]

mutual

theorem split_congr (h : AgreeOn refs ctx ctx') : ∀ (p : Predicate) (out : Conjuncts),
    p.reads ⊆ refs → split ⟨defs, ctx⟩ out p = split ⟨defs, ctx'⟩ out p
  | .true, _, _ => rfl
  | .false, _, _ => rfl
  | .and ps, out, hp => splitAll_congr h ps out hp
  | .paramCmp _ _ _, _, _ => rfl
  | .cmp op field value, out, hp => by
    rw [split, split, orderable_congr defs h (v := value) hp]
  | .or _, _, _ => rfl
  | .prefixed _ _, _, _ => rfl

theorem splitAll_congr (h : AgreeOn refs ctx ctx') : ∀ (ps : List Predicate) (out : Conjuncts),
    Predicate.readsAll ps ⊆ refs → splitAll ⟨defs, ctx⟩ out ps = splitAll ⟨defs, ctx'⟩ out ps
  | [], _, _ => rfl
  | p :: ps, out, hp => by
    obtain ⟨h1, h2⟩ := List.append_subset.mp hp
    rw [splitAll, splitAll, split_congr h p out h1, splitAll_congr h ps _ h2]

end

theorem conflicting_congr (h : AgreeOn refs ctx ctx') (eqs : List (String × Json))
    (he : ∀ e ∈ eqs, e.2.paramRefs ⊆ refs) :
    conflicting ⟨defs, ctx⟩ eqs = conflicting ⟨defs, ctx'⟩ eqs := by
  induction eqs with
  | nil => rfl
  | cons e rest ih =>
    obtain ⟨f, v⟩ := e
    have hrest : ∀ x ∈ rest, x.2.paramRefs ⊆ refs := (List.forall_mem_cons.mp he).2
    have hany : rest.any (fun e => e.1 == f && !sameOperand ⟨defs, ctx⟩ v e.2) =
        rest.any (fun e => e.1 == f && !sameOperand ⟨defs, ctx'⟩ v e.2) := by
      refine any_congr_mem fun e hin => ?_
      rw [sameOperand_congr defs h (he _ List.mem_cons_self) (hrest e hin)]
    rw [conflicting, conflicting, ih hrest, hany]

variable {eqs outer : List (String × Json)}

theorem mem_firstPerField {e : String × Json} (h : e ∈ firstPerField eqs) : e ∈ eqs := by
  induction eqs with
  | nil => exact h
  | cons x rest ih =>
    rcases List.mem_cons.mp h with rfl | h
    · exact List.mem_cons_self
    · exact List.mem_cons_of_mem _ (ih (List.mem_filter.mp h).1)

theorem within_start : Conjuncts.Within refs {} :=
  ⟨by simp, by simp [Predicate.readsAll], by simp, by simp⟩

variable {ps : List Predicate}

theorem conjuncts_within (ic : IndexChoice)
    (hp : Predicate.readsAll ps ⊆ refs) {c : Conjuncts} (hc : ic.conjuncts ps = some c) :
    c.Within refs := by
  have hw := splitAll_within ic ps {} within_start hp
  unfold conjuncts at hc
  dsimp only at hc
  split at hc
  · cases hc
  · cases hc
    exact ⟨fun e he => hw.eqs e (mem_firstPerField he), hw.gates, hw.id, hw.ors⟩

theorem conjuncts_congr (h : AgreeOn refs ctx ctx') (hp : Predicate.readsAll ps ⊆ refs) :
    conjuncts ⟨defs, ctx⟩ ps = conjuncts ⟨defs, ctx'⟩ ps := by
  have hw := splitAll_within ⟨defs, ctx'⟩ ps {} within_start hp
  unfold conjuncts
  dsimp only
  rw [splitAll_congr defs h ps {} hp, conflicting_congr defs h _ hw.eqs]

theorem mem_of_lookup {f : String} {v : Json} (h : eqs.lookup f = some v) : (f, v) ∈ eqs := by
  induction eqs with
  | nil => cases h
  | cons e rest ih =>
    obtain ⟨g, w⟩ := e
    rw [List.lookup_cons] at h
    split at h
    · next heq =>
      cases h
      rw [show f = g by simpa using heq]
      exact List.mem_cons_self
    · exact List.mem_cons_of_mem _ (ih h)

variable {table : String}

theorem binding_reads {d : IndexDef}
    {gates : List Predicate} {k : Nat} (he : ∀ e ∈ eqs, e.2.paramRefs ⊆ refs)
    (hg : Predicate.readsAll gates ⊆ refs) : (binding table d eqs gates k).reads ⊆ refs := by
  refine List.append_subset.mpr ⟨?_, hg⟩
  intro r hr
  obtain ⟨v, hv, hr⟩ := List.mem_flatMap.mp hr
  obtain ⟨f, -, rfl⟩ := List.mem_map.mp hv
  cases hl : eqs.lookup f with
  | none => simp [hl, Json.paramRefs, Json.get] at hr
  | some w =>
    rw [hl, Option.getD_some] at hr
    exact he (f, w) (mem_of_lookup hl) hr

theorem window_congr (h : AgreeOn refs ctx ctx')
    (hp : Predicate.readsAll ps ⊆ refs) (table : String) (orderBy : Option (List OrderSpec))
    (limit start : Nat) :
    window ⟨defs, ctx⟩ table ps orderBy limit start =
      window ⟨defs, ctx'⟩ table ps orderBy limit start := by
  unfold window
  rw [conjuncts_congr defs h hp]
  rfl

theorem window_reads (ic : IndexChoice) (hp : Predicate.readsAll ps ⊆ refs) {orderBy : Option (List OrderSpec)} {limit start : Nat} {op : Operator}
    (hop : ic.window table ps orderBy limit start = some op) : op.reads ⊆ refs := by
  unfold window at hop
  split at hop
  · cases hop
  · next c hc =>
    have hw := conjuncts_within ic hp hc
    dsimp only at hop
    split at hop
    · cases hop
    split at hop
    · cases hop
    · obtain ⟨d, -, rfl⟩ := Option.map_eq_some_iff.mp hop
      exact binding_reads hw.eqs hw.gates

/-- The equalities of a branch with the outer ones added. -/
theorem outer_within (ho : ∀ e ∈ outer, e.2.paramRefs ⊆ refs)
    (he : ∀ e ∈ eqs, e.2.paramRefs ⊆ refs) :
    ∀ e ∈ outer.foldl (fun acc e => if acc.any (·.1 == e.1) then acc else acc ++ [e]) eqs,
      e.2.paramRefs ⊆ refs := by
  induction outer generalizing eqs with
  | nil => exact he
  | cons x outer ih =>
    rw [List.foldl_cons]
    refine ih (List.forall_mem_cons.mp ho).2 ?_
    intro e hin
    split at hin
    · exact he e hin
    · rcases List.mem_append.mp hin with hin | hin
      · exact he e hin
      · obtain rfl : e = x := by simpa using hin
        exact ho _ List.mem_cons_self

theorem unionBranch_congr (h : AgreeOn refs ctx ctx') {branch : Predicate}
    (hb : branch.reads ⊆ refs) (table : String) (outer : List (String × Json))
    (single : Option (IndexDef × Nat)) :
    unionBranch ⟨defs, ctx⟩ table outer single branch =
      unionBranch ⟨defs, ctx'⟩ table outer single branch := by
  unfold unionBranch
  have hbs : Predicate.readsAll [branch] ⊆ refs := by simpa [Predicate.readsAll] using hb
  rw [conjuncts_congr defs h hbs]
  rfl

theorem unionBranch_reads (ic : IndexChoice) {branch : Predicate} (hb : branch.reads ⊆ refs) (ho : ∀ e ∈ outer, e.2.paramRefs ⊆ refs)
    {single : Option (IndexDef × Nat)} {b : IndexBinding}
    (h : ic.unionBranch table outer single branch = some b) : b.reads ⊆ refs := by
  unfold unionBranch at h
  split at h
  · cases h
  · next c hc =>
    have hbs : Predicate.readsAll [branch] ⊆ refs := by simpa [Predicate.readsAll] using hb
    have hw := conjuncts_within ic hbs hc
    split at h
    · cases h
    · dsimp only at h
      split at h
      · cases h
      · split at h
        · cases h
          exact binding_reads (outer_within ho hw.eqs) (by simp [Predicate.readsAll])
        · cases h

theorem mapM_congr_mem {α β : Type} {f f' : α → Option β} {l : List α}
    (h : ∀ a ∈ l, f a = f' a) : l.mapM f = l.mapM f' := by
  induction l with
  | nil => rfl
  | cons a l ih =>
    rw [List.mapM_cons, List.mapM_cons, h a List.mem_cons_self,
      ih (List.forall_mem_cons.mp h).2]

theorem union_congr (h : AgreeOn refs ctx ctx') {branches : List Predicate}
    (hb : Predicate.readsAll branches ⊆ refs) (table : String) (outer : List (String × Json))
    (single : Option (IndexDef × Nat)) :
    union ⟨defs, ctx⟩ table outer branches single =
      union ⟨defs, ctx'⟩ table outer branches single := by
  unfold union
  rw [mapM_congr_mem fun branch hin => unionBranch_congr defs h
    (fun r hr => hb (Predicate.mem_readsAll.mpr ⟨branch, hin, hr⟩)) table outer single]

theorem union_reads (ic : IndexChoice) {branches : List Predicate}
    (hb : Predicate.readsAll branches ⊆ refs)
    (ho : ∀ e ∈ outer, e.2.paramRefs ⊆ refs) {single : Option (IndexDef × Nat)}
    {bindings : List IndexBinding} (h : ic.union table outer branches single = some bindings) :
    bindings.flatMap IndexBinding.reads ⊆ refs := by
  have hall : ∀ (l : List Predicate) (bs : List IndexBinding),
      l.mapM (ic.unionBranch table outer single) = some bs → Predicate.readsAll l ⊆ refs →
      bs.flatMap IndexBinding.reads ⊆ refs := by
    intro l
    induction l with
    | nil =>
      intro bs hbs _
      cases hbs
      simp
    | cons branch l ih =>
      intro bs hbs hl
      rw [List.mapM_cons] at hbs
      cases hx : ic.unionBranch table outer single branch with
      | none => simp [hx] at hbs
      | some b =>
        cases hm : l.mapM (ic.unionBranch table outer single) with
        | none => simp [hx, hm] at hbs
        | some rest =>
          obtain rfl : b :: rest = bs := by simpa [hx, hm] using hbs
          obtain ⟨h1, h2⟩ := List.append_subset.mp hl
          rw [List.flatMap_cons]
          exact List.append_subset.mpr ⟨unionBranch_reads ic h1 ho hx, ih rest hm h2⟩
  unfold union at h
  split at h
  · cases h
  · next bs hbs =>
    split at h
    · cases h
    · cases h
      exact hall branches _ hbs hb

theorem findSome_congr_mem {α β : Type} {f f' : α → Option β} {l : List α}
    (h : ∀ a ∈ l, f a = f' a) : l.findSome? f = l.findSome? f' := by
  induction l with
  | nil => rfl
  | cons a l ih =>
    rw [List.findSome?_cons, List.findSome?_cons, h a List.mem_cons_self,
      ih (List.forall_mem_cons.mp h).2]

theorem scan_congr (h : AgreeOn refs ctx ctx')
    (hp : Predicate.readsAll ps ⊆ refs) (table : String) :
    scan ⟨defs, ctx⟩ table ps = scan ⟨defs, ctx'⟩ table ps := by
  unfold scan
  rw [conjuncts_congr defs h hp]
  cases hc : conjuncts ⟨defs, ctx'⟩ ps with
  | none => rfl
  | some c =>
    have hw := conjuncts_within _ hp hc
    dsimp only
    cases c.id with
    | some key => rfl
    | none =>
      dsimp only
      rw [findSome_congr_mem fun branches hin =>
        union_congr defs h (hw.ors branches hin) table c.eqs _]
      rfl

theorem scan_reads (ic : IndexChoice) (hp : Predicate.readsAll ps ⊆ refs) {op : Operator} (hop : ic.scan table ps = some op) : op.reads ⊆ refs := by
  unfold scan at hop
  split at hop
  · cases hop
  · next c hc =>
    have hw := conjuncts_within ic hp hc
    split at hop
    · next key hkey =>
      cases hop
      exact hw.id key hkey
    · dsimp only at hop
      split at hop
      · next bindings hb =>
        cases hop
        obtain ⟨branches, hin, hu⟩ := List.exists_of_findSome?_eq_some hb
        exact union_reads ic (hw.ors branches hin) hw.eqs hu
      · obtain ⟨s, -, rfl⟩ := Option.map_eq_some_iff.mp hop
        change [_].flatMap IndexBinding.reads ⊆ refs
        rw [List.flatMap_singleton]
        exact binding_reads hw.eqs (by simp [Predicate.readsAll])

end IndexChoice

/-! ## Building -/

variable {plan : OperatorPlan}

theorem filterChain_reads {ps : List Predicate} {table : String}
    (h : filterChain plan = some (ps, table)) : Predicate.readsAll ps = plan.reads := by
  induction plan using OperatorPlan.inputInduction generalizing ps with
  | scan t =>
    cases h
    rfl
  | filter input p ih =>
    rw [filterChain] at h
    obtain ⟨⟨qs, t⟩, hq, he⟩ := Option.map_eq_some_iff.mp h
    cases he
    rw [Predicate.readsAll, ih hq, OperatorPlan.reads]
  | _ => cases h

theorem windowShape_reads {pj : List (List Projection)}
    {ps : List Predicate} {table : String} (h : windowShape plan = some (pj, ps, table)) :
    Predicate.readsAll ps = plan.reads := by
  induction plan using OperatorPlan.inputInduction generalizing pj with
  | scan t =>
    cases h
    rfl
  | filter input p ih =>
    obtain ⟨⟨qs, t⟩, hq, he⟩ := Option.map_eq_some_iff.mp h
    cases he
    exact filterChain_reads hq
  | project input pr ih =>
    obtain ⟨⟨pj', qs, t⟩, hq, he⟩ := Option.map_eq_some_iff.mp h
    cases he
    exact ih hq
  | _ => cases h

/-- Two planners choose alike for predicates that refer to `refs` only. -/
structure IndexPlanner.AlikeOn (refs : List String) (a b : IndexPlanner) : Prop where
  window : ∀ table ps orderBy limit start, Predicate.readsAll ps ⊆ refs →
    a.window table ps orderBy limit start = b.window table ps orderBy limit start
  scan : ∀ table ps, Predicate.readsAll ps ⊆ refs → a.scan table ps = b.scan table ps

/-- For such predicates the planner's sources refer to `refs` only. -/
structure IndexPlanner.Within (refs : List String) (a : IndexPlanner) : Prop where
  window : ∀ table ps orderBy limit start op, Predicate.readsAll ps ⊆ refs →
    a.window table ps orderBy limit start = some op → op.reads ⊆ refs
  scan : ∀ table ps op, Predicate.readsAll ps ⊆ refs → a.scan table ps = some op → op.reads ⊆ refs

theorem noIndexes_within (refs : List String) : noIndexes.Within refs :=
  ⟨(fun _ _ _ _ _ _ _ h => by cases h), (fun _ _ _ _ h => by cases h)⟩

theorem planner_within (ic : IndexChoice) (refs : List String) : ic.planner.Within refs :=
  ⟨fun _ _ _ _ _ _ hp hop => ic.window_reads hp hop, fun _ _ _ hp hop => ic.scan_reads hp hop⟩

theorem planner_alikeOn {refs : List String} (h : AgreeOn refs ctx ctx')
    (defs : ExtTreeMap String (List IndexDef)) :
    IndexPlanner.AlikeOn refs (indexPlanning defs ctx) (indexPlanning defs ctx') :=
  ⟨fun table _ orderBy limit start hp => IndexChoice.window_congr defs h hp table orderBy limit start,
    fun table _ hp => IndexChoice.scan_congr defs h hp table⟩

theorem buildNode_congr {refs : List String} {a b : IndexPlanner} (h : a.AlikeOn refs b)
    (plan : OperatorPlan) (hp : plan.reads ⊆ refs) (nodes : List Node) :
    buildNode a plan nodes = buildNode b plan nodes := by
  induction plan using OperatorPlan.inputInduction generalizing nodes with
  | scan t => rfl
  | filter input p ih =>
    have hsource : ((filterChain (.filter input p)).bind fun c =>
          (a.scan c.2 c.1).map (·, c.1)) =
        (filterChain (.filter input p)).bind fun c => (b.scan c.2 c.1).map (·, c.1) := by
      cases hc : filterChain (.filter input p) with
      | none => rfl
      | some c =>
        obtain ⟨ps, table⟩ := c
        have hr := filterChain_reads hc
        simp only [Option.bind_some, h.scan table ps (hr ▸ hp)]
    simp only [buildNode, hsource, ih (List.append_subset.mp hp).2]
  | limit input lim start orderBy ih =>
    have hsource : ((windowShape input).bind fun c =>
          (a.window c.2.2 c.2.1 orderBy lim start).map (·, c.1)) =
        (windowShape input).bind fun c =>
          (b.window c.2.2 c.2.1 orderBy lim start).map (·, c.1) := by
      cases hc : windowShape input with
      | none => rfl
      | some c =>
        obtain ⟨pj, ps, table⟩ := c
        have hr := windowShape_reads hc
        simp only [Option.bind_some, h.window table ps orderBy lim start (hr ▸ hp)]
    simp only [buildNode, hsource, ih hp]
  | distinct input ih | project input pr ih => simp only [buildNode, ih hp]
  | join left right on ihl ihr | semiJoin left right on ihl ihr | antiJoin left right on ihl ihr
  | union left right ihl ihr =>
    obtain ⟨hl, hr⟩ := List.append_subset.mp hp
    simp only [buildNode, ihl hl, ihr hr]

/-- Every operator of the nodes refers to `refs` only. -/
def ReadWithin (refs : List String) (nodes : List Node) : Prop :=
  ∀ node ∈ nodes, node.operator.reads ⊆ refs

variable {nodes : List Node}

theorem readWithin_pushNode {refs : List String} (h : ReadWithin refs nodes)
    {op : Operator} (hop : op.reads ⊆ refs) (inputs : List Nat) :
    ReadWithin refs (pushNode nodes op inputs).1 := by
  intro node hn
  rcases List.mem_append.mp hn with hn | hn
  · exact h node hn
  · obtain rfl := List.mem_singleton.mp hn
    exact hop

theorem readWithin_pushChain {refs : List String} {ops : List Operator}
    (hops : ∀ op ∈ ops, op.reads ⊆ refs) (h : ReadWithin refs nodes)
    (id : Nat) : ReadWithin refs (pushChain nodes id ops).1 := by
  induction ops generalizing nodes id with
  | nil => exact h
  | cons op ops ih =>
    exact ih (List.forall_mem_cons.mp hops).2
      (readWithin_pushNode h (hops op List.mem_cons_self) [id]) nodes.length

theorem buildNode_readWithin {refs : List String} {a : IndexPlanner} (ha : a.Within refs)
    (plan : OperatorPlan) (hp : plan.reads ⊆ refs)
    (h : ReadWithin refs nodes) : ReadWithin refs (buildNode a plan nodes).1 := by
  induction plan using OperatorPlan.inputInduction generalizing nodes with
  | scan t => exact readWithin_pushNode h (List.nil_subset _) []
  | filter input p ih =>
    obtain ⟨hread, hin⟩ := List.append_subset.mp hp
    rw [buildNode]
    dsimp only
    split
    · next source ps hs =>
      obtain ⟨⟨qs, table⟩, hc, hs⟩ := Option.bind_eq_some_iff.mp hs
      obtain ⟨op, hop, he⟩ := Option.map_eq_some_iff.mp hs
      cases he
      have hr := filterChain_reads hc
      refine readWithin_pushChain ?_ (readWithin_pushNode h (ha.scan _ _ _ (hr ▸ hp) hop) []) _
      intro o ho
      obtain ⟨q, hq, rfl⟩ := List.mem_map.mp ho
      intro r hrq
      exact hp (hr ▸ Predicate.mem_readsAll.mpr ⟨q, List.mem_reverse.mp hq, hrq⟩)
    · exact readWithin_pushNode (ih hin h) (show (Operator.filter p).reads ⊆ refs from hread) _
  | limit input lim start orderBy ih =>
    rw [buildNode]
    dsimp only
    split
    · next source pj hs =>
      obtain ⟨⟨pj', qs, table⟩, hc, hs⟩ := Option.bind_eq_some_iff.mp hs
      obtain ⟨op, hop, he⟩ := Option.map_eq_some_iff.mp hs
      cases he
      have hr := windowShape_reads hc
      refine readWithin_pushChain ?_
        (readWithin_pushNode h (ha.window _ _ _ _ _ _ (hr ▸ hp) hop) []) _
      intro o ho
      obtain ⟨q, -, rfl⟩ := List.mem_map.mp ho
      exact List.nil_subset _
    · exact readWithin_pushNode (ih hp h) (List.nil_subset _) _
  | distinct input ih
  | project input pr ih => exact readWithin_pushNode (ih hp h) (List.nil_subset _) _
  | join left right on ihl ihr | semiJoin left right on ihl ihr | antiJoin left right on ihl ihr
  | union left right ihl ihr =>
    obtain ⟨hl, hr⟩ := List.append_subset.mp hp
    exact readWithin_pushNode (ihr hr (ihl hl h)) (List.nil_subset _) _

/-! ## Graphs -/

/-- The graph of a plan primed on a store: what a registration with these parameters outputs. -/
def primed (env : Env) (ho : HashOrder) (planner : IndexPlanner) (plan : OperatorPlan)
    (store : Store) (ctx : Option Sp00kyValue) : Graph × Option ZSet :=
  primeGraph env ho (Graph.fromPlanWith plan planner) store ctx

theorem primed_congr_of {refs : List String} {a b : IndexPlanner} (hab : a.AlikeOn refs b)
    (hb : b.Within refs) (hp : plan.reads ⊆ refs)
    (h : AgreeOn refs ctx ctx') (env : Env) (ho : HashOrder) (store : Store) :
    primed env ho a plan store ctx = primed env ho b plan store ctx' := by
  have hg : Graph.fromPlanWith plan a = Graph.fromPlanWith plan b := by
    unfold Graph.fromPlanWith
    rw [buildNode_congr hab plan hp]
  unfold primed
  rw [hg]
  refine primeGraph_congr (fun node hn => h.mono ?_) env ho store
  have hnil : ReadWithin refs [] := fun n hn => by cases hn
  exact buildNode_readWithin hb plan hp hnil node hn

/-- Contexts that agree on a plan's references give one output, as written and planned. -/
theorem primed_congr (h : AgreeOn plan.reads ctx ctx')
    (defs : ExtTreeMap String (List IndexDef)) (env : Env) (ho : HashOrder) (store : Store) :
    primed env ho (asWritten defs ctx) plan store ctx =
        primed env ho (asWritten defs ctx') plan store ctx' ∧
      primed env ho (indexPlanning defs ctx) plan store ctx =
        primed env ho (indexPlanning defs ctx') plan store ctx' :=
  ⟨primed_congr_of ⟨fun _ _ _ _ _ _ => rfl, fun _ _ _ => rfl⟩ (noIndexes_within _)
      (List.Subset.refl _) h env ho store,
    primed_congr_of (planner_alikeOn h defs) (planner_within _ _) (List.Subset.refl _) h env ho
      store⟩

end Congr

end Sp00ky.Ssp
