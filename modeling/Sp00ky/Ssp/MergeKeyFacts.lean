/-
  Which registrations a merge key tells apart.

  Equal keys come from equal plans, and the parameters agree on every path the key
  binds (`mergeKey_agree`). A predicate of the operator graph reads a parameter
  through `resolveParamLookup`, with a `parent.` prefix stripped; the read is bound
  when an ordinary reference of the plan is a prefix of it (`Covered`). When every
  read is bound, equal keys give graphs with equal outputs; when one is not, two
  registrations share a key and read different values.
-/
import Mathlib.Data.Fintype.EquivFin
import Mathlib.Data.List.Dedup
import Sp00ky.Ssp.ParamReads
import Sp00ky.Ssp.SnapshotRoundTrip

namespace Sp00ky.Ssp

open Std Lib

/-! ## References of a plan -/

/-- A reference `push_path` keeps. -/
def ordinary (path : String) : Bool := !("parent.".toList.isPrefixOf path.toList || path.isEmpty)

mutual

/-- Every reference of a plan, subquery plans included. -/
def OperatorPlan.refs : OperatorPlan → List String
  | .scan _ => []
  | .filter input p => p.reads ++ input.refs
  | .join l r _ => l.refs ++ r.refs
  | .semiJoin l r _ => l.refs ++ r.refs
  | .antiJoin l r _ => l.refs ++ r.refs
  | .union l r => l.refs ++ r.refs
  | .distinct input => input.refs
  | .limit input _ _ _ => input.refs
  | .project input ps => input.refs ++ Projection.refsAll ps

def Projection.refsAll : List Projection → List String
  | [] => []
  | .subquery _ plan _ :: ps => plan.refs ++ Projection.refsAll ps
  | .all :: ps => Projection.refsAll ps
  | .field _ _ :: ps => Projection.refsAll ps

end

theorem lawfulOn_compare_string : LawfulOn (compare (α := String)) fun _ => True :=
  ⟨fun _ _ => ReflOrd.compare_self, fun _ _ _ _ h => LawfulEqOrd.eq_of_compare h,
    fun _ _ _ _ => OrientedOrd.eq_swap, fun _ _ _ _ _ _ h1 h2 => TransCmp.lt_trans h1 h2⟩

theorem mem_pushPath {out : List String} {path x : String} :
    x ∈ pushPath out path ↔ x ∈ out ∨ x = path ∧ ordinary x = true := by
  unfold pushPath
  split
  · next h =>
    have : ordinary path = false := by rw [ordinary, h, Bool.not_true]
    constructor
    · exact .inl
    · rintro (h | ⟨rfl, ho⟩)
      · exact h
      · rw [this] at ho
        cases ho
  · next h =>
    have : ordinary path = true := by rw [ordinary, Bool.eq_false_iff.mpr h, Bool.not_false]
    rw [mem_insertBy lawfulOn_compare_string trivial fun _ _ => trivial]
    constructor
    · rintro (rfl | h)
      · exact .inr ⟨rfl, this⟩
      · exact .inl h
    · rintro (h | ⟨rfl, -⟩)
      · exact .inr h
      · exact .inl rfl

theorem mem_pushValueRef {out : List String} {value : Json} {x : String} :
    x ∈ pushValueRef out value ↔ x ∈ out ∨ x ∈ value.paramRefs ∧ ordinary x = true := by
  unfold pushValueRef Json.paramRefs
  cases hv : value.get "$param" with
  | none => simp
  | some p =>
    cases hp : p.asStr with
    | some s => simp [hp, mem_pushPath]
    | none =>
      simp only [Option.bind_some, hp, Option.getD_none, List.mem_singleton, iff_self_or]
      rintro ⟨rfl, ho⟩
      exact absurd ho (by decide)

mutual

theorem mem_walkPredicate {x : String} : ∀ (p : Predicate) (out : List String),
    x ∈ walkPredicate out p ↔ x ∈ out ∨ x ∈ p.reads ∧ ordinary x = true
  | .true, _ => by simp [walkPredicate, Predicate.reads]
  | .false, _ => by simp [walkPredicate, Predicate.reads]
  | .prefixed _ _, _ => by simp [walkPredicate, Predicate.reads]
  | .cmp _ _ value, out => by rw [walkPredicate, mem_pushValueRef, Predicate.reads]
  | .paramCmp _ param value, out => by
    rw [walkPredicate, mem_pushValueRef, mem_pushPath, Predicate.reads, List.mem_cons]
    tauto
  | .and ps, out => mem_walkPredicates ps out
  | .or ps, out => mem_walkPredicates ps out

theorem mem_walkPredicates {x : String} : ∀ (ps : List Predicate) (out : List String),
    x ∈ walkPredicates out ps ↔ x ∈ out ∨ x ∈ Predicate.readsAll ps ∧ ordinary x = true
  | [], _ => by simp [walkPredicates, Predicate.readsAll]
  | p :: ps, out => by
    rw [walkPredicates, mem_walkPredicates ps, mem_walkPredicate p, Predicate.readsAll,
      List.mem_append]
    tauto

end

mutual

theorem mem_walkPlan {x : String} : ∀ (plan : OperatorPlan) (out : List String),
    x ∈ walkPlan out plan ↔ x ∈ out ∨ x ∈ plan.refs ∧ ordinary x = true
  | .scan _, _ => by simp [walkPlan, OperatorPlan.refs]
  | .filter input p, out => by
    rw [walkPlan, mem_walkPlan input, mem_walkPredicate, OperatorPlan.refs, List.mem_append]
    tauto
  | .join l r _, out => by
    rw [walkPlan, mem_walkPlan r, mem_walkPlan l, OperatorPlan.refs, List.mem_append]
    tauto
  | .semiJoin l r _, out => by
    rw [walkPlan, mem_walkPlan r, mem_walkPlan l, OperatorPlan.refs, List.mem_append]
    tauto
  | .antiJoin l r _, out => by
    rw [walkPlan, mem_walkPlan r, mem_walkPlan l, OperatorPlan.refs, List.mem_append]
    tauto
  | .union l r, out => by
    rw [walkPlan, mem_walkPlan r, mem_walkPlan l, OperatorPlan.refs, List.mem_append]
    tauto
  | .distinct input, out => by rw [walkPlan, mem_walkPlan input, OperatorPlan.refs]
  | .limit input _ _ _, out => by rw [walkPlan, mem_walkPlan input, OperatorPlan.refs]
  | .project input ps, out => by
    rw [walkPlan, mem_walkProjections ps, mem_walkPlan input, OperatorPlan.refs, List.mem_append]
    tauto

theorem mem_walkProjections {x : String} : ∀ (ps : List Projection) (out : List String),
    x ∈ walkProjections out ps ↔ x ∈ out ∨ x ∈ Projection.refsAll ps ∧ ordinary x = true
  | [], _ => by simp [walkProjections, Projection.refsAll]
  | .subquery _ plan _ :: ps, out => by
    rw [walkProjections, mem_walkProjections ps, mem_walkPlan plan, Projection.refsAll,
      List.mem_append]
    tauto
  | .all :: ps, out => by rw [walkProjections, mem_walkProjections ps, Projection.refsAll]
  | .field _ _ :: ps, out => by rw [walkProjections, mem_walkProjections ps, Projection.refsAll]

end

variable {plan : OperatorPlan}

/-- The key binds the ordinary references of a plan. -/
theorem mem_collectParamRefs {x : String} :
    x ∈ collectParamRefs plan ↔ x ∈ plan.refs ∧ ordinary x = true := by
  rw [collectParamRefs, mem_walkPlan]
  simp

/-! ## Reading a key back -/

/-- The character before each part of the text. -/
def nul : Char := Char.ofNat 0

theorem nul_not_mem_escapeChar (c : Char) : nul ∉ escapeChar c := by
  unfold escapeChar
  split
  · next e he =>
    have hall : ∀ p ∈ letterEscapes, nul ≠ p.2 := by decide
    have := hall _ (letterEscape_some he)
    simp [this, show nul ≠ backslash by decide]
  · split
    · next hc =>
      have hhex : ∀ n < 16, nul ≠ hexDigit n := by decide
      have h1 := hhex (c.toNat / 16) (by omega)
      have h2 := hhex (c.toNat % 16) (by omega)
      simp [h1, h2, show nul ≠ backslash by decide, show nul ≠ 'u' by decide,
        show nul ≠ '0' by decide]
    · next hc =>
      rw [List.mem_singleton]
      rintro rfl
      exact hc (by decide)

theorem nul_not_mem_quoteText (s : String) : nul ∉ quoteText s := by
  have hbody : nul ∉ s.toList.flatMap escapeChar := by
    rw [List.mem_flatMap]
    rintro ⟨c, -, hc⟩
    exact nul_not_mem_escapeChar c hc
  have hq : nul ≠ dquote := by decide
  simp only [quoteText, List.cons_append, List.mem_cons, List.mem_append, List.not_mem_nil]
  rintro (h | h | h | h)
  · exact hq h
  · exact hbody h
  · exact hq h
  · exact h

theorem nul_not_mem_comma (first : Bool) : nul ∉ comma first := by
  cases first <;> decide

theorem nul_not_mem_fieldsText : ∀ (first : Bool) (l : List (String × List Char)),
    (∀ p ∈ l, nul ∉ p.2) → nul ∉ fieldsText first l
  | _, [], _ => by
    simp only [fieldsText]
    decide
  | first, (k, text) :: fs, h => by
    have htext := h (k, text) List.mem_cons_self
    have hrest := nul_not_mem_fieldsText false fs (List.forall_mem_cons.mp h).2
    simp only [fieldsText, List.mem_append, List.mem_cons, not_or]
    exact ⟨⟨⟨nul_not_mem_comma first, nul_not_mem_quoteText k⟩, by decide, htext⟩, hrest⟩

variable {num : JsonNumber → List Char}

theorem nul_not_mem_number (hnum : NumberText num) {n : JsonNumber} (hn : n.ok) : nul ∉ num n := by
  intro h
  exact absurd (hnum.chars n hn _ h) (by decide)

mutual

theorem nul_not_mem_canonical (hnum : NumberText num) : ∀ j : Json, j.WF → nul ∉ j.canonical num
  | .null, _ => by
    rw [Json.canonical]
    decide
  | .bool b, _ => by
    rw [Json.canonical]
    cases b <;> decide
  | .int i, _ => nul_not_mem_number hnum trivial
  | .float f, h => nul_not_mem_number hnum h
  | .str s, _ => nul_not_mem_quoteText s
  | .array items, h => by
    rw [Json.canonical, List.mem_cons, not_or]
    exact ⟨by decide, nul_not_mem_itemsText hnum true items h⟩
  | .object fields, h => by
    rw [canonical_object h, List.mem_cons, not_or]
    exact ⟨by decide, nul_not_mem_fieldsText true _ (nul_not_mem_fieldTexts hnum fields h.1)⟩

theorem nul_not_mem_itemsText (hnum : NumberText num) : ∀ (first : Bool) (l : List Json), Json.WFItems l →
    nul ∉ Json.itemsText num first l
  | _, [], _ => by
    rw [Json.itemsText]
    decide
  | first, j :: js, h => by
    rw [Json.itemsText, List.mem_append, List.mem_append, not_or, not_or]
    exact ⟨⟨nul_not_mem_comma first, nul_not_mem_canonical hnum j h.1⟩,
      nul_not_mem_itemsText hnum false js h.2⟩

theorem nul_not_mem_fieldTexts (hnum : NumberText num) : ∀ l : List (String × Json), Json.WFFields l →
    ∀ p ∈ Json.fieldTexts num l, nul ∉ p.2
  | [], _, p, hp => by
    rw [Json.fieldTexts] at hp
    cases hp
  | (k, j) :: fs, h, p, hp => by
    rw [Json.fieldTexts] at hp
    rcases List.mem_cons.mp hp with rfl | hp
    · exact nul_not_mem_canonical hnum j h.1
    · exact nul_not_mem_fieldTexts hnum fs h.2 p hp

end

/-- What follows the last `nul`. -/
theorem after_last_nul {l m a b : List Char} (ha : nul ∉ a) (hb : nul ∉ b)
    (h : l ++ nul :: a = m ++ nul :: b) : a = b := by
  rcases List.append_eq_append_iff.mp h with ⟨k, -, he⟩ | ⟨k, -, he⟩
  · cases k with
    | nil => exact (List.cons.inj he).2
    | cons c k =>
      refine absurd ?_ ha
      rw [(List.cons.inj he).2]
      simp
  · cases k with
    | nil => exact (List.cons.inj he).2.symm
    | cons c k =>
      refine absurd ?_ hb
      rw [(List.cons.inj he).2]
      simp

/-- The parts of the text after the plan. -/
def bindsText (num : JsonNumber → List Char) (refs : List String) (params : Option Json) :
    List Char :=
  refs.flatMap (bindText num params)
    ++ if refs.any (fun path => (resolveRef params path).isNone) then
        nul :: "fallback:".toList ++ (params.getD .null).canonical num
      else []

theorem mergeText_eq (plan : OperatorPlan) (params : Option Json) :
    mergeText num plan params =
      "plan:".toList ++ (plan.json.canonical num ++
        bindsText num (collectParamRefs plan) params) := by
  unfold mergeText bindsText
  dsimp only
  rw [List.append_assoc, List.append_assoc]
  rfl

theorem stop_binds (num : JsonNumber → List Char) (refs : List String) (params : Option Json) {t : List Char} (ht : Stop t) :
    Stop (refs.flatMap (bindText num params) ++ t) := by
  induction refs with
  | nil => exact ht
  | cons path refs ih =>
    rw [List.flatMap_cons, List.append_assoc]
    cases hr : resolveRef params path with
    | none => simpa [bindText, hr] using ih
    | some v =>
      rw [bindText, hr]
      exact stop_cons (by decide) _

theorem stop_bindsText (refs : List String) (params : Option Json) :
    Stop (bindsText num refs params) := by
  refine stop_binds num refs params ?_
  split
  · exact stop_cons (by decide) _
  · intro c hc
    cases hc

variable {params params' : Option Json}

/-- Parameters that bind every reference: the text gives their values back. -/
theorem binds_inj (hnum : NumberText num) (hw : ∀ path v, resolveRef params path = some v → v.WF)
    (hw' : ∀ path v, resolveRef params' path = some v → v.WF) (refs : List String)
    (hall : ∀ path ∈ refs, (resolveRef params path).isSome)
    (hall' : ∀ path ∈ refs, (resolveRef params' path).isSome)
    (h : refs.flatMap (bindText num params) = refs.flatMap (bindText num params')) :
    ∀ path ∈ refs, resolveRef params path = resolveRef params' path := by
  induction refs with
  | nil => simp
  | cons path refs ih =>
    obtain ⟨v, hv⟩ := Option.isSome_iff_exists.mp (hall path List.mem_cons_self)
    obtain ⟨v', hv'⟩ := Option.isSome_iff_exists.mp (hall' path List.mem_cons_self)
    rw [List.flatMap_cons, List.flatMap_cons, bindText, bindText, hv, hv'] at h
    have hstop : ∀ p : Option Json, Stop (refs.flatMap (bindText num p)) := by
      intro p
      have hnil : Stop [] := fun c hc => by cases hc
      simpa using stop_binds num refs p hnil
    obtain ⟨rfl, hrest⟩ := canonical_inj hnum v v' _ _ (hw _ _ hv) (hw' _ _ hv') (hstop params)
      (hstop params') (by simpa using h)
    intro q hq
    rcases List.mem_cons.mp hq with rfl | hq
    · rw [hv, hv']
    · exact ih (List.forall_mem_cons.mp hall).2
        (List.forall_mem_cons.mp hall').2 hrest q hq

/-- The text of bound references ends in a value after an `=`. -/
theorem binds_last (num : JsonNumber → List Char) (hw : ∀ path v, resolveRef params path = some v → v.WF)
    {refs : List String} (hne : refs ≠ []) (hall : ∀ path ∈ refs, (resolveRef params path).isSome) :
    ∃ (z : List Char) (v : Json), v.WF ∧ refs.flatMap (bindText num params) = z ++ '=' :: v.canonical num := by
  induction refs with
  | nil => exact absurd rfl hne
  | cons path refs ih =>
    obtain ⟨v, hv⟩ := Option.isSome_iff_exists.mp (hall path List.mem_cons_self)
    rw [List.flatMap_cons, bindText, hv]
    cases refs with
    | nil =>
      refine ⟨Char.ofNat 0 :: "bind:".toList ++ path.toList, v, hw _ _ hv, ?_⟩
      simp
    | cons q refs =>
      obtain ⟨z, w, hwf, he⟩ := ih (by simp) (List.forall_mem_cons.mp hall).2
      rw [he]
      exact ⟨_, w, hwf, (List.append_assoc _ _ _).symm⟩

variable {v j : Json}

/-- A text that ends in a bound value does not end in a fallback. -/
theorem binds_ne_fallback (hnum : NumberText num) {z w : List Char} (hv : v.WF) (hj : j.WF) :
    z ++ '=' :: v.canonical num ≠ w ++ nul :: "fallback:".toList ++ j.canonical num := by
  intro h
  rcases List.append_eq_append_iff.mp h with ⟨k, hk, he⟩ | ⟨k, -, he⟩
  · cases k with
    | nil => exact canonical_no_tail hnum hj hv [] he.symm
    | cons c k =>
      -- the `=` stands before the last `nul`, which would then be part of the value
      obtain ⟨rfl, htail⟩ := List.cons.inj he
      have hnul : nul ∉ k := by
        intro hin
        refine nul_not_mem_canonical hnum v hv ?_
        rw [htail]
        exact List.mem_append_left _ hin
      rcases List.append_eq_append_iff.mp hk with ⟨m, -, hm⟩ | ⟨m, -, hm⟩
      · have : '=' ∈ nul :: "fallback:".toList := hm ▸ by simp
        exact absurd this (by decide)
      · have : nul ∈ '=' :: k := hm ▸ by simp
        rcases List.mem_cons.mp this with h | h
        · exact absurd h (by decide)
        · exact hnul h
  · exact canonical_no_tail hnum hj hv k he

/-- Equal texts after the plan bind equal values, or come from one parameter value. -/
theorem bindsText_inj (hnum : NumberText num)
    (hp : ∀ p ∈ params, p.WF) (hp' : ∀ p ∈ params', p.WF) {refs : List String}
    (hw : ∀ path v, resolveRef params path = some v → v.WF)
    (hw' : ∀ path v, resolveRef params' path = some v → v.WF)
    (h : bindsText num refs params = bindsText num refs params') :
    (∀ path ∈ refs, (resolveRef params path).isSome ∧
        resolveRef params path = resolveRef params' path) ∨
      params.getD .null = params'.getD .null := by
  have hwf : ∀ {p : Option Json}, (∀ q ∈ p, q.WF) → (p.getD .null).WF := by
    intro p hq
    cases p with
    | none => trivial
    | some j => exact hq j rfl
  have hresolved : ∀ p : Option Json,
      ¬ (refs.any fun path => (resolveRef p path).isNone) = true →
      ∀ path ∈ refs, (resolveRef p path).isSome := by
    intro p hn path hin
    rw [List.any_eq_true, not_exists] at hn
    have hpath := hn path
    rw [Option.isSome_iff_ne_none]
    simpa [hin] using hpath
  have mixed : ∀ {p q : Option Json}, (∀ r ∈ q, r.WF) →
      (∀ path v, resolveRef p path = some v → v.WF) →
      ¬ (refs.any fun path => (resolveRef p path).isNone) = true →
      (refs.any fun path => (resolveRef q path).isNone) = true →
      bindsText num refs p ≠ bindsText num refs q := by
    intro p q hq hv h1 h2 he
    have hne : refs ≠ [] := by
      rintro rfl
      simp at h2
    obtain ⟨z, v, hvwf, hz⟩ := binds_last num hv hne (hresolved p h1)
    rw [bindsText, bindsText, if_neg h1, if_pos h2, List.append_nil, hz, ← List.append_assoc] at he
    exact binds_ne_fallback hnum hvwf (hwf hq) he
  by_cases h1 : (refs.any fun path => (resolveRef params path).isNone) = true
  · by_cases h2 : (refs.any fun path => (resolveRef params' path).isNone) = true
    · right
      rw [bindsText, bindsText, if_pos h1, if_pos h2] at h
      have hno : ∀ j : Json, j.WF → nul ∉ "fallback:".toList ++ j.canonical num := by
        intro j hj hin
        rcases List.mem_append.mp hin with hin | hin
        · exact absurd hin (by decide)
        · exact nul_not_mem_canonical hnum j hj hin
      have he := after_last_nul (hno _ (hwf hp)) (hno _ (hwf hp')) h
      have he' := List.append_cancel_left he
      refine (canonical_inj hnum _ _ [] [] (hwf hp) (hwf hp') ?_ ?_ (by simpa using he')).1
      · intro c hc
        cases hc
      · intro c hc
        cases hc
    · exact absurd h.symm (mixed hp hw' h2 h1)
  · by_cases h2 : (refs.any fun path => (resolveRef params' path).isNone) = true
    · exact absurd h (mixed hp' hw h1 h2)
    · left
      rw [bindsText, bindsText, if_neg h1, if_neg h2, List.append_nil, List.append_nil] at h
      intro path hin
      exact ⟨hresolved params h1 path hin,
        binds_inj hnum hw hw' refs (hresolved params h1) (hresolved params' h2) h path hin⟩

theorem Json.wf_get {key : String} (hj : j.WF) (h : j.get key = some v) : v.WF := by
  have hlist : ∀ fields : List (String × Json), Json.WFFields fields →
      fields.lookup key = some v → v.WF := by
    intro fields hf hl
    induction fields with
    | nil => cases hl
    | cons kj fields ih =>
      obtain ⟨k, j⟩ := kj
      rw [List.lookup_cons] at hl
      split at hl
      · cases hl
        exact hf.1
      · exact ih hf.2 hl
  cases j with
  | object fields => exact hlist fields hj.1 h
  | _ => cases h

variable {segs : List String}

theorem Json.wf_at (hj : j.WF) (h : j.at segs = some v) :
    v.WF := by
  induction segs generalizing j with
  | nil =>
    cases h
    exact hj
  | cons seg segs ih =>
    rw [Json.at] at h
    split at h
    · next w hw => exact ih (Json.wf_get hj hw) h
    · cases h

theorem wf_resolveRef (hp : ∀ p ∈ params, p.WF) (path : String) (v : Json)
    (h : resolveRef params path = some v) : v.WF := by
  obtain ⟨p, hin, hat⟩ := Option.bind_eq_some_iff.mp h
  exact Json.wf_at (hp p hin) hat

/-- Equal keys: one plan, and equal values bound or equal parameters. -/
theorem mergeKey_inj {blake3 : List Char → String} (hinj : Function.Injective blake3)
    (hnum : NumberText num) {plan plan' : OperatorPlan} (hplan : plan.WF) (hplan' : plan'.WF) (hp : ∀ p ∈ params, p.WF) (hp' : ∀ p ∈ params', p.WF)
    (h : mergeKey blake3 num plan params = mergeKey blake3 num plan' params') :
    plan = plan' ∧
      ((∀ path ∈ collectParamRefs plan, (resolveRef params path).isSome ∧
          resolveRef params path = resolveRef params' path) ∨
        params.getD .null = params'.getD .null) := by
  have htext : mergeText num plan params = mergeText num plan' params' := by
    refine hinj ?_
    have := congrArg String.toList h
    simpa [mergeKey, String.toList_append, String.toList_inj] using this
  rw [mergeText_eq, mergeText_eq] at htext
  obtain ⟨hjson, hbinds⟩ := canonical_inj hnum _ _ _ _ (OperatorPlan.json_wf plan hplan)
    (OperatorPlan.json_wf plan' hplan') (stop_bindsText _ params) (stop_bindsText _ params')
    (List.append_cancel_left htext)
  obtain rfl := OperatorPlan.json_inj hplan hplan' hjson
  exact ⟨rfl, bindsText_inj hnum hp hp' (wf_resolveRef hp) (wf_resolveRef hp') hbinds⟩

/-! ## Bound reads -/

/-- The segments a reference is read along, `parent.` stripped. -/
def readSegments (path : String) : List String := (Path.new (stripParent path)).segments

/-- Every read of the graph's predicates lies at or below an ordinary reference of the plan. -/
def Covered (plan : OperatorPlan) : Prop :=
  ∀ r ∈ plan.reads, ∃ b ∈ plan.refs, ordinary b = true ∧ pathSegments b <+: readSegments r

/-- The context of a registration: its parameters as a value. -/
def contextOf (params : Option Json) : Option Sp00kyValue := params.map Sp00kyValue.ofJson

theorem fieldsGet_ofJsonFields (fields : List (String × Json)) (key : String) :
    fieldsGet (Sp00kyValue.ofJsonFields fields) key =
      (fields.lookup key).map Sp00kyValue.ofJson := by
  induction fields with
  | nil => rfl
  | cons kj fields ih =>
    obtain ⟨k, j⟩ := kj
    rw [Sp00kyValue.ofJsonFields, fieldsGet, List.lookup_cons, List.lookup_cons]
    split
    · rfl
    · exact ih

/-- Below an object path the evaluator reads what the collector reads. -/
theorem resolveSegments_at (h : j.at segs = some v) (rest : List String) :
    resolveSegments (Sp00kyValue.ofJson j) (segs ++ rest) =
      resolveSegments (Sp00kyValue.ofJson v) rest := by
  induction segs generalizing j with
  | nil =>
    cases h
    rfl
  | cons seg segs ih =>
    rw [Json.at] at h
    split at h
    · next w hw =>
      cases j with
      | object fields =>
        have hget : (Sp00kyValue.ofJson (.object fields)).get seg = some (Sp00kyValue.ofJson w) := by
          rw [Sp00kyValue.ofJson, Sp00kyValue.get, fieldsGet_ofJsonFields]
          rw [Json.get] at hw
          rw [hw, Option.map_some]
        have href : (Sp00kyValue.ofJson (.object fields)).isRecordRef = false := by
          rw [Sp00kyValue.ofJson]
          rfl
        rw [List.cons_append, resolveSegments, href, Bool.and_false, if_neg (by simp), hget]
        exact ih h
      | _ => cases hw
    · cases h

theorem pathSegments_ne_nil (path : String) : pathSegments path ≠ [] := by
  have : splitDots path.toList ≠ [] := by
    cases path.toList with
    | nil => simp [splitDots]
    | cons c cs =>
      rw [splitDots]
      split
      · simp
      · split <;> simp
  simpa [pathSegments] using this

theorem resolveParamLookup_eq (r : String) (params : Option Json) :
    resolveParamLookup r (contextOf params) =
      params.bind fun p => resolveSegments (Sp00kyValue.ofJson p) (readSegments r) := by
  cases params with
  | none => rfl
  | some p => rfl

/-- With every read bound, equal keys read equal values. -/
theorem agreeOn_of_covered (hc : Covered plan)
    (h : (∀ path ∈ collectParamRefs plan, (resolveRef params path).isSome ∧
          resolveRef params path = resolveRef params' path) ∨
        params.getD .null = params'.getD .null) :
    AgreeOn plan.reads (contextOf params) (contextOf params') := by
  intro r hr
  obtain ⟨b, hin, hord, rest, hrest⟩ := hc r hr
  have hb : b ∈ collectParamRefs plan := mem_collectParamRefs.mpr ⟨hin, hord⟩
  rw [resolveParamLookup_eq, resolveParamLookup_eq, ← hrest]
  rcases h with h | h
  · obtain ⟨hsome, he⟩ := h b hb
    obtain ⟨v, hv⟩ := Option.isSome_iff_exists.mp hsome
    rw [hv] at he
    obtain ⟨p, rfl, hat⟩ := Option.bind_eq_some_iff.mp hv
    obtain ⟨p', rfl, hat'⟩ := Option.bind_eq_some_iff.mp he.symm
    rw [Option.bind_some, Option.bind_some, resolveSegments_at hat, resolveSegments_at hat']
  · -- without parameters nothing resolves, and nothing resolves below `null` either
    have hnull : resolveSegments (Sp00kyValue.ofJson .null) (pathSegments b ++ rest) = none := by
      cases hseg : pathSegments b with
      | nil => exact absurd hseg (pathSegments_ne_nil b)
      | cons seg segs =>
        rw [Sp00kyValue.ofJson, List.cons_append, resolveSegments]
        simp [Sp00kyValue.isRecordRef, Sp00kyValue.get]
    cases params with
    | none =>
      cases params' with
      | none => rfl
      | some p' =>
        obtain rfl : Json.null = p' := h
        exact hnull.symm
    | some p =>
      cases params' with
      | none =>
        obtain rfl : p = Json.null := h
        exact hnull
      | some p' =>
        obtain rfl : p = p' := h
        rfl

/-! ## Unbound reads -/

/-- The tree of objects with the same keys down to a depth. -/
def fullTree (keys : List String) : Nat → Json
  | 0 => .null
  | d + 1 => .object (keys.map fun k => (k, fullTree keys d))

/-- Change the value of one field. -/
def setField (seg : String) (f : Json → Json) (fields : List (String × Json)) :
    List (String × Json) :=
  fields.map fun kj => if kj.1 = seg then (kj.1, f kj.2) else kj

/-- Put a value at an object path. -/
def Json.setAt (v : Json) : List String → Json → Json
  | [], _ => v
  | seg :: rest, .object fields => .object (setField seg (Json.setAt v rest) fields)
  | _ :: _, j => j

theorem setField_keys (seg : String) (f : Json → Json) (fields : List (String × Json)) :
    (setField seg f fields).map Prod.fst = fields.map Prod.fst := by
  rw [setField, List.map_map]
  refine List.map_congr_left fun kj _ => ?_
  simp only [Function.comp_apply]
  split <;> rfl

theorem setField_lookup (seg : String) (f : Json → Json) (fields : List (String × Json))
    (key : String) : (setField seg f fields).lookup key =
      (fields.lookup key).map fun j => if key = seg then f j else j := by
  induction fields with
  | nil => rfl
  | cons kj fields ih =>
    obtain ⟨k, j⟩ := kj
    have hcons : setField seg f ((k, j) :: fields) =
        (k, if k = seg then f j else j) :: setField seg f fields := by
      simp only [setField, List.map_cons]
      split <;> rfl
    rw [hcons, List.lookup_cons, List.lookup_cons]
    by_cases hk : key = k
    · subst hk
      simp
    · simp only [beq_false_of_ne hk]
      exact ih

theorem wf_setField {seg : String} {f : Json → Json} (hf : ∀ j : Json, j.WF → (f j).WF)
    {fields : List (String × Json)} (h : Json.WFFields fields) :
    Json.WFFields (setField seg f fields) := by
  induction fields with
  | nil => trivial
  | cons kj fields ih =>
    obtain ⟨k, j⟩ := kj
    rw [setField, List.map_cons]
    split
    · exact ⟨hf j h.1, ih h.2⟩
    · exact ⟨h.1, ih h.2⟩

theorem Json.wf_setAt (hv : v.WF) (segs : List String) (j : Json) (hj : j.WF) :
    (Json.setAt v segs j).WF := by
  induction segs generalizing j with
  | nil => exact hv
  | cons seg segs ih =>
    cases j with
    | object fields =>
      refine ⟨wf_setField ih hj.1, ?_⟩
      rw [setField_keys]
      exact hj.2
    | _ => exact hj

theorem Json.at_append (j : Json) (a b : List String) :
    j.at (a ++ b) = (j.at a).bind fun w => w.at b := by
  induction a generalizing j with
  | nil => rfl
  | cons seg a ih =>
    rw [List.cons_append, Json.at, Json.at]
    split
    · next w hw => exact ih w
    · rfl

theorem Json.at_setAt_self (h : (j.at segs).isSome) :
    (Json.setAt v segs j).at segs = some v := by
  induction segs generalizing j with
  | nil => rfl
  | cons seg segs ih =>
    rw [Json.at] at h
    split at h
    · next w hw =>
      cases j with
      | object fields =>
        have hl : fields.lookup seg = some w := hw
        have hget : (Json.object (setField seg (Json.setAt v segs) fields)).get seg =
            some (Json.setAt v segs w) := by
          rw [Json.get, setField_lookup, hl, Option.map_some, if_pos rfl]
        rw [Json.setAt, Json.at, hget]
        exact ih h
      | _ => cases hw
    · cases h

/-- A change at one path is not seen from a path that leaves it. -/
theorem Json.at_setAt_of_apart {segs path : List String} (h1 : ¬ segs <+: path)
    (h2 : ¬ path <+: segs) (j : Json) : (Json.setAt v segs j).at path = j.at path := by
  induction segs generalizing path j with
  | nil => exact absurd List.nil_prefix h1
  | cons seg segs ih =>
    cases path with
    | nil => exact absurd List.nil_prefix h2
    | cons key path =>
      cases j with
      | object fields =>
        rw [Json.setAt, Json.at, Json.at, Json.get, Json.get, setField_lookup]
        cases hl : fields.lookup key with
        | none => rfl
        | some w =>
          by_cases hk : key = seg
          · subst hk
            rw [List.cons_prefix_cons] at h1 h2
            simpa using ih (by simpa using h1) (by simpa using h2) w
          · simp [hk]
      | _ => rfl

theorem fullTree_at (keys : List String) (hs : ∀ s ∈ segs, s ∈ keys)
    {d : Nat} (hd : segs.length ≤ d) :
    (fullTree keys d).at segs = some (fullTree keys (d - segs.length)) := by
  induction segs generalizing d with
  | nil => rfl
  | cons seg segs ih =>
    cases d with
    | zero => simp at hd
    | succ d =>
      have hlook : ∀ l : List String, seg ∈ l →
          (l.map fun k => (k, fullTree keys d)).lookup seg = some (fullTree keys d) := by
        intro l hin
        induction l with
        | nil => cases hin
        | cons k l ihl =>
          rw [List.map_cons, List.lookup_cons]
          by_cases hk : seg = k
          · simp [hk]
          · simp only [beq_false_of_ne hk]
            exact ihl ((List.mem_cons.mp hin).resolve_left hk)
      have hget : (fullTree keys (d + 1)).get seg = some (fullTree keys d) :=
        hlook keys (hs seg List.mem_cons_self)
      rw [Json.at, hget]
      simp only [List.length_cons] at hd ⊢
      rw [ih (List.forall_mem_cons.mp hs).2 (by omega), Nat.add_sub_add_right]

theorem fullTree_wf {keys : List String} (hk : keys.Pairwise (compare · · = .lt)) (d : Nat) :
    (fullTree keys d).WF := by
  have hall : ∀ (j : Json), j.WF → ∀ l : List String, Json.WFFields (l.map fun k => (k, j)) := by
    intro j hj l
    induction l with
    | nil => trivial
    | cons k l ih => exact ⟨hj, ih⟩
  induction d with
  | zero => trivial
  | succ d ih =>
    refine ⟨hall _ ih keys, ?_⟩
    rw [List.map_map]
    simpa [Function.comp_def] using hk

theorem exists_fresh (l : List String) : ∃ s : String, s ∉ l := by
  have : Infinite String := Infinite.of_injective (fun n => String.ofList (List.replicate n 'x'))
    fun m n h => by
      have := congrArg List.length (String.ofList_injective h)
      simpa using this
  obtain ⟨s, hs⟩ := Infinite.exists_notMem_finset l.toFinset
  exact ⟨s, by simpa using hs⟩

/-- A read at or below none of some paths: two values agree on those paths and differ there. -/
theorem exists_apart (paths : List (List String)) (P : List String) (h : ∀ b ∈ paths, ¬ b <+: P) :
    ∃ j j' : Json, j.WF ∧ j'.WF ∧ (∀ b ∈ paths, (j.at b).isSome ∧ j.at b = j'.at b) ∧
      resolveSegments (Sp00kyValue.ofJson j) P ≠ resolveSegments (Sp00kyValue.ofJson j') P := by
  obtain ⟨f, hf⟩ := exists_fresh (P ++ paths.flatten)
  rw [List.mem_append, not_or] at hf
  let keys := sortBy (compare (α := String)) (f :: (P ++ paths.flatten)).dedup
  let d := (P ++ paths.flatten).length + 1
  have hkeys : keys.Pairwise (compare · · = .lt) :=
    increasing_sortBy lawfulOn_compare_string (fun _ _ => trivial) (List.nodup_dedup _)
  have hmem : ∀ s, s ∈ keys ↔ s = f ∨ s ∈ P ++ paths.flatten := by
    intro s
    rw [mem_sortBy, List.mem_dedup, List.mem_cons]
  have hP : ∀ s ∈ P, s ∈ keys := fun s hs => (hmem s).mpr (.inr (List.mem_append_left _ hs))
  have hb : ∀ b ∈ paths, ∀ s ∈ b, s ∈ keys := fun b hb s hs =>
    (hmem s).mpr (.inr (List.mem_append_right _ (List.mem_flatten.mpr ⟨b, hb, hs⟩)))
  have hblen : ∀ b ∈ paths, b.length ≤ d := by
    intro b hin
    have := (List.sublist_flatten_of_mem hin).length_le
    simp only [d, List.length_append]
    omega
  have hPf : ∀ s ∈ P ++ [f], s ∈ keys := by
    intro s hs
    rcases List.mem_append.mp hs with hs | hs
    · exact hP s hs
    · exact (hmem s).mpr (.inl (List.mem_singleton.mp hs))
  have hPflen : (P ++ [f]).length ≤ d := by
    simp only [d, List.length_append, List.length_singleton]
    omega
  have hself := fullTree_at keys hPf hPflen
  refine ⟨fullTree keys d, Json.setAt (.bool true) (P ++ [f]) (fullTree keys d),
    fullTree_wf hkeys d, Json.wf_setAt (by trivial) _ _ (fullTree_wf hkeys d), ?_, ?_⟩
  · intro b hin
    rw [fullTree_at keys (hb b hin) (hblen b hin)]
    refine ⟨rfl, ?_⟩
    rw [Json.at_setAt_of_apart, fullTree_at keys (hb b hin) (hblen b hin)]
    · intro hpre
      have : f ∈ b := hpre.subset (by simp)
      exact hf.2 (List.mem_flatten.mpr ⟨b, hin, this⟩)
    · intro hpre
      rcases List.prefix_concat_iff.mp hpre with heq | hpre
      · have : f ∈ b := heq ▸ by simp
        exact hf.2 (List.mem_flatten.mpr ⟨b, hin, this⟩)
      · exact h b hin hpre
  · have hsome : ((fullTree keys d).at (P ++ [f])).isSome := by
      rw [hself]
      rfl
    have hset := Json.at_setAt_self (v := .bool true) hsome
    intro heq
    rw [Json.at_append] at hself hset
    obtain ⟨w, hw, hwf⟩ := Option.bind_eq_some_iff.mp hself
    obtain ⟨w', hw', hwf'⟩ := Option.bind_eq_some_iff.mp hset
    have h1 := resolveSegments_at hw []
    have h2 := resolveSegments_at hw' []
    rw [List.append_nil] at h1 h2
    rw [h1, h2, resolveSegments, resolveSegments, Option.some.injEq] at heq
    have h3 := resolveSegments_at hwf []
    have h4 := resolveSegments_at hwf' []
    rw [heq, h4, resolveSegments, resolveSegments, Option.some.injEq] at h3
    generalize d - (P ++ [f]).length = k at h3
    cases k <;> simp [fullTree, Sp00kyValue.ofJson] at h3

/-! ## Soundness -/

/-- What a key promises for a plan: a registration that shares it reads the same parameter
    values in the graph's predicates and outputs the same on every store. -/
def MergeSound (blake3 : List Char → String) (num : JsonNumber → List Char)
    (plan : OperatorPlan) : Prop :=
  ∀ (plan' : OperatorPlan) (params params' : Option Json), plan'.WF → (∀ p ∈ params, p.WF) →
    (∀ p ∈ params', p.WF) → mergeKey blake3 num plan params = mergeKey blake3 num plan' params' →
    AgreeOn plan.reads (contextOf params) (contextOf params') ∧
      ∀ planning : Planning, planning = asWritten ∨ planning = indexPlanning →
        ∀ (defs : ExtTreeMap String (List IndexDef)) (env : Env) (ho : HashOrder) (store : Store),
          primed env ho (planning defs (contextOf params)) plan store (contextOf params) =
            primed env ho (planning defs (contextOf params')) plan' store (contextOf params')

/-- An unbound read: two parameter values share the key and differ there. -/
theorem exists_merged_of_not_covered (hc : ¬ Covered plan)
    (blake3 : List Char → String) (num : JsonNumber → List Char) :
    ∃ params params' : Option Json, (∀ p ∈ params, p.WF) ∧ (∀ p ∈ params', p.WF) ∧
      mergeKey blake3 num plan params = mergeKey blake3 num plan params' ∧
      ¬ AgreeOn plan.reads (contextOf params) (contextOf params') := by
  simp only [Covered, not_forall, not_exists, not_and] at hc
  obtain ⟨r, hr, hun⟩ := hc
  obtain ⟨j, j', hj, hj', hbound, hread⟩ :=
    exists_apart ((collectParamRefs plan).map pathSegments) (readSegments r) (by
      intro b hb
      obtain ⟨path, hin, rfl⟩ := List.mem_map.mp hb
      obtain ⟨href, hord⟩ := mem_collectParamRefs.mp hin
      exact hun path href hord)
  have hrefs : ∀ path ∈ collectParamRefs plan, (resolveRef (some j) path).isSome ∧
      resolveRef (some j) path = resolveRef (some j') path := fun path hin =>
    hbound _ (List.mem_map.mpr ⟨path, hin, rfl⟩)
  refine ⟨some j, some j', by simpa using hj, by simpa using hj', ?_, ?_⟩
  · have hbinds : (collectParamRefs plan).flatMap (bindText num (some j)) =
        (collectParamRefs plan).flatMap (bindText num (some j')) := by
      rw [List.flatMap_def, List.flatMap_def]
      refine congrArg List.flatten (List.map_congr_left fun path hin => ?_)
      rw [bindText, bindText, (hrefs path hin).2]
    have hnone : ∀ p : Json, (∀ path ∈ collectParamRefs plan,
        (resolveRef (some p) path).isSome) →
        ((collectParamRefs plan).any fun path => (resolveRef (some p) path).isNone) = false := by
      intro p hp
      rw [List.any_eq_false]
      intro path hin
      have hsome := hp path hin
      rw [Option.isSome_iff_ne_none] at hsome
      simpa using hsome
    unfold mergeKey
    rw [mergeText_eq, mergeText_eq, bindsText, bindsText, hbinds,
      hnone j fun path hin => (hrefs path hin).1,
      hnone j' fun path hin => (hrefs path hin).2 ▸ (hrefs path hin).1]
    rfl
  · intro hagree
    have := hagree r hr
    rw [resolveParamLookup_eq, resolveParamLookup_eq] at this
    exact hread this

/-- Keys are sound for a plan exactly when they bind every read of its graph. -/
theorem mergeSound_iff {blake3 : List Char → String} (hinj : Function.Injective blake3)
    {num : JsonNumber → List Char} (hnum : NumberText num) {plan : OperatorPlan}
    (hplan : plan.WF) : MergeSound blake3 num plan ↔ Covered plan := by
  constructor
  · intro hs
    by_contra hc
    obtain ⟨params, params', hp, hp', hkey, hread⟩ := exists_merged_of_not_covered hc blake3 num
    exact hread (hs plan params params' hplan hp hp' hkey).1
  · intro hc plan' params params' hplan' hp hp' hkey
    obtain ⟨rfl, hbound⟩ := mergeKey_inj hinj hnum hplan hplan' hp hp' hkey
    have hread := agreeOn_of_covered hc hbound
    refine ⟨hread, ?_⟩
    rintro planning (rfl | rfl) defs env ho store
    · exact (primed_congr hread defs env ho store).1
    · exact (primed_congr hread defs env ho store).2

/-- Rows whose `author` is the registration's `auth.id`. -/
def planAuthor : OperatorPlan :=
  .filter (.scan "thread")
    (.cmp .eq (Path.new "author") (.object [("$param", .str "auth.id")]))

theorem planAuthor_wf : planAuthor.WF := by
  refine ⟨trivial, ?_, ?_⟩
  · unfold Path.WF
    decide +kernel
  · exact Json.wf_object ["$param"] rfl (by decide) ⟨trivial, trivial⟩

theorem planAuthor_covered : Covered planAuthor := by
  unfold Covered
  decide +kernel

theorem mergeSound_iff_author : MergeSound String.ofList sampleNumber planAuthor :=
  (mergeSound_iff (fun _ _ h => String.ofList_injective h) sampleNumber_text planAuthor_wf).mpr
    planAuthor_covered

/-- Rows whose `thread` is the `id` of the registration's parameters, read as `parent.id`. -/
def planParent : OperatorPlan :=
  .filter (.scan "comment")
    (.cmp .eq (Path.new "thread") (.object [("$param", .str "parent.id")]))

/-- One comment, of `thread:1`. -/
def oneComment : Store :=
  (Circuit.new.step Env.sample asWritten .sorted
    [⟨"comment", .create, "1", .object [("thread", .str "thread:1")]⟩]).1.store

def threadParams (id : String) : Option Json := some (.object [("id", .str id)])

theorem mergeKey_parent_leak :
    (∀ (blake3 : List Char → String) (num : JsonNumber → List Char),
      mergeKey blake3 num planParent (threadParams "thread:1") =
        mergeKey blake3 num planParent (threadParams "thread:2")) ∧
    ((primed Env.sample .sorted noIndexes planParent oneComment
        (contextOf (threadParams "thread:1"))).2.map fun z => z["comment:1"]?) = some (some 1) ∧
    ((primed Env.sample .sorted noIndexes planParent oneComment
        (contextOf (threadParams "thread:2"))).2.map fun z => z["comment:1"]?) = some none := by
  refine ⟨?_, by decide +kernel, by decide +kernel⟩
  intro blake3 num
  have hrefs : collectParamRefs planParent = [] := by decide +kernel
  have htext : ∀ params, mergeText num planParent params =
      "plan:".toList ++ planParent.json.canonical num := by
    intro params
    unfold mergeText
    dsimp only
    rw [hrefs, List.flatMap_nil, List.any_nil, if_neg Bool.false_ne_true, List.append_nil,
      List.append_nil]
  unfold mergeKey
  rw [htext, htext]

end Sp00ky.Ssp
