/-
  The passes of `step_query`, node by node.

  `injectAll_port` says what the injection pass adds to one port of one node, and
  `stepInputs_port` what the node then reads there. On a graph without reordering
  operators the re-evaluation pass changes no operator and patches the view delta
  key by key (`stepGraph_plain`).
-/
import Sp00ky.Ssp.Runs

namespace Sp00ky.Ssp

open Std Lib

/-! ## Injected deltas -/

/-- What the injection pass adds to a port for one key: the key's membership now against the
    integrated weight. -/
def injectEntry (op : Operator) (now : Bool) (port : Nat) (key : String) : Option Int :=
  (op.integratedInputWeight port key).bind fun held =>
    if now = decide (0 < held) then none else some (if now then 1 else -held)

/-- The delta injected at a port. -/
def Injected.port (inj : Injected) (i p : Nat) : ZSet := ((inj[i]?).bind (·[p]?)).getD ∅

/-- Every injected list has one delta per input of its node. -/
def Injected.Fits (nodes : List Node) (inj : Injected) : Prop :=
  ∀ i ports, inj[i]? = some ports → ports.length = (inputsAt nodes i).length

theorem injectPort_eq (i : Nat) (op : Operator) (key : String) (arity : Nat) (inj : Injected)
    (now : Bool) (p : Nat) :
    injectPort i op key arity inj (now, p) =
      match injectEntry op now p key with
      | none => inj
      | some w => inj.alter i fun ports =>
          some ((ports.getD (List.replicate arity ∅)).modify p (·.insert key w)) := by
  unfold injectPort injectEntry
  dsimp only
  cases op.integratedInputWeight p key with
  | none => rfl
  | some held =>
    dsimp only [Option.bind_some]
    by_cases h : now = decide (0 < held)
    · rw [if_pos h, if_pos h]
    · rw [if_neg h, if_neg h]

variable {nodes : List Node} {op : Operator} {inj : Injected}

theorem injectPort_fits {i : Nat} {key : String} {np : Bool × Nat} (h : inj.Fits nodes) :
    (injectPort i op key (inputsAt nodes i).length inj np).Fits nodes := by
  obtain ⟨now, p⟩ := np
  rw [injectPort_eq]
  split
  · exact h
  · intro j ports hj
    rw [ExtTreeMap.getElem?_alter] at hj
    split at hj
    · next hc =>
      obtain rfl := LawfulEqCmp.compare_eq_iff_eq.mp hc
      cases hi : inj[i]? with
      | none =>
        rw [hi] at hj
        simp only [Option.getD_none, Option.some.injEq] at hj
        rw [← hj, List.length_modify, List.length_replicate]
      | some old =>
        rw [hi] at hj
        simp only [Option.getD_some, Option.some.injEq] at hj
        rw [← hj, List.length_modify]
        exact h i old hi
    · exact h j ports hj

theorem injectPort_port {i : Nat} {key : String} {now : Bool} {p : Nat} (h : inj.Fits nodes)
    (hp : p < (inputsAt nodes i).length) (j p' : Nat) (k : String) :
    ((injectPort i op key (inputsAt nodes i).length inj (now, p)).port j p')[k]? =
      if j = i ∧ p' = p ∧ k = key then
        (injectEntry op now p key).or ((inj.port j p')[k]?)
      else (inj.port j p')[k]? := by
  rw [injectPort_eq]
  cases injectEntry op now p key with
  | none => simp
  | some w =>
    dsimp only
    unfold Injected.port
    rw [ExtTreeMap.getElem?_alter]
    by_cases hj : j = i
    · subst hj
      rw [if_pos (by simp)]
      have hlen : ((inj[j]?).getD (List.replicate (inputsAt nodes j).length ∅)).length =
          (inputsAt nodes j).length := by
        cases hi : inj[j]? with
        | none => simp
        | some old => exact h j old hi
      have hold : ∀ q, q < (inputsAt nodes j).length →
          ((inj[j]?).getD (List.replicate (inputsAt nodes j).length ∅))[q]? =
            some (((inj[j]?).bind (·[q]?)).getD ∅) := by
        intro q hq
        cases hi : inj[j]? with
        | none => simp [hq]
        | some old =>
          have : q < old.length := by rw [h j old hi]; exact hq
          simp [this]
      simp only [Option.bind_some, List.getElem?_modify]
      by_cases hp' : p' = p
      · subst hp'
        rw [hold p' hp]
        by_cases hk : k = key
        · subst hk
          simp
        · rw [if_neg (by tauto)]
          simp [ExtTreeMap.getElem?_insert, Ne.symm hk]
      · rw [if_neg (by tauto)]
        simp only [Ne.symm hp', if_false]
        by_cases hq : p' < (inputsAt nodes j).length
        · rw [hold p' hq]
          simp
        · cases hi : inj[j]? with
          | none => simp [hq]
          | some old =>
            have : ¬ p' < old.length := by rw [h j old hi]; exact hq
            simp [this]
    · rw [if_neg (by simpa using Ne.symm hj), if_neg (by tauto)]

/-- The ports of one node, for one key. -/
theorem foldl_injectPort_port (nodes : List Node) (i : Nat) (op : Operator) (key : String)
    (evs : List Bool) (hlen : evs.length ≤ (inputsAt nodes i).length) (h : inj.Fits nodes) :
    (evs.zipIdx.foldl (injectPort i op key (inputsAt nodes i).length) inj).Fits nodes ∧
      ∀ j p k, ((evs.zipIdx.foldl (injectPort i op key (inputsAt nodes i).length) inj).port
          j p)[k]? =
        if j = i ∧ k = key then
          (evs[p]?.bind fun now => injectEntry op now p key).or ((inj.port j p)[k]?)
        else (inj.port j p)[k]? := by
  induction evs using List.reverseRecOn with
  | nil => exact ⟨h, by simp⟩
  | append_singleton evs now ih =>
    rw [List.length_append, List.length_singleton] at hlen
    obtain ⟨hf, hport⟩ := ih (by omega)
    rw [List.zipIdx_append, List.foldl_append]
    simp only [List.zipIdx_singleton, Nat.zero_add, List.foldl_cons, List.foldl_nil]
    refine ⟨injectPort_fits hf, ?_⟩
    intro j p k
    rw [injectPort_port hf (by omega), hport]
    by_cases hjk : j = i ∧ k = key
    · rw [if_pos hjk]
      by_cases hp : p = evs.length
      · subst hp
        simp [hjk]
      · rw [if_neg (by tauto)]
        by_cases hlt : p < evs.length
        · rw [List.getElem?_append_left hlt, if_pos hjk]
        · have h1 : evs[p]? = none := List.getElem?_eq_none (by omega)
          have h2 : (evs ++ [now])[p]? = none := List.getElem?_eq_none (by simp; omega)
          rw [h1, h2, if_pos hjk]
    · rw [if_neg hjk, if_neg (by tauto), if_neg hjk]

section Inject

variable (env : Env) (store : Store) (ctx : Option Sp00kyValue) {g : Graph}

/-- The injection pass for one key, at every port. -/
theorem injectKey_port (hv : g.Valid) (key : String) {inj : Injected} (h : inj.Fits g.nodes) :
    (injectKey env store ctx g inj key).Fits g.nodes ∧
      ∀ (i : Nat) (node : Node) (p : Nat) (k : String), g.nodes[i]? = some node →
        ((injectKey env store ctx g inj key).port i p)[k]? =
          if k = key then
            (node.inputs[p]?.bind fun j => injectEntry node.operator
              ((evalPass env store ctx g.nodes g.topoOrder key)[j]?.getD false) p key).or
              ((inj.port i p)[k]?)
          else (inj.port i p)[k]? := by
  have hself : injectKey env store ctx g inj key = g.topoOrder.foldl (fun inj id =>
      g.nodes[id]?.elim inj fun node =>
        (node.inputs.map fun i =>
          (evalPass env store ctx g.nodes g.topoOrder key)[i]?.getD false).zipIdx.foldl
          (injectPort id node.operator key node.inputs.length) inj) inj := by
    unfold injectKey
    dsimp only
    congr
    funext inj id
    cases g.nodes[id]? <;> rfl
  rw [hself]
  have hfold : ∀ (order : List Nat), order.Nodup →
      let injected := order.foldl (fun inj id => g.nodes[id]?.elim inj fun node =>
        (node.inputs.map fun i =>
          (evalPass env store ctx g.nodes g.topoOrder key)[i]?.getD false).zipIdx.foldl
          (injectPort id node.operator key node.inputs.length) inj) inj
      injected.Fits g.nodes ∧
      ∀ (i : Nat) (node : Node) (p : Nat) (k : String), g.nodes[i]? = some node →
        (injected.port i p)[k]? =
          if i ∈ order ∧ k = key then
            (node.inputs[p]?.bind fun j => injectEntry node.operator
              ((evalPass env store ctx g.nodes g.topoOrder key)[j]?.getD false) p key).or
              ((inj.port i p)[k]?)
          else (inj.port i p)[k]? := by
    intro order hnd
    induction order using List.reverseRecOn with
    | nil => exact ⟨h, by simp⟩
    | append_singleton order x ih =>
      rw [List.nodup_append] at hnd
      obtain ⟨hf, hport⟩ := ih hnd.1
      have hx : x ∉ order := fun hx => hnd.2.2 x hx x (by simp) rfl
      intro injected
      unfold injected
      rw [List.foldl_append, List.foldl_cons, List.foldl_nil]
      cases hn : g.nodes[x]? with
      | none =>
        refine ⟨hf, ?_⟩
        intro i node p k hi
        have hix : i ≠ x := by
          rintro rfl
          rw [hn] at hi
          cases hi
        rw [Option.elim_none]
        rw [hport i node p k hi]
        simp [hix]
      | some nx =>
        have hin : inputsAt g.nodes x = nx.inputs := by simp [inputsAt, hn]
        rw [Option.elim_some]
        rw [← hin]
        obtain ⟨hf', hport'⟩ := foldl_injectPort_port g.nodes x nx.operator key
          ((inputsAt g.nodes x).map fun i =>
            (evalPass env store ctx g.nodes g.topoOrder key)[i]?.getD false) (by simp) hf
        refine ⟨hf', ?_⟩
        intro i node p k hi
        rw [hport', hport i node p k hi]
        by_cases hix : i = x
        · subst hix
          rw [hn] at hi
          cases hi
          rw [hin]
          by_cases hk : k = key
          · simp [hk, hx, Option.bind_map, Function.comp_def]
          · simp [hk]
        · simp [hix]
  obtain ⟨h1, h2⟩ := hfold g.topoOrder hv.topo.nodup
  refine ⟨h1, ?_⟩
  intro i node p k hi
  have hmem : i ∈ g.topoOrder := (hv.mem i).mpr (List.getElem?_eq_some_iff.mp hi).1
  have := h2 i node p k hi
  simp only [hmem, true_and] at this
  exact this

/-- The injection pass adds at a port, for every updated key, the difference between the key's
    evaluation at the input and the weight the operator holds. -/
theorem injectAll_port (hv : g.Valid) (keys : List String) :
    (injectAll env store ctx g keys).Fits g.nodes ∧
      ∀ (i : Nat) (node : Node) (p : Nat) (k : String), g.nodes[i]? = some node →
        ((injectAll env store ctx g keys).port i p)[k]? =
          if k ∈ keys then
            node.inputs[p]?.bind fun j => injectEntry node.operator
              ((evalPass env store ctx g.nodes g.topoOrder k)[j]?.getD false) p k
          else none := by
  unfold injectAll
  induction keys using List.reverseRecOn with
  | nil => exact ⟨by intro i ports hi; simp at hi, by simp [Injected.port]⟩
  | append_singleton keys key ih =>
    obtain ⟨hf, hport⟩ := ih
    obtain ⟨hf', hport'⟩ := injectKey_port env store ctx hv key hf
    rw [List.foldl_append, List.foldl_cons, List.foldl_nil]
    refine ⟨hf', ?_⟩
    intro i node p k hi
    rw [hport' i node p k hi, hport i node p k hi]
    by_cases hk : k = key
    · subst hk
      by_cases hm : k ∈ keys
      · simp [hm]
      · simp [hm]
    · simp [hk]

end Inject

/-! ## Inputs of the main pass -/

theorem getElem?_orInsert (delta extra : ZSet) (k : String) :
    (orInsert delta extra)[k]? = (delta[k]?).or (extra[k]?) := by
  rw [orInsert, getElem?_foldAlter]
  cases extra[k]? with
  | none => simp
  | some w => cases delta[k]? <;> rfl

theorem orInsert_empty (delta : ZSet) : orInsert delta ∅ = delta := by
  refine ExtTreeMap.ext_getElem? fun k => ?_
  rw [getElem?_orInsert]
  simp

/-- What a node with inputs reads at a port: the input's output, and the injected entries the
    output has no weight for. -/
theorem stepInputs_port (h : inj.Fits nodes)
    (deltas : TableDeltas) {i : Nat} {node : Node} (hn : nodes[i]? = some node)
    (ha : node.operator.arity ≠ 0) (acc : NodeResults) {p j : Nat} (hj : node.inputs[p]? = some j) :
    (stepInputs deltas inj i node acc)[p]?.getD ∅ = orInsert (acc.output j) (inj.port i p) := by
  unfold stepInputs Injected.port
  rw [if_neg ha]
  cases hi : inj[i]? with
  | none =>
    dsimp only
    rw [List.getElem?_map, hj]
    simp [orInsert_empty]
  | some extra =>
    have hlen : extra.length = node.inputs.length := by
      rw [h i extra hi]
      simp [inputsAt, hn]
    have hp : p < extra.length := by
      rw [hlen]
      exact (List.getElem?_eq_some_iff.mp hj).1
    dsimp only [Option.bind_some]
    rw [List.getElem?_map, List.getElem?_zip_eq_some (z := (j, extra[p])) |>.mpr
      ⟨hj, List.getElem?_eq_getElem hp⟩, List.getElem?_eq_getElem hp]
    rfl

/-- What a source node reads: its table's delta. -/
theorem stepInputs_source (deltas : TableDeltas) (inj : Injected) (i : Nat) (node : Node)
    (ha : node.operator.arity = 0) (acc : NodeResults) :
    stepInputs deltas inj i node acc =
      [(node.operator.collections.head?.bind fun t => deltas[t]?).getD ∅] := by
  unfold stepInputs
  rw [if_pos ha]

/-! ## Re-evaluation without reordering operators -/

/-- Operators with a `reorder_key` of their own. -/
def Operator.reorders : Operator → Bool
  | .topK _ | .indexWindow _ => true
  | _ => false

theorem Operator.reorderKey_none (h : op.reorders = false) (ho : HashOrder)
    (key : String) (upstreamNow : Bool) (store : Store) (ctx : Option Sp00kyValue) :
    op.reorderKey ho key upstreamNow store ctx = none := by
  cases op <;> first | rfl | cases h

/-- No node of the list reorders. -/
def Plain (nodes : List Node) : Prop := ∀ node ∈ nodes, node.operator.reorders = false

/-- How the re-evaluation of a key patches a view delta that has no entry for it. -/
def patch (now : Bool) (cached : Int) : Option Int :=
  if now then (if 0 < cached then none else some 1)
  else if 0 < cached then some (-cached) else none

section Reeval

variable (env : Env) (ho : HashOrder) (store : Store) (ctx : Option Sp00kyValue)

/-- One visit of the evaluation pass. -/
def evalVisit (nodes : List Node) (key : String) (acc : ExtTreeMap Nat Bool) (i : Nat) :
    ExtTreeMap Nat Bool :=
  match nodes[i]?.map fun node =>
    node.operator.evaluateKey env key (node.inputs.map fun i => acc[i]?.getD false) store ctx with
  | none => acc
  | some b => acc.insert i b

theorem evalPass_eq_foldl (nodes : List Node) (order : List Nat) (key : String) :
    evalPass env store ctx nodes order key = order.foldl (evalVisit env store ctx nodes key) ∅ := by
  unfold evalPass evalInOrder
  congr
  funext acc i
  unfold evalVisit
  dsimp only
  cases nodes[i]? <;> rfl

theorem reevalNode_plain {nodes : List Node} {i : Nat}
    (h : ∀ node, nodes[i]? = some node → node.operator.reorders = false) (key : String)
    (evals : ExtTreeMap Nat Bool) :
    reevalNode env ho store ctx key ⟨nodes, evals, none⟩ i =
      ⟨nodes, evalVisit env store ctx nodes key evals i, none⟩ := by
  unfold reevalNode evalVisit
  cases hn : nodes[i]? with
  | none => rfl
  | some node =>
    have hno := Operator.reorderKey_none (h node hn) ho key
      ((node.inputs.map fun i => evals[i]?.getD false).headD true) store ctx
    simp only [Option.isNone_none, if_true, hno, Option.map_some]

/-- Along nodes that do not reorder, the walk evaluates the key and leaves the nodes. -/
theorem walk_plain {nodes : List Node} (key : String) (order : List Nat)
    (h : ∀ i ∈ order, ∀ node, nodes[i]? = some node → node.operator.reorders = false)
    (evals : ExtTreeMap Nat Bool) :
    order.foldl (reevalNode env ho store ctx key) ⟨nodes, evals, none⟩ =
      ⟨nodes, order.foldl (evalVisit env store ctx nodes key) evals, none⟩ := by
  induction order generalizing evals with
  | nil => rfl
  | cons i order ih =>
    rw [List.foldl_cons, List.foldl_cons,
      reevalNode_plain env ho store ctx (h i List.mem_cons_self)]
    exact ih (List.forall_mem_cons.mp h).2 _

/-- What the re-evaluation of a key adds to the view delta. -/
def reevalPatch (g : Graph) (cache : ZSet) (key : String) : Option Int :=
  patch ((evalPass env store ctx g.nodes g.topoOrder key)[g.outputNode]?.getD false)
    (cache.weight key)

theorem reevalKey_plain {g : Graph} (h : Plain g.nodes) (cache viewDelta : ZSet) (key : String) :
    reevalKey env ho store ctx cache (g, viewDelta) key =
      (g, match viewDelta.contains key, reevalPatch env store ctx g cache key with
        | false, some w => viewDelta.insert key w
        | _, _ => viewDelta) := by
  unfold reevalKey
  dsimp only
  rw [walk_plain env ho store ctx key g.topoOrder
    (fun i _ node hn => h node (List.mem_of_getElem? hn)), ← evalPass_eq_foldl]
  change (let now := (evalPass env store ctx g.nodes g.topoOrder key)[g.outputNode]?.getD false
    let inCache := decide (0 < cache.weight key)
    if now && !inCache && !viewDelta.contains key then (g, viewDelta.insert key 1)
    else if !now && inCache && !viewDelta.contains key then
      (g, viewDelta.insert key (-cache.weight key))
    else (g, viewDelta)) = _
  dsimp only
  unfold reevalPatch
  generalize (evalPass env store ctx g.nodes g.topoOrder key)[g.outputNode]?.getD false = now
  unfold patch
  by_cases hc : 0 < cache.weight key <;> cases now <;> cases viewDelta.contains key <;> simp [hc]

/-- The view delta after the re-evaluation of all updated keys. -/
theorem foldl_reevalKey_plain {g : Graph} (h : Plain g.nodes) (cache : ZSet) (keys : List String)
    (viewDelta : ZSet) :
    (keys.foldl (reevalKey env ho store ctx cache) (g, viewDelta)).1 = g ∧
      ∀ k : String, (keys.foldl (reevalKey env ho store ctx cache) (g, viewDelta)).2[k]? =
        (viewDelta[k]?).or (if k ∈ keys then reevalPatch env store ctx g cache k else none) := by
  induction keys generalizing viewDelta with
  | nil => exact ⟨rfl, by simp⟩
  | cons key keys ih =>
    rw [List.foldl_cons, reevalKey_plain env ho store ctx h]
    obtain ⟨h1, h2⟩ := ih (match viewDelta.contains key, reevalPatch env store ctx g cache key with
      | false, some w => viewDelta.insert key w
      | _, _ => viewDelta)
    refine ⟨h1, ?_⟩
    intro k
    rw [h2 k]
    by_cases hk : k = key
    · subst hk
      rw [ExtTreeMap.contains_eq_isSome_getElem?]
      cases hd : viewDelta[k]? with
      | some w => simp [hd]
      | none =>
        cases hp : reevalPatch env store ctx g cache k with
        | none => simp [hd]
        | some w => simp
    · have hkeep : (match viewDelta.contains key, reevalPatch env store ctx g cache key with
          | false, some w => viewDelta.insert key w
          | _, _ => viewDelta)[k]? = viewDelta[k]? := by
        split
        · rw [ExtTreeMap.getElem?_insert, if_neg (by simpa using Ne.symm hk)]
        · rfl
      rw [hkeep]
      simp [hk]

end Reeval

/-! ## The step of a plain graph -/

theorem Operator.reorders_reset (op : Operator) : op.reset.reorders = op.reorders := by
  cases op <;> rfl

theorem Operator.needsRebuild_of_plain (h : op.reorders = false) :
    op.needsRebuild = false := by
  cases op <;> first | rfl | cases h

theorem plain_iff_shape (nodes : List Node) :
    Plain nodes ↔ ∀ x ∈ shape nodes, x.1.reorders = false := by
  simp [Plain, shape, Operator.reorders_reset]

theorem Graph.SameShape.plain {g g' : Graph} (h : g.SameShape g') (hp : Plain g.nodes) :
    Plain g'.nodes := by
  rw [plain_iff_shape, h.shape, ← plain_iff_shape]
  exact hp

theorem Graph.needsRebuild_of_plain {g : Graph} (h : Plain g.nodes) : g.needsRebuild = false := by
  rw [Graph.needsRebuild, List.any_eq_false]
  intro node hn
  simp [Operator.needsRebuild_of_plain (h node hn)]

/-- A plan without windows is built as written from plain nodes. -/
theorem buildNode_plain (plan : OperatorPlan) (hu : plan.unlimited = true) (nodes : List Node)
    (h : Plain nodes) : Plain (buildNode noIndexes plan nodes).1 :=
  buildNode_asBuilt (Q := fun op => op.reorders = false) plan true
    (fun op hop => by cases hop <;> first | rfl | contradiction) (fun _ => hu) nodes h

theorem Graph.fromPlan_plain {plan : OperatorPlan} (hu : plan.unlimited = true) :
    Plain (Graph.fromPlan plan).nodes :=
  buildNode_plain plan hu [] (by intro node hn; cases hn)

section StepPlain

variable (env : Env) (ho : HashOrder) (store : Store) (ctx : Option Sp00kyValue) {g : Graph}

/-- The graph after the notes and the main pass of a step. -/
def Graph.stepped (g : Graph) (deltas : TableDeltas) (keys : List String) : Graph :=
  (g.note keys).commit (mainPass env ho store ctx (g.note keys) deltas
    (injectAll env store ctx (g.note keys) keys))

/-- The output delta of the main pass of a step. -/
def Graph.steppedOut (g : Graph) (deltas : TableDeltas) (keys : List String) (i : Nat) : ZSet :=
  (mainPass env ho store ctx (g.note keys) deltas
    (injectAll env store ctx (g.note keys) keys)).output i

/-- A key's evaluation at a node. -/
def Graph.evalAt (g : Graph) (k : String) (i : Nat) : Bool :=
  (evalPass env store ctx g.nodes g.topoOrder k)[i]?.getD false

theorem evaluateKey_note (op : Operator) (keys : List String) (key : String) (evals : List Bool) :
    (op.noteContentUpdates keys).evaluateKey env key evals store ctx =
      op.evaluateKey env key evals store ctx := by
  cases op <;> rfl

theorem evalAt_note (g : Graph) (keys : List String) (k : String) (i : Nat) :
    (g.note keys).evalAt env store ctx k i = g.evalAt env store ctx k i := by
  unfold Graph.evalAt
  rw [evalPass_eq_foldl, evalPass_eq_foldl]
  have hv : evalVisit env store ctx (g.note keys).nodes k = evalVisit env store ctx g.nodes k := by
    funext acc i
    unfold evalVisit Graph.note
    dsimp only
    rw [List.getElem?_map]
    cases g.nodes[i]? with
    | none => rfl
    | some node => simp only [Option.map_some, evaluateKey_note]
  rw [hv]
  rfl

variable {node : Node}

theorem evalAt_node (hv : g.Valid) {i : Nat} (hn : g.nodes[i]? = some node) (k : String) :
    g.evalAt env store ctx k i = node.operator.evaluateKey env k
      (node.inputs.map fun j => g.evalAt env store ctx k j) store ctx := by
  have hi : i ∈ g.topoOrder := (hv.mem i).mpr (List.getElem?_eq_some_iff.mp hn).1
  unfold Graph.evalAt
  rw [evalPass_eq hv.topo k hi hn]
  rfl

theorem injectEntry_note (op : Operator) (keys : List String) (now : Bool) (p : Nat)
    (k : String) : injectEntry (op.noteContentUpdates keys) now p k = injectEntry op now p k := by
  cases op <;> rfl

/-- A node after the main pass: it is stepped on the outputs of its inputs, with the injected
    entries where an output has none. -/
theorem stepped_node (hv : g.Valid) (deltas : TableDeltas) (keys : List String) {i : Nat} (hn : g.nodes[i]? = some node) :
    ∃ ins : List ZSet,
      (g.stepped env ho store ctx deltas keys).nodes[i]? =
          some { node with
            operator := ((node.operator.noteContentUpdates keys).step env ho ins store ctx).1 } ∧
        g.steppedOut env ho store ctx deltas keys i =
          ((node.operator.noteContentUpdates keys).step env ho ins store ctx).2 ∧
        (node.operator.arity = 0 →
          ins = [(node.operator.collections.head?.bind fun t => deltas[t]?).getD ∅]) ∧
        (node.operator.arity ≠ 0 → ∀ p j, node.inputs[p]? = some j → ∀ k : String,
          (ins[p]?.getD ∅)[k]? = ((g.steppedOut env ho store ctx deltas keys j)[k]?).or
            (if k ∈ keys then injectEntry node.operator (g.evalAt env store ctx k j) p k
              else none)) := by
  have hv1 : (g.note keys).Valid := (note_sameShape g keys).valid hv
  have hn1 : (g.note keys).nodes[i]? =
      some { node with operator := node.operator.noteContentUpdates keys } := by
    simp [Graph.note, hn]
  obtain ⟨h1, h2⟩ := stepPass_node env ho store ctx hv1
    (stepInputs_congr deltas (injectAll env store ctx (g.note keys) keys)) hn1 rfl
  obtain ⟨hf, hport⟩ := injectAll_port env store ctx hv1 keys
  have harity : (node.operator.noteContentUpdates keys).arity = node.operator.arity := by
    cases node.operator <;> rfl
  have hcoll : (node.operator.noteContentUpdates keys).collections = node.operator.collections := by
    cases node.operator <;> rfl
  refine ⟨_, h1, ?_, ?_, ?_⟩
  · have hr : (mainPass env ho store ctx (g.note keys) deltas
      (injectAll env store ctx (g.note keys) keys))[i]? = some _ := h2
    rw [Graph.steppedOut, NodeResults.output, hr]
    rfl
  · intro ha
    rw [stepInputs_source deltas _ i _ (by rw [harity]; exact ha), hcoll]
  · intro ha p j hj k
    rw [stepInputs_port hf deltas hn1 (by rw [harity]; exact ha) _ hj, getElem?_orInsert,
      hport i _ p k hn1, hj, Option.bind_some, injectEntry_note]
    rw [← evalAt_note env store ctx g keys]
    rfl

/-- A node that keeps no input weights reads its inputs' outputs as they are. -/
theorem stepped_node_plain (hv : g.Valid) (deltas : TableDeltas) (keys : List String) {i : Nat} (hn : g.nodes[i]? = some node) (ha : node.operator.arity ≠ 0)
    (hw : ∀ p k, node.operator.integratedInputWeight p k = none)
    (hnote : node.operator.noteContentUpdates keys = node.operator) :
    ∃ ins : List ZSet,
      (g.stepped env ho store ctx deltas keys).nodes[i]? =
          some { node with operator := (node.operator.step env ho ins store ctx).1 } ∧
        g.steppedOut env ho store ctx deltas keys i =
          (node.operator.step env ho ins store ctx).2 ∧
        ∀ p j : Nat, node.inputs[p]? = some j →
          ins[p]?.getD ∅ = g.steppedOut env ho store ctx deltas keys j := by
  obtain ⟨ins, h1, h2, -, h4⟩ := stepped_node env ho store ctx hv deltas keys hn
  rw [hnote] at h1 h2
  refine ⟨ins, h1, h2, ?_⟩
  intro p j hj
  refine ExtTreeMap.ext_getElem? fun k => ?_
  have hnone : injectEntry node.operator (g.evalAt env store ctx k j) p k = none := by
    rw [injectEntry, hw]
    rfl
  rw [h4 ha p j hj k, hnone]
  simp

theorem stepped_sameShape (hv : g.Valid) (deltas : TableDeltas) (keys : List String) :
    g.SameShape (g.stepped env ho store ctx deltas keys) :=
  (note_sameShape g keys).trans
    (commit_sameShape env ho store ctx ((note_sameShape g keys).valid hv) deltas _)

/-- A step of a graph: the main pass, then the re-evaluation of the updated keys. -/
theorem stepGraph_eq (hv : g.Valid) (cache : ZSet) (deltas : TableDeltas) (cu : ContentUpdates) :
    stepGraph env ho store ctx cache g deltas cu =
      let fin := (contentKeys ho cu).foldl (reevalKey env ho store ctx cache)
        (g.stepped env ho store ctx deltas (contentKeys ho cu),
          g.steppedOut env ho store ctx deltas (contentKeys ho cu) g.outputNode)
      (fin.1, some fin.2) := by
  have hv1 : (g.note (contentKeys ho cu)).Valid := (note_sameShape g _).valid hv
  obtain ⟨node, hnode⟩ : ∃ node, (g.note (contentKeys ho cu)).nodes[g.outputNode]? = some node :=
    ⟨_, List.getElem?_eq_getElem (by simpa [Graph.note] using hv.out)⟩
  have hr := (stepPass_node env ho store ctx hv1
    (stepInputs_congr deltas (injectAll env store ctx (g.note (contentKeys ho cu))
      (contentKeys ho cu))) hnode rfl).2
  have hout : (mainPass env ho store ctx (g.note (contentKeys ho cu)) deltas
      (injectAll env store ctx (g.note (contentKeys ho cu)) (contentKeys ho cu)))[
        g.outputNode]? = some _ := hr
  unfold stepGraph
  dsimp only
  split
  · next hnone =>
    rw [hnone] at hout
    cases hout
  · next out hsome =>
    have he : out.2 = g.steppedOut env ho store ctx deltas (contentKeys ho cu) g.outputNode := by
      simp [Graph.steppedOut, NodeResults.output, hsome]
    rw [he]
    rfl

/-- A step of a graph without reordering operators: the main pass, and the view delta patched
    by the evaluation of the updated keys on the stepped graph. -/
theorem stepGraph_plain (hv : g.Valid) (hp : Plain g.nodes) (cache : ZSet) (deltas : TableDeltas)
    (cu : ContentUpdates) :
    (stepGraph env ho store ctx cache g deltas cu).1 =
        g.stepped env ho store ctx deltas (contentKeys ho cu) ∧
      ∀ k : String, ((stepGraph env ho store ctx cache g deltas cu).2.getD ∅)[k]? =
        ((g.steppedOut env ho store ctx deltas (contentKeys ho cu) g.outputNode)[k]?).or
          (if k ∈ contentKeys ho cu then
            patch ((g.stepped env ho store ctx deltas (contentKeys ho cu)).evalAt env store ctx k
              g.outputNode) (cache.weight k)
          else none) := by
  have hshape := stepped_sameShape env ho store ctx hv deltas (contentKeys ho cu)
  rw [stepGraph_eq env ho store ctx hv]
  exact foldl_reevalKey_plain env ho store ctx (hshape.plain hp) cache (contentKeys ho cu)
    (g.steppedOut env ho store ctx deltas (contentKeys ho cu) g.outputNode)

theorem getElem?_applyDelta (cache delta : ZSet) (k : String) :
    (View.applyDelta cache delta)[k]? =
      match delta[k]? with
      | none => cache[k]?
      | some d => if 0 < cache.weight k + d then some 1 else none := by
  rw [View.applyDelta, getElem?_foldAlter]
  cases delta[k]? <;> rfl

/-- A set of keys as a Z-set: every weight is one. -/
def ZSet.Binary (z : ZSet) : Prop := ∀ k : String, z[k]? = none ∨ z[k]? = some 1

theorem applyDelta_binary {cache : ZSet} (h : cache.Binary) (delta : ZSet) :
    (View.applyDelta cache delta).Binary := by
  intro k
  rw [getElem?_applyDelta]
  cases delta[k]? with
  | none => exact h k
  | some d =>
    dsimp only
    split
    · exact .inr rfl
    · exact .inl rfl

theorem applyDelta_of_binary {z : ZSet} (h : z.Binary) : View.applyDelta ∅ z = z := by
  refine ExtTreeMap.ext_getElem? fun k => ?_
  rw [getElem?_applyDelta]
  rcases h k with hk | hk
  · rw [hk]
    simp
  · rw [hk]
    simp [ZSet.weight]

/-- The cache after a step of a plain graph, key by key: the main pass decides where it has an
    entry, the evaluation decides for the other updated keys, and the rest stays. -/
theorem stepView_plain (planner : IndexPlanner) (hv : g.Valid) (hp : Plain g.nodes)
    {v : View} (hb : v.cache.Binary) (deltas : TableDeltas) (cu : ContentUpdates) :
    let keys := contentKeys ho cu
    let r := Circuit.stepView env planner ho store deltas cu g v
    r.1 = g.stepped env ho store v.params deltas keys ∧
      ∀ k : String, r.2.1.cache[k]? =
        match (g.steppedOut env ho store v.params deltas keys g.outputNode)[k]? with
        | some d => if 0 < v.cache.weight k + d then some 1 else none
        | none =>
          if k ∈ keys then
            if (g.stepped env ho store v.params deltas keys).evalAt env store v.params k
              g.outputNode then some 1 else none
          else v.cache[k]? := by
  intro keys r
  obtain ⟨-, -, hstay, -⟩ := stepView_view env planner ho store deltas cu g v
  obtain ⟨hg, hd⟩ := stepGraph_plain env ho store v.params hv hp v.cache deltas cu
  have hplain : Plain (stepGraph env ho store v.params v.cache g deltas cu).1.nodes := by
    rw [hg]
    exact (stepped_sameShape env ho store v.params hv deltas keys).plain hp
  obtain ⟨h1, h2⟩ := hstay (Graph.needsRebuild_of_plain hplain)
  refine ⟨h1.trans hg, ?_⟩
  intro k
  have hc : r.2.1.cache = _ := h2
  rw [hc, getElem?_applyDelta, hd k]
  change (match ((g.steppedOut env ho store v.params deltas keys g.outputNode)[k]?).or _ with
    | none => v.cache[k]?
    | some d => if 0 < v.cache.weight k + d then some 1 else none) = _
  cases (g.steppedOut env ho store v.params deltas keys g.outputNode)[k]? with
  | some d => rfl
  | none =>
    rw [Option.none_or]
    by_cases hk : k ∈ contentKeys ho cu
    · rw [if_pos hk]
      change _ = if k ∈ contentKeys ho cu then _ else _
      rw [if_pos hk]
      generalize (g.stepped env ho store v.params deltas (contentKeys ho cu)).evalAt env store
        v.params k g.outputNode = now
      have hw : v.cache.weight k = 0 ∧ v.cache[k]? = none ∨
          v.cache.weight k = 1 ∧ v.cache[k]? = some 1 := by
        rcases hb k with h | h
        · exact .inl ⟨by simp [ZSet.weight, h], h⟩
        · exact .inr ⟨by simp [ZSet.weight, h], h⟩
      rcases hw with ⟨hw, hc0⟩ | ⟨hw, hc0⟩ <;> cases now <;> simp [patch, hw, hc0]
    · rw [if_neg hk]
      change _ = if k ∈ contentKeys ho cu then _ else _
      rw [if_neg hk]

/-! ## Priming -/

/-- The output of a node while its graph is primed. -/
def Graph.primedOut (g : Graph) (i : Nat) : ZSet :=
  (stepPass env ho store ctx g.nodes (primeInputs store ctx) g.topoOrder).output i

theorem primed_out (hv : g.Valid) :
    (primeGraph env ho g store ctx).2 = some (g.primedOut env ho store ctx g.outputNode) := by
  obtain ⟨node, hn⟩ : ∃ node, g.nodes[g.outputNode]? = some node :=
    ⟨_, List.getElem?_eq_getElem hv.out⟩
  have h2 := (stepPass_node env ho store ctx hv (primeInputs_congr store ctx) hn rfl).2
  unfold primeGraph Graph.primedOut NodeResults.output
  dsimp only
  rw [h2]
  rfl

theorem primed_node (hv : g.Valid) {i : Nat} (hn : g.nodes[i]? = some node) :
    ∃ ins : List ZSet,
      (primeGraph env ho g store ctx).1.nodes[i]? =
          some { node with operator := (node.operator.step env ho ins store ctx).1 } ∧
        g.primedOut env ho store ctx i = (node.operator.step env ho ins store ctx).2 ∧
        (node.operator.arity = 0 → ins = [sourceStart node.operator store ctx]) ∧
        (node.operator.arity ≠ 0 → ∀ p j : Nat, node.inputs[p]? = some j →
          ins[p]?.getD ∅ = g.primedOut env ho store ctx j) := by
  obtain ⟨h1, h2⟩ := stepPass_node env ho store ctx hv (primeInputs_congr store ctx) hn rfl
  refine ⟨_, h1, ?_, ?_, ?_⟩
  · rw [Graph.primedOut, NodeResults.output, h2]
    rfl
  · intro ha
    rw [primeInputs, if_pos ha]
  · intro ha p j hj
    rw [primeInputs, if_neg ha, List.getElem?_map, hj]
    rfl

end StepPlain

end Sp00ky.Ssp
