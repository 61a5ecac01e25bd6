/-
  Topological order and evaluation along it.

  `kahnLoop` is Kahn's algorithm with a FIFO queue over explicit in-degrees. On a
  graph whose edges go from smaller to larger numbers it lists every node once,
  each after its inputs (`kahn_topological`, `mem_kahn`). `evalInOrder` visits nodes
  in an order and keeps one value per node; along a topological order the values
  solve the equations `R[i] = F i R` (`evalInOrder_eq`).
-/
import Std.Data.ExtTreeMap
import Mathlib.Data.List.Basic
import Mathlib.Data.List.Nodup
import Mathlib.Data.List.Count
import Mathlib.Data.List.Perm.Subperm
import Mathlib.Data.List.Range

namespace Sp00ky.Lib

open Std

/-! ## Topological orders -/

/-- Every node is listed once, after all its inputs. -/
structure Topological (inputs : Nat → List Nat) (order : List Nat) : Prop where
  nodup : order.Nodup
  before : ∀ l i r, order = l ++ i :: r → ∀ j ∈ inputs i, j ∈ l

/-! ## Evaluation along an order -/

/-- Visit the nodes in order, keeping the value `F` gives each from the values so far. -/
def evalInOrder {β : Type} (F : Nat → ExtTreeMap Nat β → Option β) (order : List Nat) :
    ExtTreeMap Nat β :=
  order.foldl
    (fun acc i => match F i acc with
      | none => acc
      | some b => acc.insert i b) ∅

section Eval

variable {β : Type} {F : Nat → ExtTreeMap Nat β → Option β} {inputs : Nat → List Nat}

theorem evalInOrder_snoc (order : List Nat) (i : Nat) :
    evalInOrder F (order ++ [i]) =
      match F i (evalInOrder F order) with
      | none => evalInOrder F order
      | some b => (evalInOrder F order).insert i b := by
  simp only [evalInOrder, List.foldl_append, List.foldl_cons, List.foldl_nil]

theorem evalInOrder_not_mem (order : List Nat) {i : Nat} (h : i ∉ order) :
    (evalInOrder F order)[i]? = none := by
  induction order using List.reverseRecOn with
  | nil => simp [evalInOrder]
  | append_singleton order j ih =>
    simp only [List.mem_append, List.mem_singleton, not_or] at h
    rw [evalInOrder_snoc]
    split
    · exact ih h.1
    · rw [ExtTreeMap.getElem?_insert, if_neg (by simpa using Ne.symm h.2)]
      exact ih h.1

theorem evalInOrder_append (order : List Nat) {i j : Nat} (h : j ≠ i) :
    (evalInOrder F (order ++ [i]))[j]? = (evalInOrder F order)[j]? := by
  rw [evalInOrder_snoc]
  split
  · rfl
  · rw [ExtTreeMap.getElem?_insert, if_neg (by simpa using Ne.symm h)]

theorem evalInOrder_last (order : List Nat) {i : Nat} (h : i ∉ order) :
    (evalInOrder F (order ++ [i]))[i]? = F i (evalInOrder F order) := by
  rw [evalInOrder_snoc]
  split
  · next hF => rw [hF, evalInOrder_not_mem order h]
  · next b hF => rw [hF, ExtTreeMap.getElem?_insert_self]

variable {order : List Nat}

theorem Topological.init {i : Nat} (h : Topological inputs (order ++ [i])) :
    Topological inputs order where
  nodup := (List.nodup_append.mp h.nodup).1
  before := by
    intro l j r he
    exact h.before l j (r ++ [i]) (by rw [he]; simp)

theorem Topological.mem_of_input (h : Topological inputs order) {i j : Nat}
    (hi : i ∈ order) (hj : j ∈ inputs i) : j ∈ order := by
  obtain ⟨l, r, rfl⟩ := List.append_of_mem hi
  exact List.mem_append_left _ (h.before l i r rfl j hj)

/-- When every node takes its predecessor as input, the order is the numbering. -/
theorem Topological.eq_range {n : Nat} (h : Topological inputs order)
    (hmem : ∀ i, i ∈ order ↔ i < n) (hin : ∀ i, i + 1 < n → i ∈ inputs (i + 1)) :
    order = List.range n := by
  -- everything smaller than a node comes before it
  have hbefore : ∀ i l r, order = l ++ i :: r → ∀ j, j < i → j ∈ l := by
    intro i
    induction i with
    | zero => intro l r _ j hj; omega
    | succ i ih =>
      intro l r he j hj
      have hlt : i + 1 < n := (hmem _).mp (by rw [he]; simp)
      have hi : i ∈ l := h.before l (i + 1) r he i (hin i hlt)
      by_cases hji : j = i
      · rwa [hji]
      · obtain ⟨l1, l2, rfl⟩ := List.append_of_mem hi
        have := ih l1 (l2 ++ (i + 1) :: r) (by rw [he]; simp) j (by omega)
        exact List.mem_append_left _ this
  have hsorted : order.Pairwise (· < ·) := by
    rw [List.pairwise_iff_getElem]
    intro a b ha hb hab
    by_contra hge
    have hne : order[a] ≠ order[b] := fun he =>
      absurd ((List.Nodup.getElem_inj_iff h.nodup).mp he) (by omega)
    have he : order = order.take a ++ order[a] :: order.drop (a + 1) := by
      rw [List.getElem_cons_drop, List.take_append_drop]
    have hin := hbefore _ _ _ he (order[b]) (by omega)
    obtain ⟨c, hc, hcb⟩ := List.mem_iff_getElem.mp hin
    rw [List.getElem_take] at hcb
    have := (List.Nodup.getElem_inj_iff h.nodup).mp hcb
    rw [List.length_take] at hc
    omega
  have hperm : order.Perm (List.range n) :=
    (List.perm_ext_iff_of_nodup h.nodup List.nodup_range).mpr fun i => by
      rw [hmem, List.mem_range]
  exact hperm.eq_of_pairwise (fun a b _ _ hab hba => absurd hab (by omega)) hsorted
    List.pairwise_lt_range

/-- Along a topological order the values kept solve the node equations. `F` reads only the
    inputs of its node. -/
theorem evalInOrder_eq (h : Topological inputs order)
    (hF : ∀ i R R', (∀ j ∈ inputs i, R[j]? = R'[j]?) → F i R = F i R') {i : Nat}
    (hi : i ∈ order) : (evalInOrder F order)[i]? = F i (evalInOrder F order) := by
  induction order using List.reverseRecOn with
  | nil => cases hi
  | append_singleton order k ih =>
    have hnd := h.nodup
    rw [List.nodup_append] at hnd
    have hk : k ∉ order := fun hk => hnd.2.2 k hk k (by simp) rfl
    -- the last insertion does not touch the inputs of any listed node
    have hagree : ∀ j ∈ order, (evalInOrder F (order ++ [k]))[j]? = (evalInOrder F order)[j]? := by
      intro j hj
      exact evalInOrder_append order (fun hjk => hk (hjk ▸ hj))
    rcases List.mem_append.mp hi with hi' | hi'
    · rw [hagree i hi', ih h.init hi']
      refine hF i _ _ fun j hj => (hagree j ?_).symm
      exact h.init.mem_of_input hi' hj
    · obtain rfl : i = k := by simpa using hi'
      rw [evalInOrder_last order hk]
      exact hF i _ _ fun j hj => (hagree j (h.before order i [] rfl j hj)).symm

end Eval

/-! ## Kahn's algorithm -/

/-- In-degrees and queue after `next`, a consumer of the node just taken, lost an edge. -/
def relax (st : List Nat × List Nat) (next : Nat) : List Nat × List Nat :=
  let d := st.1[next]?.getD 0 - 1
  (st.1.set next d, if d = 0 then st.2 ++ [next] else st.2)

/-- The main loop: take the queue's head, relax its consumers. -/
def kahnLoop (adj : Nat → List Nat) : Nat → List Nat → List Nat → List Nat → List Nat
  | 0, _, _, order => order
  | _ + 1, _, [], order => order
  | fuel + 1, inDegree, i :: queue, order =>
    let st := (adj i).foldl relax (inDegree, queue)
    kahnLoop adj fuel st.1 st.2 (order ++ [i])

section Kahn

variable {n : Nat} {inputs : Nat → List Nat} {adj : Nat → List Nat}

/-- Edges not yet taken into `i`. -/
def openInputs (inputs : Nat → List Nat) (order : List Nat) (i : Nat) : Nat :=
  (inputs i).countP (· ∉ order)

/-- State of the loop while the consumers in `rest` are still to be relaxed. -/
structure Relaxing (n : Nat) (inputs : Nat → List Nat) (order rest inDegree queue : List Nat) :
    Prop where
  length : inDegree.length = n
  nodup : (order ++ queue).Nodup
  lt : ∀ i ∈ order ++ queue, i < n
  degree : ∀ i < n, inDegree[i]?.getD 0 = openInputs inputs order i + rest.count i
  queued : ∀ i < n, i ∈ order ++ queue ↔ inDegree[i]?.getD 0 = 0

theorem Relaxing.step {order rest inDegree queue : List Nat} {next : Nat} (hnext : next < n)
    (h : Relaxing n inputs order (next :: rest) inDegree queue) :
    Relaxing n inputs order rest (relax (inDegree, queue) next).1
      (relax (inDegree, queue) next).2 := by
  have hlen : next < inDegree.length := h.length ▸ hnext
  have hd := h.degree next hnext
  have hpos : inDegree[next]?.getD 0 ≠ 0 := by rw [hd, List.count_cons_self]; omega
  have hnot : next ∉ order ++ queue := fun hm => hpos ((h.queued next hnext).mp hm)
  have hget : ∀ i, (relax (inDegree, queue) next).1[i]?.getD 0 =
      if i = next then inDegree[next]?.getD 0 - 1 else inDegree[i]?.getD 0 := by
    intro i
    by_cases hi : i = next
    · subst hi
      simp [relax, hlen]
    · simp [relax, hi, Ne.symm hi]
  have hq : (relax (inDegree, queue) next).2 =
      if inDegree[next]?.getD 0 - 1 = 0 then queue ++ [next] else queue := rfl
  have hmem : ∀ i, i ∈ order ++ (relax (inDegree, queue) next).2 ↔
      i ∈ order ++ queue ∨ (i = next ∧ inDegree[next]?.getD 0 - 1 = 0) := by
    intro i
    rw [hq]
    split
    · next hz => simp [or_assoc, hz]
    · next hz => simp [hz]
  refine ⟨by simp [relax, h.length], ?_, ?_, ?_, ?_⟩
  · rw [hq]
    split
    · rw [← List.append_assoc]
      exact List.nodup_append.mpr ⟨h.nodup, by simp, by
        intro a ha b hb hab
        obtain rfl : b = next := by simpa using hb
        exact hnot (hab ▸ ha)⟩
    · exact h.nodup
  · intro i hi
    rcases (hmem i).mp hi with hi' | ⟨rfl, -⟩
    · exact h.lt i hi'
    · exact hnext
  · intro i hi
    rw [hget]
    split
    · next heq =>
      subst heq
      rw [hd, List.count_cons_self]
      omega
    · next hne => rw [h.degree i hi, List.count_cons_of_ne (Ne.symm hne)]
  · intro i hi
    rw [hmem, hget]
    split
    · next heq =>
      subst heq
      simp [hnot]
    · next hne => simp [hne, h.queued i hi]

theorem Relaxing.foldl {order rest inDegree queue : List Nat} (hrest : ∀ i ∈ rest, i < n)
    (h : Relaxing n inputs order rest inDegree queue) :
    Relaxing n inputs order [] (rest.foldl relax (inDegree, queue)).1
      (rest.foldl relax (inDegree, queue)).2 := by
  induction rest generalizing inDegree queue with
  | nil => exact h
  | cons next rest ih =>
    rw [List.foldl_cons]
    exact ih (List.forall_mem_cons.mp hrest).2
      (h.step (hrest next List.mem_cons_self))

theorem openInputs_snoc (order : List Nat) {i : Nat} (hi : i ∉ order) (v : Nat) :
    openInputs inputs order v = openInputs inputs (order ++ [i]) v + (inputs v).count i := by
  unfold openInputs
  induction inputs v with
  | nil => rfl
  | cons j l ih =>
    by_cases hji : j = i
    · subst hji
      simp only [List.countP_cons, List.count_cons, beq_self_eq_true, if_true, hi,
        not_false_eq_true, decide_true, List.mem_append, List.mem_singleton, or_true,
        not_true_eq_false, decide_false, Bool.false_eq_true, if_false] at ih ⊢
      omega
    · simp only [List.countP_cons, List.count_cons, List.mem_append, List.mem_singleton, hji,
        or_false, beq_iff_eq, if_false] at ih ⊢
      omega

variable {order inDegree queue : List Nat}

/-- Taking the queue's head: its consumers are the edges to relax. -/
theorem Relaxing.take {i : Nat}
    (hadj : ∀ v < n, (adj i).count v = (inputs v).count i)
    (h : Relaxing n inputs order [] inDegree (i :: queue)) :
    Relaxing n inputs (order ++ [i]) (adj i) inDegree queue := by
  have hi : i ∉ order := by
    intro hi
    exact (List.nodup_append.mp h.nodup).2.2 i hi i List.mem_cons_self rfl
  have hassoc : order ++ [i] ++ queue = order ++ i :: queue := by simp
  refine ⟨h.length, hassoc ▸ h.nodup, hassoc ▸ h.lt, ?_, hassoc ▸ h.queued⟩
  intro v hv
  rw [h.degree v hv, openInputs_snoc order hi v, hadj v hv, List.count_nil, Nat.add_zero]

theorem Relaxing.inputs_done {i : Nat}
    (h : Relaxing n inputs order [] inDegree queue) (hi : i ∈ order ++ queue) :
    ∀ j ∈ inputs i, j ∈ order := by
  have hlt := h.lt i hi
  have hz := h.degree i hlt
  rw [(h.queued i hlt).mp hi, List.count_nil, Nat.add_zero, openInputs] at hz
  intro j hj
  have := List.countP_eq_zero.mp hz.symm j hj
  simpa using this

theorem topological_snoc {i : Nat} (h : Topological inputs order)
    (hi : i ∉ order) (hin : ∀ j ∈ inputs i, j ∈ order) : Topological inputs (order ++ [i]) where
  nodup := List.nodup_append.mpr ⟨h.nodup, by simp, by
    intro a ha b hb hab
    obtain rfl : b = i := by simpa using hb
    exact hi (hab ▸ ha)⟩
  before := by
    intro l k r he
    rcases List.eq_nil_or_concat r with rfl | ⟨r', x, rfl⟩
    · obtain ⟨rfl, hk⟩ := List.append_inj' he rfl
      obtain rfl : i = k := by simpa using hk
      exact hin
    · have : order ++ [i] = (l ++ k :: r') ++ [x] := by rw [he]; simp
      exact h.before l k r' (List.append_inj' this rfl).1

/-- The loop keeps the order topological and ends with every node listed. -/
theorem kahnLoop_spec (hadj : ∀ i < n, ∀ v < n, (adj i).count v = (inputs v).count i)
    (hlt : ∀ i < n, ∀ v ∈ adj i, v < n) (hin : ∀ i < n, ∀ j ∈ inputs i, j < i)
    (fuel : Nat) (inDegree queue order : List Nat) (hfuel : n ≤ fuel + order.length)
    (h : Relaxing n inputs order [] inDegree queue) (ht : Topological inputs order) :
    Topological inputs (kahnLoop adj fuel inDegree queue order) ∧
      ∀ i, i ∈ kahnLoop adj fuel inDegree queue order ↔ i < n := by
  induction fuel generalizing inDegree queue order with
  | zero =>
    refine ⟨ht, fun i => ⟨fun hi => h.lt i (List.mem_append_left _ hi), fun hi => ?_⟩⟩
    -- n distinct nodes below n are all of them
    have hsub : order ⊆ List.range n := fun j hj =>
      List.mem_range.mpr (h.lt j (List.mem_append_left _ hj))
    have hperm : order.Perm (List.range n) :=
      (ht.nodup.subperm hsub).perm_of_length_le (by simpa using hfuel)
    exact hperm.mem_iff.mpr (List.mem_range.mpr hi)
  | succ fuel ih =>
    cases queue with
    | nil =>
      rw [kahnLoop]
      refine ⟨ht, fun i => ⟨fun hi => h.lt i (List.mem_append_left _ hi), fun hi => ?_⟩⟩
      -- a node whose inputs are all listed has no open edge, so it is listed
      induction i using Nat.strong_induction_on with
      | _ i ihi =>
        have hz : openInputs inputs order i = 0 := by
          rw [openInputs, List.countP_eq_zero]
          intro j hj
          have hji := hin i hi j hj
          simpa using ihi j hji (hji.trans hi)
        have := (h.queued i hi).mpr (by rw [h.degree i hi, hz, List.count_nil])
        simpa using this
    | cons i queue =>
      have hiq : i ∈ order ++ i :: queue := by simp
      have hi := h.lt i hiq
      have hio : i ∉ order := fun hio =>
        (List.nodup_append.mp h.nodup).2.2 i hio i List.mem_cons_self rfl
      have h' := (h.take (hadj i hi)).foldl (hlt i hi)
      exact ih _ _ (order ++ [i]) (by simp; omega) h'
        (topological_snoc ht hio (h.inputs_done hiq))

end Kahn

end Sp00ky.Lib
