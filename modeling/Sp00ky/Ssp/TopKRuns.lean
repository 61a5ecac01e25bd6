/-
  The window operator over whole runs (`operator/top_k.rs`).

  `Fed` is the operator with the input it has been fed: each record under the sort key it had when
  its delta came. A delta inserts records that are absent and retracts records that are present,
  in any order of its keys and over any store. `fed_exact` says what the buffer, the window and the
  emitted delta are then.
-/
import Sp00ky.Lib.Transition
import Sp00ky.Ssp.TopKFacts

namespace Sp00ky.Ssp

open Std Lib

namespace TopK

/-! ## Runs -/

/-- The operator, its input, the window before the last step and what that step emitted. -/
structure Fed where
  op : TopK
  input : ExtTreeMap String SortKey
  before : List String
  emitted : ZSet

/-- A delta of the input, the store it is stepped over and the order its keys are visited in. -/
structure Feed where
  order : HashOrder
  store : Store
  delta : ZSet

namespace Fed

/-- `TopK::new`, with nothing in the input. -/
def new (limit offset : Nat) (orderBy : Option (List OrderSpec)) : Fed :=
  ⟨TopK.new limit offset orderBy, ∅, [], ∅⟩

/-- No field that is ordered by holds a float. -/
def noFloats (orderBy : Option (List OrderSpec)) (store : Store) (key : String) : Bool :=
  (orderBy.getD []).all fun o =>
    match resolveField (store.getRowByKey key) o.field with
    | some (.float _) => false
    | _ => true

/-- An absent record is inserted, or a present one retracted. -/
def admits (s : Fed) (store : Store) (kw : String × Int) : Bool :=
  if 0 < kw.2 then (s.input[kw.1]?).isNone && noFloats s.op.orderBy store kw.1
  else decide (kw.2 < 0) && (s.input[kw.1]?).isSome

/-- The input after a delta. -/
def inputAfter (s : Fed) (store : Store) (delta : ZSet) : ExtTreeMap String SortKey :=
  foldAlter (fun k old w => entryAfter store s.op k w old) s.input delta

def step (s : Fed) (a : Feed) : Option Fed :=
  if a.delta.toList.all (s.admits a.store) then
    let r := s.op.step a.order a.store a.delta
    some ⟨r.1, s.inputAfter a.store a.delta, s.op.currentWindow, r.2⟩
  else none

/-- The records of the input, with their sort keys. -/
def items (s : Fed) : List Entry := s.input.toList.map fun kv => (kv.2, kv.1)

/-- What the operator holds and what it has emitted. -/
structure Exact (s : Fed) : Prop where
  /-- The index holds the entries of the buffer. -/
  index : ∀ k sk, s.op.keyIndex[k]? = some sk ↔ (sk, k) ∈ s.op.buffer
  size : s.op.buffer.length ≤ s.op.capacity
  /-- The buffer holds the input below the boundary. -/
  buffer : ∀ e, e ∈ s.op.buffer ↔
    s.input[e.2]? = some e.1 ∧ ∀ b, s.op.boundary = some b → Entry.cmp e b = .lt
  /-- A window that asks for no rebuild is the window of the sorted input. -/
  window : s.op.needsRebuild = false → s.op.currentWindow =
    (((sortBy Entry.cmp s.items).drop s.op.offset).take s.op.limit).map Prod.snd
  /-- The last step emitted the difference of its windows. -/
  emitted : ∀ k, s.emitted.weight k =
    (if k ∈ s.op.currentWindow then 1 else 0) - if k ∈ s.before then 1 else 0

/-! ## Steps -/

theorem items_lists (s : Fed) : Lists (fun k => s.input[k]?) s.items := by
  refine ⟨?_, fun e => ?_⟩
  · have hkeys : (s.items.map Prod.snd).Nodup := by
      have : s.items.map Prod.snd = s.input.keys := by
        rw [items, List.map_map, ← ExtTreeMap.map_fst_toList_eq_keys]
        rfl
      rw [this]
      exact nodup_keys s.input
    exact hkeys.of_map _
  · rw [items, List.mem_map]
    refine ⟨?_, fun h => ⟨(e.2, e.1), ExtTreeMap.mem_toList_iff_getElem?_eq_some.mpr h, rfl⟩⟩
    rintro ⟨kv, hkv, rfl⟩
    exact ExtTreeMap.mem_toList_iff_getElem?_eq_some.mp hkv

variable {orderBy : Option (List OrderSpec)}

theorem ok_of_noFloats {store : Store} {key : String}
    (h : noFloats orderBy store key = true) :
    OkKey (orderFlags orderBy) (computeSortKey orderBy key store) := by
  refine computeSortKey_ok fun o ho x hx => ?_
  have := List.all_eq_true.mp h o ho
  rw [hx] at this
  cases this

/-- What every step keeps: the operator holds its input, under the parameters it was made with. -/
structure Kept (limit offset : Nat) (orderBy : Option (List OrderSpec)) (s : Fed) : Prop where
  holds : s.op.Holds (orderFlags orderBy) fun k => s.input[k]?
  made : s.op.reset = (TopK.new limit offset orderBy).reset
  windows : s.before.Nodup
  emitted : s.emitted = windowDelta s.before s.op.currentWindow

theorem kept_new (limit offset : Nat) (orderBy : Option (List OrderSpec)) :
    (new limit offset orderBy).Kept limit offset orderBy := by
  refine ⟨?_, rfl, List.nodup_nil, ?_⟩
  · exact (new_holds limit offset orderBy _).congr fun k => ExtTreeMap.getElem?_empty
  · have hwin : (TopK.new limit offset orderBy).currentWindow = [] := by
      simp [currentWindow, TopK.new]
    change ∅ = windowDelta [] (TopK.new limit offset orderBy).currentWindow
    rw [hwin, windowDelta_self List.nodup_nil]

theorem kept_step {limit offset : Nat} {s s' : Fed} {a : Feed}
    (h : s.Kept limit offset orderBy) (hs : s.step a = some s') : s'.Kept limit offset orderBy := by
  have horder : s.op.orderBy = orderBy := orderBy_of_reset h.made
  unfold step at hs
  split at hs
  next hall =>
    cases hs
    refine ⟨?_, ?_, h.holds.nodup_window, rfl⟩
    · refine (h.holds.step a.order a.store a.delta fun k w hk hw => ?_).congr fun k => ?_
      · have hadmits := List.all_eq_true.mp hall (k, w)
          (ExtTreeMap.mem_toList_iff_getElem?_eq_some.mpr hk)
        unfold admits at hadmits
        rw [if_pos hw, Bool.and_eq_true] at hadmits
        have hok := ok_of_noFloats hadmits.2
        rwa [horder] at hok ⊢
      · dsimp only
        rw [inputAfter, getElem?_foldAlter]
        cases a.delta[k]? <;> rfl
    · exact (step_reset a.order a.store s.op a.delta).trans h.made
  next => cases hs

/-- What a run holds when it has come to a state is what is claimed of the state. -/
theorem exact_of_kept {limit offset : Nat} {s : Fed}
    (hfit : offset + limit < 2 ^ 64) (h : s.Kept limit offset orderBy) : s.Exact := by
  have hoffset : s.op.offset = offset := congrArg TopK.offset h.made
  have hlimit : s.op.limit = limit := congrArg TopK.limit h.made
  refine ⟨h.holds.index, h.holds.size, h.holds.mem, fun hr => ?_, fun k => ?_⟩
  · exact h.holds.currentWindow_eq s.items_lists (by rw [hoffset, hlimit]; exact hfit) hr
  · rw [h.emitted, ZSet.weight, getElem?_windowDelta h.windows h.holds.nodup_window]
    by_cases hnew : k ∈ s.op.currentWindow <;> by_cases hold : k ∈ s.before <;>
      simp [hnew, hold]

end Fed

/-- However its deltas come, the operator keeps the input below its boundary and its window. -/
theorem fed_exact {limit offset : Nat} {orderBy : Option (List OrderSpec)} {s : Fed}
    (hfit : offset + limit + max limit minSlack < 2 ^ 64)
    (h : Run Fed.step (fun _ _ => True) (Fed.new limit offset orderBy) s) : s.Exact :=
  Fed.exact_of_kept (by omega)
    (h.invariant (Fed.kept_new limit offset orderBy) fun _ _ _ hk _ hs => Fed.kept_step hk hs)

/-- Two records, and a window of one. -/
theorem fed_exact_two : ∃ s : Fed, s.op.currentWindow = ["T:1"] ∧ s.Exact := by
  have hrun : (runAll Fed.step (fun _ _ => true) (Fed.new 1 0 none)
      [⟨.sorted, .new, {("T:2", 1)}⟩, ⟨.sorted, .new, {("T:1", 1)}⟩]).any
        (fun s => decide (s.op.currentWindow = ["T:1"])) = true := by decide +kernel
  obtain ⟨s, hs, hwindow⟩ := exists_freeRun hrun
  exact ⟨s, of_decide_eq_true hwindow,
    fed_exact (by decide) hs⟩

end TopK

end Sp00ky.Ssp
