/-
  Presence joins over whole runs (`operator/witness.rs`, `semi_join.rs`, `anti_join.rs`).

  `JoinRun` is a join with what it has been given: the store, the two integrated inputs and the sum
  of what it has emitted. A step may find any row of the store rewritten, as long as it hears of the
  rows that its inputs hold (`Covers`). `Kept` says how the five structures of the join go together
  with the inputs; every step keeps it (`kept_step`), so the sum is the snapshot at all times
  (`joinRun_exact`).
-/
import Sp00ky.Lib.Transition
import Sp00ky.Ssp.OneChange
import Sp00ky.Ssp.WitnessFacts

namespace Sp00ky.Ssp

open Std Lib

/-! ## Runs -/

/-- A join, the store, the integrated inputs and the sum of the outputs. -/
structure JoinRun where
  state : WitnessState
  store : Store
  left : ZSet
  right : ZSet
  shown : ZSet

/-- The store a step finds, its deltas and the rows noted as rewritten. -/
structure JoinFeed where
  store : Store
  delta0 : ZSet
  delta1 : ZSet
  noted : List String

namespace JoinRun

/-- A join that has been given nothing. -/
def new (store : Store) : JoinRun := ⟨WitnessState.empty, store, ∅, ∅, ∅⟩

def step (env : Env) (on : JoinCondition) (anti : Bool) (r : JoinRun) (a : JoinFeed) :
    Option JoinRun :=
  let stepped := (r.state.noteContentUpdates a.noted).step env a.delta0 a.delta1 a.store on anti
  some ⟨stepped.1, a.store, r.left.add a.delta0, r.right.add a.delta1, r.shown.add stepped.2⟩

/-- A rewritten row is noted, or in the delta of each input that holds it. -/
def Covers (r : JoinRun) (a : JoinFeed) : Prop :=
  ∀ k, a.store.getRowByKey k ≠ r.store.getRowByKey k →
    k ∈ a.noted ∨ (k ∈ r.left → k ∈ a.delta0) ∧ (k ∈ r.right → k ∈ a.delta1)

/-- The snapshot of the join over its inputs. -/
def snapshot (env : Env) (on : JoinCondition) (anti : Bool) (r : JoinRun) : ZSet :=
  if anti then antiJoinSnapshot env r.left r.right on r.store
  else semiJoinSnapshot env r.left r.right on r.store

/-! ## The invariant -/

/-- One input's rows are those integrated, as the store has them. -/
structure Mirrors (rows : ExtTreeMap String InputRow) (input : ZSet) (field : Path)
    (store : Store) : Prop where
  noZero : input.NoZero
  rows : ∀ k, rows[k]? = input[k]?.map fun w => InputRow.read k w field store

/-- How the parts of a join go together with its inputs. -/
structure Kept (env : Env) (on : JoinCondition) (anti : Bool) (r : JoinRun) : Prop where
  left : Mirrors r.state.left r.left on.leftField r.store
  right : Mirrors r.state.right r.right on.rightField r.store
  leftFiled : WitnessState.LeftFiled env r.state.left r.state.leftByHash
  rightFiled : r.state.RightFiled env
  summed : r.state.Summed
  counted : ∀ v, (r.state.held env v : Int) = WitnessState.rightCount r.state.right v
  output : ∀ k, k ∈ r.state.output ↔ r.state.presentNow env anti k = true
  shown : ∀ k, r.shown[k]? = if k ∈ r.state.output then some 1 else none

/-- Refreshing the touched rows makes the input's rows those of the next input. -/
theorem Mirrors.refresh {rows : ExtTreeMap String InputRow} {input delta : ZSet} {field : Path}
    {store store' : Store} {noted : ExtTreeSet String} (h : Mirrors rows input field store)
    (hcover : ∀ k ∈ input, store'.getRowByKey k ≠ store.getRowByKey k → k ∈ noted ∨ k ∈ delta) :
    Mirrors ((WitnessState.touchedKeys rows delta noted).foldl
      (fun m k => put m k (WitnessState.refreshed m[k]? delta field store' k)) rows)
      (input.add delta) field store' := by
  refine ⟨ZSet.NoZero.add h.noZero delta, fun k => ?_⟩
  have hweight : (rows[k]?.map InputRow.weight).getD 0 = input.weight k := by
    rw [h.rows, ZSet.weight, Option.map_map]
    cases input[k]? <;> rfl
  rw [WitnessState.getElem?_refreshed (WitnessState.nodup_touchedKeys _ _ _), ZSet.getElem?_add]
  by_cases hk : k ∈ WitnessState.touchedKeys rows delta noted
  · rw [if_pos hk]
    unfold WitnessState.refreshed
    dsimp only
    rw [hweight]
    cases hd : delta[k]? with
    | none =>
      have hzero : delta.weight k = 0 := by rw [ZSet.weight, hd, Option.getD_none]
      rw [hzero, Int.add_zero]
      dsimp only
      cases hi : input[k]? with
      | none => simp [ZSet.weight, hi]
      | some w =>
        have hw : input.weight k = w := by rw [ZSet.weight, hi, Option.getD_some]
        have hne : w ≠ 0 := fun he => h.noZero k (by rw [hi, he])
        rw [hw, if_neg hne]
        rfl
    | some d =>
      have hd' : delta.weight k = d := by rw [ZSet.weight, hd, Option.getD_some]
      rw [hd']
      dsimp only
      split <;> rfl
  · rw [if_neg hk]
    rw [WitnessState.mem_touchedKeys, not_or] at hk
    have hd : delta[k]? = none := ExtTreeMap.getElem?_eq_none hk.1
    rw [hd, h.rows]
    dsimp only
    cases hi : input[k]? with
    | none => rfl
    | some w =>
      have hin : k ∈ input := mem_of_getElem? hi
      have hrow : k ∈ rows := ExtTreeMap.isSome_getElem?_iff_mem.mp (by rw [h.rows, hi]; rfl)
      have hsame : store'.getRowByKey k = store.getRowByKey k := by
        by_contra hne
        rcases hcover k hin hne with hn | hn
        · exact hk.2 ⟨hn, hrow⟩
        · exact hk.1 hn
      rw [Option.map_some, Option.map_some, InputRow.read_congr hsame]

/-! ## Witnesses -/

end JoinRun

theorem hasMatch_iff {env : Env} {right : ZSet} {on : JoinCondition} {store : Store}
    {l : ValueRef} : hasMatch env right on store l = true ↔
      ∃ k w, right[k]? = some w ∧ 0 < w ∧
        joinMatches env l (joinField store on.rightField k) = true := by
  unfold hasMatch
  rw [List.any_eq_true]
  constructor
  · rintro ⟨⟨k, w⟩, hmem, hkw⟩
    obtain ⟨hw, hm⟩ := (Bool.and_eq_true _ _).mp hkw
    exact ⟨k, w, ExtTreeMap.mem_toList_iff_getElem?_eq_some.mp hmem, of_decide_eq_true hw, hm⟩
  · rintro ⟨k, w, hget, hw, hm⟩
    refine ⟨(k, w), ExtTreeMap.mem_toList_iff_getElem?_eq_some.mpr hget, ?_⟩
    exact (Bool.and_eq_true _ _).mpr ⟨decide_eq_true hw, hm⟩

namespace JoinRun

variable {env : Env} {on : JoinCondition} {anti : Bool} {r : JoinRun}

/-- The values counted are the join values of the live right rows. -/
theorem Kept.held_pos (h : Kept env on anti r) (v : WitnessValue) :
    0 < r.state.held env v ↔ ∃ k w y, r.right[k]? = some w ∧ 0 < w ∧
      joinField r.store on.rightField k = some y ∧ WitnessValue.ofValue y = v := by
  have hcount : 0 < r.state.held env v ↔ 0 < WitnessState.rightCount r.state.right v := by
    rw [← h.counted, Int.natCast_pos]
  rw [hcount, WitnessState.rightCount_pos]
  constructor
  · rintro ⟨k, row, hrow, hv⟩
    rw [h.right.rows] at hrow
    obtain ⟨w, hw, rfl⟩ := Option.map_eq_some_iff.mp hrow
    unfold InputRow.read at hv
    dsimp only at hv
    split at hv
    next => cases hv
    next hpos =>
      obtain ⟨y, hy, hyv⟩ := Option.map_eq_some_iff.mp hv
      exact ⟨k, w, y, hw, by omega, hy, hyv⟩
  · rintro ⟨k, w, y, hw, hpos, hy, rfl⟩
    refine ⟨k, InputRow.read k w on.rightField r.store, by rw [h.right.rows, hw]; rfl, ?_⟩
    unfold InputRow.read
    dsimp only
    rw [if_neg (by omega)]
    exact Option.map_eq_some_iff.mpr ⟨y, hy, rfl⟩

/-- The witnesses of the join are the matches of the snapshot. -/
theorem Kept.hasWitness_eq (h : Kept env on anti r) (x : Sp00kyValue) :
    r.state.hasWitness env (some (WitnessValue.ofValue x).toValue) =
      hasMatch env r.right on r.store (some x) := by
  rw [Bool.eq_iff_iff, WitnessState.hasWitness_iff h.rightFiled, hasMatch_iff]
  have hmatch : ∀ y, joinMatches env (some x) (some y) = true ↔
      (WitnessValue.ofValue y).hash env = (WitnessValue.ofValue x).hash env ∧
        compareValues (some (WitnessValue.ofValue x).toValue)
          (some (WitnessValue.ofValue y).toValue) = .eq := by
    intro y
    rw [WitnessValue.compareValues_ofValue, WitnessValue.hash_ofValue, WitnessValue.hash_ofValue]
    simp [joinMatches, @eq_comm _ (hashValue env (some x))]
  constructor
  · rintro ⟨v, hpos, hv⟩
    obtain ⟨k, w, y, hw, hwpos, hy, rfl⟩ := (h.held_pos v).mp hpos
    exact ⟨k, w, hw, hwpos, by rw [hy]; exact (hmatch y).mpr hv⟩
  · rintro ⟨k, w, hw, hwpos, hm⟩
    cases hy : joinField r.store on.rightField k with
    | none =>
      rw [hy] at hm
      simp [joinMatches] at hm
    | some y =>
      rw [hy] at hm
      exact ⟨_, (h.held_pos _).mpr ⟨k, w, y, hw, hwpos, hy, rfl⟩, (hmatch y).mp hm⟩

theorem hasMatch_none (env : Env) (right : ZSet) (on : JoinCondition) (store : Store) :
    hasMatch env right on store none = false := by
  unfold hasMatch
  rw [List.any_eq_false]
  intro rw_ _
  simp [joinMatches]

/-- Which rows the join shows. -/
theorem Kept.presentNow_iff (h : Kept env on anti r) (k : String) :
    r.state.presentNow env anti k = true ↔ ∃ w, r.left[k]? = some w ∧ 0 < w ∧
      (r.store.getRowByKey k).isSome = true ∧
        anti ≠ hasMatch env r.right on r.store (joinField r.store on.leftField k) := by
  unfold WitnessState.presentNow
  rw [h.left.rows, Option.any_map, Option.any_eq_true]
  refine exists_congr fun w => and_congr_right fun _ => ?_
  unfold InputRow.read
  dsimp only
  by_cases hw : 0 < w
  · have hvalue : (Option.map WitnessValue.ofValue
        (resolveField (r.store.getRowByKey k) on.leftField)).any
          (fun v => r.state.hasWitness env (some v.toValue)) =
        hasMatch env r.right on r.store (joinField r.store on.leftField k) := by
      unfold joinField
      cases resolveField (r.store.getRowByKey k) on.leftField with
      | none => exact (hasMatch_none env r.right on r.store).symm
      | some x => exact h.hasWitness_eq x
    rw [if_neg (by omega), hvalue]
    simp [hw]
  · simp [hw]

theorem getElem?_snapshot (env : Env) (on : JoinCondition) (anti : Bool) (r : JoinRun)
    (k : String) : (r.snapshot env on anti)[k]? = r.left[k]?.bind fun w =>
      if 0 < w ∧ (r.store.getRowByKey k).isSome = true ∧
        anti ≠ hasMatch env r.right on r.store (joinField r.store on.leftField k) then some 1
      else none := by
  -- a row that matches is there
  have hrow : hasMatch env r.right on r.store (joinField r.store on.leftField k) = true →
      (r.store.getRowByKey k).isSome = true := by
    intro hm
    cases hk : r.store.getRowByKey k with
    | none =>
      rw [joinField, hk, resolveField_none, hasMatch_none] at hm
      cases hm
    | some v => rfl
  cases anti with
  | true =>
    refine (ExtTreeMap.getElem?_filterMap' (t := r.left)).trans ?_
    refine congrArg _ (funext fun w => if_congr ?_ rfl rfl)
    simp
  | false =>
    refine (ExtTreeMap.getElem?_filterMap' (t := r.left)).trans ?_
    refine congrArg _ (funext fun w => if_congr ?_ rfl rfl)
    constructor
    · rintro ⟨hpos, hm⟩
      exact ⟨hpos, hrow hm, by simpa using hm⟩
    · rintro ⟨hpos, -, hm⟩
      exact ⟨hpos, by simpa using hm⟩

/-- What a join shows is its snapshot. -/
theorem Kept.shown_eq (h : Kept env on anti r) : r.shown = r.snapshot env on anti := by
  refine ExtTreeMap.ext_getElem? fun k => ?_
  have hiff := (h.output k).trans (h.presentNow_iff k)
  rw [h.shown, getElem?_snapshot]
  cases hl : r.left[k]? with
  | none =>
    rw [if_neg (by rw [hiff, hl]; simp)]
    rfl
  | some w =>
    rw [hl] at hiff
    refine if_congr (hiff.trans ?_) rfl rfl
    simp

/-! ## Steps -/

theorem kept_new (env : Env) (on : JoinCondition) (anti : Bool) (store : Store) :
    (new store).Kept env on anti := by
  have hmirrors : ∀ field, Mirrors ∅ ∅ field store := fun field =>
    ⟨fun k => by simp, fun k => by simp⟩
  have hheld : ∀ v, WitnessState.empty.held env v = 0 := fun v => by
    simp [WitnessState.held, WitnessState.empty]
  exact {
    left := hmirrors _
    right := hmirrors _
    leftFiled := fun k h => by simp [new, WitnessState.empty]
    rightFiled := fun h b v n hb => by simp [new, WitnessState.empty] at hb
    summed := ⟨fun k => rfl, rfl⟩
    counted := fun v => by
      change (WitnessState.empty.held env v : Int) = _
      rw [hheld]
      rfl
    output := fun k => by simp [new, WitnessState.empty, WitnessState.presentNow]
    shown := fun k => by simp [new, WitnessState.empty] }

theorem kept_step {a : JoinFeed} {r' : JoinRun} (h : Kept env on anti r) (hcover : r.Covers a)
    (hs : step env on anti r a = some r') : Kept env on anti r' := by
  obtain rfl := Option.some.inj hs
  have hnoted : ∀ k, k ∈ a.noted → k ∈ (r.state.noteContentUpdates a.noted).contentUpdates :=
    fun k hk => WitnessState.mem_noteContentUpdates.mpr (.inl hk)
  have hspec := @WitnessState.step_spec (r.state.noteContentUpdates a.noted) env a.delta0 a.delta1
    a.store on anti h.leftFiled h.rightFiled ⟨h.summed.kinds, h.summed.nans⟩ h.counted h.output
  exact {
    left := by
      change Mirrors _ _ _ a.store
      rw [hspec.left]
      refine h.left.refresh fun k hk hne => ?_
      rcases hcover k hne with hn | hn
      · exact .inl (hnoted k hn)
      · exact .inr (hn.1 hk)
    right := by
      change Mirrors _ _ _ a.store
      rw [hspec.right]
      refine h.right.refresh fun k hk hne => ?_
      rcases hcover k hne with hn | hn
      · exact .inl (hnoted k hn)
      · exact .inr (hn.2 hk)
    leftFiled := hspec.leftFiled
    rightFiled := hspec.rightFiled
    summed := hspec.summed
    counted := hspec.counted
    output := hspec.output
    shown := fun k => by
      have hzero : r.shown.NoZero := fun k' => by
        rw [h.shown]
        split <;> simp
      have hold : r.shown.weight k = if k ∈ r.state.output then 1 else 0 := by
        rw [ZSet.weight, h.shown]
        split <;> rfl
      have hadd := ZSet.weight_add r.shown
        ((r.state.noteContentUpdates a.noted).step env a.delta0 a.delta1 a.store on anti).2 k
      have hout := hspec.emitted k
      rw [show (r.state.noteContentUpdates a.noted).output = r.state.output from rfl] at hout
      rw [hold, hout] at hadd
      refine (ZSet.NoZero.getElem?_eq (ZSet.NoZero.add hzero _) k).trans ?_
      rw [hadd]
      split <;> split <;> simp_all }

end JoinRun

/-- However weights, rows and join values move, a presence join shows its snapshot. -/
theorem joinRun_exact {env : Env} {on : JoinCondition} {anti : Bool} {store : Store} {r : JoinRun}
    (h : Run (JoinRun.step env on anti) JoinRun.Covers (JoinRun.new store) r) :
    r.shown = r.snapshot env on anti :=
  (h.invariant (JoinRun.kept_new env on anti store) fun _ _ _ hk hc hs =>
    JoinRun.kept_step hk hc hs).shown_eq

/-! ## Rows that both inputs hold -/

namespace JoinRun

/-- A table with one row. -/
def oneRow (fields : List (String × Sp00kyValue)) : Store :=
  Store.new.setCollection { Collection.new "T" with
    rows := (∅ : ExtTreeMap String Row).insert "1" ⟨.object fields, 0⟩ }

def onA : JoinCondition := ⟨Path.new "a", Path.new "a"⟩

/-- The row comes on the right. -/
def firstRight : JoinFeed := ⟨oneRow [("a", .int 1)], ∅, {("T:1", 1)}, []⟩

/-- The row comes on the left, rewritten. -/
def thenLeft : JoinFeed := ⟨oneRow [("a", .int 2)], {("T:1", 1)}, ∅, []⟩

/-- The row is noted for the input that has it in no delta. -/
def thenLeftNoted : JoinFeed := { thenLeft with noted := ["T:1"] }

theorem getRowByKey_oneRow (fields : List (String × Sp00kyValue)) {k : String} (hk : k ≠ "T:1") :
    (oneRow fields).getRowByKey k = none := by
  unfold Store.getRowByKey
  cases hp : parseKey k with
  | none => rfl
  | some ti =>
    obtain ⟨t, id⟩ := ti
    have hjoin := parseKey_eq_some hp
    dsimp only
    have hcollections : (oneRow fields).collections = (∅ : ExtTreeMap String Collection).insert "T"
      { Collection.new "T" with
        rows := (∅ : ExtTreeMap String Row).insert "1" ⟨.object fields, 0⟩ } := rfl
    rw [hcollections, ExtTreeMap.getElem?_insert]
    by_cases ht : "T" = t
    · subst ht
      rw [if_pos (by simp)]
      have hid : "1" ≠ id := by
        rintro rfl
        exact hk (by rw [hjoin]; decide)
      have hkey : "1" ≠ k := by
        rintro rfl
        have hnone : parseKey "1" = none := by decide
        rw [hnone] at hp
        cases hp
      simp [Collection.get, hid, hkey]
    · rw [if_neg (by simpa using ht)]
      simp

/-- A rewritten row is noted or in either delta. -/
def CoversOne (r : JoinRun) (a : JoinFeed) : Prop :=
  ∀ k, a.store.getRowByKey k ≠ r.store.getRowByKey k → k ∈ a.noted ∨ k ∈ a.delta0 ∨ k ∈ a.delta1

/-- Only the one row is rewritten. -/
theorem rewritten_oneRow {fields fields' : List (String × Sp00kyValue)} {k : String}
    (hk : (oneRow fields).getRowByKey k ≠ (oneRow fields').getRowByKey k) : k = "T:1" := by
  by_contra hne
  rw [getRowByKey_oneRow fields hne, getRowByKey_oneRow fields' hne] at hk
  exact hk rfl

end JoinRun

/-- A row that the right input holds comes rewritten in the left delta alone. -/
theorem joinRun_one_side : ∃ r, Run (JoinRun.step Env.sample JoinRun.onA false) JoinRun.CoversOne
    (JoinRun.new JoinRun.firstRight.store) r ∧ r.shown ≠ r.snapshot Env.sample JoinRun.onA false := by
  have hrun : ((JoinRun.step Env.sample JoinRun.onA false (JoinRun.new JoinRun.firstRight.store)
      JoinRun.firstRight).bind fun r =>
        JoinRun.step Env.sample JoinRun.onA false r JoinRun.thenLeft).any
      (fun r => decide (r.shown["T:1"]? = none ∧
        (r.snapshot Env.sample JoinRun.onA false)["T:1"]? = some 1)) = true := by
    decide +kernel
  obtain ⟨r₂, h, hshown⟩ := (Option.any_eq_true _ _).mp hrun
  obtain ⟨r₁, h₁, h₂⟩ := Option.bind_eq_some_iff.mp h
  obtain ⟨hnone, hsome⟩ := of_decide_eq_true hshown
  refine ⟨r₂, (Run.start.next (fun k hk => absurd rfl hk) h₁).next (fun k hk => ?_) h₂, fun he => ?_⟩
  · obtain rfl := Option.some.inj h₁
    obtain rfl := JoinRun.rewritten_oneRow hk
    exact .inr (.inl (by decide))
  · rw [he, hsome] at hnone
    cases hnone

/-- The same row, noted. -/
theorem joinRun_exact_noted : ∃ r : JoinRun, r.shown["T:1"]? = some 1 ∧
    r.shown = r.snapshot Env.sample JoinRun.onA false := by
  have hrun : ((JoinRun.step Env.sample JoinRun.onA false (JoinRun.new JoinRun.firstRight.store)
      JoinRun.firstRight).bind fun r =>
        JoinRun.step Env.sample JoinRun.onA false r JoinRun.thenLeftNoted).any
      (fun r => decide (r.shown["T:1"]? = some 1)) = true := by
    decide +kernel
  obtain ⟨r₂, h, hshown⟩ := (Option.any_eq_true _ _).mp hrun
  obtain ⟨r₁, h₁, h₂⟩ := Option.bind_eq_some_iff.mp h
  refine ⟨r₂, of_decide_eq_true hshown, joinRun_exact ((Run.start.next ?_ h₁).next ?_ h₂)⟩
  · exact fun k hk => absurd rfl hk
  · intro k hk
    obtain rfl := Option.some.inj h₁
    obtain rfl := JoinRun.rewritten_oneRow hk
    exact .inl (by decide)

end Sp00ky.Ssp
