/-
  What the parts of a presence join's step do (`operator/witness.rs`).

  Each structure of the join is described by a look-up: the left rows filed under a hash, the
  number of right rows counted under a value (`held`), the totals of the kinds (`Summed`). One
  lemma says what the refresh of one row or the net change of one value does to it, and one what a
  whole loop does (`refreshLeft_filed`, `refreshRight_counted`, `Applied`).
-/
import Sp00ky.Lib.Tally
import Sp00ky.Ssp.Runs

namespace Sp00ky.Ssp

open Std Lib
open ExtTreeMap (ext_getElem? getElem?_alter getElem?_erase getElem?_insert isEmpty_iff mem_keys
  mem_toList_iff_getElem?_eq_some)

/-! ## Values -/

namespace WitnessValue

/-- The hash of a value that is kept. -/
def hash (env : Env) (v : WitnessValue) : UInt64 := hashValue env (some v.toValue)

theorem hash_ofValue (env : Env) (x : Sp00kyValue) :
    (ofValue x).hash env = hashValue env (some x) := by
  cases x <;> rfl

theorem compareValues_ofValue (x y : Sp00kyValue) :
    compareValues (some (ofValue x).toValue) (some (ofValue y).toValue) =
      compareValues (some x) (some y) := by
  cases x <;> cases y <;> rfl

end WitnessValue

/-! ## Rows of one input -/

/-- One key put anew. -/
theorem alter_const {β : Type} (m : ExtTreeMap String β) (k : String) (o : Option β) :
    m.alter k (fun _ => o) = put m k o := by
  refine ext_getElem? fun k' => ?_
  rw [getElem?_alter]
  cases o with
  | none => simp [put, getElem?_erase]
  | some v => simp [put, getElem?_insert]

theorem getElem?_put {β : Type} (m : ExtTreeMap String β) (k k' : String) (o : Option β) :
    (put m k o)[k']? = if k = k' then o else m[k']? := by
  rw [← alter_const, getElem?_alter]
  simp

/-- A row is read anew with the store it is read from. -/
theorem InputRow.read_congr {key : String} {weight : Int} {field : Path} {store store' : Store}
    (h : store'.getRowByKey key = store.getRowByKey key) :
    InputRow.read key weight field store' = InputRow.read key weight field store := by
  unfold InputRow.read
  rw [h]

namespace WitnessState

variable {s : WitnessState}

theorem mem_noteContentUpdates {keys : List String} {k : String} :
    k ∈ (s.noteContentUpdates keys).contentUpdates ↔ k ∈ keys ∨ k ∈ s.contentUpdates := by
  unfold noteContentUpdates
  dsimp only
  induction keys generalizing s with
  | nil => simp
  | cons a keys ih =>
    rw [List.foldl_cons]
    refine (@ih { s with contentUpdates := s.contentUpdates.insert a }).trans ?_
    rw [ExtTreeSet.mem_insert, List.mem_cons]
    simp only [LawfulEqCmp.compare_eq_iff_eq]
    tauto

theorem mem_touchedKeys {rows : ExtTreeMap String InputRow} {delta : ZSet}
    {contentUpdates : ExtTreeSet String} {k : String} :
    k ∈ touchedKeys rows delta contentUpdates ↔
      k ∈ delta ∨ k ∈ contentUpdates ∧ k ∈ rows := by
  unfold touchedKeys
  rw [mem_dedupFirst, List.mem_append, List.mem_filter]
  simp

theorem nodup_touchedKeys (rows : ExtTreeMap String InputRow) (delta : ZSet)
    (contentUpdates : ExtTreeSet String) : (touchedKeys rows delta contentUpdates).Nodup :=
  nodup_dedupFirst _

/-- What a loop over rows leaves of them. -/
theorem getElem?_refreshed {l : List String} (hl : l.Nodup) (rows : ExtTreeMap String InputRow)
    (delta : ZSet) (field : Path) (store : Store) (k : String) :
    (l.foldl (fun m k => put m k (refreshed m[k]? delta field store k)) rows)[k]? =
      if k ∈ l then refreshed rows[k]? delta field store k else rows[k]? := by
  have halter : (fun (m : ExtTreeMap String InputRow) k =>
      put m k (refreshed m[k]? delta field store k)) =
      fun m k => m.alter k fun o => refreshed o delta field store k := by
    funext m k
    refine ext_getElem? fun k' => ?_
    rw [getElem?_put, getElem?_alter]
    simp
  rw [halter, getElem?_foldl_alter_keys (fun k o => refreshed o delta field store k) l hl]

/-! ## Left rows -/

/-- The left rows are filed under the hashes of their values. -/
def LeftFiled (env : Env) (left : ExtTreeMap String InputRow)
    (byHash : ExtTreeMap UInt64 (ExtTreeSet String)) : Prop :=
  ∀ k h, k ∈ (byHash[h]?).getD ∅ ↔ left[k]?.bind (InputRow.hash env) = some h

theorem mem_removeBucket (buckets : ExtTreeMap UInt64 (ExtTreeSet String)) (h h' : UInt64)
    (k k' : String) :
    k' ∈ ((removeBucket buckets h k)[h']?).getD ∅ ↔
      k' ∈ (buckets[h']?).getD ∅ ∧ ¬ (h' = h ∧ k' = k) := by
  unfold removeBucket
  rw [getElem?_alter]
  by_cases hh : h = h'
  · subst hh
    rw [if_pos (by simp)]
    cases hb : buckets[h]? with
    | none => simp
    | some b =>
      dsimp only
      by_cases he : (b.erase k).isEmpty = true
      · rw [if_pos he]
        have hempty : b.erase k = ∅ := ExtTreeSet.isEmpty_iff.mp he
        have hall : ∀ x, x ∉ b.erase k := fun x => by rw [hempty]; exact ExtTreeSet.not_mem_empty
        have := hall k'
        rw [ExtTreeSet.mem_erase] at this
        simp at this ⊢
        exact fun hk => Classical.byContradiction fun hne => this (Ne.symm hne) hk
      · rw [if_neg he]
        simp only [Option.getD_some, ExtTreeSet.mem_erase, true_and]
        simp [and_comm, @eq_comm _ k]
  · rw [if_neg (by simpa using hh)]
    simp [Ne.symm hh]

theorem mem_addBucket (buckets : ExtTreeMap UInt64 (ExtTreeSet String)) (h h' : UInt64)
    (k k' : String) :
    k' ∈ ((addBucket buckets h k)[h']?).getD ∅ ↔
      k' ∈ (buckets[h']?).getD ∅ ∨ (h' = h ∧ k' = k) := by
  unfold addBucket
  rw [getElem?_alter]
  by_cases hh : h = h'
  · subst hh
    rw [if_pos (by simp)]
    simp [ExtTreeSet.mem_insert, or_comm, @eq_comm _ k]
  · rw [if_neg (by simpa using hh)]
    simp [Ne.symm hh]

variable {env : Env}

/-- A row is filed once the old entry of its key is out. -/
theorem filed_of_cleared {left : ExtTreeMap String InputRow}
    {cleared : ExtTreeMap UInt64 (ExtTreeSet String)} {key : String} (new : Option InputRow)
    (h : ∀ k hv, k ∈ (cleared[hv]?).getD ∅ ↔
      k ≠ key ∧ left[k]?.bind (InputRow.hash env) = some hv) :
    LeftFiled env (put left key new) (match new.bind (InputRow.hash env) with
      | some hv => addBucket cleared hv key
      | none => cleared) := by
  intro k hv
  rw [getElem?_put]
  cases hnew : new.bind (InputRow.hash env) with
  | none =>
    dsimp only
    rw [h]
    by_cases hk : key = k
    · subst hk
      simp [hnew]
    · simp [hk, Ne.symm hk]
  | some hv' =>
    dsimp only
    rw [mem_addBucket, h]
    by_cases hk : key = k
    · subst hk
      simp [hnew, eq_comm]
    · simp [hk, Ne.symm hk]

/-- Refreshing a left row files it anew. -/
theorem refreshLeft_filed {delta : ZSet} {field : Path} {store : Store}
    {acc : ExtTreeMap String InputRow × ExtTreeMap UInt64 (ExtTreeSet String)} (key : String)
    (h : LeftFiled env acc.1 acc.2) :
    LeftFiled env (refreshLeft env delta field store acc key).1
      (refreshLeft env delta field store acc key).2 := by
  unfold refreshLeft
  dsimp only
  rw [alter_const]
  refine filed_of_cleared _ fun k hv => ?_
  cases hold : acc.1[key]?.bind (InputRow.hash env) with
  | none =>
    dsimp only
    rw [h k hv]
    refine ⟨fun hk => ⟨?_, hk⟩, fun hk => hk.2⟩
    rintro rfl
    rw [hold] at hk
    cases hk
  | some old =>
    dsimp only
    rw [mem_removeBucket, h k hv]
    constructor
    · rintro ⟨hk, hnot⟩
      refine ⟨?_, hk⟩
      rintro rfl
      rw [hold] at hk
      exact hnot ⟨(Option.some.inj hk).symm, rfl⟩
    · rintro ⟨hne, hk⟩
      exact ⟨hk, fun hh => hne hh.2⟩

theorem foldl_refreshLeft (env : Env) (delta : ZSet) (field : Path) (store : Store)
    (l : List String) (acc : ExtTreeMap String InputRow × ExtTreeMap UInt64 (ExtTreeSet String))
    (h : LeftFiled env acc.1 acc.2) :
    (l.foldl (refreshLeft env delta field store) acc).1 =
        l.foldl (fun m k => put m k (refreshed m[k]? delta field store k)) acc.1 ∧
      LeftFiled env (l.foldl (refreshLeft env delta field store) acc).1
        (l.foldl (refreshLeft env delta field store) acc).2 := by
  induction l generalizing acc with
  | nil => exact ⟨rfl, h⟩
  | cons k l ih =>
    obtain ⟨h1, h2⟩ := ih _ (refreshLeft_filed k h)
    refine ⟨h1.trans ?_, h2⟩
    rw [List.foldl_cons]
    congr 1
    exact alter_const _ _ _

/-! ## Right rows -/

/-- How many right rows have a value. -/
def rightCount (right : ExtTreeMap String InputRow) (v : WitnessValue) : Int :=
  tally (· + ·) 0 (fun _ row => if row.value = some v then 1 else 0) right

theorem rightCount_put (right : ExtTreeMap String InputRow) (v : WitnessValue) (k : String)
    (new : Option InputRow) :
    rightCount (put right k new) v = rightCount right v
      - (if right[k]?.bind InputRow.value = some v then 1 else 0)
      + if new.bind InputRow.value = some v then 1 else 0 := by
  have hpart : ∀ o : Option InputRow,
      (o.map fun row => if row.value = some v then (1 : Int) else 0).getD 0 =
        if o.bind InputRow.value = some v then 1 else 0 := by
    intro o
    cases o <;> rfl
  unfold rightCount
  have hput := tally_put (M := Int) (· + ·) 0
    (fun _ row => if row.value = some v then 1 else 0) right k new
  have hsplit := tally_split (M := Int) (· + ·) 0
    (fun _ row => if row.value = some v then 1 else 0) right k
  rw [hpart] at hput hsplit
  rw [hput, hsplit]
  omega

theorem rightCount_pos {right : ExtTreeMap String InputRow} {v : WitnessValue} :
    0 < rightCount right v ↔
      ∃ (k : String) (row : InputRow), right[k]? = some row ∧ row.value = some v := by
  have hcount : ∀ l : List (String × InputRow),
      tallyList (· + ·) 0 (fun kr : String × InputRow =>
        if kr.2.value = some v then (1 : Int) else 0) l = l.countP fun kr => kr.2.value = some v := by
    intro l
    induction l with
    | nil => rfl
    | cons kr l ih =>
      rw [tallyList_cons, ih, List.countP_cons]
      by_cases hkr : kr.2.value = some v
      · simp [hkr, Int.add_comm]
      · simp [hkr]
  unfold rightCount tally
  rw [hcount, Int.natCast_pos, List.countP_pos_iff]
  constructor
  · rintro ⟨kr, hkr, hv⟩
    exact ⟨kr.1, kr.2, mem_toList_iff_getElem?_eq_some.mp hkr, of_decide_eq_true hv⟩
  · rintro ⟨k, row, hrow, hv⟩
    exact ⟨(k, row), mem_toList_iff_getElem?_eq_some.mpr hrow, decide_eq_true hv⟩

theorem rightCount_nonneg (right : ExtTreeMap String InputRow) (v : WitnessValue) :
    0 ≤ rightCount right v := by
  unfold rightCount tally
  generalize right.toList = l
  induction l with
  | nil => exact Int.le_refl 0
  | cons kr l ih =>
    rw [tallyList_cons]
    refine Int.add_nonneg ?_ ih
    dsimp only
    split <;> decide

theorem getElem?_bumpWitness (deltas : ExtTreeMap WitnessValue Int) (value : Option WitnessValue)
    (by_ : Int) (v : WitnessValue) :
    ((bumpWitness deltas value by_)[v]?).getD 0 =
      (deltas[v]?).getD 0 + if value = some v then by_ else 0 := by
  cases value with
  | none => simp [bumpWitness]
  | some w =>
    unfold bumpWitness
    dsimp only
    rw [getElem?_alter]
    by_cases hw : w = v
    · subst hw
      simp
    · rw [if_neg (by simpa using hw), if_neg (by simpa using hw), Int.add_zero]

/-- The net changes are those of the counts. -/
theorem foldl_refreshRight (delta : ZSet) (field : Path) (store : Store) (l : List String)
    (acc : ExtTreeMap String InputRow × ExtTreeMap WitnessValue Int) :
    (l.foldl (refreshRight delta field store) acc).1 =
        l.foldl (fun m k => put m k (refreshed m[k]? delta field store k)) acc.1 ∧
      ∀ v, ((l.foldl (refreshRight delta field store) acc).2[v]?).getD 0 =
        (acc.2[v]?).getD 0 + rightCount (l.foldl (refreshRight delta field store) acc).1 v
          - rightCount acc.1 v := by
  induction l generalizing acc with
  | nil =>
    refine ⟨rfl, fun v => ?_⟩
    rw [List.foldl_nil]
    omega
  | cons k l ih =>
    obtain ⟨h1, h2⟩ := ih (refreshRight delta field store acc k)
    have hrow : (refreshRight delta field store acc k).1 =
        put acc.1 k (refreshed acc.1[k]? delta field store k) := alter_const _ _ _
    refine ⟨h1.trans (by rw [List.foldl_cons, hrow]), fun v => ?_⟩
    rw [List.foldl_cons, h2 v, hrow, rightCount_put]
    unfold refreshRight
    dsimp only
    rw [getElem?_bumpWitness, getElem?_bumpWitness]
    split <;> split <;> omega

/-! ## Counted witnesses -/

/-- How many right rows are counted under a value. -/
def held (env : Env) (s : WitnessState) (v : WitnessValue) : Nat :=
  (((s.rightByHash[v.hash env]?).getD ∅)[v]?).getD 0

/-- Values are counted under their hashes, and only while there are rows. -/
def RightFiled (env : Env) (s : WitnessState) : Prop :=
  ∀ (h : UInt64) (bucket : ExtTreeMap WitnessValue Nat) (v : WitnessValue) (n : Nat),
    s.rightByHash[h]? = some bucket → bucket[v]? = some n → v.hash env = h ∧ 0 < n

/-- The rows counted under the values of a kind. -/
def totalOf (p : WitnessValue → Bool) (m : ExtTreeMap UInt64 (ExtTreeMap WitnessValue Nat)) : Nat :=
  tally (· + ·) 0 (fun _ bucket => tally (· + ·) 0 (fun v n => if p v then n else 0) bucket) m

/-- The summaries of the kinds are the totals of the kinds. -/
structure Summed (s : WitnessState) : Prop where
  kinds : ∀ k, s.rightKindCounts k = totalOf (fun v => v.kind == k) s.rightByHash
  nans : s.rightNanCount = totalOf WitnessValue.isNan s.rightByHash

/-- The bucket of a value, with the value's count changed. -/
def bumpBucket (env : Env) (s : WitnessState) (v : WitnessValue) (d : Int) :
    ExtTreeMap WitnessValue Nat :=
  put ((s.rightByHash[v.hash env]?).getD ∅) v
    (if addCount (s.held env v) d = 0 then none else some (addCount (s.held env v) d))

/-- The buckets after the net change of one value. -/
def bumpBuckets (env : Env) (s : WitnessState) (v : WitnessValue) (d : Int) :
    ExtTreeMap UInt64 (ExtTreeMap WitnessValue Nat) :=
  put s.rightByHash (v.hash env)
    (if (s.bumpBucket env v d).isEmpty then none else some (s.bumpBucket env v d))

/-- The net change of one value, without the case that there is none. -/
def bumped (env : Env) (s : WitnessState) (v : WitnessValue) (d : Int) : WitnessState :=
  { s with
    rightKindCounts := Function.update s.rightKindCounts v.kind
      (addCount (s.rightKindCounts v.kind) d)
    rightNanCount := if v.isNan then addCount s.rightNanCount d else s.rightNanCount
    rightByHash := s.bumpBuckets env v d }

theorem applyWitnessDelta_of_ne (s : WitnessState) (changed : List UInt64)
    (v : WitnessValue) {d : Int} (hd : d ≠ 0) :
    applyWitnessDelta env (s, changed) (v, d) = (s.bumped env v d,
      if decide (0 < s.held env v) != decide (0 < addCount (s.held env v) d) then
        v.hash env :: changed else changed) := by
  unfold applyWitnessDelta
  dsimp only
  rw [if_neg hd]
  have hput : ∀ (b : ExtTreeMap WitnessValue Nat) (n : Nat),
      (if n = 0 then b.erase v else b.insert v n) = put b v (if n = 0 then none else some n) := by
    intro b n
    split <;> rfl
  have hputs : ∀ (m : ExtTreeMap UInt64 (ExtTreeMap WitnessValue Nat)) (h : UInt64)
      (b : ExtTreeMap WitnessValue Nat), (if b.isEmpty then m.erase h else m.insert h b) =
        put m h (if b.isEmpty then none else some b) := by
    intro m h b
    split <;> rfl
  rw [hput, hputs]
  rfl

theorem getD_bumpBuckets (env : Env) (s : WitnessState) (v : WitnessValue) (d : Int) (h : UInt64) :
    ((s.bumpBuckets env v d)[h]?).getD ∅ =
      if v.hash env = h then s.bumpBucket env v d else (s.rightByHash[h]?).getD ∅ := by
  unfold bumpBuckets
  by_cases hh : v.hash env = h
  · subst hh
    rw [getElem?_put_self, if_pos rfl]
    split
    next he => exact (isEmpty_iff.mp he).symm
    next => rfl
  · have hne : (put s.rightByHash (v.hash env) (if (s.bumpBucket env v d).isEmpty then none
        else some (s.bumpBucket env v d)))[h]? = s.rightByHash[h]? := by
      split <;> simp [put, getElem?_erase, getElem?_insert, hh]
    rw [hne, if_neg hh]

theorem held_bumped (env : Env) (s : WitnessState) (v : WitnessValue) (d : Int)
    (w : WitnessValue) : (s.bumped env v d).held env w =
      if v = w then addCount (s.held env v) d else s.held env w := by
  have hbucket : ∀ w, ((s.bumpBucket env v d)[w]?).getD 0 = if v = w then
      addCount (s.held env v) d else (((s.rightByHash[v.hash env]?).getD ∅)[w]?).getD 0 := by
    intro w
    unfold bumpBucket
    by_cases hw : v = w
    · subst hw
      rw [getElem?_put_self, if_pos rfl]
      split
      next h => rw [h, Option.getD_none]
      next => rfl
    · rw [if_neg hw]
      congr 1
      split <;> simp [put, getElem?_erase, getElem?_insert, hw]
  change ((((s.bumpBuckets env v d)[w.hash env]?).getD ∅)[w]?).getD 0 = _
  rw [getD_bumpBuckets]
  by_cases hh : v.hash env = w.hash env
  · rw [if_pos hh, hbucket]
    by_cases hw : v = w
    · rw [if_pos hw, if_pos hw]
    · rw [if_neg hw, if_neg hw, hh]
      rfl
  · have hw : v ≠ w := fun he => hh (by rw [he])
    rw [if_neg hh, if_neg hw]
    rfl

theorem bumped_filed (hf : s.RightFiled env) (v : WitnessValue)
    (d : Int) : (s.bumped env v d).RightFiled env := by
  intro h bucket w n hb hn
  change (s.bumpBuckets env v d)[h]? = some bucket at hb
  have hget : bucket = ((s.bumpBuckets env v d)[h]?).getD ∅ := by
    rw [hb]
    rfl
  rw [hget, getD_bumpBuckets] at hn
  have hold : (((s.rightByHash[h]?).getD ∅)[w]?) = some n → w.hash env = h ∧ 0 < n := by
    intro hw
    cases hm : s.rightByHash[h]? with
    | none =>
      rw [hm] at hw
      simp at hw
    | some b =>
      rw [hm] at hw
      exact hf h b w n hm hw
  split at hn
  next hh =>
    subst hh
    unfold bumpBucket at hn
    by_cases hw : v = w
    · subst hw
      rw [getElem?_put_self] at hn
      split at hn
      next => cases hn
      next hne =>
        cases hn
        exact ⟨rfl, Nat.pos_of_ne_zero hne⟩
    · refine hold ?_
      rw [← hn]
      split <;> simp [put, getElem?_erase, getElem?_insert, hw]
  next => exact hold hn

theorem totalOf_bumpBuckets (env : Env) (s : WitnessState) (v : WitnessValue) (d : Int)
    (p : WitnessValue → Bool) (hd : 0 ≤ (s.held env v : Int) + d) :
    totalOf p (s.bumpBuckets env v d) =
      if p v then addCount (totalOf p s.rightByHash) d else totalOf p s.rightByHash := by
  let inner (b : ExtTreeMap WitnessValue Nat) : Nat :=
    tally (· + ·) 0 (fun v n => if p v then n else 0) b
  have hpart : ∀ (b : ExtTreeMap WitnessValue Nat),
      ((if b.isEmpty then none else some b).map inner).getD 0 = inner b := by
    intro b
    split
    next he =>
      rw [isEmpty_iff.mp he]
      rfl
    next => rfl
  have hold : ∀ (o : Option (ExtTreeMap WitnessValue Nat)),
      (o.map inner).getD 0 = inner (o.getD ∅) := by
    intro o
    cases o <;> rfl
  have hall := tally_put (M := Nat) (· + ·) 0 (fun _ b => inner b) s.rightByHash (v.hash env)
    (if (s.bumpBucket env v d).isEmpty then none else some (s.bumpBucket env v d))
  have hall' := tally_split (M := Nat) (· + ·) 0 (fun _ b => inner b) s.rightByHash (v.hash env)
  have hbucket := tally_put (M := Nat) (· + ·) 0 (fun v n => if p v then n else 0)
    ((s.rightByHash[v.hash env]?).getD ∅) v
    (if addCount (s.held env v) d = 0 then none else some (addCount (s.held env v) d))
  have hbucket' := tally_split (M := Nat) (· + ·) 0 (fun v n => if p v then n else 0)
    ((s.rightByHash[v.hash env]?).getD ∅) v
  rw [hpart] at hall
  rw [hold] at hall'
  have hnew : ((if addCount (s.held env v) d = 0 then none
      else some (addCount (s.held env v) d)).map fun n => if p v then n else 0).getD 0 =
      if p v then addCount (s.held env v) d else 0 := by
    by_cases h : addCount (s.held env v) d = 0
    · rw [if_pos h, h]
      simp
    · rw [if_neg h]
      rfl
  have hcur : ((((s.rightByHash[v.hash env]?).getD ∅)[v]?).map
      fun n => if p v then n else 0).getD 0 = if p v then s.held env v else 0 := by
    unfold held
    cases (((s.rightByHash[v.hash env]?).getD ∅)[v]?) <;> simp
  rw [hnew] at hbucket
  rw [hcur] at hbucket'
  change totalOf p (s.bumpBuckets env v d) = _ at hall
  change totalOf p s.rightByHash = _ at hall'
  change inner (s.bumpBucket env v d) = _ at hbucket
  change inner ((s.rightByHash[v.hash env]?).getD ∅) = _ at hbucket'
  rw [hall, hall', hbucket, hbucket']
  unfold addCount
  split <;> omega

theorem bumped_summed (h : s.Summed) (v : WitnessValue) {d : Int}
    (hd : 0 ≤ (s.held env v : Int) + d) : (s.bumped env v d).Summed := by
  constructor
  · intro k
    change Function.update s.rightKindCounts v.kind _ k = totalOf _ (s.bumpBuckets env v d)
    rw [totalOf_bumpBuckets env s v d _ hd]
    by_cases hk : v.kind = k
    · subst hk
      rw [Function.update_self, if_pos (by simp), h.kinds]
    · rw [Function.update_of_ne (Ne.symm hk), if_neg (by simpa using hk), h.kinds]
  · change (if v.isNan then _ else _) = totalOf _ (s.bumpBuckets env v d)
    rw [totalOf_bumpBuckets env s v d _ hd, h.nans]

/-- What the net changes of values leave alone. -/
def side (s : WitnessState) := (s.left, s.right, s.leftByHash, s.output, s.contentUpdates)

/-- What the net changes of the values in a list do. -/
structure Applied (env : Env) (s : WitnessState) (changed : List UInt64)
    (l : List (WitnessValue × Int)) (s' : WitnessState) (changed' : List UInt64) : Prop where
  filed : s'.RightFiled env
  summed : s'.Summed
  rest : s'.side = s.side
  other : ∀ w, (∀ vd ∈ l, vd.1 ≠ w) → s'.held env w = s.held env w
  counted : ∀ vd ∈ l, (s'.held env vd.1 : Int) = s.held env vd.1 + vd.2
  kept : ∀ h ∈ changed, h ∈ changed'
  /-- The hash of a value that comes or goes is collected. -/
  noticed : ∀ w, (0 < s'.held env w ↔ 0 < s.held env w) ∨ w.hash env ∈ changed'

theorem applied_one (hf : s.RightFiled env) (hs : s.Summed)
    (changed : List UInt64) (v : WitnessValue) {d : Int} (hd : 0 ≤ (s.held env v : Int) + d) :
    Applied env s changed [(v, d)] (applyWitnessDelta env (s, changed) (v, d)).1
      (applyWitnessDelta env (s, changed) (v, d)).2 := by
  by_cases h0 : d = 0
  · subst h0
    have hsame : applyWitnessDelta env (s, changed) (v, 0) = (s, changed) := by
      simp [applyWitnessDelta]
    rw [hsame]
    exact {
      filed := hf
      summed := hs
      rest := rfl
      other := fun w _ => rfl
      counted := fun vd hvd => by
        obtain rfl := List.mem_singleton.mp hvd
        simp
      kept := fun h hh => hh
      noticed := fun w => .inl Iff.rfl }
  · rw [applyWitnessDelta_of_ne s changed v h0]
    have hcount : (addCount (s.held env v) d : Int) = s.held env v + d := Int.toNat_of_nonneg hd
    exact {
      filed := bumped_filed hf v d
      summed := bumped_summed hs v hd
      rest := rfl
      other := fun w hw => by
        rw [held_bumped, if_neg (hw (v, d) (List.mem_singleton.mpr rfl))]
      counted := fun vd hvd => by
        obtain rfl := List.mem_singleton.mp hvd
        rw [held_bumped, if_pos rfl, hcount]
      kept := fun h hh => by
        dsimp only
        split
        · exact List.mem_cons_of_mem _ hh
        · exact hh
      noticed := fun w => by
        dsimp only
        rw [held_bumped]
        by_cases hw : v = w
        · subst hw
          rw [if_pos rfl]
          by_cases hsame : 0 < addCount (s.held env v) d ↔ 0 < s.held env v
          · exact .inl hsame
          · refine .inr ?_
            have hne : (decide (0 < s.held env v) != decide (0 < addCount (s.held env v) d)) =
                true := by
              rw [bne_iff_ne, ne_eq, decide_eq_decide]
              exact fun h => hsame h.symm
            rw [if_pos hne]
            exact List.mem_cons_self
        · exact .inl (by rw [if_neg hw]) }

/-- The loop over the net changes. -/
theorem foldl_applyWitnessDelta {l : List (WitnessValue × Int)}
    (hl : (l.map Prod.fst).Nodup) (hf : s.RightFiled env) (hs : s.Summed)
    (changed : List UInt64) (hd : ∀ vd ∈ l, 0 ≤ (s.held env vd.1 : Int) + vd.2) :
    Applied env s changed l (l.foldl (applyWitnessDelta env) (s, changed)).1
      (l.foldl (applyWitnessDelta env) (s, changed)).2 := by
  induction l generalizing s changed with
  | nil =>
    exact {
      filed := hf
      summed := hs
      rest := rfl
      other := fun w _ => rfl
      counted := fun vd hvd => absurd hvd List.not_mem_nil
      kept := fun h hh => hh
      noticed := fun w => .inl Iff.rfl }
  | cons vd l ih =>
    obtain ⟨hfresh, hl⟩ := List.nodup_cons.mp hl
    have hone := applied_one hf hs changed vd.1 (hd vd List.mem_cons_self)
    obtain ⟨s₁, changed₁, h₁⟩ : ∃ s₁ changed₁,
        applyWitnessDelta env (s, changed) vd = (s₁, changed₁) := ⟨_, _, rfl⟩
    rw [show (vd.1, vd.2) = vd from rfl, h₁] at hone
    have hne : ∀ vd' ∈ l, vd.1 ≠ vd'.1 := fun vd' hvd' he =>
      hfresh (he ▸ List.mem_map_of_mem hvd')
    have hstay : ∀ vd' ∈ l, s₁.held env vd'.1 = s.held env vd'.1 := by
      intro vd' hvd'
      refine hone.other vd'.1 fun x hx => ?_
      rw [List.mem_singleton.mp hx]
      exact hne vd' hvd'
    have hrest := ih hl hone.filed hone.summed changed₁ fun vd' hvd' => by
      rw [hstay vd' hvd']
      exact hd vd' (List.mem_cons_of_mem _ hvd')
    rw [List.foldl_cons, h₁]
    exact {
      filed := hrest.filed
      summed := hrest.summed
      rest := hrest.rest.trans hone.rest
      other := fun w hw => by
        rw [hrest.other w (List.forall_mem_cons.mp hw).2]
        refine hone.other w fun x hx => ?_
        rw [List.mem_singleton.mp hx]
        exact hw vd List.mem_cons_self
      counted := fun x hx => by
        rcases List.mem_cons.mp hx with rfl | hx
        · rw [hrest.other x.1 fun y hy => (hne y hy).symm]
          exact hone.counted x (List.mem_singleton.mpr rfl)
        · rw [hrest.counted x hx, hstay x hx]
      kept := fun h hh => hrest.kept h (hone.kept h hh)
      noticed := fun w => by
        rcases hrest.noticed w with h2 | h2
        · rcases hone.noticed w with h1 | h1
          · exact .inl (h2.trans h1)
          · exact .inr (hrest.kept _ h1)
        · exact .inr h2 }

/-- A witness is a counted value with the same hash that compares equal. -/
theorem hasWitness_iff (h : s.RightFiled env)
    (v : WitnessValue) : s.hasWitness env (some v.toValue) = true ↔
      ∃ w, 0 < s.held env w ∧ w.hash env = v.hash env ∧
        compareValues (some v.toValue) (some w.toValue) = .eq := by
  unfold hasWitness
  dsimp only
  rw [Option.any_eq_true]
  constructor
  · rintro ⟨bucket, hb, hany⟩
    obtain ⟨w, hw, hcmp⟩ := List.any_eq_true.mp hany
    have hmem : w ∈ bucket := mem_keys.mp hw
    obtain ⟨n, hn⟩ := Option.isSome_iff_exists.mp (ExtTreeMap.isSome_getElem?_iff_mem.mpr hmem)
    obtain ⟨hhash, hpos⟩ := h _ bucket w n hb hn
    refine ⟨w, ?_, hhash, by simpa using hcmp⟩
    unfold held
    rw [hhash]
    rw [hb, Option.getD_some, hn, Option.getD_some]
    exact hpos
  · rintro ⟨w, hpos, hhash, hcmp⟩
    unfold held at hpos
    rw [hhash] at hpos
    cases hb : s.rightByHash[v.hash env]? with
    | none =>
      rw [hb] at hpos
      simp at hpos
    | some bucket =>
      rw [hb, Option.getD_some] at hpos
      have hmem : w ∈ bucket := by
        refine ExtTreeMap.isSome_getElem?_iff_mem.mp ?_
        cases hn : bucket[w]? with
        | none =>
          rw [hn] at hpos
          simp at hpos
        | some n => rfl
      exact ⟨bucket, hb, List.any_eq_true.mpr ⟨w, mem_keys.mpr hmem, by simpa using hcmp⟩⟩

/-! ## The output -/

theorem emit_eq (env : Env) (anti : Bool) (s : WitnessState) (acc : ExtTreeSet String × ZSet)
    (a : String) : emit env anti s acc a = match s.presentNow env anti a, decide (a ∈ acc.1) with
      | true, false => (acc.1.insert a, acc.2.insert a 1)
      | false, true => (acc.1.erase a, acc.2.insert a (-1))
      | _, _ => acc := by
  have hcontains : acc.1.contains a = decide (a ∈ acc.1) := by
    rw [Bool.eq_iff_iff, decide_eq_true_iff]
    exact ExtTreeSet.contains_iff_mem
  unfold emit
  rw [hcontains]
  cases s.presentNow env anti a <;> cases decide (a ∈ acc.1) <;> rfl

theorem mem_emit (env : Env) (anti : Bool) (s : WitnessState) (acc : ExtTreeSet String × ZSet)
    (a k : String) : k ∈ (emit env anti s acc a).1 ↔
      if k = a then s.presentNow env anti k = true else k ∈ acc.1 := by
  rw [emit_eq]
  by_cases hk : k = a
  · subst hk
    by_cases hin : k ∈ acc.1 <;> cases s.presentNow env anti k <;> simp [hin]
  · have hk' : ¬ a = k := fun he => hk he.symm
    by_cases hin : a ∈ acc.1 <;> cases s.presentNow env anti a <;>
      simp [hin, hk, hk', ExtTreeSet.mem_insert]

theorem weight_emit (env : Env) (anti : Bool) (s : WitnessState)
    (acc : ExtTreeSet String × ZSet) {a : String} (ha : acc.2[a]? = none) (k : String) :
    (emit env anti s acc a).2.weight k = acc.2.weight k + if k = a then
      (if s.presentNow env anti k then 1 else 0) - (if k ∈ acc.1 then 1 else 0) else 0 := by
  rw [emit_eq]
  unfold ZSet.weight
  by_cases hk : k = a
  · subst hk
    by_cases hin : k ∈ acc.1 <;> cases s.presentNow env anti k <;> simp [hin, ha]
  · have hk' : ¬ a = k := fun he => hk he.symm
    by_cases hin : a ∈ acc.1 <;> cases s.presentNow env anti a <;>
      simp [hin, hk, hk', getElem?_insert]

theorem getElem?_emit_of_ne (env : Env) (anti : Bool) (s : WitnessState)
    (acc : ExtTreeSet String × ZSet) {a k : String} (hk : k ≠ a) :
    (emit env anti s acc a).2[k]? = acc.2[k]? := by
  rw [emit_eq]
  have hk' : ¬ a = k := fun he => hk he.symm
  by_cases hin : a ∈ acc.1 <;> cases s.presentNow env anti a <;>
    simp [hin, hk', getElem?_insert]

/-- Each row of a list is emitted as its presence asks. -/
theorem foldl_emit {anti : Bool} {l : List String} (hl : l.Nodup)
    {acc : ExtTreeSet String × ZSet} (hacc : ∀ k ∈ l, acc.2[k]? = none) (k : String) :
    (k ∈ (l.foldl (emit env anti s) acc).1 ↔
        if k ∈ l then s.presentNow env anti k = true else k ∈ acc.1) ∧
      (l.foldl (emit env anti s) acc).2.weight k = acc.2.weight k + if k ∈ l then
        (if s.presentNow env anti k then 1 else 0) - (if k ∈ acc.1 then 1 else 0) else 0 := by
  induction l generalizing acc with
  | nil => simp
  | cons a l ih =>
    obtain ⟨ha, hl⟩ := List.nodup_cons.mp hl
    have hnone : ∀ k ∈ l, (emit env anti s acc a).2[k]? = none := by
      intro k hk
      have hne : k ≠ a := by
        rintro rfl
        exact ha hk
      rw [getElem?_emit_of_ne env anti s acc hne]
      exact hacc k (List.mem_cons_of_mem a hk)
    obtain ⟨h1, h2⟩ := ih hl hnone
    rw [List.foldl_cons, h1, h2, weight_emit env anti s acc (hacc a List.mem_cons_self)]
    simp only [mem_emit, List.mem_cons]
    by_cases hk : k = a
    · subst hk
      simp [ha]
    · simp [hk]

/-- A row is emitted as before when it stays and no witness of its value comes or goes. -/
theorem presentNow_congr {anti : Bool} {s s' : WitnessState} {k : String}
    (hs : s.RightFiled env) (hs' : s'.RightFiled env) (hleft : s'.left[k]? = s.left[k]?)
    (hheld : ∀ row v, s.left[k]? = some row → row.value = some v → ∀ w : WitnessValue,
      w.hash env = v.hash env → (0 < s'.held env w ↔ 0 < s.held env w)) :
    s'.presentNow env anti k = s.presentNow env anti k := by
  unfold presentNow
  rw [hleft]
  cases hrow : s.left[k]? with
  | none => rfl
  | some row =>
    rw [Option.any_some, Option.any_some]
    cases hv : row.value with
    | none => rfl
    | some v =>
      have hsame : s'.hasWitness env (some v.toValue) = s.hasWitness env (some v.toValue) := by
        rw [Bool.eq_iff_iff, hasWitness_iff hs', hasWitness_iff hs]
        refine exists_congr fun w => ⟨?_, ?_⟩
        · rintro ⟨hpos, hhash, hcmp⟩
          exact ⟨(hheld row v hrow hv w hhash).mp hpos, hhash, hcmp⟩
        · rintro ⟨hpos, hhash, hcmp⟩
          exact ⟨(hheld row v hrow hv w hhash).mpr hpos, hhash, hcmp⟩
      rw [Option.any_some, Option.any_some, hsame]

/-! ## One step -/

/-- The rows of an input after a step. -/
def rowsAfter (rows : ExtTreeMap String InputRow) (delta : ZSet) (noted : ExtTreeSet String)
    (field : Path) (store : Store) : ExtTreeMap String InputRow :=
  (touchedKeys rows delta noted).foldl (fun m k => put m k (refreshed m[k]? delta field store k))
    rows

/-- What one step of a join does. -/
structure Stepped (env : Env) (s : WitnessState) (delta0 delta1 : ZSet) (store : Store)
    (condition : JoinCondition) (anti : Bool) (s' : WitnessState) (out : ZSet) : Prop where
  left : s'.left = rowsAfter s.left delta0 s.contentUpdates condition.leftField store
  right : s'.right = rowsAfter s.right delta1 s.contentUpdates condition.rightField store
  leftFiled : LeftFiled env s'.left s'.leftByHash
  rightFiled : s'.RightFiled env
  summed : s'.Summed
  counted : ∀ v, (s'.held env v : Int) = rightCount s'.right v
  output : ∀ k, k ∈ s'.output ↔ s'.presentNow env anti k = true
  emitted : ∀ k, out.weight k = (if k ∈ s'.output then 1 else 0) - (if k ∈ s.output then 1 else 0)

theorem step_spec {delta0 delta1 : ZSet} {store : Store}
    {condition : JoinCondition} {anti : Bool} (hleft : LeftFiled env s.left s.leftByHash)
    (hright : s.RightFiled env) (hsummed : s.Summed)
    (hcounted : ∀ v, (s.held env v : Int) = rightCount s.right v)
    (houtput : ∀ k, k ∈ s.output ↔ s.presentNow env anti k = true) :
    Stepped env s delta0 delta1 store condition anti
      (s.step env delta0 delta1 store condition anti).1
      (s.step env delta0 delta1 store condition anti).2 := by
  obtain ⟨hrows0, hfiled⟩ := foldl_refreshLeft env delta0 condition.leftField store
    (touchedKeys s.left delta0 s.contentUpdates) (s.left, s.leftByHash) hleft
  obtain ⟨hrows1, hdeltas⟩ := foldl_refreshRight delta1 condition.rightField store
    (touchedKeys s.right delta1 s.contentUpdates) (s.right, ∅)
  unfold step
  dsimp only
  generalize (touchedKeys s.left delta0 s.contentUpdates).foldl
    (refreshLeft env delta0 condition.leftField store) (s.left, s.leftByHash) = l
    at hrows0 hfiled ⊢
  generalize (touchedKeys s.right delta1 s.contentUpdates).foldl
    (refreshRight delta1 condition.rightField store) (s.right, ∅) = r at hrows1 hdeltas ⊢
  obtain ⟨left, byHash⟩ := l
  obtain ⟨right, deltas⟩ := r
  dsimp only at hrows0 hfiled hrows1 hdeltas ⊢
  -- the state before the net changes are applied
  obtain ⟨s₁, hs₁⟩ : ∃ s₁ : WitnessState, { s with
      left := left, leftByHash := byHash, right := right, contentUpdates := ∅ } = s₁ := ⟨_, rfl⟩
  rw [hs₁]
  have hheld₁ : ∀ v, s₁.held env v = s.held env v := fun v => by rw [← hs₁]; rfl
  have hdelta : ∀ v, (deltas[v]?).getD 0 = rightCount right v - rightCount s.right v := by
    intro v
    rw [hdeltas v]
    simp
  have hkeys : (deltas.toList.map Prod.fst).Nodup := by
    rw [ExtTreeMap.map_fst_toList_eq_keys]
    exact nodup_keys deltas
  have hmem : ∀ vd ∈ deltas.toList, vd.2 = rightCount right vd.1 - rightCount s.right vd.1 := by
    intro vd hvd
    rw [← hdelta, mem_toList_iff_getElem?_eq_some.mp hvd, Option.getD_some]
  have happlied := @foldl_applyWitnessDelta s₁ env _ hkeys
    (by rw [← hs₁]; exact hright) (by rw [← hs₁]; exact ⟨hsummed.kinds, hsummed.nans⟩) []
    fun vd hvd => by
      rw [hheld₁, hcounted, hmem vd hvd]
      have := rightCount_nonneg right vd.1
      omega
  obtain ⟨s₂, changed, hs₂⟩ : ∃ s₂ changed,
      deltas.toList.foldl (applyWitnessDelta env) (s₁, []) = (s₂, changed) := ⟨_, _, rfl⟩
  rw [hs₂] at happlied ⊢
  dsimp only at happlied ⊢
  have hside : s₂.side = (left, right, byHash, s.output, ∅) := by
    rw [happlied.rest, ← hs₁]
    rfl
  have hleft₂ : s₂.left = left := congrArg (·.1) hside
  have hright₂ : s₂.right = right := congrArg (·.2.1) hside
  have hbyHash₂ : s₂.leftByHash = byHash := congrArg (·.2.2.1) hside
  have houtput₂ : s₂.output = s.output := congrArg (·.2.2.2.1) hside
  have hcounted₂ : ∀ v, (s₂.held env v : Int) = rightCount right v := by
    intro v
    cases hv : deltas[v]? with
    | none =>
      rw [happlied.other v, hheld₁, hcounted]
      · have := hdelta v
        rw [hv, Option.getD_none] at this
        omega
      · rintro vd hvd rfl
        rw [mem_toList_iff_getElem?_eq_some.mp hvd] at hv
        cases hv
    | some d =>
      have hvd : (v, d) ∈ deltas.toList := mem_toList_iff_getElem?_eq_some.mpr hv
      have hd : d = rightCount right v - rightCount s.right v := hmem (v, d) hvd
      rw [happlied.counted (v, d) hvd, hheld₁, hcounted, hd]
      dsimp only
      omega
  generalize haff : dedupFirst (touchedKeys s.left delta0 s.contentUpdates ++
    changed.flatMap fun h => ((s₂.leftByHash[h]?).map ExtTreeSet.toList).getD []) = affected
  have hnodup : affected.Nodup := haff ▸ nodup_dedupFirst _
  have hemit := @foldl_emit s₂ env anti _ hnodup (s₂.output, ∅) (by simp)
  generalize hs' : ({ s₂ with
    output := (affected.foldl (emit env anti s₂) (s₂.output, ∅)).1 } : WitnessState) = s'
  have hpresent : ∀ k, s'.presentNow env anti k = s₂.presentNow env anti k := fun k => by
    rw [← hs']
    rfl
  -- a row that is not looked at again is shown as before
  have hsame : ∀ k, k ∉ affected → (k ∈ s.output ↔ s₂.presentNow env anti k = true) := by
    intro k hk
    have hkeep : k ∉ touchedKeys s.left delta0 s.contentUpdates := fun hin =>
      hk (haff ▸ mem_dedupFirst.mpr (List.mem_append_left _ hin))
    have hrow : s₂.left[k]? = s.left[k]? := by
      rw [hleft₂, hrows0, getElem?_refreshed (nodup_touchedKeys _ _ _), if_neg hkeep]
    rw [houtput, presentNow_congr hright happlied.filed hrow]
    intro row v hv hvalue w hhash
    rcases happlied.noticed w with hiff | hchanged
    · rwa [hheld₁] at hiff
    · exfalso
      refine hk (haff ▸ mem_dedupFirst.mpr (List.mem_append_right _ ?_))
      refine List.mem_flatMap.mpr ⟨_, hchanged, ?_⟩
      have hin : k ∈ (s₂.leftByHash[w.hash env]?).getD ∅ := by
        rw [hbyHash₂, hfiled, ← hleft₂, hrow, hv, Option.bind_some, InputRow.hash, hvalue, hhash]
        rfl
      cases hb : s₂.leftByHash[w.hash env]? with
      | none =>
        rw [hb] at hin
        simp at hin
      | some b =>
        rw [hb] at hin
        exact ExtTreeSet.mem_toList.mpr hin
  have hout : ∀ k, k ∈ s'.output ↔ s'.presentNow env anti k = true := by
    intro k
    rw [hpresent, ← hs']
    refine (hemit k).1.trans ?_
    split
    next => rfl
    next hk =>
      rw [houtput₂]
      exact hsame k hk
  exact {
    left := by rw [← hs']; exact hleft₂.trans hrows0
    right := by rw [← hs']; exact hright₂.trans hrows1
    leftFiled := by
      rw [← hs']
      change LeftFiled env s₂.left s₂.leftByHash
      rw [hleft₂, hbyHash₂]
      exact hfiled
    rightFiled := by rw [← hs']; exact happlied.filed
    summed := by rw [← hs']; exact ⟨happlied.summed.kinds, happlied.summed.nans⟩
    counted := by
      rw [← hs']
      intro v
      change (s₂.held env v : Int) = rightCount s₂.right v
      rw [hright₂]
      exact hcounted₂ v
    output := hout
    emitted := fun k => by
      rw [(hemit k).2]
      have hzero : (∅ : ZSet).weight k = 0 := by simp [ZSet.weight]
      simp only [hout k, hpresent k, houtput₂, hzero, Int.zero_add]
      split
      next => rfl
      next hk => simp [hsame k hk] }

end WitnessState

end Sp00ky.Ssp
