/-
  Point checks of presence joins (`operator/witness.rs`, `Operator::evaluate_key`).

  A point check asks the summaries of the kinds instead of a hash bucket. Over the values that are
  counted it answers whether one of them compares equal (`hasPointWitness_iff`), whatever its hash:
  values of two kinds compare equal, so does a NaN with every number and `0` with `-0.0`. The
  snapshot asks for the same hash on top, and `evaluateKey_exact` says when that makes a difference.
-/
import Sp00ky.Ssp.WitnessRuns

namespace Sp00ky.Ssp

open Std Lib

/-! ## Numbers -/

namespace F64

theorem roundShift_le {m s : Nat} {b : Nat} (h : m < 2 ^ (b + s)) : roundShift m s ≤ 2 ^ b := by
  have hq : m / 2 ^ s < 2 ^ b := by
    rw [Nat.div_lt_iff_lt_mul (Nat.two_pow_pos s), ← Nat.pow_add]
    exact h
  unfold roundShift
  dsimp only
  split
  · omega
  · split
    · omega
    · split <;> omega

theorem roundShift_between (m s : Nat) :
    m / 2 ^ s ≤ roundShift m s ∧ roundShift m s ≤ m / 2 ^ s + 1 := by
  unfold roundShift
  dsimp only
  split_ifs <;> omega

/-- What the magnitude bits of a number lie between, by its leading bit. -/
theorem natMagnitude_between {m : Nat} (h : 0 < m) :
    (m.log2 + 1023) * 2 ^ 52 ≤ natMagnitude m ∧ natMagnitude m ≤ (m.log2 + 1024) * 2 ^ 52 := by
  have hlow : 2 ^ m.log2 ≤ m := Nat.log2_self_le h.ne'
  have hhigh : m < 2 ^ (m.log2 + 1) := Nat.lt_log2_self
  have hbounds : ∀ x, 2 ^ 52 ≤ x → x ≤ 2 ^ 53 →
      (m.log2 + 1023) * 2 ^ 52 ≤ (m.log2 + 1022) * 2 ^ 52 + x ∧
        (m.log2 + 1022) * 2 ^ 52 + x ≤ (m.log2 + 1024) * 2 ^ 52 := by
    intro x h1 h2
    omega
  unfold natMagnitude
  dsimp only
  split
  next hle =>
    refine hbounds _ ?_ ?_
    · calc 2 ^ 52 = 2 ^ m.log2 * 2 ^ (52 - m.log2) := by rw [← Nat.pow_add]; congr 1; omega
        _ ≤ m * 2 ^ (52 - m.log2) := Nat.mul_le_mul_right _ hlow
    · calc m * 2 ^ (52 - m.log2) ≤ 2 ^ (m.log2 + 1) * 2 ^ (52 - m.log2) :=
            Nat.mul_le_mul_right _ hhigh.le
        _ = 2 ^ 53 := by rw [← Nat.pow_add]; congr 1; omega
  next hgt =>
    refine hbounds _ ?_ ?_
    · refine Nat.le_trans ?_ (roundShift_between _ _).1
      rw [Nat.le_div_iff_mul_le (Nat.two_pow_pos _), ← Nat.pow_add]
      exact Nat.le_trans (Nat.pow_le_pow_right (by decide) (by omega)) hlow
    · refine roundShift_le ?_
      rw [show 53 + (m.log2 - 52) = m.log2 + 1 by omega]
      exact hhigh

theorem natMagnitude_bounds {m : Nat} (hpos : 0 < m) (hm : m < 2 ^ 64) :
    0 < natMagnitude m ∧ natMagnitude m < infMagnitude := by
  have hlog : m.log2 < 64 := (Nat.log2_lt (by omega)).mpr hm
  obtain ⟨hlow, hhigh⟩ := natMagnitude_between hpos
  unfold infMagnitude
  omega

/-- What an `i64` is. -/
def IsI64 (i : Int) : Prop := -2 ^ 63 ≤ i ∧ i < 2 ^ 63

theorem ofInt_magnitude {i : Int} (h : IsI64 i) (h0 : i ≠ 0) :
    0 < (ofInt i).magnitude ∧ (ofInt i).magnitude < infMagnitude := by
  obtain ⟨hl, hu⟩ := h
  have hpos : 0 < i.natAbs := by omega
  obtain ⟨h1, h2⟩ := natMagnitude_bounds hpos (by omega : i.natAbs < 2 ^ 64)
  unfold infMagnitude at h2 ⊢
  unfold ofInt magnitude
  rw [if_neg h0]
  split <;> simp only [BitVec.toNat_ofNat] <;> omega

/-- An integer is no NaN. -/
theorem ofInt_not_nan {i : Int} (h : IsI64 i) : (ofInt i).isNan = false := by
  by_cases h0 : i = 0
  · subst h0
    decide
  · have := ofInt_magnitude h h0
    unfold isNan
    simp
    omega

theorem numKey_eq_zero {f : F64} : f.numKey = 0 ↔ f.magnitude = 0 := by
  unfold numKey
  split <;> omega

theorem numKey_ofInt {i : Int} (h : IsI64 i) : (ofInt i).numKey = 0 ↔ i = 0 := by
  rw [numKey_eq_zero]
  constructor
  · intro hz
    by_contra h0
    have := ofInt_magnitude h h0
    omega
  · rintro rfl
    decide

/-- Numbers that compare equal have the same bits, or are the two zeros. -/
theorem eq_of_numKey {f g : F64} (h : f.numKey = g.numKey) : f = g ∨ f.numKey = 0 := by
  by_cases hz : f.numKey = 0
  · exact .inr hz
  · refine .inl ?_
    have hbits : f.bits.toNat = g.bits.toNat := by
      have hf := f.bits.isLt
      have hg := g.bits.isLt
      unfold numKey isNegative magnitude at h hz
      simp only [decide_eq_true_eq] at h hz
      split at h <;> split at h <;> simp_all <;> omega
    cases f
    cases g
    exact congrArg _ (BitVec.eq_of_toNat_eq hbits)

theorem eq_zero_of_numKey {f : F64} (h : f.numKey = 0) : f = zero ∨ f = negZero := by
  have hm := numKey_eq_zero.mp h
  have hf := f.bits.isLt
  unfold magnitude at hm
  have hcases : f.bits.toNat = 0 ∨ f.bits.toNat = 2 ^ 63 := by omega
  rcases hcases with hb | hb
  · refine .inl ?_
    cases f
    exact congrArg _ (BitVec.eq_of_toNat_eq hb)
  · refine .inr ?_
    cases f
    exact congrArg _ (BitVec.eq_of_toNat_eq hb)

end F64

/-! ## Values that compare equal -/

namespace WitnessValue

/-- The number in a value. -/
def num : WitnessValue → Option F64
  | .int i => some (F64.ofInt i)
  | .float f => some f
  | _ => none

/-- An integer is one of the source's. -/
def Fits : WitnessValue → Prop
  | .int i => F64.IsI64 i
  | _ => True

/-- Two values compare equal. -/
def Alike (v w : WitnessValue) : Prop :=
  compareValues (some v.toValue) (some w.toValue) = .eq

variable {v w : WitnessValue} {f g : F64}

theorem hash_num {env : Env} (h : v.num = some f) :
    v.hash env = env.hasher (.u64 f.bits) := by
  cases v <;> cases h <;> rfl

theorem alike_null : Alike .null w ↔ w.kind ∈ [0] := by
  cases w <;> simp +decide [Alike, toValue, compareValues, rank, kind]

theorem alike_bool {b : Bool} :
    Alike (.bool b) w ↔ w.kind ∈ [2, 3, 4, 5, 6] ∨ .bool b = w := by
  cases w <;> simp +decide [Alike, toValue, compareValues, rank, compareSameRank, kind]

theorem alike_str {t : String} :
    Alike (.str t) w ↔ w.kind ∈ [1, 2, 3, 5, 6] ∨ .str t = w := by
  cases w <;> simp +decide [Alike, toValue, compareValues, rank, compareSameRank, kind]

theorem alike_array : Alike .array w ↔ w.kind ∈ [1, 2, 3, 4, 5, 6] := by
  cases w <;> simp +decide [Alike, toValue, compareValues, rank, compareSameRank, kind]

theorem alike_object : Alike .object w ↔ w.kind ∈ [1, 2, 3, 4, 5, 6] := by
  cases w <;> simp +decide [Alike, toValue, compareValues, rank, compareSameRank, kind]

/-- A number compares equal to any other kind of value but null. -/
theorem alike_num_other (hv : v.num = some f) (hw : w.num = none) :
    Alike v w ↔ w.kind ∈ [1, 4, 5, 6] := by
  cases v <;> cases hv <;> cases w <;>
    simp_all +decide [num, Alike, toValue, compareValues, rank, compareSameRank, kind]

theorem alike_int {i j : Int} : Alike (.int i) (.int j) ↔ i = j := by
  simp [Alike, toValue, compareValues, rank, compareSameRank]

/-- A float compares with a number as a float. -/
theorem alike_float (hw : w.num = some g) :
    Alike (.float f) w ↔ f.isNan = true ∨ g.isNan = true ∨ f.numKey = g.numKey := by
  cases w <;> cases hw <;>
    simp [Alike, toValue, compareValues, rank, compareSameRank, F64.partialCmp] <;>
    split <;> simp_all <;> tauto

theorem alike_int_float {i : Int} :
    Alike (.int i) (.float g) ↔
      (F64.ofInt i).isNan = true ∨ g.isNan = true ∨ (F64.ofInt i).numKey = g.numKey := by
  simp [Alike, toValue, compareValues, rank, compareSameRank, F64.partialCmp]
  split <;> simp_all
  tauto

theorem alike_num (hv : v.num = some f) (hw : w.num = some g)
    (h : v.Alike w) : f.isNan = true ∨ g.isNan = true ∨ f.numKey = g.numKey := by
  cases v with
  | int i =>
    cases hv
    cases w with
    | int j =>
      cases hw
      obtain rfl := alike_int.mp h
      exact .inr (.inr rfl)
    | float g' =>
      cases hw
      exact alike_int_float.mp h
    | _ => cases hw
  | float f' =>
    cases hv
    exact (alike_float hw).mp h
  | _ => cases hv

theorem alike_nan (hv : v.num = some f) (hw : w.isNan = true) :
    v.Alike w := by
  cases w with
  | float g =>
    cases v with
    | int i => exact alike_int_float.mpr (.inr (.inl hw))
    | float f' => exact (alike_float rfl).mpr (.inr (.inl hw))
    | _ => cases hv
  | _ => cases hw

/-- A number that is zero compares equal with what a zero compares equal with. -/
theorem alike_zero {f z : F64} (hv : v.num = some f) (hvf : v.Fits)
    (hwf : w.Fits) (hf : f.numKey = 0) (hz : z.isNan = false) (hz' : z.numKey = 0)
    (h : Alike (.float z) w) : v.Alike w := by
  cases hw : w.num with
  | none => exact (alike_num_other hv hw).mpr ((alike_num_other rfl hw).mp h)
  | some g =>
    have hg : g.isNan = true ∨ g.numKey = 0 := by
      rcases (alike_float hw).mp h with hn | hn | hn
      · rw [hz] at hn
        cases hn
      · exact .inl hn
      · exact .inr (hn.symm.trans hz')
    cases v with
    | float f' =>
      cases hv
      rw [alike_float hw, hf]
      exact .inr (hg.imp_right Eq.symm)
    | int i =>
      cases hv
      cases w with
      | float g' =>
        cases hw
        rw [alike_int_float, hf]
        exact .inr (hg.imp_right Eq.symm)
      | int j =>
        cases hw
        rw [F64.ofInt_not_nan hwf, F64.numKey_ofInt hwf] at hg
        rw [alike_int, (F64.numKey_ofInt hvf).mp hf]
        simpa [eq_comm] using hg
      | _ => cases hw
    | _ => cases hv

end WitnessValue

/-! ## The summaries -/

namespace WitnessState

variable {env : Env} {s : WitnessState}

theorem totalOf_pos (hf : s.RightFiled env) (p : WitnessValue → Bool) :
    0 < totalOf p s.rightByHash ↔ ∃ w, 0 < s.held env w ∧ p w = true := by
  unfold totalOf tally
  rw [tallyList_pos]
  constructor
  · rintro ⟨⟨h, b⟩, hb, hpos⟩
    obtain ⟨⟨w, n⟩, hn, hw⟩ := tallyList_pos.mp hpos
    have hb' := ExtTreeMap.mem_toList_iff_getElem?_eq_some.mp hb
    have hn' := ExtTreeMap.mem_toList_iff_getElem?_eq_some.mp hn
    obtain ⟨hhash, hnpos⟩ := hf h b w n hb' hn'
    refine ⟨w, ?_, ?_⟩
    · unfold held
      rw [hhash]
      dsimp only at hb' hn'
      rw [hb', Option.getD_some, hn', Option.getD_some]
      exact hnpos
    · by_contra hp
      simp [hp] at hw
  · rintro ⟨w, hpos, hp⟩
    unfold held at hpos
    cases hb : s.rightByHash[w.hash env]? with
    | none =>
      rw [hb] at hpos
      simp at hpos
    | some b =>
      rw [hb, Option.getD_some] at hpos
      cases hn : b[w]? with
      | none =>
        rw [hn] at hpos
        simp at hpos
      | some n =>
        rw [hn, Option.getD_some] at hpos
        refine ⟨(w.hash env, b), ExtTreeMap.mem_toList_iff_getElem?_eq_some.mpr hb,
          tallyList_pos.mpr ⟨(w, n), ExtTreeMap.mem_toList_iff_getElem?_eq_some.mpr hn, ?_⟩⟩
        dsimp only
        rw [if_pos hp]
        exact hpos

variable (hf : s.RightFiled env) (hs : s.Summed)

include hf hs

/-- Some value of a list of kinds is counted. -/
theorem kinds_pos (l : List (Fin 7)) : 0 < (l.map s.rightKindCounts).sum ↔
    ∃ w, 0 < s.held env w ∧ w.kind ∈ l := by
  rw [List.sum_pos_iff_exists_pos_nat]
  constructor
  · rintro ⟨n, hn, hpos⟩
    obtain ⟨k, hk, rfl⟩ := List.mem_map.mp hn
    rw [hs.kinds, totalOf_pos hf] at hpos
    obtain ⟨w, hw, hkind⟩ := hpos
    obtain rfl : w.kind = k := by simpa using hkind
    exact ⟨w, hw, hk⟩
  · rintro ⟨w, hw, hk⟩
    refine ⟨_, List.mem_map_of_mem hk, ?_⟩
    rw [hs.kinds, totalOf_pos hf]
    exact ⟨w, hw, by simp⟩

theorem nans_pos : 0 < s.rightNanCount ↔ ∃ w, 0 < s.held env w ∧ w.isNan = true := by
  rw [hs.nans, totalOf_pos hf]

/-- The numeric arm answers whether a counted value compares equal. -/
theorem hasNumericWitness_iff (hfits : ∀ w, 0 < s.held env w → w.Fits) {v : WitnessValue}
    {f : F64} (hv : v.num = some f) (hvf : v.Fits) {isZero : Bool}
    (hzero : isZero = true ↔ f.isNan = false ∧ f.numKey = 0) :
    s.hasNumericWitness env v.toValue f.isNan isZero = true ↔
      ∃ w, 0 < s.held env w ∧ v.Alike w := by
  have hother := kinds_pos hf hs [1, 4, 5, 6]
  have hnum := kinds_pos hf hs [2, 3]
  have hwit : ∀ v, s.hasWitness env (some (WitnessValue.toValue v)) = true ↔
      ∃ w, 0 < s.held env w ∧ w.hash env = v.hash env ∧ v.Alike w := fun v => hasWitness_iff hf v
  have hmixed : s.rightKindCounts 2 + s.rightKindCounts 3 < s.scalarCount ↔
      0 < ([1, 4, 5, 6].map s.rightKindCounts).sum := by
    simp only [List.map_cons, List.map_nil, List.sum_cons, List.sum_nil, scalarCount]
    omega
  have hnumeric : 0 < s.rightKindCounts 2 + s.rightKindCounts 3 ↔
      0 < ([2, 3].map s.rightKindCounts).sum := by
    simp only [List.map_cons, List.map_nil, List.sum_cons, List.sum_nil]
    omega
  unfold hasNumericWitness
  simp only [Bool.or_eq_true, Bool.and_eq_true, decide_eq_true_eq, hmixed, hother, hnumeric, hnum,
    nans_pos hf hs, hwit v]
  rw [show (Sp00kyValue.float F64.zero) = (WitnessValue.float F64.zero).toValue from rfl,
    show (Sp00kyValue.float F64.negZero) = (WitnessValue.float F64.negZero).toValue from rfl,
    hwit, hwit]
  constructor
  · rintro ((((⟨w, hw, hk⟩ | ⟨w, hw, hn⟩) | ⟨hn, w, hw, hk⟩) | ⟨w, hw, -, ha⟩) | ⟨hz, hzero'⟩)
    · refine ⟨w, hw, (WitnessValue.alike_num_other hv ?_).mpr hk⟩
      cases w <;> first | rfl | simp [WitnessValue.kind] at hk
    · exact ⟨w, hw, WitnessValue.alike_nan hv hn⟩
    · refine ⟨w, hw, ?_⟩
      cases v with
      | float f' =>
        cases hv
        cases w with
        | int j | float g => exact (WitnessValue.alike_float rfl).mpr (.inl hn)
        | _ => simp [WitnessValue.kind] at hk
      | int i =>
        cases hv
        rw [F64.ofInt_not_nan hvf] at hn
        cases hn
      | _ => cases hv
    · exact ⟨w, hw, ha⟩
    · obtain ⟨-, hf0⟩ := hzero.mp hz
      rcases hzero' with ⟨w, hw, -, ha⟩ | ⟨w, hw, -, ha⟩
      · exact ⟨w, hw, WitnessValue.alike_zero hv hvf (hfits w hw) hf0 (by decide) (by decide) ha⟩
      · exact ⟨w, hw, WitnessValue.alike_zero hv hvf (hfits w hw) hf0 (by decide) (by decide) ha⟩
  · rintro ⟨w, hw, ha⟩
    cases hwn : w.num with
    | none => exact .inl (.inl (.inl (.inl ⟨w, hw, (WitnessValue.alike_num_other hv hwn).mp ha⟩)))
    | some g =>
      have hkind : w.kind ∈ ([2, 3] : List (Fin 7)) := by
        cases w <;> cases hwn <;> simp [WitnessValue.kind]
      by_cases hgn : g.isNan = true
      · refine .inl (.inl (.inl (.inr ⟨w, hw, ?_⟩)))
        cases w with
        | float g' =>
          cases hwn
          exact hgn
        | int j =>
          cases hwn
          rw [F64.ofInt_not_nan (hfits _ hw)] at hgn
          cases hgn
        | _ => cases hwn
      by_cases hfn : f.isNan = true
      · exact .inl (.inl (.inr ⟨hfn, w, hw, hkind⟩))
      have hkey : f.numKey = g.numKey :=
        ((WitnessValue.alike_num hv hwn ha).resolve_left hfn).resolve_left hgn
      rcases F64.eq_of_numKey hkey with rfl | hf0
      · exact .inl (.inr ⟨w, hw, by rw [WitnessValue.hash_num hwn, WitnessValue.hash_num hv], ha⟩)
      · refine .inr ⟨hzero.mpr ⟨by simpa using hfn, hf0⟩, ?_⟩
        rcases F64.eq_zero_of_numKey (hkey.symm.trans hf0) with rfl | rfl
        · exact .inl ⟨w, hw, WitnessValue.hash_num hwn, (WitnessValue.alike_float hwn).mpr (by simp)⟩
        · exact .inr ⟨w, hw, WitnessValue.hash_num hwn, (WitnessValue.alike_float hwn).mpr (by simp)⟩

/-- A point check answers whether a counted value compares equal. -/
theorem hasPointWitness_iff (hfits : ∀ w, 0 < s.held env w → w.Fits) {x : Sp00kyValue}
    (hx : (WitnessValue.ofValue x).Fits) : s.hasPointWitness env (some x) = true ↔
      ∃ w, 0 < s.held env w ∧ (WitnessValue.ofValue x).Alike w := by
  have hall := kinds_pos hf hs [1, 2, 3, 4, 5, 6]
  have hscalar : 0 < s.scalarCount ↔ 0 < ([1, 2, 3, 4, 5, 6].map s.rightKindCounts).sum := by
    simp only [List.map_cons, List.map_nil, List.sum_cons, List.sum_nil, scalarCount]
    omega
  have hwit : ∀ v, s.hasWitness env (some (WitnessValue.toValue v)) = true ↔
      ∃ w, 0 < s.held env w ∧ w.hash env = v.hash env ∧ v.Alike w := fun v => hasWitness_iff hf v
  cases x with
  | null =>
    have hnull := kinds_pos hf hs [0]
    simp only [List.map_cons, List.map_nil, List.sum_cons, List.sum_nil, Nat.add_zero] at hnull
    simp only [hasPointWitness, decide_eq_true_eq, hnull, WitnessValue.ofValue,
      WitnessValue.alike_null]
  | bool b =>
    have hother := kinds_pos hf hs [2, 3, 4, 5, 6]
    have hmixed : s.rightKindCounts 1 < s.scalarCount ↔
        0 < ([2, 3, 4, 5, 6].map s.rightKindCounts).sum := by
      simp only [List.map_cons, List.map_nil, List.sum_cons, List.sum_nil, scalarCount]
      omega
    have hself := hwit (.bool b)
    simp only [hasPointWitness, Bool.or_eq_true, decide_eq_true_eq, hmixed, hother,
      WitnessValue.ofValue]
    rw [show (Sp00kyValue.bool b) = (WitnessValue.bool b).toValue from rfl, hself]
    constructor
    · rintro (⟨w, hw, hk⟩ | ⟨w, hw, -, ha⟩)
      · exact ⟨w, hw, WitnessValue.alike_bool.mpr (.inl hk)⟩
      · exact ⟨w, hw, ha⟩
    · rintro ⟨w, hw, ha⟩
      rcases WitnessValue.alike_bool.mp ha with hk | rfl
      · exact .inl ⟨w, hw, hk⟩
      · exact .inr ⟨_, hw, rfl, ha⟩
  | str t =>
    have hother := kinds_pos hf hs [1, 2, 3, 5, 6]
    have hmixed : s.rightKindCounts 4 < s.scalarCount ↔
        0 < ([1, 2, 3, 5, 6].map s.rightKindCounts).sum := by
      simp only [List.map_cons, List.map_nil, List.sum_cons, List.sum_nil, scalarCount]
      omega
    have hself := hwit (.str t)
    simp only [hasPointWitness, Bool.or_eq_true, decide_eq_true_eq, hmixed, hother,
      WitnessValue.ofValue]
    rw [show (Sp00kyValue.str t) = (WitnessValue.str t).toValue from rfl, hself]
    constructor
    · rintro (⟨w, hw, hk⟩ | ⟨w, hw, -, ha⟩)
      · exact ⟨w, hw, WitnessValue.alike_str.mpr (.inl hk)⟩
      · exact ⟨w, hw, ha⟩
    · rintro ⟨w, hw, ha⟩
      rcases WitnessValue.alike_str.mp ha with hk | rfl
      · exact .inl ⟨w, hw, hk⟩
      · exact .inr ⟨_, hw, rfl, ha⟩
  | array items =>
    simp only [hasPointWitness, decide_eq_true_eq, hscalar, hall, WitnessValue.ofValue,
      WitnessValue.alike_array]
  | object fields =>
    simp only [hasPointWitness, decide_eq_true_eq, hscalar, hall, WitnessValue.ofValue,
      WitnessValue.alike_object]
  | int i =>
    have hi : (F64.ofInt i).isNan = false := F64.ofInt_not_nan hx
    have hiff := @hasNumericWitness_iff env s hf hs hfits (.int i) _ rfl hx (i == 0)
      (by rw [hi, F64.numKey_ofInt hx]; simp)
    rw [hi] at hiff
    exact hiff
  | float f =>
    exact @hasNumericWitness_iff env s hf hs hfits (.float f) _ rfl trivial
      (!f.isNan && f.numKey == 0) (by simp)

end WitnessState

/-! ## Point checks of a run -/

/-- The join operator of a state. -/
def joinOperator (anti : Bool) (on : JoinCondition) (state : WitnessState) : Operator :=
  if anti then .antiJoin on state else .semiJoin on state

/-- A live right row compares equal, whatever its hash. -/
def comparesEqual (right : ZSet) (on : JoinCondition) (store : Store) (l : ValueRef) : Bool :=
  right.toList.any fun rw =>
    decide (0 < rw.2) && (joinField store on.rightField rw.1).isSome
      && compareValues l (joinField store on.rightField rw.1) == .eq

theorem comparesEqual_iff {right : ZSet} {on : JoinCondition} {store : Store} {l : ValueRef} :
    comparesEqual right on store l = true ↔ ∃ k w y, right[k]? = some w ∧ 0 < w ∧
      joinField store on.rightField k = some y ∧ compareValues l (some y) = .eq := by
  unfold comparesEqual
  rw [List.any_eq_true]
  constructor
  · rintro ⟨⟨k, w⟩, hmem, hkw⟩
    simp only [Bool.and_eq_true, decide_eq_true_eq, beq_iff_eq] at hkw
    obtain ⟨⟨hw, hsome⟩, hcmp⟩ := hkw
    obtain ⟨y, hy⟩ := Option.isSome_iff_exists.mp hsome
    rw [hy] at hcmp
    exact ⟨k, w, y, ExtTreeMap.mem_toList_iff_getElem?_eq_some.mp hmem, hw, hy, hcmp⟩
  · rintro ⟨k, w, y, hget, hw, hy, hcmp⟩
    refine ⟨(k, w), ExtTreeMap.mem_toList_iff_getElem?_eq_some.mpr hget, ?_⟩
    simp [hw, hy, hcmp]

theorem comparesEqual_none (right : ZSet) (on : JoinCondition) (store : Store) :
    comparesEqual right on store none = false := by
  rw [Bool.eq_false_iff, ne_eq, comparesEqual_iff]
  rintro ⟨k, w, y, -, -, -, hcmp⟩
  cases y <;> exact absurd hcmp (by simp +decide [compareValues, rank])

/-- A row that is compared is there. -/
theorem row_of_comparesEqual {right : ZSet} {on : JoinCondition} {store : Store} {field : Path}
    {k : String} (h : comparesEqual right on store (joinField store field k) = true) :
    (store.getRowByKey k).isSome = true := by
  cases hk : store.getRowByKey k with
  | none =>
    rw [joinField, hk, resolveField_none, comparesEqual_none] at h
    cases h
  | some v => rfl

theorem comparesEqual_of_hasMatch {env : Env} {right : ZSet} {on : JoinCondition} {store : Store}
    {l : ValueRef} (h : hasMatch env right on store l = true) :
    comparesEqual right on store l = true := by
  obtain ⟨k, w, hget, hw, hm⟩ := hasMatch_iff.mp h
  unfold joinMatches at hm
  simp only [Bool.and_eq_true, beq_iff_eq] at hm
  obtain ⟨⟨⟨-, hsome⟩, -⟩, hcmp⟩ := hm
  obtain ⟨y, hy⟩ := Option.isSome_iff_exists.mp hsome
  rw [hy] at hcmp
  exact comparesEqual_iff.mpr ⟨k, w, y, hget, hw, hy, hcmp⟩

namespace JoinRun

variable {env : Env} {on : JoinCondition} {anti : Bool} {r : JoinRun}

/-- The inputs with the left weight of one key set. -/
def withLeft (r : JoinRun) (key : String) (l : Bool) : JoinRun :=
  { r with left := put r.left key (if l then some 1 else none) }

/-- The integers that are joined are the source's. -/
def Fits (on : JoinCondition) (r : JoinRun) : Prop :=
  ∀ k x, joinField r.store on.leftField k = some x ∨ joinField r.store on.rightField k = some x →
    (WitnessValue.ofValue x).Fits

theorem Kept.hasPointWitness_eq (h : Kept env on anti r) (hfits : r.Fits on) (key : String) :
    r.state.hasPointWitness env (joinField r.store on.leftField key) =
      comparesEqual r.right on r.store (joinField r.store on.leftField key) := by
  cases hx : joinField r.store on.leftField key with
  | none => exact (comparesEqual_none r.right on r.store).symm
  | some x =>
    have hheld : ∀ v, 0 < r.state.held env v → v.Fits := by
      intro v hv
      obtain ⟨k, w, y, -, -, hy, rfl⟩ := (h.held_pos v).mp hv
      exact hfits k y (.inr hy)
    rw [Bool.eq_iff_iff, WitnessState.hasPointWitness_iff h.rightFiled h.summed hheld
      (hfits key x (.inl hx)), comparesEqual_iff]
    constructor
    · rintro ⟨v, hv, ha⟩
      obtain ⟨k, w, y, hget, hw, hy, rfl⟩ := (h.held_pos v).mp hv
      rw [WitnessValue.Alike, WitnessValue.compareValues_ofValue] at ha
      exact ⟨k, w, y, hget, hw, hy, ha⟩
    · rintro ⟨k, w, y, hget, hw, hy, ha⟩
      refine ⟨_, (h.held_pos _).mpr ⟨k, w, y, hget, hw, hy, rfl⟩, ?_⟩
      rw [WitnessValue.Alike, WitnessValue.compareValues_ofValue]
      exact ha

/-- What a point check answers. -/
theorem Kept.evaluateKey_iff (h : Kept env on anti r) (hfits : r.Fits on)
    (hid : ¬ (on.leftField = Path.new "id" ∧ on.rightField = Path.new "id")) (key : String)
    (l : Bool) (evals : List Bool) (ctx : Option Sp00kyValue) :
    (joinOperator anti on r.state).evaluateKey env key (l :: evals) r.store ctx = true ↔
      l = true ∧ (r.store.getRowByKey key).isSome = true ∧
        anti ≠ comparesEqual r.right on r.store (joinField r.store on.leftField key) := by
  have hpoint := h.hasPointWitness_eq hfits key
  cases anti with
  | true =>
    change (_ && _ && !r.state.hasPointWitness env _) = true ↔ _
    rw [hpoint]
    simp [and_assoc]
  | false =>
    change (_ && if _ then _ else r.state.hasPointWitness env _) = true ↔ _
    rw [if_neg hid, hpoint]
    simpa using fun _ => row_of_comparesEqual

theorem mem_snapshot_withLeft (env : Env) (on : JoinCondition) (anti : Bool) (r : JoinRun)
    (key : String) (l : Bool) : key ∈ (r.withLeft key l).snapshot env on anti ↔
      l = true ∧ (r.store.getRowByKey key).isSome = true ∧
        anti ≠ hasMatch env r.right on r.store (joinField r.store on.leftField key) := by
  rw [← ExtTreeMap.isSome_getElem?_iff_mem, getElem?_snapshot]
  change (((put r.left key _)[key]?).bind _).isSome = true ↔ _
  rw [getElem?_put_self]
  cases l with
  | false => simp
  | true =>
    rw [if_pos rfl, Option.bind_some]
    by_cases hp : (r.store.getRowByKey key).isSome = true ∧
        anti ≠ hasMatch env r.right on r.store (joinField r.store on.leftField key)
    · rw [if_pos ⟨by decide, hp⟩]
      simpa using hp
    · rw [if_neg fun hc => hp hc.2]
      simpa using hp

end JoinRun

/-- A point check answers as the snapshot would that compares values without their hashes, and as
the snapshot itself unless values only compare equal under other hashes. -/
theorem evaluateKey_exact {env : Env} {on : JoinCondition} {anti : Bool} {store : Store}
    {r : JoinRun} (h : Run (JoinRun.step env on anti) JoinRun.Covers (JoinRun.new store) r)
    (hid : ¬ (on.leftField = Path.new "id" ∧ on.rightField = Path.new "id")) (hfits : r.Fits on)
    (key : String) (l : Bool) (evals : List Bool) (ctx : Option Sp00kyValue) :
    ((joinOperator anti on r.state).evaluateKey env key (l :: evals) r.store ctx = true ↔
      l = true ∧ (r.store.getRowByKey key).isSome = true ∧
        anti ≠ comparesEqual r.right on r.store (joinField r.store on.leftField key)) ∧
    (((joinOperator anti on r.state).evaluateKey env key (l :: evals) r.store ctx = true ↔
        key ∈ (r.withLeft key l).snapshot env on anti) ↔
      (l = true → comparesEqual r.right on r.store (joinField r.store on.leftField key) = true →
        hasMatch env r.right on r.store (joinField r.store on.leftField key) = true)) := by
  have hk := h.invariant (JoinRun.kept_new env on anti store) fun _ _ _ hk hc hs =>
    JoinRun.kept_step hk hc hs
  have hpoint := hk.evaluateKey_iff hfits hid key l evals ctx
  refine ⟨hpoint, ?_⟩
  rw [hpoint, JoinRun.mem_snapshot_withLeft]
  have hmatch : hasMatch env r.right on r.store (joinField r.store on.leftField key) = true →
      comparesEqual r.right on r.store (joinField r.store on.leftField key) = true :=
    comparesEqual_of_hasMatch
  have hrow : comparesEqual r.right on r.store (joinField r.store on.leftField key) = true →
      (r.store.getRowByKey key).isSome = true := row_of_comparesEqual
  generalize hasMatch env r.right on r.store (joinField r.store on.leftField key) = m at hmatch ⊢
  generalize comparesEqual r.right on r.store (joinField r.store on.leftField key) = c
    at hmatch hrow ⊢
  generalize (r.store.getRowByKey key).isSome = p at hrow ⊢
  revert hmatch hrow
  cases l <;> cases m <;> cases c <;> cases p <;> cases anti <;> decide

/-- Two fields of one row, of two kinds. -/
def JoinRun.onAB : JoinCondition := ⟨Path.new "a", Path.new "b"⟩

/-- A row on both sides. -/
def JoinRun.bothSides : JoinFeed :=
  ⟨oneRow [("a", .bool true), ("b", .str "x")], {("T:1", 1)}, {("T:1", 1)}, []⟩

theorem JoinRun.fits_bothSides {r : JoinRun} (h : r.store = bothSides.store) : r.Fits onAB := by
  intro k x hx
  rw [h] at hx
  by_cases hk : k = "T:1"
  · subst hk
    have ha : joinField bothSides.store onAB.leftField "T:1" = some (.bool true) := by rfl
    have hb : joinField bothSides.store onAB.rightField "T:1" = some (.str "x") := by rfl
    rw [ha, hb] at hx
    rcases hx with hx | hx <;> cases hx <;> trivial
  · have hnone : bothSides.store.getRowByKey k = none := getRowByKey_oneRow _ hk
    rw [joinField, joinField, hnone, resolveField_none, resolveField_none] at hx
    rcases hx with hx | hx <;> cases hx

/-- A value of another kind is a witness to the point check and none to the snapshot. -/
theorem evaluateKey_other_kind : ∃ r, Run (JoinRun.step Env.sample JoinRun.onAB false)
    JoinRun.Covers (JoinRun.new JoinRun.bothSides.store) r ∧
      (joinOperator false JoinRun.onAB r.state).evaluateKey Env.sample "T:1" [true] r.store none =
        true ∧ "T:1" ∉ (r.withLeft "T:1" true).snapshot Env.sample JoinRun.onAB false := by
  have hrun : (JoinRun.step Env.sample JoinRun.onAB false (JoinRun.new JoinRun.bothSides.store)
      JoinRun.bothSides).any (fun r => decide
        ((joinOperator false JoinRun.onAB r.state).evaluateKey Env.sample "T:1" [true] r.store none =
          true ∧ "T:1" ∉ (r.withLeft "T:1" true).snapshot Env.sample JoinRun.onAB false)) = true := by
    decide +kernel
  obtain ⟨r, h, hr⟩ := (Option.any_eq_true _ _).mp hrun
  exact ⟨r, Run.start.next (fun k hk => absurd rfl hk) h, of_decide_eq_true hr⟩

/-- The same row: the point check follows the comparison, and departs from the snapshot. -/
theorem evaluateKey_exact_other_kind : ∃ r : JoinRun,
    ((joinOperator false JoinRun.onAB r.state).evaluateKey Env.sample "T:1" [true] r.store none =
        true ↔ true = true ∧ (r.store.getRowByKey "T:1").isSome = true ∧
          false ≠ comparesEqual r.right JoinRun.onAB r.store
            (joinField r.store JoinRun.onAB.leftField "T:1")) := by
  obtain ⟨r, h⟩ : ∃ r, JoinRun.step Env.sample JoinRun.onAB false
      (JoinRun.new JoinRun.bothSides.store) JoinRun.bothSides = some r := ⟨_, rfl⟩
  refine ⟨r, (evaluateKey_exact (Run.start.next (fun k hk => absurd rfl hk) h) (by decide)
    (JoinRun.fits_bothSides ?_) "T:1" true [] none).1⟩
  obtain rfl := Option.some.inj h
  rfl

end Sp00ky.Ssp
