/-
  Whether sort keys are totally ordered (`Ord for Scalar`, `Ord for SortableValue`).

  An integer compares with a float by its conversion, which is monotone (`ofInt_mono`) and takes
  several integers beyond `2 ^ 53` to one float. Such a float equals two integers that differ, and
  that is the only thing that keeps a set of scalars from being ordered (`sort_keys_ordered_iff`).
-/
import Mathlib.Data.Set.Basic
import Sp00ky.Ssp.WitnessPoints

namespace Sp00ky.Ssp

/-! ## Orders on a set -/

/-- `cmp` is a total order on `s`, up to what it calls equal. -/
structure OrderedOn {α : Type} (cmp : α → α → Ordering) (s : Set α) : Prop where
  swap : ∀ a ∈ s, ∀ b ∈ s, cmp b a = (cmp a b).swap
  trans : ∀ a ∈ s, ∀ b ∈ s, ∀ c ∈ s, (cmp a b).isLE → (cmp b c).isLE → (cmp a c).isLE

namespace OrderedOn

variable {α : Type} {cmp : α → α → Ordering} {s : Set α}

theorem isGE (h : OrderedOn cmp s) {a b : α} (ha : a ∈ s) (hb : b ∈ s) :
    (cmp b a).isLE = (cmp a b).isGE := by
  rw [h.swap a ha b hb, Ordering.isLE_swap]

/-- The same values the other way round. -/
theorem reverse (h : OrderedOn cmp s) : OrderedOn (fun a b => (cmp a b).swap) s where
  swap a ha b hb := by rw [h.swap a ha b hb]
  trans a ha b hb c hc := by
    rw [Ordering.isLE_swap, Ordering.isLE_swap, Ordering.isLE_swap, ← h.isGE ha hb, ← h.isGE hb hc,
      ← h.isGE ha hc]
    exact fun hba hcb => h.trans c hc b hb a ha hcb hba

/-- Of three values in order, the first equals the last only if all are equal. -/
theorem eq_of_eq (h : OrderedOn cmp s) {a b c : α} (ha : a ∈ s) (hb : b ∈ s) (hc : c ∈ s)
    (hab : (cmp a b).isLE) (hbc : (cmp b c).isLE) (hac : cmp a c = .eq) :
    cmp a b = .eq ∧ cmp b c = .eq := by
  have hca : (cmp c a).isLE := by
    rw [h.swap a ha c hc, hac]
    rfl
  have hba := h.trans b hb c hc a ha hbc hca
  have hcb := h.trans c hc a ha b hb hca hab
  rw [h.isGE ha hb] at hba
  rw [h.isGE hb hc] at hcb
  exact ⟨Ordering.eq_eq_of_isLE_of_isGE hab hba, Ordering.eq_eq_of_isLE_of_isGE hbc hcb⟩

end OrderedOn

/-- Lists whose heads are of `s` and whose tails are of `t` are ordered as these are. -/
theorem orderedOn_lexCmp_cons {α : Type} {cmp : α → α → Ordering} {s : Set α} {t : Set (List α)}
    (hs : OrderedOn cmp s) (ht : OrderedOn (lexCmp cmp) t) :
    OrderedOn (lexCmp cmp) {l | ∃ a ∈ s, ∃ as ∈ t, l = a :: as} where
  swap := by
    rintro _ ⟨a, ha, as, has, rfl⟩ _ ⟨b, hb, bs, hbs, rfl⟩
    simp only [lexCmp, hs.swap a ha b hb]
    cases cmp a b with
    | eq => exact ht.swap as has bs hbs
    | lt | gt => rfl
  trans := by
    rintro _ ⟨a, ha, as, has, rfl⟩ _ ⟨b, hb, bs, hbs, rfl⟩ _ ⟨c, hc, cs, hcs, rfl⟩ hab hbc
    simp only [lexCmp] at hab hbc ⊢
    have hle : ∀ {x y : α} {o : Ordering},
        ((cmp x y).then o).isLE → (cmp x y).isLE := by
      intro x y o h
      cases hxy : cmp x y with
      | gt => rw [hxy] at h; cases h
      | lt | eq => rfl
    have hac := hs.trans a ha b hb c hc (hle hab) (hle hbc)
    cases heq : cmp a c with
    | gt => rw [heq] at hac; cases hac
    | lt => rfl
    | eq =>
      obtain ⟨h1, h2⟩ := hs.eq_of_eq ha hb hc (hle hab) (hle hbc) heq
      rw [h1] at hab
      rw [h2] at hbc
      exact ht.trans as has bs hbs cs hcs hab hbc

/-! ## The conversion of integers -/

namespace F64

theorem totalKey_injective {f g : F64} (h : f.totalKey = g.totalKey) : f = g := by
  obtain ⟨⟨⟨a, ha⟩⟩⟩ := f
  obtain ⟨⟨⟨b, hb⟩⟩⟩ := g
  unfold totalKey isNegative magnitude at h
  simp only [BitVec.toNat_ofFin, decide_eq_true_eq] at h
  have hab : a = b := by
    split at h <;> split at h <;> omega
  subst hab
  rfl

theorem roundShift_mono {m m' : Nat} (s : Nat) (h : m ≤ m') : roundShift m s ≤ roundShift m' s := by
  have hq : m / 2 ^ s ≤ m' / 2 ^ s := Nat.div_le_div_right h
  rcases Nat.lt_or_eq_of_le hq with hlt | heq
  · exact Nat.le_trans (roundShift_between m s).2 (Nat.le_trans hlt (roundShift_between m' s).1)
  · have hm := Nat.div_add_mod m (2 ^ s)
    have hm' := Nat.div_add_mod m' (2 ^ s)
    rw [heq] at hm
    unfold roundShift
    rw [heq]
    dsimp only
    split_ifs <;> omega

theorem natMagnitude_mono {m m' : Nat} (h : 0 < m) (hle : m ≤ m') :
    natMagnitude m ≤ natMagnitude m' := by
  have hlog : m.log2 ≤ m'.log2 := by
    rw [Nat.le_log2 (by omega)]
    exact Nat.le_trans (Nat.log2_self_le h.ne') hle
  rcases Nat.lt_or_eq_of_le hlog with hlt | heq
  · have h1 := (natMagnitude_between h).2
    have h2 := (natMagnitude_between (Nat.lt_of_lt_of_le h hle)).1
    omega
  · unfold natMagnitude
    dsimp only
    rw [heq]
    split
    · exact Nat.add_le_add_left (Nat.mul_le_mul_right _ hle) _
    · exact Nat.add_le_add_left (roundShift_mono _ hle) _

theorem totalKey_ofInt {i : Int} (h : IsI64 i) : (ofInt i).totalKey =
    if i = 0 then 0 else if 0 < i then (natMagnitude i.natAbs : Int)
      else -(natMagnitude i.natAbs : Int) - 1 := by
  by_cases h0 : i = 0
  · subst h0
    decide
  · obtain ⟨hl, hu⟩ := h
    have hb := (natMagnitude_bounds (by omega : 0 < i.natAbs) (by omega : i.natAbs < 2 ^ 64)).2
    unfold infMagnitude at hb
    rw [if_neg h0]
    unfold totalKey isNegative magnitude ofInt
    rw [if_neg h0]
    split
    next hpos =>
      simp only [BitVec.toNat_ofNat, decide_eq_true_eq]
      rw [if_neg (by omega), Nat.mod_eq_of_lt (by omega), Nat.mod_eq_of_lt (by omega)]
    next hneg =>
      simp only [BitVec.toNat_ofNat, decide_eq_true_eq]
      rw [if_pos (by omega), Nat.mod_eq_of_lt (a := 2 ^ 63 + natMagnitude i.natAbs) (by omega),
        Nat.add_mod_left, Nat.mod_eq_of_lt (by omega)]

/-- A larger integer is no smaller float. -/
theorem ofInt_mono {i j : Int} (hi : IsI64 i) (hj : IsI64 j) (h : i ≤ j) :
    (ofInt i).totalKey ≤ (ofInt j).totalKey := by
  rw [totalKey_ofInt hi, totalKey_ofInt hj]
  split <;> split <;> (try split) <;> (try split)
  all_goals first
    | omega
    | exact Int.ofNat_le.mpr (natMagnitude_mono (by omega) (by omega))
    | have := @natMagnitude_mono j.natAbs i.natAbs (by omega) (by omega)
      omega

end F64

/-! ## Scalars -/

namespace Scalar

/-- A scalar that a row's value can have. -/
def Read : Scalar → Prop
  | .int i => F64.IsI64 i
  | .top => False
  | _ => True

/-- The image of a number in the order of floats. -/
def floatKey : Scalar → Int
  | .int i => (F64.ofInt i).totalKey
  | .float f => f.totalKey
  | _ => 0

/-- A float that is the conversion of two integers. -/
def Tied (s : Set Scalar) : Prop :=
  ∃ i j f, i < j ∧ .int i ∈ s ∧ .int j ∈ s ∧ .float f ∈ s ∧ F64.ofInt i = f ∧ F64.ofInt j = f

theorem cmp_of_rank_lt {a b : Scalar} (h : a.rank < b.rank) : a.cmp b = .lt := by
  unfold cmp
  rw [Nat.compare_eq_lt.mpr h]

theorem cmp_swap (a b : Scalar) : b.cmp a = (a.cmp b).swap := by
  rcases Nat.lt_trichotomy a.rank b.rank with h | h | h
  · rw [cmp_of_rank_lt h]
    unfold cmp
    rw [Nat.compare_eq_gt.mpr h]
    rfl
  · cases a <;> cases b <;> first
      | (cases h; done)
      | (change compare _ _ = (compare _ _).swap; exact Std.OrientedCmp.eq_swap)
      | rfl
  · rw [cmp_of_rank_lt h]
    unfold cmp
    rw [Nat.compare_eq_gt.mpr h]
    rfl

theorem rank_le_of_isLE {a b : Scalar} (h : (a.cmp b).isLE) : a.rank ≤ b.rank := by
  refine Nat.le_of_not_lt fun hlt => ?_
  rw [cmp_swap b a, cmp_of_rank_lt hlt] at h
  cases h

theorem isLE_int {i j : Int} : (Scalar.cmp (.int i) (.int j)).isLE ↔ i ≤ j := Int.isLE_compare

theorem isLE_mixed {a b : Scalar} (ha : a.rank = 2) (hb : b.rank = 2)
    (hf : (∃ f, a = .float f) ∨ ∃ f, b = .float f) :
    (a.cmp b).isLE ↔ a.floatKey ≤ b.floatKey := by
  cases a <;> cases ha <;> cases b <;> cases hb
  next => simp at hf
  all_goals exact Int.isLE_compare

/-- Numbers in order have images in order. -/
theorem floatKey_le {a b : Scalar} (ha : a.Read) (hb : b.Read) (hra : a.rank = 2) (hrb : b.rank = 2)
    (h : (a.cmp b).isLE) : a.floatKey ≤ b.floatKey := by
  cases a with
  | float f => exact (isLE_mixed hra hrb (.inl ⟨f, rfl⟩)).mp h
  | int i =>
    cases b with
    | float f => exact (isLE_mixed hra hrb (.inr ⟨f, rfl⟩)).mp h
    | int j => exact F64.ofInt_mono ha hb (isLE_int.mp h)
    | _ => cases hrb
  | _ => cases hra

/-- Scalars with no float of two integers are in a total order, and others are not. -/
theorem orderedOn_cmp_iff {s : Set Scalar} (hread : ∀ a ∈ s, a.Read) :
    OrderedOn cmp s ↔ ¬ Tied s := by
  constructor
  · rintro h ⟨i, j, f, hlt, hi, hj, hf, hif, hjf⟩
    have hji := h.trans _ hj _ hf _ hi
      ((isLE_mixed rfl rfl (.inr ⟨f, rfl⟩)).mpr (by rw [← hjf]; exact Int.le_refl _))
      ((isLE_mixed rfl rfl (.inl ⟨f, rfl⟩)).mpr (by rw [← hif]; exact Int.le_refl _))
    have := isLE_int.mp hji
    omega
  · intro hfree
    refine ⟨fun a _ b _ => cmp_swap a b, fun a ha b hb c hc hab hbc => ?_⟩
    have hrab := rank_le_of_isLE hab
    have hrbc := rank_le_of_isLE hbc
    rcases Nat.lt_or_eq_of_le (Nat.le_trans hrab hrbc) with hlt | hrac
    · rw [cmp_of_rank_lt hlt]
      rfl
    · have hsame : a.rank = b.rank := by omega
      by_cases h2 : a.rank = 2
      · have hb2 : b.rank = 2 := by omega
        have hc2 : c.rank = 2 := by omega
        have h1 := floatKey_le (hread a ha) (hread b hb) h2 hb2 hab
        have h3 := floatKey_le (hread b hb) (hread c hc) hb2 hc2 hbc
        by_cases hac : (∃ f, a = .float f) ∨ ∃ f, c = .float f
        · exact (isLE_mixed h2 hc2 hac).mpr (Int.le_trans h1 h3)
        · -- both ends are integers: a float between them would be the conversion of both
          obtain ⟨i, rfl⟩ : ∃ i, a = .int i := by
            cases a <;> cases h2 <;> simp_all
          obtain ⟨k, rfl⟩ : ∃ k, c = .int k := by
            cases c <;> cases hc2 <;> simp_all
          rw [isLE_int]
          cases b with
          | int j => exact Int.le_trans (isLE_int.mp hab) (isLE_int.mp hbc)
          | float f =>
            refine Int.not_lt.mp fun hlt => hfree ⟨k, i, f, hlt, hc, ha, hb, ?_⟩
            have hmono := F64.ofInt_mono (hread _ hc) (hread _ ha) hlt.le
            change (F64.ofInt i).totalKey ≤ f.totalKey at h1
            change f.totalKey ≤ (F64.ofInt k).totalKey at h3
            exact ⟨F64.totalKey_injective (by omega), F64.totalKey_injective (by omega)⟩
          | _ => cases hb2
      · cases a <;> cases b <;> first
          | (cases hsame; done)
          | (exact absurd rfl h2)
          | skip
        all_goals cases c <;> first
          | (cases hrac; done)
          | (change (compare _ _).isLE at hab hbc ⊢; exact Std.TransCmp.isLE_trans hab hbc)
          | rfl

end Scalar

/-! ## Sort keys -/

/-- The values of one position. -/
def sortables (s : Set Scalar) (descending : Bool) : Set SortableValue :=
  {v | v.descending = descending ∧ v.scalar ∈ s}

/-- The keys under an `ORDER BY` with these directions. -/
def sortKeys (s : Set Scalar) : List Bool → Set SortKey
  | [] => {[]}
  | d :: ds => {l | ∃ v ∈ sortables s d, ∃ vs ∈ sortKeys s ds, l = v :: vs}

theorem orderedOn_sortables {s : Set Scalar} (h : OrderedOn Scalar.cmp s) (d : Bool) :
    OrderedOn SortableValue.cmp (sortables s d) := by
  have horder : OrderedOn (fun a b : Scalar => if d then (a.cmp b).swap else a.cmp b) s := by
    cases d with
    | true => exact h.reverse
    | false => exact h
  constructor
  · rintro ⟨a, _⟩ ⟨rfl, ha⟩ ⟨b, _⟩ ⟨rfl, hb⟩
    exact horder.swap a ha b hb
  · rintro ⟨a, _⟩ ⟨rfl, ha⟩ ⟨b, _⟩ ⟨rfl, hb⟩ ⟨c, _⟩ ⟨rfl, hc⟩
    exact horder.trans a ha b hb c hc

theorem orderedOn_sortKeys {s : Set Scalar} (h : OrderedOn Scalar.cmp s) (ds : List Bool) :
    OrderedOn (lexCmp SortableValue.cmp) (sortKeys s ds) := by
  induction ds with
  | nil =>
    constructor
    · rintro _ rfl _ rfl
      rfl
    · rintro _ rfl _ rfl _ rfl _ _
      rfl
  | cons d ds ih => exact orderedOn_lexCmp_cons (orderedOn_sortables h d) ih

/-- Values of rows, their sort values in each direction and the sort keys of them are totally
ordered exactly when no float among them is the conversion of two of the integers. -/
theorem sort_keys_ordered_iff {s : Set Scalar} (hread : ∀ a ∈ s, a.Read) :
    (OrderedOn Scalar.cmp s ∧ (∀ d, OrderedOn SortableValue.cmp (sortables s d)) ∧
      ∀ ds, OrderedOn (lexCmp SortableValue.cmp) (sortKeys s ds)) ↔ ¬ Scalar.Tied s := by
  rw [← Scalar.orderedOn_cmp_iff hread]
  exact ⟨fun h => h.1, fun h => ⟨h, orderedOn_sortables h, orderedOn_sortKeys h⟩⟩

/-- The first float that two integers become. -/
def twoTo53 : F64 := F64.ofInt (2 ^ 53)

theorem sort_keys_ordered_iff_small :
    OrderedOn Scalar.cmp {.int 1, .float F64.zero, .str "a", .null, .bool true} := by
  have hread : ∀ a ∈ ({.int 1, .float F64.zero, .str "a", .null, .bool true} : Set Scalar),
      a.Read := by
    rintro _ (rfl | rfl | rfl | rfl | rfl)
    · exact ⟨by decide, by decide⟩
    all_goals trivial
  refine ((sort_keys_ordered_iff hread).mpr ?_).1
  rintro ⟨i, j, f, hlt, hi, hj, -⟩
  have hone : ∀ k, Scalar.int k ∈ ({.int 1, .float F64.zero, .str "a", .null, .bool true} :
      Set Scalar) → k = 1 := by
    rintro k (h | h | h | h | h) <;> cases h
    rfl
  rw [hone i hi, hone j hj] at hlt
  omega

/-- The two integers differ, and each equals the float. -/
theorem sort_keys_not_ordered : ¬ ∀ s : Set Scalar, (∀ a ∈ s, a.Read) → OrderedOn Scalar.cmp s := by
  intro hall
  have hread : ∀ a ∈ ({.int (2 ^ 53), .float twoTo53, .int (2 ^ 53 + 1)} : Set Scalar),
      a.Read := by
    rintro _ (rfl | rfl | rfl)
    · exact ⟨by decide, by decide⟩
    · trivial
    · exact ⟨by decide, by decide⟩
  have h := (hall _ hread).trans (.int (2 ^ 53 + 1)) (.inr (.inr rfl)) (.float twoTo53)
    (.inr (.inl rfl)) (.int (2 ^ 53)) (.inl rfl) (by decide) (by decide)
  revert h
  decide

end Sp00ky.Ssp
