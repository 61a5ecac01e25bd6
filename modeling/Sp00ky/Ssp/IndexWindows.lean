/-
  Windows read off an index (`operator/index_scan.rs`).

  The entries that share their leading values are one range of positions (`GroupAt`). A window's
  order runs over such groups field by field, forwards or backwards, and `nth` narrows the range to
  the group the wanted row is in: what it leaves out are as many rows as come before that group
  (`count_group`). So the row found has as many rows before it as was asked for (`nthLoop_spec`),
  and a read is the window of the sorted rows (`indexWindow_exact`).
-/
import Sp00ky.Lib.Rank
import Sp00ky.Ssp.IndexRuns

namespace Sp00ky.Ssp

open Std Lib

/-! ## Bounds -/

theorem not_lt_empty (k : String) : compare k "" ≠ .lt := by
  intro h
  change compareOfLessAndEq k "" = .lt at h
  unfold compareOfLessAndEq at h
  split at h
  next hlt => exact List.not_lt_nil k.toList hlt
  next => split at h <;> cases h

/-- What starts with some values lies between them and what follows all that start with them. -/
theorem take_eq_iff {xs pre : IndexKey} (hxs : ∀ s ∈ xs, Scalar.Exact s)
    (hpre : ∀ s ∈ pre, Scalar.Exact s) :
    xs.take pre.length = pre ↔ lexCmp Scalar.cmp xs pre ≠ .lt ∧
      lexCmp Scalar.cmp xs (pre ++ [.top]) = .lt := by
  induction pre generalizing xs with
  | nil =>
    cases xs with
    | nil => simp [lexCmp]
    | cons v vs =>
      have hv := hxs v List.mem_cons_self
      cases v <;> simp_all +decide [lexCmp, Scalar.cmp, Scalar.rank, Scalar.Exact]
  | cons p ps ih =>
    cases xs with
    | nil => simp [lexCmp]
    | cons v vs =>
      have hv := hxs v List.mem_cons_self
      have hp := hpre p List.mem_cons_self
      have hrest := ih (fun s hs => hxs s (List.mem_cons_of_mem v hs))
        fun s hs => hpre s (List.mem_cons_of_mem p hs)
      rw [List.length_cons, List.take_succ_cons, List.cons_append]
      simp only [lexCmp]
      cases hc : Scalar.cmp v p with
      | eq =>
        obtain rfl := scalar_lawful.eq v p hv hp hc
        simpa using hrest
      | lt | gt =>
        have hne : v ≠ p := fun he => by
          rw [he, scalar_lawful.refl p hp] at hc
          cases hc
        simp [hne]

/-- What two lists start with alike does not count. -/
theorem lexCmp_append_left {l : IndexKey} (hl : ∀ s ∈ l, Scalar.Exact s) (a b : IndexKey) :
    lexCmp Scalar.cmp (l ++ a) (l ++ b) = lexCmp Scalar.cmp a b := by
  induction l with
  | nil => rfl
  | cons s l ih =>
    have hs := scalar_lawful.refl s (hl s List.mem_cons_self)
    simp only [List.cons_append, lexCmp, hs]
    exact ih fun x hx => hl x (List.mem_cons_of_mem s hx)

/-! ## Groups of an index -/

namespace OrderedIndex

/-- A sorted index whose keys have `n` values, none of them a float. -/
structure Sorted (ix : OrderedIndex) (n : Nat) : Prop where
  increasing : Increasing indexCmp ix.entries
  keys : ∀ e ∈ ix.entries, e.1.length = n ∧ ∀ s ∈ e.1, Scalar.Exact s

/-- The entries that start with `lead` stand at the positions `[a, b)`. -/
structure GroupAt (ix : OrderedIndex) (lead : IndexKey) (a b : Nat) : Prop where
  le : a ≤ b
  fits : b ≤ ix.entries.length
  mem : ∀ (i : Nat) (e : IndexKey × String), ix.entries[i]? = some e →
    (a ≤ i ∧ i < b ↔ e.1.take lead.length = lead)

variable {ix : OrderedIndex} {n : Nat}

theorem Sorted.plain (h : ix.Sorted n) (e : IndexKey × String) (he : e ∈ ix.entries) :
    PlainKey e.1 := fun s hs => ((h.keys e he).2 s hs).plain

theorem indexCmp_lt_empty (e : IndexKey × String) (key : IndexKey) :
    indexCmp e (key, "") = .lt ↔ lexCmp Scalar.cmp e.1 key = .lt := by
  unfold indexCmp
  cases hc : lexCmp Scalar.cmp e.1 key with
  | eq => simpa using not_lt_empty e.2
  | lt => simp
  | gt => simp

/-- `prefix_range` finds the group of its values. -/
theorem Sorted.prefixRange (h : ix.Sorted n) {pre : IndexKey} (hpre : ∀ s ∈ pre, Scalar.Exact s) :
    ix.GroupAt pre (ix.prefixRange pre).1 (ix.prefixRange pre).2 := by
  have hlow : PlainKey pre := fun s hs => (hpre s hs).plain
  have hhigh : PlainKey (pre ++ [.top]) := by
    intro s hs
    rcases List.mem_append.mp hs with hs | hs
    · exact hlow s hs
    · rw [List.mem_singleton.mp hs]
      trivial
  have hlength : ∀ e, ix.rank e ≤ ix.entries.length := fun e =>
    (List.takeWhile_sublist _).length_le
  have hrange : ix.prefixRange pre =
      (ix.rank (pre, ""), max (ix.rank (pre ++ [.top], "")) (ix.rank (pre, ""))) := rfl
  rw [hrange]
  refine ⟨le_max_right _ _, max_le (hlength _) (hlength _), fun i e hi => ?_⟩
  have he := List.mem_of_getElem? hi
  have h1 : i < ix.rank (pre, "") ↔ lexCmp Scalar.cmp e.1 pre = .lt :=
    (lt_length_takeWhile_iff indexEntry_lawful h.plain h.increasing hlow hi).trans
      (indexCmp_lt_empty e pre)
  have h2 : i < ix.rank (pre ++ [.top], "") ↔ lexCmp Scalar.cmp e.1 (pre ++ [.top]) = .lt :=
    (lt_length_takeWhile_iff indexEntry_lawful h.plain h.increasing hhigh hi).trans
      (indexCmp_lt_empty e _)
  rw [take_eq_iff (h.keys e he).2 hpre, ← h2, ne_eq, ← h1]
  dsimp only
  omega

/-- Entries of one group compare as what follows the values they share. -/
theorem GroupAt.indexCmp_eq {lead : IndexKey} {a b : Nat} (h : ix.Sorted n)
    (hg : ix.GroupAt lead a b) {i j : Nat} {x y : IndexKey × String} (hx : ix.entries[i]? = some x)
    (hi : a ≤ i ∧ i < b) (hy : ix.entries[j]? = some y) (hj : a ≤ j ∧ j < b) :
    indexCmp x y = indexCmp (x.1.drop lead.length, x.2) (y.1.drop lead.length, y.2) := by
  have hlead : ∀ s ∈ lead, Scalar.Exact s := by
    intro s hs
    rw [← (hg.mem i x hx).mp hi] at hs
    exact (h.keys x (List.mem_of_getElem? hx)).2 s (List.mem_of_mem_take hs)
  unfold indexCmp
  dsimp only
  conv_lhs => rw [← List.take_append_drop lead.length x.1, ← List.take_append_drop lead.length y.1,
    (hg.mem i x hx).mp hi, (hg.mem j y hy).mp hj, lexCmp_append_left hlead]

theorem Sorted.lt_of_lt (h : ix.Sorted n) {i j : Nat} {x y : IndexKey × String}
    (hx : ix.entries[i]? = some x) (hy : ix.entries[j]? = some y) (hij : i < j) :
    indexCmp x y = .lt := by
  obtain ⟨hi, rfl⟩ := List.getElem?_eq_some_iff.mp hx
  obtain ⟨hj, rfl⟩ := List.getElem?_eq_some_iff.mp hy
  exact List.pairwise_iff_getElem.mp h.increasing i j hi hj hij

/-! ## The order of a window -/

end OrderedIndex

/-- The sort key that a window's directions give to values. -/
def directed (descending : List Bool) (values : IndexKey) : SortKey :=
  List.zipWith (fun v d => ⟨v, d⟩) values descending

/-- An index entry as the entry of a window over the values from number `m` on. -/
def windowEntry (m : Nat) (descending : List Bool) (e : IndexKey × String) : Entry :=
  (directed descending (e.1.drop m), e.2)

/-- `x` comes before `y` in the window's order. -/
def before (m : Nat) (descending : List Bool) (x y : IndexKey × String) : Bool :=
  Entry.cmp (windowEntry m descending x) (windowEntry m descending y) == .lt

/-- The first field decides, and with equal values the fields after it. -/
theorem before_cons {m : Nat} {d : Bool} {ds : List Bool} {x y : IndexKey × String} {v w : Scalar}
    (hx : x.1[m]? = some v) (hy : y.1[m]? = some w) :
    before m (d :: ds) x y = match if d then (v.cmp w).swap else v.cmp w with
      | .eq => before (m + 1) ds x y
      | o => o == .lt := by
  obtain ⟨hlx, rfl⟩ := List.getElem?_eq_some_iff.mp hx
  obtain ⟨hly, rfl⟩ := List.getElem?_eq_some_iff.mp hy
  unfold before windowEntry directed
  rw [List.drop_eq_getElem_cons hlx, List.drop_eq_getElem_cons hly, List.zipWith_cons_cons,
    List.zipWith_cons_cons]
  unfold Entry.cmp
  dsimp only
  simp only [lexCmp, SortableValue.cmp]
  cases hc : (if d = true then (x.1[m].cmp y.1[m]).swap else x.1[m].cmp y.1[m]) <;> rfl

/-! ## Narrowing to a group -/

namespace OrderedIndex

variable {ix : OrderedIndex} {n : Nat}

theorem Sorted.getElem_key (h : ix.Sorted n) {i m : Nat} {x : IndexKey × String}
    (hx : ix.entries[i]? = some x) (hm : m < n) :
    ∃ v, x.1[m]? = some v ∧ v.Exact ∧ x.1.drop m = v :: x.1.drop (m + 1) := by
  obtain ⟨hlen, hexact⟩ := h.keys x (List.mem_of_getElem? hx)
  have hlt : m < x.1.length := by omega
  exact ⟨x.1[m], List.getElem?_eq_getElem hlt, hexact _ (List.getElem_mem hlt),
    List.drop_eq_getElem_cons hlt⟩

/-- The group of an entry by one value more lies within its group. -/
theorem GroupAt.narrow {lead lead' : IndexKey} {a b lo hi : Nat} (hg : ix.GroupAt lead a b)
    (hg' : ix.GroupAt lead' lo hi) (hlead : lead'.take lead.length = lead)
    (hle : lead.length ≤ lead'.length) (hne : lo < hi) : a ≤ lo ∧ hi ≤ b := by
  have hin : ∀ i, lo ≤ i → i < hi → a ≤ i ∧ i < b := by
    intro i hlo hhi
    obtain ⟨e, he⟩ : ∃ e, ix.entries[i]? = some e :=
      ⟨_, List.getElem?_eq_getElem (Nat.lt_of_lt_of_le hhi hg'.fits)⟩
    refine (hg.mem i e he).mpr ?_
    calc e.1.take lead.length = (e.1.take lead'.length).take lead.length := by
          rw [List.take_take, Nat.min_eq_left hle]
      _ = lead'.take lead.length := by rw [(hg'.mem i e he).mp ⟨hlo, hhi⟩]
      _ = lead := hlead
  have h1 := hin lo (Nat.le_refl lo) hne
  have h2 := hin (hi - 1) (by omega) (by omega)
  omega

/-- What stands before the group of an entry has a smaller value there, what stands behind it a
larger one. -/
theorem GroupAt.field_lt {lead lead' : IndexKey} {a b lo hi : Nat} (h : ix.Sorted n)
    (hg : ix.GroupAt lead a b) (hg' : ix.GroupAt lead' lo hi) (hm : lead.length < n)
    (hlen : lead'.length = lead.length + 1) {i j : Nat} {x y : IndexKey × String}
    (hx : ix.entries[i]? = some x) (hxi : a ≤ i ∧ i < b) (hy : ix.entries[j]? = some y)
    (hyj : a ≤ j ∧ j < b) (hij : i < j) (hapart : ¬ (lo ≤ i ∧ i < hi) ∧ lo ≤ j ∧ j < hi ∨
      (lo ≤ i ∧ i < hi) ∧ ¬ (lo ≤ j ∧ j < hi)) {v w : Scalar} (hv : x.1[lead.length]? = some v)
    (hw : y.1[lead.length]? = some w) : v.cmp w = .lt := by
  obtain ⟨v', hv', hvx, hdx⟩ := h.getElem_key hx hm
  obtain ⟨w', hw', hwx, hdy⟩ := h.getElem_key hy hm
  obtain rfl : v' = v := Option.some.inj (hv'.symm.trans hv)
  obtain rfl : w' = w := Option.some.inj (hw'.symm.trans hw)
  have hlt := h.lt_of_lt hx hy hij
  rw [hg.indexCmp_eq h hx hxi hy hyj, hdx, hdy] at hlt
  unfold indexCmp at hlt
  simp only [lexCmp] at hlt
  cases hc : v'.cmp w' with
  | lt => rfl
  | gt => simp [hc] at hlt
  | eq =>
    -- equal values would put both in one group
    exfalso
    obtain rfl := scalar_lawful.eq v' w' hvx hwx hc
    have htake : x.1.take lead'.length = y.1.take lead'.length := by
      rw [hlen, List.take_add_one, List.take_add_one, (hg.mem i x hx).mp hxi,
        (hg.mem j y hy).mp hyj, hv, hw]
    have hiff : (lo ≤ i ∧ i < hi) ↔ (lo ≤ j ∧ j < hi) := by
      rw [hg'.mem i x hx, hg'.mem j y hy, htake]
    rcases hapart with ⟨hn, hp⟩ | ⟨hp, hn⟩
    · exact hn (hiff.mpr hp)
    · exact hn (hiff.mp hp)

/-- Narrowing to a group leaves out the rows that come before it in the field's direction. -/
theorem count_group {lead lead' : IndexKey} {a b lo hi q : Nat} (h : ix.Sorted n)
    (hg : ix.GroupAt lead a b) (hg' : ix.GroupAt lead' lo hi) (hm : lead.length < n)
    (hlen : lead'.length = lead.length + 1) (halo : a ≤ lo) (hhib : hi ≤ b)
    {x : IndexKey × String} (hx : ix.entries[q]? = some x) (hq : lo ≤ q ∧ q < hi) (d : Bool)
    (ds : List Bool) :
    (stretch ix.entries a b).countP (fun y => before lead.length (d :: ds) y x) =
      (if d then b - hi else lo - a) +
        (stretch ix.entries lo hi).countP fun y => before lead'.length ds y x := by
  obtain ⟨w, hw, hwx, -⟩ := h.getElem_key hx hm
  have hqab : a ≤ q ∧ q < b := by omega
  have hfirst : ∀ y ∈ stretch ix.entries a lo, before lead.length (d :: ds) y x = !d := by
    intro y hy
    obtain ⟨i, ha, hlo, hi'⟩ := mem_stretch.mp hy
    obtain ⟨v, hv, -, -⟩ := h.getElem_key hi' hm
    have hlt := hg.field_lt h hg' hm hlen hi' (by omega) hx hqab (by omega) (.inl (by omega)) hv hw
    rw [before_cons hv hw, hlt]
    cases d <;> rfl
  have hlast : ∀ y ∈ stretch ix.entries hi b, before lead.length (d :: ds) y x = d := by
    intro y hy
    obtain ⟨i, hhi, hb, hi'⟩ := mem_stretch.mp hy
    obtain ⟨v, hv, hvx, -⟩ := h.getElem_key hi' hm
    have hlt := hg.field_lt h hg' hm hlen hx hqab hi' (by omega) (by omega) (.inr (by omega)) hw hv
    have hgt : v.cmp w = .gt := by
      rw [scalar_lawful.swap w v hwx hvx, hlt]
      rfl
    rw [before_cons hv hw, hgt]
    cases d <;> rfl
  have hmid : ∀ y ∈ stretch ix.entries lo hi,
      before lead.length (d :: ds) y x = before lead'.length ds y x := by
    intro y hy
    obtain ⟨i, hlo, hhi, hi'⟩ := mem_stretch.mp hy
    obtain ⟨v, hv, -, -⟩ := h.getElem_key hi' hm
    have htake : y.1.take lead'.length = x.1.take lead'.length := by
      rw [(hg'.mem i y hi').mp ⟨hlo, hhi⟩, (hg'.mem q x hx).mp hq]
    obtain rfl : v = w := by
      have hget := congrArg (fun l => l[lead.length]?) htake
      simp only [List.getElem?_take, hlen, Nat.lt_succ_self, if_true] at hget
      exact Option.some.inj (hv.symm.trans (hget.trans hw))
    rw [before_cons hv hw, scalar_lawful.refl v hwx, hlen]
    cases d <;> rfl
  have hlo : lo ≤ ix.entries.length := by have := hg'.fits; omega
  have hcount : ∀ (l : List (IndexKey × String)) (c : Bool),
      (∀ y ∈ l, before lead.length (d :: ds) y x = c) →
        l.countP (fun y => before lead.length (d :: ds) y x) = if c then l.length else 0 := by
    intro l c hc
    cases c with
    | true => rw [if_pos rfl, List.countP_eq_length]; exact hc
    | false =>
      rw [if_neg (by simp), List.countP_eq_zero]
      intro y hy
      rw [hc y hy]
      simp
  rw [stretch_append ix.entries halo (by omega : lo ≤ b),
    stretch_append ix.entries (by omega : lo ≤ hi) hhib, List.countP_append, List.countP_append,
    hcount _ _ hfirst, hcount _ _ hlast, length_stretch _ hlo, length_stretch _ hg.fits,
    List.countP_congr fun y hy => by rw [hmid y hy]]
  cases d with
  | true => simp [Nat.add_comm]
  | false => simp

end OrderedIndex

namespace IndexWindow

open OrderedIndex

variable {ix : OrderedIndex} {n : Nat}

/-- In a group that shares all values the rows stand in the order of their keys. -/
theorem count_tie {lead : IndexKey} {a b k : Nat} (h : ix.Sorted n) (hg : ix.GroupAt lead a b)
    (hn : lead.length = n) (hk : k < b - a) {x : IndexKey × String}
    (hx : ix.entries[a + k]? = some x) :
    (stretch ix.entries a b).countP (fun y => before lead.length [] y x) = k := by
  have hq : a ≤ a + k ∧ a + k < b := by omega
  have hkeys : ∀ (i : Nat) (y : IndexKey × String), ix.entries[i]? = some y → a ≤ i ∧ i < b →
      y.1.drop lead.length = [] := by
    intro i y hy _
    exact List.drop_eq_nil_of_le (by rw [(h.keys y (List.mem_of_getElem? hy)).1, hn])
  have hbefore : ∀ (i : Nat) (y : IndexKey × String), ix.entries[i]? = some y → a ≤ i ∧ i < b →
      before lead.length [] y x = (indexCmp y x == .lt) := by
    intro i y hy hi
    rw [hg.indexCmp_eq h hy hi hx hq, hkeys i y hy hi, hkeys _ x hx hq]
    unfold before windowEntry
    rw [hkeys i y hy hi, hkeys _ x hx hq]
    rfl
  have hfirst : ∀ y ∈ stretch ix.entries a (a + k), before lead.length [] y x = true := by
    intro y hy
    obtain ⟨i, ha, hlt, hi⟩ := mem_stretch.mp hy
    rw [hbefore i y hi (by omega), h.lt_of_lt hi hx hlt]
    rfl
  have hrest : ∀ y ∈ stretch ix.entries (a + k) b, ¬ before lead.length [] y x = true := by
    intro y hy
    obtain ⟨i, hge, hb, hi⟩ := mem_stretch.mp hy
    rw [hbefore i y hi (by omega)]
    have hy := h.plain y (List.mem_of_getElem? hi)
    rcases Nat.eq_or_lt_of_le hge with rfl | hlt
    · obtain rfl : y = x := Option.some.inj (hi.symm.trans hx)
      rw [indexEntry_lawful.refl y hy]
      simp
    · rw [indexEntry_lawful.swap x y (h.plain x (List.mem_of_getElem? hx)) hy,
        h.lt_of_lt hx hi hlt]
      simp
  have hfits := hg.fits
  rw [stretch_append ix.entries (Nat.le_add_right a k) (by omega : a + k ≤ b), List.countP_append,
    List.countP_eq_length.mpr hfirst, List.countP_eq_zero.mpr hrest,
    length_stretch _ (by omega : a + k ≤ ix.entries.length)]
  omega

/-- `nth` finds the row with as many rows before it as it is asked for. -/
theorem nthLoop_spec (h : ix.Sorted n) (prefixLen : Nat) (ds : List Bool) {lead : IndexKey}
    {field a b k : Nat} (hg : ix.GroupAt lead a b) (hfield : lead.length = prefixLen + field)
    (hn : lead.length + ds.length = n) (hk : k < b - a) :
    ∃ p x, nthLoop ix prefixLen ds field a b k = some p ∧ ix.entries[p]? = some x ∧
      (a ≤ p ∧ p < b) ∧ (true ∉ ds → p = a + k) ∧
        (stretch ix.entries a b).countP (fun y => before lead.length ds y x) = k := by
  induction ds generalizing lead field a b k with
  | nil =>
    obtain ⟨x, hx⟩ : ∃ x, ix.entries[a + k]? = some x :=
      ⟨_, List.getElem?_eq_getElem (by have := hg.fits; omega)⟩
    refine ⟨a + k, x, ?_, hx, by omega, fun _ => rfl, count_tie h hg (by simpa using hn) hk hx⟩
    unfold nthLoop
    rw [if_pos hk]
  | cons d ds ih =>
    have hm : lead.length < n := by
      rw [← hn, List.length_cons]
      omega
    -- the position that the row's group is at
    obtain ⟨p, hp, hpab⟩ : ∃ p, (if d then b - 1 - k else a + k) = p ∧ a ≤ p ∧ p < b :=
      ⟨_, rfl, by cases d <;> simp <;> omega⟩
    obtain ⟨e, he⟩ : ∃ e, ix.entries[p]? = some e :=
      ⟨_, List.getElem?_eq_getElem (by have := hg.fits; omega)⟩
    obtain ⟨hkeylen, hexact⟩ := h.keys e (List.mem_of_getElem? he)
    have hlen : (e.1.take (lead.length + 1)).length = lead.length + 1 := by
      rw [List.length_take]
      omega
    have hg' : ix.GroupAt (e.1.take (lead.length + 1)) _ _ :=
      h.prefixRange fun s hs => hexact s (List.mem_of_mem_take hs)
    obtain ⟨lo, hi, hrange⟩ : ∃ lo hi, ix.prefixRange (e.1.take (lead.length + 1)) = (lo, hi) :=
      ⟨_, _, rfl⟩
    rw [hrange] at hg'
    dsimp only at hg'
    have hin : lo ≤ p ∧ p < hi := (hg'.mem p e he).mpr (by rw [hlen])
    have hlead : (e.1.take (lead.length + 1)).take lead.length = lead := by
      rw [List.take_take, Nat.min_eq_left (Nat.le_succ _), (hg.mem p e he).mp hpab]
    obtain ⟨halo, hhib⟩ := hg.narrow hg' hlead (by omega) (by omega)
    have hk' : (k - if d then b - hi else lo - a) < hi - lo := by
      cases d <;> simp at hp ⊢ <;> omega
    obtain ⟨q, x, hq, hx, hqin, hasc, hcount⟩ := @ih (e.1.take (lead.length + 1)) (field + 1) lo hi
      _ hg' (by omega) (by rw [hlen, ← hn, List.length_cons]; omega) hk'
    refine ⟨q, x, ?_, hx, by omega, fun hds => ?_, ?_⟩
    · unfold nthLoop
      rw [if_neg (by omega)]
      dsimp only
      rw [hp, groupOf, he]
      dsimp only [Option.map_some]
      rw [show prefixLen + field + 1 = lead.length + 1 by omega, hrange]
      exact hq
    · obtain ⟨rfl, hrest⟩ : d = false ∧ true ∉ ds := by simpa using hds
      have := hasc hrest
      simp at hp this
      omega
    · rw [count_group h hg hg' hm hlen halo hhib hx hqin d ds, hcount]
      cases d <;> simp at hp ⊢ <;> omega

/-! ## Windows -/

/-- A row as an entry of the window: its values after the prefix, in the directions asked for. -/
def rowEntry (w : IndexWindow) (c : Collection) (ir : String × Row) : Entry :=
  windowEntry w.binding.pre.length w.descending (entryOf c w.binding.index ir.1 ir.2)

/-- The rows that hold the values of the prefix. -/
def matchingRows (w : IndexWindow) (c : Collection) (pre : IndexKey) : List (String × Row) :=
  c.rows.toList.filter fun ir =>
    (indexKeyOf w.binding.index.paths ir.2.value).take pre.length == pre

/-- The directions of a sort key are those it was made with. -/
theorem directed_ok {descending : List Bool} {values : IndexKey}
    (hlen : values.length = descending.length) (hv : ∀ s ∈ values, Scalar.Exact s) :
    OkKey descending (directed descending values) := by
  induction descending generalizing values with
  | nil =>
    obtain rfl := List.eq_nil_of_length_eq_zero hlen
    trivial
  | cons d ds ih =>
    cases values with
    | nil => cases hlen
    | cons v vs =>
      exact ⟨rfl, hv v List.mem_cons_self,
        ih (Nat.succ.inj hlen) fun s hs => hv s (List.mem_cons_of_mem v hs)⟩

theorem ofValue_exact {v : ValueRef} (h : (Scalar.ofValue v).Plain) : (Scalar.ofValue v).Exact := by
  cases v with
  | none => trivial
  | some x =>
    cases x with
    | float => exact h
    | _ => trivial

theorem indexKeyOf_exact {paths : List Path} {row : Sp00kyValue}
    (h : PlainKey (indexKeyOf paths row)) : ∀ s ∈ indexKeyOf paths row, Scalar.Exact s := by
  intro s hs
  obtain ⟨p, -, rfl⟩ := List.mem_map.mp hs
  exact ofValue_exact (h _ hs)

theorem nodup_entries (c : Collection) (d : IndexDef) :
    (c.rows.toList.map fun ir => entryOf c d ir.1 ir.2).Nodup := by
  have hkeys : (c.rows.toList.map Prod.fst).Nodup := by
    rw [ExtTreeMap.map_fst_toList_eq_keys]
    exact nodup_keys c.rows
  refine List.Nodup.of_map Prod.snd ?_
  rw [List.map_map]
  have hsnd : (Prod.snd ∘ fun ir : String × Row => entryOf c d ir.1 ir.2) = c.keyOf ∘ Prod.fst := rfl
  rw [hsnd, ← List.map_map]
  exact hkeys.map fun _ _ he => keyOf_injective c he

/-- The index of a collection is sorted. -/
theorem buildIndex_sorted {c : Collection} {d : IndexDef} (h : Orderable c d) :
    (c.buildIndex d).Sorted d.fields.length := by
  have hrow : ∀ e ∈ c.rows.toList.map fun ir => entryOf c d ir.1 ir.2,
      ∃ id row, c.rows[id]? = some row ∧ e = entryOf c d id row := by
    intro e he
    obtain ⟨ir, hir, rfl⟩ := List.mem_map.mp he
    exact ⟨ir.1, ir.2, ExtTreeMap.mem_toList_iff_getElem?_eq_some.mp hir, rfl⟩
  refine ⟨increasing_sortBy indexEntry_lawful ?_ (nodup_entries c d), fun e he => ?_⟩
  · intro e he
    obtain ⟨id, row, hir, rfl⟩ := hrow e he
    exact h id row hir
  · obtain ⟨id, row, hir, rfl⟩ := hrow e (mem_sortBy.mp he)
    refine ⟨?_, indexKeyOf_exact (h id row hir)⟩
    simp [entryOf, indexKeyOf, IndexDef.paths]

/-- The group of the prefix holds the entries of the matching rows. -/
theorem stretch_perm {w : IndexWindow} {c : Collection} {pre : IndexKey} {a b : Nat}
    (hg : (c.buildIndex w.binding.index).GroupAt pre a b) :
    (stretch (c.buildIndex w.binding.index).entries a b).Perm
      ((w.matchingRows c pre).map fun ir => entryOf c w.binding.index ir.1 ir.2) := by
  set ix := c.buildIndex w.binding.index with hix
  have hstretch : stretch ix.entries a b = ix.entries.filter fun e => e.1.take pre.length == pre := by
    have hle := hg.le
    have hfits := hg.fits
    have hnone : ∀ e ∈ stretch ix.entries 0 a, ¬ (e.1.take pre.length == pre) = true := by
      intro e he
      obtain ⟨i, -, hi, hget⟩ := mem_stretch.mp he
      rw [beq_iff_eq, ← hg.mem i e hget]
      omega
    have hall : ∀ e ∈ stretch ix.entries a b, (e.1.take pre.length == pre) = true := by
      intro e he
      obtain ⟨i, hai, hib, hget⟩ := mem_stretch.mp he
      rw [beq_iff_eq, ← hg.mem i e hget]
      omega
    have hnone' : ∀ e ∈ stretch ix.entries b ix.entries.length,
        ¬ (e.1.take pre.length == pre) = true := by
      intro e he
      obtain ⟨i, hbi, -, hget⟩ := mem_stretch.mp he
      rw [beq_iff_eq, ← hg.mem i e hget]
      omega
    have hwhole : ix.entries = stretch ix.entries 0 ix.entries.length := by simp [stretch]
    conv_rhs => rw [hwhole, stretch_append ix.entries (Nat.zero_le a) (hle.trans hfits),
      stretch_append ix.entries hle hfits, List.filter_append, List.filter_append,
      List.filter_eq_nil_iff.mpr hnone, List.filter_eq_nil_iff.mpr hnone',
      List.filter_eq_self.mpr hall]
    simp
  have hmatching : (w.matchingRows c pre).map (fun ir => entryOf c w.binding.index ir.1 ir.2) =
      (c.rows.toList.map fun ir => entryOf c w.binding.index ir.1 ir.2).filter
        fun e => e.1.take pre.length == pre := by
    rw [List.filter_map]
    rfl
  rw [hstretch, hmatching]
  exact (sortBy_perm _).filter _

theorem mapM_operandScalar {ctx : Option Sp00kyValue} {l : List Json} {pre : IndexKey}
    (h : l.mapM (IndexBinding.operandScalar ctx) = some pre) :
    pre.length = l.length ∧ ∀ s ∈ pre, ∃ v, s = Scalar.ofValue v := by
  induction l generalizing pre with
  | nil =>
    obtain rfl : [] = pre := by simpa using h
    exact ⟨rfl, fun s hs => absurd hs List.not_mem_nil⟩
  | cons o l ih =>
    rw [List.mapM_cons] at h
    obtain ⟨s, hs, h⟩ := Option.bind_eq_some_iff.mp h
    obtain ⟨rest, hrest, h⟩ := Option.bind_eq_some_iff.mp h
    obtain rfl : s :: rest = pre := Option.some.inj h
    obtain ⟨hlen, hvalues⟩ := ih hrest
    refine ⟨congrArg Nat.succ hlen, fun s' hs' => ?_⟩
    rcases List.mem_cons.mp hs' with rfl | hs'
    · unfold IndexBinding.operandScalar at hs
      split at hs
      next v _ =>
        split at hs
        next => exact ⟨some v, (Option.some.inj hs).symm⟩
        next => cases hs
      next => cases hs
    · exact hvalues s' hs'

/-- The rows of a window, as it orders them. -/
def items (w : IndexWindow) (c : Collection) (pre : IndexKey) : List Entry :=
  (w.matchingRows c pre).map (w.rowEntry c)

section

variable {w : IndexWindow} {c : Collection} {pre : IndexKey}
  (hrows : Orderable c w.binding.index)
  (hfields : w.binding.index.fields.length = w.binding.pre.length + w.descending.length)

include hrows hfields

theorem items_ok : ∀ e ∈ w.items c pre, OkKey w.descending e.1 := by
  intro e he
  obtain ⟨ir, hir, rfl⟩ := List.mem_map.mp he
  have hrow := ExtTreeMap.mem_toList_iff_getElem?_eq_some.mp (List.mem_of_mem_filter hir)
  have hexact := indexKeyOf_exact (hrows ir.1 ir.2 hrow)
  refine directed_ok ?_ fun s hs => hexact s (List.mem_of_mem_drop hs)
  have hkey : (indexKeyOf w.binding.index.paths ir.2.value).length =
      w.binding.index.fields.length := by simp [indexKeyOf, IndexDef.paths]
  change ((indexKeyOf w.binding.index.paths ir.2.value).drop _).length = _
  rw [List.length_drop, hkey]
  omega

omit hrows hfields in
theorem nodup_items : (w.items c pre).Nodup := by
  have hkeys : (c.rows.toList.map fun ir => c.keyOf ir.1).Nodup := by
    have := nodup_keys c.rows
    rw [← ExtTreeMap.map_fst_toList_eq_keys] at this
    have hinj := this.map (f := c.keyOf) fun _ _ he => keyOf_injective c he
    rwa [List.map_map] at hinj
  refine List.Nodup.of_map Prod.snd ?_
  unfold items matchingRows
  rw [List.map_map]
  exact hkeys.sublist ((List.filter_sublist).map _)

/-- The row that `nth` finds is the one at that place of the sorted rows. -/
theorem nth_exact (hlen : pre.length = w.binding.pre.length) {a b k : Nat}
    (hg : (c.buildIndex w.binding.index).GroupAt pre a b) (hk : k < b - a) :
    ∃ p, w.nth (c.buildIndex w.binding.index) pre.length a b k = some p ∧
      (true ∉ w.descending → p = a + k) ∧
      (c.buildIndex w.binding.index).rowAt p =
        (sortBy Entry.cmp (w.items c pre))[k]?.map Prod.snd := by
  have hsorted := buildIndex_sorted hrows
  obtain ⟨p, x, hp, hx, hpab, hasc, hcount⟩ := nthLoop_spec hsorted pre.length w.descending hg
    (Nat.add_zero _).symm (by omega) hk
  refine ⟨p, hp, hasc, ?_⟩
  have hperm := (stretch_perm hg).map (windowEntry w.binding.pre.length w.descending)
  rw [List.map_map] at hperm
  have hitems : (sortBy Entry.cmp (w.items c pre))[k]? =
      some (windowEntry w.binding.pre.length w.descending x) := by
    refine getElem?_sortBy_of_count (entry_lawful w.descending) (items_ok hrows hfields)
      nodup_items ?_ ?_
    · exact hperm.mem_iff.mp (List.mem_map_of_mem (mem_stretch.mpr ⟨p, hpab.1, hpab.2, hx⟩))
    · refine (hperm.countP_eq _).symm.trans ?_
      rw [List.countP_map, ← hcount, hlen]
      rfl
  rw [hitems, OrderedIndex.rowAt, hx]
  rfl

omit hrows hfields in
theorem length_items {a b : Nat} (hg : (c.buildIndex w.binding.index).GroupAt pre a b) :
    (w.items c pre).length = b - a := by
  rw [items, List.length_map, ← length_stretch _ hg.fits, (stretch_perm hg).length_eq,
    List.length_map]

/-- A window reads the rows of its prefix, sorted, from its offset on. -/
theorem read_exact {store : Store} {ctx : Option Sp00kyValue}
    (hpre : w.binding.prefixValues store ctx = some pre) (hplain : PlainKey pre)
    (hc : store.getCollection w.binding.table = some c) :
    w.read store ctx =
      (((sortBy Entry.cmp (w.items c pre)).drop w.offset).take w.limit).map Prod.snd := by
  obtain ⟨hlen, hvalues⟩ : pre.length = w.binding.pre.length ∧
      ∀ s ∈ pre, ∃ v, s = Scalar.ofValue v := by
    unfold IndexBinding.prefixValues at hpre
    split at hpre
    · exact mapM_operandScalar hpre
    · cases hpre
  have hexact : ∀ s ∈ pre, Scalar.Exact s := by
    intro s hs
    obtain ⟨v, rfl⟩ := hvalues s hs
    exact ofValue_exact (hplain _ hs)
  obtain ⟨a, b, hab⟩ : ∃ a b,
      (c.buildIndex w.binding.index).prefixRange pre = (a, b) := ⟨_, _, rfl⟩
  have hg : (c.buildIndex w.binding.index).GroupAt pre _ _ :=
    (buildIndex_sorted hrows).prefixRange hexact
  rw [hab] at hg
  dsimp only at hg
  have hcount : (sortBy Entry.cmp (w.items c pre)).length = b - a := by
    rw [(sortBy_perm _).length_eq, length_items hg]
  unfold read
  rw [hpre, hc]
  dsimp only
  rw [hab]
  dsimp only
  split
  next hoff => rw [List.drop_eq_nil_of_le (by omega), List.take_nil, List.map_nil]
  next hoff =>
    have htake : ((sortBy Entry.cmp (w.items c pre)).drop w.offset).take w.limit =
        ((sortBy Entry.cmp (w.items c pre)).drop w.offset).take (min w.limit (b - a - w.offset)) := by
      rw [List.take_eq_take_iff, List.length_drop, hcount]
      omega
    rw [htake, ← filterMap_range']
    have hrange : ∀ k ∈ List.range' w.offset (min w.limit (b - a - w.offset)), k < b - a := by
      intro k hk
      obtain ⟨i, hi, rfl⟩ := List.mem_range'.mp hk
      omega
    split
    next =>
      refine List.filterMap_congr fun k hk => ?_
      obtain ⟨p, hp, -, hrow⟩ := nth_exact hrows hfields hlen hg (hrange k hk)
      rw [hp, Option.bind_some, hrow]
    next hasc =>
      have hshift : List.range' (a + w.offset) (min w.limit (b - a - w.offset)) =
          (List.range' w.offset (min w.limit (b - a - w.offset))).map (a + ·) := by
        rw [List.map_add_range']
      rw [hshift, List.filterMap_map]
      refine List.filterMap_congr fun k hk => ?_
      obtain ⟨p, -, hp, hrow⟩ := nth_exact hrows hfields hlen hg (hrange k hk)
      rw [← hrow, hp (by simpa using hasc)]
      rfl

omit hrows hfields in
/-- The sort keys of the rows are those `compute_sort_key` gives their keys. -/
theorem rowEntry_eq {store : Store} {orders : List OrderSpec} {ir : String × Row}
    (htable : ColonFree w.binding.table) (hc : store.getCollection w.binding.table = some c)
    (hrow : c.rows[ir.1]? = some ir.2)
    (horder : orders.map OrderSpec.field = w.binding.index.paths.drop w.binding.pre.length)
    (hdirs : orders.map OrderSpec.isDesc = w.descending) :
    w.rowEntry c ir =
      (TopK.computeSortKey (some orders) (c.keyOf ir.1) store, c.keyOf ir.1) := by
  have hname : c.name = w.binding.table := store.named _ c hc
  have hread : store.getRowByKey (c.keyOf ir.1) = some ir.2.value := by
    rw [Collection.keyOf, hname, getRowByKey_join htable]
    have : store.row w.binding.table ir.1 = some ir.2 := by
      unfold Store.row
      change (store.getCollection w.binding.table).bind _ = _
      rw [hc]
      exact hrow
    rw [this]
  unfold rowEntry windowEntry directed entryOf indexKeyOf TopK.computeSortKey
  dsimp only
  rw [hread, ← List.map_drop, ← horder, ← hdirs, List.map_map, List.zipWith_map,
    List.zipWith_self]
  rfl

/-- The rows that `TopK` is given, as it orders them, are those of the window. -/
theorem snapshot_exact {store : Store} {orders : List OrderSpec} {upstream : ZSet}
    (htable : ColonFree w.binding.table) (hc : store.getCollection w.binding.table = some c)
    (horder : orders.map OrderSpec.field = w.binding.index.paths.drop w.binding.pre.length)
    (hdirs : orders.map OrderSpec.isDesc = w.descending)
    (hup : ∀ k, 0 < upstream.weight k ↔ ∃ ir ∈ w.matchingRows c pre, k = c.keyOf ir.1) :
    (TopK.new w.limit w.offset (some orders)).snapshot upstream store = TopK.keySet
      ((((sortBy Entry.cmp (w.items c pre)).drop w.offset).take w.limit).map Prod.snd) := by
  have hentry : ∀ ir ∈ w.matchingRows c pre, w.rowEntry c ir =
      (TopK.computeSortKey (some orders) (c.keyOf ir.1) store, c.keyOf ir.1) := fun ir hir =>
    rowEntry_eq htable hc
      (ExtTreeMap.mem_toList_iff_getElem?_eq_some.mp (List.mem_of_mem_filter hir)) horder hdirs
  have hmem : ∀ e, e ∈ (upstream.toList.filter (fun kw => 0 < kw.2)).map
      (fun kw => (TopK.computeSortKey (some orders) kw.1 store, kw.1)) ↔ e ∈ w.items c pre := by
    intro e
    rw [items, List.mem_map, List.mem_map]
    constructor
    · rintro ⟨⟨k, n⟩, hk, rfl⟩
      obtain ⟨hin, hpos⟩ := List.mem_filter.mp hk
      have hget := ExtTreeMap.mem_toList_iff_getElem?_eq_some.mp hin
      obtain ⟨ir, hir, rfl⟩ := (hup k).mp (by
        rw [ZSet.weight, hget]
        exact of_decide_eq_true hpos)
      exact ⟨ir, hir, hentry ir hir⟩
    · rintro ⟨ir, hir, rfl⟩
      have hpos := (hup (c.keyOf ir.1)).mpr ⟨ir, hir, rfl⟩
      unfold ZSet.weight at hpos
      cases hget : upstream[c.keyOf ir.1]? with
      | none =>
        rw [hget] at hpos
        exact absurd hpos (by decide)
      | some n =>
        rw [hget] at hpos
        exact ⟨(c.keyOf ir.1, n), List.mem_filter.mpr
          ⟨ExtTreeMap.mem_toList_iff_getElem?_eq_some.mpr hget, decide_eq_true hpos⟩,
          (hentry ir hir).symm⟩
  have hnodup : ((upstream.toList.filter (fun kw => 0 < kw.2)).map
      fun kw => (TopK.computeSortKey (some orders) kw.1 store, kw.1)).Nodup := by
    refine List.Nodup.of_map Prod.snd ?_
    rw [List.map_map]
    refine List.Nodup.sublist ((List.filter_sublist).map Prod.fst) ?_
    rw [ExtTreeMap.map_fst_toList_eq_keys]
    exact nodup_keys upstream
  have hok : ∀ e ∈ w.items c pre, OkKey w.descending e.1 := items_ok hrows hfields
  have hsorted : sortBy Entry.cmp ((upstream.toList.filter (fun kw => 0 < kw.2)).map
      fun kw => (TopK.computeSortKey (some orders) kw.1 store, kw.1)) =
      sortBy Entry.cmp (w.items c pre) := by
    have hl := entry_lawful w.descending
    refine increasing_ext hl (fun e he => hok e ((hmem e).mp (mem_sortBy.mp he)))
      (increasing_sortBy hl (fun e he => hok e ((hmem e).mp he)) hnodup)
      (increasing_sortBy hl hok nodup_items) fun e => ?_
    rw [mem_sortBy, mem_sortBy, hmem]
  unfold TopK.snapshot TopK.keySet
  rw [List.foldl_map]
  exact congrArg (fun l => List.foldl (fun (z : ZSet) e => z.insert e.2 1) ∅
    ((l.drop w.offset).take w.limit)) hsorted

end

end IndexWindow

/-- What a window reads off an index is what `TopK` makes of the rows that match the prefix. -/
theorem indexWindow_exact {w : IndexWindow} {store : Store} {ctx : Option Sp00kyValue}
    {c : Collection} {pre : IndexKey} (hpre : w.binding.prefixValues store ctx = some pre)
    (hplain : PlainKey pre) (hc : store.getCollection w.binding.table = some c)
    (hrows : Orderable c w.binding.index)
    (hfields : w.binding.index.fields.length = w.binding.pre.length + w.descending.length) :
    w.read store ctx =
        (((sortBy Entry.cmp (w.items c pre)).drop w.offset).take w.limit).map Prod.snd ∧
      ∀ (orders : List OrderSpec) (upstream : ZSet), ColonFree w.binding.table →
        orders.map OrderSpec.field = w.binding.index.paths.drop w.binding.pre.length →
        orders.map OrderSpec.isDesc = w.descending →
        (∀ k, 0 < upstream.weight k ↔ ∃ ir ∈ w.matchingRows c pre, k = c.keyOf ir.1) →
          TopK.keySet (w.read store ctx) =
            (TopK.new w.limit w.offset (some orders)).snapshot upstream store := by
  have hread := IndexWindow.read_exact hrows hfields hpre hplain hc
  refine ⟨hread, fun orders upstream htable horder hdirs hup => ?_⟩
  rw [hread, IndexWindow.snapshot_exact hrows hfields htable hc horder hdirs hup]

/-- Two rows of three that tie, under a descending and an ascending field. -/
theorem indexWindow_exact_mixed : ∃ (w : IndexWindow) (store : Store) (c : Collection),
    w.read store none = ["T:5", "T:2"] ∧
      w.read store none =
        (((sortBy Entry.cmp (w.items c [.int 1])).drop w.offset).take w.limit).map Prod.snd := by
  let row (g a b : Int) : Sp00kyValue := .object [("g", .int g), ("a", .int a), ("b", .int b)]
  let store := [("1", row 1 1 1), ("2", row 1 2 1), ("3", row 1 2 0), ("4", row 0 9 9),
    ("5", row 1 2 0)].foldl (fun s r => (s.applyOwned Env.sample "T" .create r.1 r.2).1) Store.new
  let w := IndexWindow.new ⟨"T", ⟨"by_gab", ["g", "a", "b"]⟩, [.int 1], []⟩ 2 1 [true, false]
  have hstored : (store.getCollection "T").any (fun c => decide (∀ ir ∈ c.rows.toList,
      PlainKey (indexKeyOf w.binding.index.paths ir.2.value))) = true := by decide +kernel
  obtain ⟨c, hc, hrows⟩ := (Option.any_eq_true _ _).mp hstored
  refine ⟨w, store, c, by decide +kernel, ?_⟩
  refine (indexWindow_exact (w := w) (by decide +kernel) (by decide) hc ?_ rfl).1
  intro id row hrow
  exact of_decide_eq_true hrows (id, row) (ExtTreeMap.mem_toList_iff_getElem?_eq_some.mpr hrow)

end Sp00ky.Ssp
