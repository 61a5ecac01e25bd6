/-
  Positions in sorted lists.

  The position of an element of a sorted list is the number of elements below it, so the sorted
  list of any arrangement of the same elements can be read off by counting
  (`getElem?_sortBy_of_count`). `stretch l a b` is the part of a list at the positions `[a, b)`.
  `bisect` is binary search through a comparison that may fail (`bisect_eq_some_iff`).
-/
import Sp00ky.Lib.OrderedSet

namespace Sp00ky.Lib

variable {α : Type}

/-! ## Stretches -/

/-- The elements at the positions `[a, b)`. -/
def stretch (l : List α) (a b : Nat) : List α := (l.take b).drop a

theorem mem_stretch {l : List α} {a b : Nat} {x : α} :
    x ∈ stretch l a b ↔ ∃ i, a ≤ i ∧ i < b ∧ l[i]? = some x := by
  unfold stretch
  rw [List.mem_iff_getElem?]
  constructor
  · rintro ⟨i, hi⟩
    rw [List.getElem?_drop, List.getElem?_take] at hi
    split at hi
    next hlt => exact ⟨a + i, Nat.le_add_right a i, hlt, hi⟩
    next => cases hi
  · rintro ⟨i, ha, hb, hi⟩
    refine ⟨i - a, ?_⟩
    rw [List.getElem?_drop, List.getElem?_take, Nat.add_sub_cancel' ha, if_pos hb, hi]

theorem stretch_append (l : List α) {a m b : Nat} (ham : a ≤ m) (hmb : m ≤ b) :
    stretch l a b = stretch l a m ++ stretch l m b := by
  unfold stretch
  have htake : (l.take b).take m = l.take m := by rw [List.take_take, Nat.min_eq_left hmb]
  conv_lhs => rw [← List.take_append_drop m (l.take b), htake, List.drop_append]
  by_cases hm : m ≤ l.length
  · rw [List.length_take, Nat.min_eq_left hm, Nat.sub_eq_zero_of_le ham, List.drop_zero]
  · have hnil : (l.take b).drop m = [] :=
      List.drop_eq_nil_of_le (by rw [List.length_take]; omega)
    rw [hnil, List.drop_nil]

theorem length_stretch (l : List α) {a b : Nat} (hb : b ≤ l.length) :
    (stretch l a b).length = b - a := by
  unfold stretch
  rw [List.length_drop, List.length_take, Nat.min_eq_left hb]

/-- Reading the positions `[a, a + n)` one by one. -/
theorem filterMap_range' {β : Type} (f : α → β) (l : List α) (a n : Nat) :
    (List.range' a n).filterMap (fun k => l[k]?.map f) = ((l.drop a).take n).map f := by
  induction n generalizing a with
  | zero => simp
  | succ n ih =>
    rw [List.range'_succ]
    cases h : l[a]? with
    | none =>
      have hlen : l.length ≤ a := List.getElem?_eq_none_iff.mp h
      rw [List.filterMap_cons_none (by rw [h]; rfl), ih, List.drop_eq_nil_of_le hlen,
        List.drop_eq_nil_of_le (Nat.le_succ_of_le hlen), List.take_nil, List.take_nil]
    | some x =>
      obtain ⟨hlt, rfl⟩ := List.getElem?_eq_some_iff.mp h
      rw [List.filterMap_cons_some (by rw [h]; rfl), ih, List.drop_eq_getElem_cons hlt,
        List.take_succ_cons, List.map_cons]

/-! ## Sorted lists -/

section

variable {cmp : α → α → Ordering} {S : α → Prop}

theorem placeBy_perm (a : α) (l : List α) : (placeBy cmp a l).Perm (a :: l) := by
  induction l with
  | nil => exact List.Perm.refl _
  | cons b l ih =>
    unfold placeBy
    split
    · exact (ih.cons b).trans (List.Perm.swap a b l)
    · exact List.Perm.refl _

theorem sortBy_perm (l : List α) : (sortBy cmp l).Perm l := by
  induction l with
  | nil => exact List.Perm.refl _
  | cons a l ih =>
    rw [sortBy, List.foldr_cons, ← sortBy]
    exact (placeBy_perm a _).trans (ih.cons a)

variable (h : LawfulOn cmp S)

include h

/-- An element of an increasing list stands behind those below it. -/
theorem getElem?_of_count {l : List α} (hl : ∀ b ∈ l, S b) (hs : Increasing cmp l) {x : α}
    (hx : x ∈ l) : l[l.countP fun y => cmp y x == .lt]? = some x := by
  induction l with
  | nil => cases hx
  | cons a l ih =>
    have ha := hl a List.mem_cons_self
    have hl' : ∀ b ∈ l, S b := fun b hb => hl b (List.mem_cons_of_mem a hb)
    have hs' := List.pairwise_cons.mp hs
    rcases List.mem_cons.mp hx with rfl | hx
    · have hzero : (x :: l).countP (fun y => cmp y x == .lt) = 0 := by
        rw [List.countP_eq_zero]
        intro y hy
        rcases List.mem_cons.mp hy with rfl | hy
        · simp [h.refl y ha]
        · have hgt := h.swap x y ha (hl' y hy)
          rw [hs'.1 y hy] at hgt
          simp [hgt]
      rw [hzero]
      rfl
    · rw [List.countP_cons, if_pos (by simpa using hs'.1 x hx), List.getElem?_cons_succ]
      exact ih hl' hs'.2 hx

/-- The element with `k` elements below it is the `k`-th of the sorted list. -/
theorem getElem?_sortBy_of_count {l : List α} (hl : ∀ b ∈ l, S b) (hd : l.Nodup) {x : α}
    (hx : x ∈ l) {k : Nat} (hk : l.countP (fun y => cmp y x == .lt) = k) :
    (sortBy cmp l)[k]? = some x := by
  have := getElem?_of_count h (fun b hb => hl b (mem_sortBy.mp hb)) (increasing_sortBy h hl hd)
    (mem_sortBy.mpr hx)
  rwa [(sortBy_perm l).countP_eq, hk] at this

/-- The positions before the first element that is not below a bound hold what is below it. -/
theorem lt_length_takeWhile_iff {l : List α} (hl : ∀ b ∈ l, S b) (hs : Increasing cmp l) {e : α}
    (he : S e) {i : Nat} {x : α} (hi : l[i]? = some x) :
    i < (l.takeWhile fun y => cmp y e == .lt).length ↔ cmp x e = .lt := by
  induction l generalizing i with
  | nil => cases hi
  | cons a l ih =>
    have ha := hl a List.mem_cons_self
    have hl' : ∀ b ∈ l, S b := fun b hb => hl b (List.mem_cons_of_mem a hb)
    have hs' := List.pairwise_cons.mp hs
    by_cases hae : cmp a e = .lt
    · rw [List.takeWhile_cons_of_pos (by simpa using hae), List.length_cons]
      cases i with
      | zero =>
        rw [List.getElem?_cons_zero] at hi
        obtain rfl := Option.some.inj hi
        simpa using hae
      | succ i =>
        rw [List.getElem?_cons_succ] at hi
        rw [← ih hl' hs'.2 hi]
        omega
    · rw [List.takeWhile_cons_of_neg (by simpa using hae), List.length_nil]
      refine ⟨fun hlt => absurd hlt (Nat.not_lt_zero i), fun hxe => ?_⟩
      rcases List.mem_cons.mp (List.mem_of_getElem? hi) with rfl | hx
      · exact absurd hxe hae
      · exact absurd (h.trans a x e ha (hl' x hx) he (hs'.1 x hx) hxe) hae

end

/-! ## Binary search -/

/-- The position in `[lo, hi)` that `cmpAt` finds equal, halving what is left at each read. -/
def bisect (cmpAt : Nat → Option Ordering) (lo hi : Nat) : Option Nat :=
  if lo < hi then
    match cmpAt ((lo + hi) / 2) with
    | none => none
    | some .lt => bisect cmpAt ((lo + hi) / 2 + 1) hi
    | some .gt => bisect cmpAt lo ((lo + hi) / 2)
    | some .eq => some ((lo + hi) / 2)
  else none
termination_by hi - lo

section

variable {cmpAt : Nat → Option Ordering} {keys : List Nat} {k : Nat}

theorem bisect_between (hs : keys.Pairwise (· < ·))
    (hread : ∀ (i : Nat) (h : i < keys.length), cmpAt i = some (compare keys[i] k)) {lo hi : Nat}
    (hhi : hi ≤ keys.length) (i : Nat) :
    bisect cmpAt lo hi = some i ↔ lo ≤ i ∧ i < hi ∧ keys[i]? = some k := by
  have hmono : ∀ {i j : Nat} (hi : i < keys.length) (hj : j < keys.length), i < j →
      keys[i] < keys[j] := fun hi hj hij => List.pairwise_iff_getElem.mp hs _ _ hi hj hij
  have hat : ∀ {i : Nat}, keys[i]? = some k ↔ ∃ h : i < keys.length, keys[i] = k :=
    List.getElem?_eq_some_iff
  induction hn : hi - lo using Nat.strongRecOn generalizing lo hi with
  | _ n ih =>
    rw [bisect]
    split
    next hlt =>
      have hmid : (lo + hi) / 2 < keys.length := by omega
      rw [hread _ hmid]
      cases hc : compare keys[(lo + hi) / 2] k with
      | lt =>
        have hbelow : keys[(lo + hi) / 2] < k := Nat.compare_eq_lt.mp hc
        have hright := @ih (hi - ((lo + hi) / 2 + 1)) (by omega) ((lo + hi) / 2 + 1) hi hhi rfl
        refine hright.trans ?_
        constructor
        · exact fun ⟨h1, h2, h3⟩ => ⟨by omega, h2, h3⟩
        · rintro ⟨_, h2, h3⟩
          obtain ⟨hi', hk⟩ := hat.mp h3
          refine ⟨?_, h2, h3⟩
          by_contra hnot
          rcases Nat.lt_or_eq_of_le (show i ≤ (lo + hi) / 2 by omega) with h | rfl
          · have := hmono hi' hmid h
            omega
          · omega
      | eq =>
        have heq : keys[(lo + hi) / 2] = k := Nat.compare_eq_eq.mp hc
        simp only [Option.some.injEq]
        constructor
        · rintro rfl
          exact ⟨by omega, by omega, hat.mpr ⟨hmid, heq⟩⟩
        · rintro ⟨_, _, h3⟩
          obtain ⟨hi', hk⟩ := hat.mp h3
          rcases Nat.lt_trichotomy ((lo + hi) / 2) i with h | h | h
          · have := hmono hmid hi' h
            omega
          · exact h
          · have := hmono hi' hmid h
            omega
      | gt =>
        have habove : k < keys[(lo + hi) / 2] := Nat.compare_eq_gt.mp hc
        have hleft := @ih ((lo + hi) / 2 - lo) (by omega) lo ((lo + hi) / 2) (by omega) rfl
        refine hleft.trans ?_
        constructor
        · exact fun ⟨h1, h2, h3⟩ => ⟨h1, by omega, h3⟩
        · rintro ⟨h1, _, h3⟩
          obtain ⟨hi', hk⟩ := hat.mp h3
          refine ⟨h1, ?_, h3⟩
          by_contra hnot
          rcases Nat.lt_or_eq_of_le (show (lo + hi) / 2 ≤ i by omega) with h | rfl
          · have := hmono hmid hi' h
            omega
          · omega
    next hge =>
      constructor
      · intro h
        cases h
      · rintro ⟨h1, h2, _⟩
        omega

/-- Over strictly increasing keys, the search finds exactly where the key is. -/
theorem bisect_eq_some_iff (hs : keys.Pairwise (· < ·))
    (hread : ∀ (i : Nat) (h : i < keys.length), cmpAt i = some (compare keys[i] k)) (i : Nat) :
    bisect cmpAt 0 keys.length = some i ↔ keys[i]? = some k := by
  rw [bisect_between hs hread (Nat.le_refl _)]
  constructor
  · exact fun ⟨_, _, h⟩ => h
  · exact fun h => ⟨Nat.zero_le i, (List.getElem?_eq_some_iff.mp h).1, h⟩

end

end Sp00ky.Lib
