/-
  Ordered sets as sorted lists over a comparator.

  A B-tree set is the sorted list of its elements: `insertBy` leaves the list
  alone when an equal element is present, `removeBy` drops the element equal to
  its argument. `sortBy` is the stable insertion sort. The comparator only has to
  be lawful on the elements that occur (`LawfulOn`).
-/
import Mathlib.Data.List.Basic
import Mathlib.Data.List.Nodup
import Mathlib.Data.List.Perm.Basic

namespace Sp00ky.Lib

variable {α : Type}

/-- Insert into a sorted list, keeping the old element of an equal pair. -/
def insertBy (cmp : α → α → Ordering) (a : α) : List α → List α
  | [] => [a]
  | b :: l =>
    match cmp a b with
    | .lt => a :: b :: l
    | .eq => b :: l
    | .gt => b :: insertBy cmp a l

/-- Remove the first element equal to `a`. -/
def removeBy (cmp : α → α → Ordering) (a : α) : List α → List α
  | [] => []
  | b :: l => if cmp a b = .eq then l else b :: removeBy cmp a l

/-- Insert before the first element that is larger, after the equal ones. -/
def placeBy (cmp : α → α → Ordering) (a : α) : List α → List α
  | [] => [a]
  | b :: l => if cmp a b = .gt then b :: placeBy cmp a l else a :: b :: l

/-- Stable insertion sort. -/
def sortBy (cmp : α → α → Ordering) (l : List α) : List α := l.foldr (placeBy cmp) []

/-- The comparator is a strict total order on the elements of `S`. -/
structure LawfulOn (cmp : α → α → Ordering) (S : α → Prop) : Prop where
  refl : ∀ a, S a → cmp a a = .eq
  eq : ∀ a b, S a → S b → cmp a b = .eq → a = b
  swap : ∀ a b, S a → S b → cmp b a = (cmp a b).swap
  trans : ∀ a b c, S a → S b → S c → cmp a b = .lt → cmp b c = .lt → cmp a c = .lt

/-- Strictly increasing. -/
def Increasing (cmp : α → α → Ordering) (l : List α) : Prop := l.Pairwise fun a b => cmp a b = .lt

section Lawful

variable {cmp : α → α → Ordering} {S : α → Prop} (h : LawfulOn cmp S)

include h

variable {a b x : α}

theorem LawfulOn.lt_of_gt (ha : S a) (hb : S b) (hab : cmp a b = .gt) :
    cmp b a = .lt := by
  rw [h.swap a b ha hb, hab]
  rfl

theorem LawfulOn.lt_ne (ha : S a) (hab : cmp a b = .lt) : a ≠ b := by
  rintro rfl
  rw [h.refl a ha] at hab
  cases hab

theorem LawfulOn.lt_asymm (ha : S a) (hb : S b) (hab : cmp a b = .lt) :
    cmp b a ≠ .lt := by
  rw [h.swap a b ha hb, hab]
  simp

theorem LawfulOn.lt_or_eq_or_gt (ha : S a) (hb : S b) :
    cmp a b = .lt ∨ a = b ∨ cmp b a = .lt := by
  cases hc : cmp a b with
  | lt => exact .inl rfl
  | eq => exact .inr (.inl (h.eq a b ha hb hc))
  | gt => exact .inr (.inr (h.lt_of_gt ha hb hc))

/-- An element not below `b` is not below anything under `b`. -/
theorem LawfulOn.lt_of_not_lt {a b c : α} (ha : S a) (hb : S b) (hc : S c)
    (hab : cmp a b ≠ .lt) (hcb : cmp c b = .lt) : cmp c a = .lt := by
  rcases h.lt_or_eq_or_gt ha hb with hlt | rfl | hgt
  · exact absurd hlt hab
  · exact hcb
  · exact h.trans c b a hc hb ha hcb hgt

variable {l : List α}

theorem mem_insertBy (ha : S a) (hl : ∀ b ∈ l, S b) :
    x ∈ insertBy cmp a l ↔ x = a ∨ x ∈ l := by
  induction l with
  | nil => simp [insertBy]
  | cons b l ih =>
    obtain ⟨hb, hl'⟩ := List.forall_mem_cons.mp hl
    unfold insertBy
    cases hc : cmp a b with
    | lt => simp
    | eq =>
      obtain rfl := h.eq a b ha hb hc
      simp
    | gt =>
      simp only [List.mem_cons, ih hl']
      tauto

theorem increasing_insertBy (ha : S a) (hl : ∀ b ∈ l, S b)
    (hs : Increasing cmp l) : Increasing cmp (insertBy cmp a l) := by
  induction l with
  | nil => simp [insertBy, Increasing]
  | cons b l ih =>
    obtain ⟨hb, hl'⟩ := List.forall_mem_cons.mp hl
    have hs' := List.pairwise_cons.mp hs
    unfold insertBy
    cases hc : cmp a b with
    | lt =>
      refine List.pairwise_cons.mpr ⟨?_, hs⟩
      intro x hx
      rcases List.mem_cons.mp hx with rfl | hx
      · exact hc
      · exact h.trans a b x ha hb (hl' x hx) hc (hs'.1 x hx)
    | eq => exact hs
    | gt =>
      refine List.pairwise_cons.mpr ⟨?_, ih hl' hs'.2⟩
      intro x hx
      rcases (mem_insertBy h ha hl').mp hx with rfl | hx
      · exact h.lt_of_gt ha hb hc
      · exact hs'.1 x hx

theorem increasing_nodup (hl : ∀ b ∈ l, S b) (hs : Increasing cmp l) : l.Nodup := by
  refine List.Pairwise.imp_of_mem ?_ hs
  intro a b ha _ hab
  exact h.lt_ne (hl a ha) hab

theorem mem_removeBy (ha : S a) (hl : ∀ b ∈ l, S b)
    (hs : Increasing cmp l) : x ∈ removeBy cmp a l ↔ x ∈ l ∧ x ≠ a := by
  induction l with
  | nil => simp [removeBy]
  | cons b l ih =>
    obtain ⟨hb, hl'⟩ := List.forall_mem_cons.mp hl
    have hs' := List.pairwise_cons.mp hs
    unfold removeBy
    by_cases hc : cmp a b = .eq
    · obtain rfl := h.eq a b ha hb hc
      rw [if_pos hc]
      constructor
      · intro hx
        exact ⟨List.mem_cons_of_mem _ hx, Ne.symm (h.lt_ne ha (hs'.1 x hx))⟩
      · rintro ⟨hx, hne⟩
        exact (List.mem_cons.mp hx).resolve_left hne
    · have hab : b ≠ a := by
        rintro rfl
        exact hc (h.refl b ha)
      rw [if_neg hc, List.mem_cons, List.mem_cons, ih hl' hs'.2]
      constructor
      · rintro (rfl | ⟨hx, hne⟩)
        · exact ⟨.inl rfl, hab⟩
        · exact ⟨.inr hx, hne⟩
      · rintro ⟨rfl | hx, hne⟩
        · exact .inl rfl
        · exact .inr ⟨hx, hne⟩

omit h in
theorem removeBy_sublist (a : α) (l : List α) : (removeBy cmp a l).Sublist l := by
  induction l with
  | nil => exact List.Sublist.refl _
  | cons b l ih =>
    unfold removeBy
    split
    · exact List.sublist_cons_self b l
    · exact ih.cons_cons b

omit h in
theorem mem_placeBy : x ∈ placeBy cmp a l ↔ x = a ∨ x ∈ l := by
  induction l with
  | nil => simp [placeBy]
  | cons b l ih =>
    unfold placeBy
    split
    · simp only [List.mem_cons, ih]
      tauto
    · simp

theorem increasing_placeBy (ha : S a) (hl : ∀ b ∈ l, S b) (hal : a ∉ l)
    (hs : Increasing cmp l) : Increasing cmp (placeBy cmp a l) := by
  induction l with
  | nil => simp [placeBy, Increasing]
  | cons b l ih =>
    obtain ⟨hb, hl'⟩ := List.forall_mem_cons.mp hl
    have hs' := List.pairwise_cons.mp hs
    simp only [List.mem_cons, not_or] at hal
    unfold placeBy
    split
    · next hc =>
      refine List.pairwise_cons.mpr ⟨?_, ih hl' hal.2 hs'.2⟩
      intro x hx
      rcases mem_placeBy.mp hx with rfl | hx
      · exact h.lt_of_gt ha hb hc
      · exact hs'.1 x hx
    · next hc =>
      have hlt : cmp a b = .lt := by
        cases hc' : cmp a b with
        | lt => rfl
        | eq => exact absurd (h.eq a b ha hb hc') hal.1
        | gt => exact absurd hc' hc
      refine List.pairwise_cons.mpr ⟨?_, hs⟩
      intro x hx
      rcases List.mem_cons.mp hx with rfl | hx
      · exact hlt
      · exact h.trans a b x ha hb (hl' x hx) hlt (hs'.1 x hx)

omit h in
theorem mem_sortBy : x ∈ sortBy cmp l ↔ x ∈ l := by
  induction l with
  | nil => simp [sortBy]
  | cons a l ih =>
    rw [sortBy, List.foldr_cons, ← sortBy, mem_placeBy, ih, List.mem_cons]

theorem increasing_sortBy (hl : ∀ b ∈ l, S b) (hd : l.Nodup) :
    Increasing cmp (sortBy cmp l) := by
  induction l with
  | nil => simp [sortBy, Increasing]
  | cons a l ih =>
    rw [List.nodup_cons] at hd
    have hl' : ∀ c ∈ l, S c := (List.forall_mem_cons.mp hl).2
    rw [sortBy, List.foldr_cons, ← sortBy]
    exact increasing_placeBy h (hl a List.mem_cons_self)
      (fun b hb => hl' b (mem_sortBy.mp hb)) (fun ha => hd.1 (mem_sortBy.mp ha))
      (ih hl' hd.2)

/-- An increasing list is determined by its elements. -/
theorem increasing_ext {l l' : List α} (hl : ∀ b ∈ l, S b) (hs : Increasing cmp l)
    (hs' : Increasing cmp l') (hm : ∀ x, x ∈ l ↔ x ∈ l') : l = l' := by
  have hl' : ∀ b ∈ l', S b := fun b hb => hl b ((hm b).mpr hb)
  have hp : l.Perm l' := (List.perm_ext_iff_of_nodup (increasing_nodup h hl hs)
    (increasing_nodup h hl' hs')).mpr hm
  refine hp.eq_of_pairwise ?_ hs hs'
  intro a b ha hb hab hba
  exact absurd hba (h.lt_asymm (hl a ha) (hl' b hb) hab)

/-- The elements below a bound come first. -/
theorem filter_lt_prefix (hl : ∀ b ∈ l, S b) (hs : Increasing cmp l)
    (hb : S b) : l.filter (fun x => cmp x b == .lt) <+: l := by
  induction l with
  | nil => exact List.prefix_rfl
  | cons a l ih =>
    obtain ⟨ha, hl'⟩ := List.forall_mem_cons.mp hl
    have hs' := List.pairwise_cons.mp hs
    by_cases hc : cmp a b = .lt
    · rw [List.filter_cons_of_pos (by simpa using hc)]
      exact (List.prefix_cons_inj a).mpr (ih hl' hs'.2)
    · have hnil : (a :: l).filter (fun x => cmp x b == .lt) = [] := by
        rw [List.filter_eq_nil_iff]
        intro x hx
        rcases List.mem_cons.mp hx with rfl | hx
        · simpa using hc
        · simp only [beq_iff_eq]
          intro hxb
          exact hc (h.trans a x b ha (hl' x hx) hb (hs'.1 x hx) hxb)
      rw [hnil]
      exact List.nil_prefix

end Lawful

/-- Sorting leaves an increasing list alone. -/
theorem placeBy_map {β : Type} {cmp : α → α → Ordering} {cmp' : β → β → Ordering} {f : α → β}
    (hf : ∀ a b, cmp' (f a) (f b) = cmp a b) (a : α) (l : List α) :
    placeBy cmp' (f a) (l.map f) = (placeBy cmp a l).map f := by
  induction l with
  | nil => rfl
  | cons b l ih =>
    rw [List.map_cons, placeBy, placeBy, hf]
    split
    · rw [List.map_cons, ih]
    · rfl

/-- Sorting looks at nothing but the comparisons. -/
theorem sortBy_map {β : Type} {cmp : α → α → Ordering} {cmp' : β → β → Ordering} {f : α → β}
    (hf : ∀ a b, cmp' (f a) (f b) = cmp a b) (l : List α) :
    sortBy cmp' (l.map f) = (sortBy cmp l).map f := by
  induction l with
  | nil => rfl
  | cons a l ih =>
    rw [List.map_cons]
    change placeBy cmp' (f a) (sortBy cmp' (l.map f)) = (placeBy cmp a (sortBy cmp l)).map f
    rw [ih, placeBy_map hf]

theorem sortBy_increasing {cmp : α → α → Ordering} {l : List α} (h : Increasing cmp l) :
    sortBy cmp l = l := by
  induction l with
  | nil => rfl
  | cons a l ih =>
    obtain ⟨ha, hl⟩ := List.pairwise_cons.mp h
    rw [sortBy, List.foldr_cons, ← sortBy, ih hl]
    cases l with
    | nil => rfl
    | cons b l => simp [placeBy, ha b List.mem_cons_self]

theorem length_insertBy_le (cmp : α → α → Ordering) (a : α) (l : List α) :
    (insertBy cmp a l).length ≤ l.length + 1 := by
  induction l with
  | nil => simp [insertBy]
  | cons b l ih =>
    unfold insertBy
    split
    · simp
    · simp
    · simpa using ih

theorem length_le_insertBy (cmp : α → α → Ordering) (a : α) (l : List α) :
    l.length ≤ (insertBy cmp a l).length := by
  induction l with
  | nil => simp [insertBy]
  | cons b l ih =>
    unfold insertBy
    split
    · simp
    · simp
    · simpa using ih

theorem increasing_concat {cmp : α → α → Ordering} {l : List α} {m : α} :
    Increasing cmp (l ++ [m]) ↔ Increasing cmp l ∧ ∀ x ∈ l, cmp x m = .lt := by
  unfold Increasing
  rw [List.pairwise_append]
  simp

/-! ## Entries with distinct keys -/

section Keys

variable {κ β : Type} [Ord κ] [Std.TransOrd κ] [Std.LawfulEqOrd κ] {l : List (κ × β)}

/-- Entries with distinct keys are ordered by their keys. -/
theorem keys_lawful (hd : (l.map Prod.fst).Nodup) :
    LawfulOn (fun a b : κ × β => compare a.1 b.1) (· ∈ l) := by
  refine ⟨fun a _ => by simp, ?_, ?_, ?_⟩
  · intro a b ha hb hab
    exact List.inj_on_of_nodup_map hd ha hb (Std.LawfulEqOrd.compare_eq_iff_eq.mp hab)
  · intro a b _ _
    exact Std.OrientedCmp.eq_swap
  · intro a b c _ _ _ hab hbc
    exact Std.TransCmp.lt_trans hab hbc

theorem lookup_eq_some_iff [BEq κ] [LawfulBEq κ]
    (hd : (l.map Prod.fst).Nodup) {k : κ} {v : β} : l.lookup k = some v ↔ (k, v) ∈ l := by
  induction l with
  | nil => simp
  | cons e l ih =>
    obtain ⟨a, b⟩ := e
    rw [List.map_cons, List.nodup_cons] at hd
    rw [List.lookup_cons]
    by_cases hk : k = a
    · subst hk
      have hno : (k, v) ∉ l := fun h => hd.1 (List.mem_map.mpr ⟨_, h, rfl⟩)
      simp [hno, eq_comm]
    · have hbeq : (k == a) = false := beq_false_of_ne hk
      rw [hbeq, List.mem_cons]
      simp [hk, ih hd.2]

/-- Sorting entries with distinct keys does not change a lookup. -/
theorem lookup_sortBy [BEq κ] [LawfulBEq κ] (hd : (l.map Prod.fst).Nodup)
    (k : κ) : (sortBy (fun a b : κ × β => compare a.1 b.1) l).lookup k = l.lookup k := by
  have hinc := increasing_sortBy (keys_lawful hd) (fun b hb => hb) (List.Nodup.of_map _ hd)
  have hd' : ((sortBy (fun a b : κ × β => compare a.1 b.1) l).map Prod.fst).Nodup := by
    refine List.pairwise_map.mpr (hinc.imp ?_)
    intro a b hab heq
    have heqc : compare a.1 b.1 = .eq := Std.LawfulEqOrd.compare_eq_iff_eq.mpr heq
    cases heqc.symm.trans hab
  refine Option.ext fun v => ?_
  rw [lookup_eq_some_iff hd', lookup_eq_some_iff hd, mem_sortBy]

end Keys

end Sp00ky.Lib
