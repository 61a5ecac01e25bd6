/-
  Totals over a map.

  A total adds up one value per entry with an associative and commutative operation, so
  that an entry can be taken out and put in without reading the others (`tally_insert`,
  `tally_eq_erase`), and a total is the sum of the totals of the parts the entries are
  divided into (`tallyList_parts`).
-/
import Sp00ky.Lib.Maps

namespace Sp00ky.Lib

open Std

section

variable {ι M : Type} (op : M → M → M) (e : M)

/-- The total over a list. -/
def tallyList (g : ι → M) (l : List ι) : M := l.foldl (fun acc x => op acc (g x)) e

theorem tallyList_map {κ : Type} (g : ι → M) (f : κ → ι) (l : List κ) :
    tallyList op e g (l.map f) = tallyList op e (fun x => g (f x)) l := by
  unfold tallyList
  rw [List.foldl_map]

theorem tallyList_one (l : List ι) : tallyList (· + ·) 0 (fun _ => 1) l = l.length := by
  unfold tallyList
  rw [List.foldl_add_const, Nat.zero_add, Nat.one_mul]

/-- A count is positive when one of its parts is. -/
theorem tallyList_pos {g : ι → Nat} {l : List ι} :
    0 < tallyList (· + ·) 0 g l ↔ ∃ x ∈ l, 0 < g x := by
  have hfold : ∀ a, l.foldl (fun acc x => acc + g x) a = a + (l.map g).sum := by
    induction l with
    | nil => exact fun a => rfl
    | cons x l ih =>
      intro a
      rw [List.foldl_cons, ih, List.map_cons, List.sum_cons, Nat.add_assoc]
  unfold tallyList
  rw [hfold, Nat.zero_add, List.sum_pos_iff_exists_pos_nat]
  simp

variable [Std.Associative op] [Std.Commutative op] [Std.LawfulIdentity op e]

omit [Std.Commutative op] in
theorem foldl_op (g : ι → M) (l : List ι) (a : M) :
    l.foldl (fun acc x => op acc (g x)) a = op a (tallyList op e g l) := by
  unfold tallyList
  induction l generalizing a with
  | nil => exact (Std.LawfulRightIdentity.right_id a).symm
  | cons x l ih =>
    rw [List.foldl_cons, List.foldl_cons, ih, ih (op e (g x)), @Std.Associative.assoc M op _,
      @Std.LawfulLeftIdentity.left_id M M op e _]

omit [Std.Commutative op] in
theorem tallyList_cons (g : ι → M) (x : ι) (l : List ι) :
    tallyList op e g (x :: l) = op (g x) (tallyList op e g l) := by
  unfold tallyList
  rw [List.foldl_cons, foldl_op op e, @Std.LawfulLeftIdentity.left_id M M op e _]
  rfl

theorem tallyList_perm (g : ι → M) {l l' : List ι} (h : l.Perm l') :
    tallyList op e g l = tallyList op e g l' := by
  induction h with
  | nil => rfl
  | cons x _ ih => rw [tallyList_cons, tallyList_cons, ih]
  | swap x y l =>
    rw [tallyList_cons, tallyList_cons, tallyList_cons, tallyList_cons,
      ← @Std.Associative.assoc M op _, ← @Std.Associative.assoc M op _,
      @Std.Commutative.comm M op _ (g y)]
  | trans _ _ ih1 ih2 => rw [ih1, ih2]

omit [Std.Commutative op] in
theorem tallyList_congr {g g' : ι → M} {l : List ι} (h : ∀ x ∈ l, g x = g' x) :
    tallyList op e g l = tallyList op e g' l := by
  induction l with
  | nil => rfl
  | cons x l ih =>
    rw [tallyList_cons, tallyList_cons, h x List.mem_cons_self,
      ih (List.forall_mem_cons.mp h).2]

omit [Std.Commutative op] in
/-- Entries left out count nothing. -/
theorem tallyList_filter (g : ι → M) (p : ι → Bool) (l : List ι) :
    tallyList op e g (l.filter p) = tallyList op e (fun x => if p x then g x else e) l := by
  induction l with
  | nil => rfl
  | cons x l ih =>
    rw [tallyList_cons, List.filter_cons]
    cases p x with
    | true => rw [if_pos rfl, if_pos rfl, tallyList_cons, ih]
    | false =>
      rw [if_neg (by simp), if_neg (by simp), ih, @Std.LawfulLeftIdentity.left_id M M op e _]

omit [Std.Commutative op] in
theorem tallyList_unit (l : List ι) : tallyList op e (fun _ => e) l = e := by
  induction l with
  | nil => rfl
  | cons x l ih => rw [tallyList_cons, ih, @Std.LawfulLeftIdentity.left_id M M op e _]

theorem tallyList_op (g g' : ι → M) (l : List ι) :
    tallyList op e (fun x => op (g x) (g' x)) l = op (tallyList op e g l) (tallyList op e g' l) := by
  induction l with
  | nil => exact (@Std.LawfulLeftIdentity.left_id M M op e _ _).symm
  | cons x l ih =>
    rw [tallyList_cons, tallyList_cons, tallyList_cons, ih, @Std.Associative.assoc M op _,
      @Std.Associative.assoc M op _, ← @Std.Associative.assoc M op _ (g' x),
      @Std.Commutative.comm M op _ (g' x), @Std.Associative.assoc M op _]

/-- One part among `n` holds what there is to count. -/
theorem tallyList_single (a : M) {n j : Nat} (hj : j < n) :
    tallyList op e (fun i => if i = j then a else e) (List.range n) = a := by
  induction n with
  | zero => cases hj
  | succ n ih =>
    rw [List.range_succ, tallyList_perm op e _ (List.perm_append_singleton n (List.range n)),
      tallyList_cons]
    by_cases hn : n = j
    · have hrest : ∀ i ∈ List.range n, (if i = j then a else e) = e := by
        intro i hi
        have := List.mem_range.mp hi
        exact if_neg (by omega)
      rw [if_pos hn, tallyList_congr op e hrest, tallyList_unit,
        @Std.LawfulRightIdentity.right_id M M op e _]
    · rw [if_neg hn, @Std.LawfulLeftIdentity.left_id M M op e _, ih (by omega)]

/-- The total is the total over the parts of their totals. -/
theorem tallyList_parts (g : ι → M) (part : ι → Option Nat) (n : Nat) {l : List ι}
    (h : ∀ x ∈ l, ∃ j < n, part x = some j) :
    tallyList op e (fun i => tallyList op e (fun x => if part x = some i then g x else e) l)
      (List.range n) = tallyList op e g l := by
  induction l with
  | nil => exact tallyList_unit op e _
  | cons x l ih =>
    obtain ⟨j, hj, hx⟩ := h x List.mem_cons_self
    have hstep : ∀ i, tallyList op e (fun x => if part x = some i then g x else e) (x :: l) =
        op (if i = j then g x else e)
          (tallyList op e (fun x => if part x = some i then g x else e) l) := by
      intro i
      rw [tallyList_cons, hx]
      simp only [Option.some.injEq, eq_comm (a := j)]
    rw [tallyList_congr op e (fun i _ => hstep i), tallyList_op, tallyList_single op e _ hj,
      ih (List.forall_mem_cons.mp h).2, tallyList_cons]

end

section

variable {α β M : Type} {cmp : α → α → Ordering} [TransCmp cmp] [LawfulEqCmp cmp]
variable (op : M → M → M) (e : M)

/-- The total over a map. -/
def tally (g : α → β → M) (m : ExtTreeMap α β cmp) : M := tallyList op e (fun kv => g kv.1 kv.2) m.toList

variable [Std.Associative op] [Std.Commutative op] [Std.LawfulIdentity op e]

theorem tally_eq_erase (g : α → β → M) {m : ExtTreeMap α β cmp} {k : α} {v : β}
    (h : m[k]? = some v) : tally op e g m = op (tally op e g (m.erase k)) (g k v) := by
  unfold tally
  rw [tallyList_perm op e _ (toList_perm_erase h), tallyList_cons,
    @Std.Commutative.comm M op _]

theorem erase_insert (m : ExtTreeMap α β cmp) (k : α) (v : β) :
    (m.insert k v).erase k = m.erase k := by
  refine ExtTreeMap.ext_getElem? fun k' => ?_
  rw [ExtTreeMap.getElem?_erase, ExtTreeMap.getElem?_erase, ExtTreeMap.getElem?_insert]
  split <;> rfl

theorem erase_eq_self {m : ExtTreeMap α β cmp} {k : α} (h : m[k]? = none) : m.erase k = m := by
  refine ExtTreeMap.ext_getElem? fun k' => ?_
  rw [ExtTreeMap.getElem?_erase]
  split
  · next hk =>
    obtain rfl := LawfulEqCmp.compare_eq_iff_eq.mp hk
    exact h.symm
  · rfl

/-- A map with the value of one key replaced, or taken out. -/
def put (m : ExtTreeMap α β cmp) (k : α) : Option β → ExtTreeMap α β cmp
  | some v => m.insert k v
  | none => m.erase k

theorem getElem?_put_self (m : ExtTreeMap α β cmp) (k : α) (o : Option β) :
    (put m k o)[k]? = o := by
  cases o with
  | some v => exact ExtTreeMap.getElem?_insert_self
  | none => exact ExtTreeMap.getElem?_erase_self

theorem erase_put (m : ExtTreeMap α β cmp) (k : α) (o : Option β) :
    (put m k o).erase k = m.erase k := by
  cases o with
  | some v => exact erase_insert m k v
  | none => exact erase_eq_self ExtTreeMap.getElem?_erase_self

/-- The part of one key in a total. -/
theorem tally_split (g : α → β → M) (m : ExtTreeMap α β cmp) (k : α) :
    tally op e g m = op (tally op e g (m.erase k)) ((m[k]?.map (g k)).getD e) := by
  cases h : m[k]? with
  | some v => exact tally_eq_erase op e g h
  | none =>
    rw [erase_eq_self h]
    exact (@Std.LawfulRightIdentity.right_id M M op e _ _).symm

theorem tally_put (g : α → β → M) (m : ExtTreeMap α β cmp) (k : α) (o : Option β) :
    tally op e g (put m k o) = op (tally op e g (m.erase k)) ((o.map (g k)).getD e) := by
  rw [tally_split op e g (put m k o) k, erase_put, getElem?_put_self]

end

end Sp00ky.Lib
