/-
  Loops that insert into a map, where a later insert overwrites an earlier one.

  `writeAll f init l` inserts what `f` gives for each element of `l` in turn. A
  key ends up with the last value written to it, or with what it held before
  (`getElem?_writeAll`). `moveLast` puts one element at the end of the visit, so
  that its write is the one that stays.
-/
import Sp00ky.Lib.Maps

namespace Sp00ky.Lib

open Std

section Write

variable {ι α β : Type} {cmp : α → α → Ordering} [TransCmp cmp] [LawfulEqCmp cmp]

/-- Insert what each element gives, in order. -/
def writeAll (f : ι → Option (α × β)) (init : ExtTreeMap α β cmp) (l : List ι) :
    ExtTreeMap α β cmp :=
  l.foldl (fun acc x => (f x).elim acc fun kv => acc.insert kv.1 kv.2) init

/-- What an element writes to one key. -/
def writeTo [DecidableEq α] (f : ι → Option (α × β)) (k : α) (x : ι) : Option β :=
  match f x with
  | some kv => if kv.1 = k then some kv.2 else none
  | none => none

variable {f : ι → Option (α × β)}

theorem writeTo_eq_some [DecidableEq α] {k : α} {x : ι} {v : β} :
    writeTo f k x = some v ↔ f x = some (k, v) := by
  unfold writeTo
  cases h : f x with
  | none => simp
  | some kv =>
    obtain ⟨a, b⟩ := kv
    by_cases hk : a = k
    · simp [hk]
    · simp [hk]

/-- The last write to a key stays. -/
theorem getElem?_writeAll [DecidableEq α] (f : ι → Option (α × β)) (init : ExtTreeMap α β cmp)
    (l : List ι) (k : α) :
    (writeAll f init l)[k]? = ((l.filterMap (writeTo f k)).getLast?).or init[k]? := by
  induction l generalizing init with
  | nil => rfl
  | cons x l ih =>
    have hstep : writeAll f init (x :: l) =
        writeAll f ((f x).elim init fun kv => init.insert kv.1 kv.2) l := rfl
    have hget : ((f x).elim init fun kv => init.insert kv.1 kv.2)[k]? =
        (writeTo f k x).or init[k]? := by
      unfold writeTo
      cases f x with
      | none => rfl
      | some kv =>
        rw [Option.elim_some, ExtTreeMap.getElem?_insert]
        by_cases hk : kv.1 = k
        · simp [hk]
        · simp [hk]
    rw [hstep, ih, hget, List.filterMap_cons]
    cases writeTo f k x with
    | none => simp
    | some v =>
      rw [List.getLast?_cons]
      cases (l.filterMap (writeTo f k)).getLast? <;> rfl

/-- A key nobody writes to keeps its value. -/
theorem getElem?_writeAll_none [DecidableEq α]
    {init : ExtTreeMap α β cmp} {l : List ι} {k : α} (h : ∀ x ∈ l, ∀ v, f x ≠ some (k, v)) :
    (writeAll f init l)[k]? = init[k]? := by
  have hnil : l.filterMap (writeTo f k) = [] := by
    rw [List.filterMap_eq_nil_iff]
    intro x hx
    cases hw : writeTo f k x with
    | none => rfl
    | some v => exact absurd (writeTo_eq_some.mp hw) (h x hx v)
  rw [getElem?_writeAll, hnil]
  rfl

/-- A key somebody writes to has one of the values written. -/
theorem getElem?_writeAll_some [DecidableEq α]
    (init : ExtTreeMap α β cmp) {l : List ι} {k : α} {x : ι} {v : β} (hx : x ∈ l)
    (h : f x = some (k, v)) :
    ∃ y ∈ l, ∃ v', f y = some (k, v') ∧ (writeAll f init l)[k]? = some v' := by
  have hmem : v ∈ l.filterMap (writeTo f k) :=
    List.mem_filterMap.mpr ⟨x, hx, writeTo_eq_some.mpr h⟩
  have hne : l.filterMap (writeTo f k) ≠ [] := List.ne_nil_of_mem hmem
  have hlast := List.getLast?_eq_some_getLast hne
  obtain ⟨y, hy, hyv⟩ := List.mem_filterMap.mp (List.getLast_mem hne)
  refine ⟨y, hy, _, writeTo_eq_some.mp hyv, ?_⟩
  rw [getElem?_writeAll, hlast, Option.some_or]

/-- What a map filled from nothing holds was written. -/
theorem writeAll_empty_some [DecidableEq α] {l : List ι} {k : α} {v : β}
    (h : (writeAll f (∅ : ExtTreeMap α β cmp) l)[k]? = some v) : ∃ x ∈ l, f x = some (k, v) := by
  rw [getElem?_writeAll] at h
  have hlast : (l.filterMap (writeTo f k)).getLast? = some v := by simpa using h
  obtain ⟨x, hx, hv⟩ := List.mem_filterMap.mp (List.mem_of_getLast? hlast)
  exact ⟨x, hx, writeTo_eq_some.mp hv⟩

end Write

section Move

variable {α β : Type} [DecidableEq α]

/-- Visit one element last. -/
def moveLast (a : α) (l : List α) : List α := l.filter (· ≠ a) ++ l.filter (· = a)

theorem moveLast_perm (a : α) (l : List α) : (moveLast a l).Perm l := by
  unfold moveLast
  refine (List.perm_append_comm).trans ?_
  have h := List.filter_append_perm (fun x => decide (x = a)) l
  simpa using h

/-- The element moved to the end gives the last value. -/
theorem getLast?_moveLast {g : α → Option β} {a : α} {l : List α} {v : β} (ha : a ∈ l)
    (hg : g a = some v) : ((moveLast a l).filterMap g).getLast? = some v := by
  have hne : (l.filter (· = a)).filterMap g ≠ [] :=
    List.ne_nil_of_mem (List.mem_filterMap.mpr ⟨a, List.mem_filter.mpr ⟨ha, by simp⟩, hg⟩)
  unfold moveLast
  rw [List.filterMap_append, List.getLast?_append, List.getLast?_eq_some_getLast hne,
    Option.some_or]
  obtain ⟨y, hy, hyv⟩ := List.mem_filterMap.mp (List.getLast_mem hne)
  obtain rfl : y = a := by simpa using (List.mem_filter.mp hy).2
  rw [← hyv, hg]

/-- An element that gives nothing may be moved. -/
theorem getLast?_moveLast_none {g : α → Option β} {a : α} (l : List α) (hg : g a = none) :
    ((moveLast a l).filterMap g).getLast? = (l.filterMap g).getLast? := by
  have hnil : (l.filter (· = a)).filterMap g = [] := by
    rw [List.filterMap_eq_nil_iff]
    intro x hx
    obtain rfl : x = a := by simpa using (List.mem_filter.mp hx).2
    exact hg
  have hsame : (l.filter (· ≠ a)).filterMap g = l.filterMap g := by
    induction l with
    | nil => rfl
    | cons x l ih =>
      by_cases hx : x = a
      · subst hx
        rw [List.filter_cons_of_neg (by simp), List.filterMap_cons, hg]
        refine ih ?_
        rw [List.filterMap_eq_nil_iff] at hnil ⊢
        intro y hy
        exact hnil y (List.mem_filter.mpr
          ⟨List.mem_cons_of_mem _ (List.mem_filter.mp hy).1, (List.mem_filter.mp hy).2⟩)
      · rw [List.filter_cons_of_pos (by simpa using hx), List.filterMap_cons, List.filterMap_cons,
          ih]
        rw [List.filter_cons_of_neg (by simpa using hx)] at hnil
        exact hnil
  unfold moveLast
  rw [List.filterMap_append, hnil, List.append_nil, hsame]

end Move

end Sp00ky.Lib
