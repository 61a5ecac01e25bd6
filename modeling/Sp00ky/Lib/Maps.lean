/-
  Folds that update a map one key at a time.

  A hash-map loop `for (k, v) in m { acc.entry(k)... }` touches each key of `m`
  once, so the value it leaves at a key depends on that key alone
  (`getElem?_foldl_alter`), whatever order the loop visits the keys in.
-/
import Std.Data.ExtTreeMap
import Mathlib.Data.List.Nodup
import Mathlib.Data.List.Perm.Basic

namespace Sp00ky.Lib

open Std

variable {α β γ : Type} {cmp : α → α → Ordering} [TransCmp cmp] [LawfulEqCmp cmp]

/-- Alter every key of an association list in turn. -/
def alterAll (g : α → Option γ → β → Option γ) (init : ExtTreeMap α γ cmp) (l : List (α × β)) :
    ExtTreeMap α γ cmp :=
  l.foldl (fun acc kv => acc.alter kv.1 (fun old => g kv.1 old kv.2)) init

theorem getElem?_alterAll_of_not_mem (g : α → Option γ → β → Option γ) (l : List (α × β))
    (init : ExtTreeMap α γ cmp) {a : α} (h : ∀ kv ∈ l, kv.1 ≠ a) :
    (alterAll g init l)[a]? = init[a]? := by
  induction l generalizing init with
  | nil => rfl
  | cons kv l ih =>
    have hne : kv.1 ≠ a := h kv List.mem_cons_self
    rw [alterAll, List.foldl_cons, ← alterAll, ih _ (List.forall_mem_cons.mp h).2,
      ExtTreeMap.getElem?_alter, if_neg]
    simpa using hne

theorem getElem?_alterAll_of_mem (g : α → Option γ → β → Option γ) (l : List (α × β))
    (init : ExtTreeMap α γ cmp) {a : α} {b : β} (hd : (l.map Prod.fst).Nodup) (h : (a, b) ∈ l) :
    (alterAll g init l)[a]? = g a init[a]? b := by
  induction l generalizing init with
  | nil => cases h
  | cons kv l ih =>
    simp only [List.map_cons, List.nodup_cons] at hd
    rw [alterAll, List.foldl_cons, ← alterAll]
    rcases List.mem_cons.mp h with rfl | h'
    · rw [getElem?_alterAll_of_not_mem, ExtTreeMap.getElem?_alter_self]
      rintro ⟨k, b'⟩ hkb rfl
      exact hd.1 (List.mem_map.mpr ⟨(k, b'), hkb, rfl⟩)
    · have hne : kv.1 ≠ a := by
        rintro rfl
        exact hd.1 (List.mem_map.mpr ⟨_, h', rfl⟩)
      rw [ih _ hd.2 h', ExtTreeMap.getElem?_alter, if_neg]
      simpa using hne

/-- The entries of a map visited in some order of its keys. -/
def entriesIn (m : ExtTreeMap α β cmp) (order : List α) : List (α × β) :=
  order.filterMap fun k => m[k]?.map (k, ·)

variable {m : ExtTreeMap α β cmp}

omit [LawfulEqCmp cmp] in
theorem mem_of_getElem? {a : α} {b : β} (h : m[a]? = some b) : a ∈ m :=
  ExtTreeMap.mem_iff_isSome_getElem?.mpr (by rw [h]; rfl)

theorem mem_keys_of_getElem? {a : α} {b : β} (h : m[a]? = some b) : a ∈ m.keys :=
  ExtTreeMap.mem_keys.mpr (mem_of_getElem? h)

omit [LawfulEqCmp cmp] in
theorem mem_entriesIn {order : List α} {a : α} {b : β} :
    (a, b) ∈ entriesIn m order ↔ a ∈ order ∧ m[a]? = some b := by
  simp only [entriesIn, List.mem_filterMap, Option.map_eq_some_iff, Prod.mk.injEq]
  constructor
  · rintro ⟨k, hk, b', hb, rfl, rfl⟩
    exact ⟨hk, hb⟩
  · rintro ⟨ha, hb⟩
    exact ⟨a, ha, b, hb, rfl, rfl⟩

omit [LawfulEqCmp cmp] in
theorem map_fst_entriesIn (m : ExtTreeMap α β cmp) (order : List α) :
    (entriesIn m order).map Prod.fst = order.filter m.contains := by
  induction order with
  | nil => rfl
  | cons k order ih =>
    simp only [entriesIn] at ih ⊢
    have hc : m.contains k = m[k]?.isSome := by simp
    cases hk : m[k]? with
    | none =>
      rw [hk] at hc
      rw [List.filterMap_cons, hk, List.filter_cons_of_neg (by simp [hc])]
      exact ih
    | some b =>
      rw [hk] at hc
      rw [List.filterMap_cons, hk, List.filter_cons_of_pos (by simp [hc])]
      simpa using ih

omit [LawfulEqCmp cmp] in
theorem nodup_keys_entriesIn (m : ExtTreeMap α β cmp) {order : List α} (h : order.Nodup) :
    ((entriesIn m order).map Prod.fst).Nodup := by
  rw [map_fst_entriesIn]
  exact h.filter _

theorem nodup_keys (m : ExtTreeMap α β cmp) : m.keys.Nodup := by
  have h := m.distinct_keys
  refine h.imp ?_
  intro a b hab heq
  exact hab (by rw [heq]; exact ReflCmp.compare_self)

theorem nodup_toList (m : ExtTreeMap α β cmp) : m.toList.Nodup := by
  have h := nodup_keys m
  rw [← ExtTreeMap.map_fst_toList_eq_keys] at h
  exact List.Nodup.of_map _ h

/-- The entries of a map with one of them taken out in front. -/
theorem toList_perm_erase {k : α} {v : β} (h : m[k]? = some v) :
    m.toList.Perm ((k, v) :: (m.erase k).toList) := by
  have herase : ∀ w, (k, w) ∉ (m.erase k).toList := by
    intro w hw
    have := ExtTreeMap.mem_toList_iff_getElem?_eq_some.mp hw
    simp at this
  refine (List.perm_ext_iff_of_nodup (nodup_toList m)
    (List.nodup_cons.mpr ⟨herase v, nodup_toList _⟩)).mpr ?_
  rintro ⟨a, b⟩
  rw [List.mem_cons, ExtTreeMap.mem_toList_iff_getElem?_eq_some,
    ExtTreeMap.mem_toList_iff_getElem?_eq_some, ExtTreeMap.getElem?_erase]
  by_cases hk : cmp k a = .eq
  · obtain rfl := LawfulEqCmp.compare_eq_iff_eq.mp hk
    simp [h, eq_comm]
  · have hne : a ≠ k := fun he => hk (he ▸ ReflCmp.compare_self)
    simp [hk, hne]

/-- A commutative fold over a map takes one entry last. -/
theorem foldl_eq_erase {δ : Type} {f : δ → α → β → δ}
    (hf : ∀ d a b a' b', f (f d a b) a' b' = f (f d a' b') a b) (init : δ) {k : α} {v : β} (h : m[k]? = some v) :
    m.foldl f init = f ((m.erase k).foldl f init) k v := by
  rw [ExtTreeMap.foldl_eq_foldl_toList, ExtTreeMap.foldl_eq_foldl_toList]
  have hp := (toList_perm_erase h).trans (List.perm_append_singleton (k, v) _).symm
  rw [hp.foldl_eq' (fun x _ y _ d => hf d x.1 x.2 y.1 y.2), List.foldl_append]
  rfl

theorem filter_empty (f : α → β → Bool) : (∅ : ExtTreeMap α β cmp).filter f = ∅ := by
  refine ExtTreeMap.ext_getElem? fun k => ?_
  rw [ExtTreeMap.getElem?_filter']
  simp

theorem filter_true (m : ExtTreeMap α β cmp) : m.filter (fun _ _ => true) = m := by
  refine ExtTreeMap.ext_getElem? fun k => ?_
  rw [ExtTreeMap.getElem?_filter']
  cases m[k]? <;> rfl

/-- A filter that reads the key only. -/
theorem getElem?_filter_key (m : ExtTreeMap α β cmp) (f : α → Bool) (k : α) :
    (m.filter fun a _ => f a)[k]? = if f k then m[k]? else none := by
  rw [ExtTreeMap.getElem?_filter']
  cases m[k]? with
  | none => simp
  | some b => cases hf : f k <;> simp [Option.filter, hf]

theorem filter_filter (m : ExtTreeMap α β cmp) (f f' : α → β → Bool) :
    (m.filter f).filter f' = m.filter fun k v => f k v && f' k v := by
  refine ExtTreeMap.ext_getElem? fun k => ?_
  simp only [ExtTreeMap.getElem?_filter']
  cases m[k]? with
  | none => rfl
  | some v => by_cases h : f k v <;> by_cases h' : f' k v <;> simp [Option.filter, h, h']

/-- `for (k, v) in m { acc.entry(k) := g k old v }`. -/
def foldAlter (g : α → Option γ → β → Option γ) (init : ExtTreeMap α γ cmp)
    (m : ExtTreeMap α β cmp) : ExtTreeMap α γ cmp :=
  m.foldl (fun acc k v => acc.alter k (fun old => g k old v)) init

theorem getElem?_foldAlter (g : α → Option γ → β → Option γ) (init : ExtTreeMap α γ cmp)
    (m : ExtTreeMap α β cmp) (a : α) :
    (foldAlter g init m)[a]? =
      match m[a]? with
      | none => init[a]?
      | some b => g a init[a]? b := by
  have hfold : foldAlter g init m = alterAll g init m.toList := ExtTreeMap.foldl_eq_foldl_toList
  have hd : (m.toList.map Prod.fst).Nodup := by
    rw [ExtTreeMap.map_fst_toList_eq_keys]
    exact nodup_keys m
  rw [hfold]
  cases ha : m[a]? with
  | none =>
    refine getElem?_alterAll_of_not_mem g _ init ?_
    rintro ⟨k, b⟩ hkb rfl
    rw [ExtTreeMap.mem_toList_iff_getElem?_eq_some.mp hkb] at ha
    cases ha
  | some b =>
    exact getElem?_alterAll_of_mem g _ init hd (ExtTreeMap.mem_toList_iff_getElem?_eq_some.mpr ha)

/-- Fold over a list of keys, altering the key visited: a key of the list is altered by the
    values it held, whatever comes before or after it. -/
theorem getElem?_foldl_alter_keys [DecidableEq α] (g : α → Option γ → Option γ) (l : List α) (hd : l.Nodup)
    (init : ExtTreeMap α γ cmp) (a : α) :
    (l.foldl (fun acc k => acc.alter k (g k)) init)[a]? =
      if a ∈ l then g a init[a]? else init[a]? := by
  induction l generalizing init with
  | nil => simp
  | cons k l ih =>
    simp only [List.nodup_cons] at hd
    rw [List.foldl_cons, ih hd.2, ExtTreeMap.getElem?_alter]
    by_cases hka : k = a
    · subst hka
      simp [hd.1]
    · have : cmp k a ≠ .eq := by simpa using hka
      simp [this, Ne.symm hka]

/-! ## Folds whose steps have a key each -/

section Keyed

variable {σ ι κ δ : Type} [DecidableEq κ] {f : σ → ι → σ} {key : ι → Option κ} {look : σ → κ → δ}
  {g : ι → δ → δ}

/-- A fold without a step under a key leaves what is found there. -/
theorem foldl_keyed_of_not_mem
    (h : ∀ s b k, look (f s b) k = if key b = some k then g b (look s k) else look s k)
    {l : List ι} {k : κ} (hk : ∀ b ∈ l, key b ≠ some k) (s : σ) :
    look (l.foldl f s) k = look s k := by
  induction l generalizing s with
  | nil => rfl
  | cons b l ih =>
    rw [List.foldl_cons, ih (List.forall_mem_cons.mp hk).2, h,
      if_neg (hk b List.mem_cons_self)]

/-- A fold with one step under a key leaves there what that step does. -/
theorem foldl_keyed_of_mem
    (h : ∀ s b k, look (f s b) k = if key b = some k then g b (look s k) else look s k)
    {l : List ι} (hl : l.Nodup) {b : ι} (hb : b ∈ l) {k : κ} (hkey : key b = some k)
    (hone : ∀ b' ∈ l, key b' = some k → b' = b) (s : σ) :
    look (l.foldl f s) k = g b (look s k) := by
  induction l generalizing s with
  | nil => cases hb
  | cons b' l ih =>
    obtain ⟨hnot, hl⟩ := List.nodup_cons.mp hl
    rw [List.foldl_cons]
    rcases List.mem_cons.mp hb with rfl | hmem
    · rw [foldl_keyed_of_not_mem h, h, if_pos hkey]
      intro c hc hck
      exact hnot (hone c (List.mem_cons_of_mem _ hc) hck ▸ hc)
    · rw [ih hl hmem (List.forall_mem_cons.mp hone).2, h, if_neg]
      intro hck
      exact hnot (hone b' List.mem_cons_self hck ▸ hmem)

end Keyed

end Sp00ky.Lib
