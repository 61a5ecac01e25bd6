/-
  A map as the list of its entries, in the order they were put in.

  It is what `Map` is in JavaScript, read and written as an array of pairs: `set` changes an entry
  where it stands or appends it. A loop that sets what a test lets through is `setWhere`; on a list
  with one entry for each key it decides every key for itself (`get_setWhere`).
-/
import Mathlib.Data.List.Nodup
import Mathlib.Order.Defs.PartialOrder

namespace Sp00ky.Lib.EntryMap

variable {α β : Type} [DecidableEq α]

def get (m : List (α × β)) (k : α) : Option β := (m.find? fun e => e.1 = k).map (·.2)

def set (m : List (α × β)) (k : α) (v : β) : List (α × β) :=
  if m.any fun e => e.1 = k then m.map fun e => if e.1 = k then (k, v) else e else m ++ [(k, v)]

def delete (m : List (α × β)) (k : α) : List (α × β) := m.filter fun e => e.1 ≠ k

/-- `new Map(pairs)`. -/
def ofPairs (l : List (α × β)) : List (α × β) := l.foldl (fun m e => set m e.1 e.2) []

/-- Each entry is set if the test of what is there lets it through. -/
def setWhere (p : α → Option β → β → Bool) (m l : List (α × β)) : List (α × β) :=
  l.foldl (fun m e => if p e.1 (get m e.1) e.2 then set m e.1 e.2 else m) m

/-- There is one entry for a key. -/
def Keyed (m : List (α × β)) : Prop := (m.map Prod.fst).Nodup

instance (m : List (α × β)) : Decidable (Keyed m) := inferInstanceAs (Decidable (List.Nodup _))

/-! ## Reads -/

@[simp]
theorem get_nil (k : α) : get ([] : List (α × β)) k = none := rfl

theorem get_cons (e : α × β) (m : List (α × β)) (k : α) :
    get (e :: m) k = if e.1 = k then some e.2 else get m k := by
  unfold get
  by_cases h : e.1 = k
  · rw [List.find?_cons_of_pos (by simpa using h), if_pos h]
    rfl
  · rw [List.find?_cons_of_neg (by simpa using h), if_neg h]

theorem get_append (m m' : List (α × β)) (k : α) : get (m ++ m') k = (get m k).or (get m' k) := by
  induction m with
  | nil => rfl
  | cons e m ih =>
    rw [List.cons_append, get_cons, get_cons, ih]
    split <;> rfl

variable {m l : List (α × β)} {k : α}

theorem mem_of_get {v : β} (h : get m k = some v) : (k, v) ∈ m := by
  obtain ⟨e, he, rfl⟩ := Option.map_eq_some_iff.mp h
  have hk : e.1 = k := by simpa using List.find?_some he
  exact hk ▸ List.mem_of_find?_eq_some he

theorem get_eq_none : get m k = none ↔ k ∉ m.map Prod.fst := by
  rw [get, Option.map_eq_none_iff, List.find?_eq_none]
  constructor
  · intro h hmem
    obtain ⟨e, he, hk⟩ := List.mem_map.mp hmem
    exact h e he (decide_eq_true hk)
  · intro h e he hk
    exact h (List.mem_map.mpr ⟨e, he, of_decide_eq_true hk⟩)

theorem get_of_mem (hm : Keyed m) {v : β} (h : (k, v) ∈ m) :
    get m k = some v := by
  cases hg : get m k with
  | none => exact absurd (List.mem_map_of_mem (f := Prod.fst) h) (get_eq_none.mp hg)
  | some v' =>
    have hsame : (k, v') = (k, v) := List.inj_on_of_nodup_map hm (mem_of_get hg) h rfl
    exact congrArg some (congrArg Prod.snd hsame)

/-! ## Writes -/

theorem map_fst_replace (m : List (α × β)) (k : α) (v : β) :
    (m.map fun e => if e.1 = k then (k, v) else e).map Prod.fst = m.map Prod.fst := by
  rw [List.map_map]
  refine List.map_congr_left fun e _ => ?_
  by_cases h : e.1 = k <;> simp [h]

theorem get_replace (m : List (α × β)) (k : α) (v : β) (k' : α) :
    get (m.map fun e => if e.1 = k then (k, v) else e) k' =
      if k' = k then (get m k).map (fun _ => v) else get m k' := by
  induction m with
  | nil => by_cases h : k' = k <;> simp [h]
  | cons e m ih =>
    rw [List.map_cons, get_cons, get_cons, get_cons, ih]
    by_cases he : e.1 = k
    · by_cases hk : k' = k
      · simp [he, hk]
      · simp [he, hk, Ne.symm hk]
    · by_cases hk : k' = k
      · subst hk
        simp [he]
      · simp [he, hk]

theorem get_set (m : List (α × β)) (k : α) (v : β) (k' : α) :
    get (set m k v) k' = if k' = k then some v else get m k' := by
  unfold set
  split
  next h =>
    rw [get_replace]
    have hthere : get m k ≠ none := by
      rw [Ne, get_eq_none]
      obtain ⟨e, he, hk⟩ := List.any_eq_true.mp h
      exact fun hno => hno (List.mem_map.mpr ⟨e, he, of_decide_eq_true hk⟩)
    obtain ⟨v', hv'⟩ := Option.ne_none_iff_exists'.mp hthere
    rw [hv']
    rfl
  next h =>
    have hnone : get m k = none := by
      rw [get_eq_none]
      intro hmem
      obtain ⟨e, he, hk⟩ := List.mem_map.mp hmem
      exact h (List.any_eq_true.mpr ⟨e, he, decide_eq_true hk⟩)
    rw [get_append, get_cons, get_nil]
    by_cases hk : k' = k
    · subst hk
      rw [hnone]
      simp
    · rw [if_neg hk, if_neg (Ne.symm hk), Option.or_none]

theorem get_delete (m : List (α × β)) (k k' : α) :
    get (delete m k) k' = if k' = k then none else get m k' := by
  induction m with
  | nil => by_cases h : k' = k <;> simp [delete, h]
  | cons e m ih =>
    unfold delete at ih ⊢
    by_cases he : e.1 = k
    · rw [List.filter_cons_of_neg (by simpa using he), ih, get_cons]
      by_cases hk : k' = k
      · rw [if_pos hk, if_pos hk]
      · rw [if_neg hk, if_neg hk, if_neg (fun h => hk (h.symm.trans he))]
    · rw [List.filter_cons_of_pos (by simpa using he), get_cons, ih, get_cons]
      by_cases hk : k' = k
      · rw [if_pos hk, if_pos hk, if_neg (fun h => he (h.trans hk))]
      · rw [if_neg hk, if_neg hk]

theorem mem_of_mem_set {v : β} {e : α × β} (h : e ∈ set m k v) :
    e ∈ m ∨ e = (k, v) := by
  unfold set at h
  split at h
  · obtain ⟨e', he', rfl⟩ := List.mem_map.mp h
    by_cases hk : e'.1 = k
    · exact .inr (if_pos hk)
    · left
      rw [if_neg hk]
      exact he'
  · simpa using h

theorem keyed_set (hm : Keyed m) (k : α) (v : β) : Keyed (set m k v) := by
  unfold set Keyed
  split
  next => rw [map_fst_replace]; exact hm
  next h =>
    rw [List.map_append]
    refine List.nodup_append.mpr ⟨hm, List.nodup_singleton _, fun a ha b hb => ?_⟩
    rw [List.mem_singleton.mp hb]
    rintro rfl
    obtain ⟨e, he, hk⟩ := List.mem_map.mp ha
    exact h (List.any_eq_true.mpr ⟨e, he, decide_eq_true hk⟩)

theorem keyed_delete (hm : Keyed m) (k : α) : Keyed (delete m k) :=
  List.Nodup.sublist (List.filter_sublist.map Prod.fst) hm

theorem keyed_foldl_set (l m : List (α × β)) (hm : Keyed m) :
    Keyed (l.foldl (fun m e => set m e.1 e.2) m) := by
  induction l generalizing m with
  | nil => exact hm
  | cons e l ih => exact ih _ (keyed_set hm _ _)

theorem keyed_ofPairs (l : List (α × β)) : Keyed (ofPairs l) := keyed_foldl_set l [] List.nodup_nil

/-! ## Loops -/

theorem keyed_setWhere (p : α → Option β → β → Bool) (hm : Keyed m)
    (l : List (α × β)) : Keyed (setWhere p m l) := by
  unfold setWhere
  induction l generalizing m with
  | nil => exact hm
  | cons e l ih =>
    rw [List.foldl_cons]
    refine ih ?_
    split
    · exact keyed_set hm _ _
    · exact hm

theorem get_setWhere_of_not_mem (p : α → Option β → β → Bool) (m : List (α × β)) (h : k ∉ l.map Prod.fst) : get (setWhere p m l) k = get m k := by
  unfold setWhere
  induction l generalizing m with
  | nil => rfl
  | cons e l ih =>
    rw [List.map_cons, List.mem_cons, not_or] at h
    rw [List.foldl_cons, ih _ h.2]
    split
    · rw [get_set, if_neg h.1]
    · rfl

/-- With one entry for each key, the loop decides each key for itself. -/
theorem get_setWhere (p : α → Option β → β → Bool) (m : List (α × β)) (hl : Keyed l) (k : α) :
    get (setWhere p m l) k = match get l k with
      | none => get m k
      | some v => if p k (get m k) v then some v else get m k := by
  unfold setWhere
  induction l generalizing m with
  | nil => rfl
  | cons e l ih =>
    have hl' : e.1 ∉ l.map Prod.fst ∧ Keyed l := List.nodup_cons.mp hl
    rw [List.foldl_cons, get_cons]
    by_cases hk : e.1 = k
    · subst hk
      rw [if_pos rfl]
      have hrest := get_setWhere_of_not_mem p
        (if p e.1 (get m e.1) e.2 then set m e.1 e.2 else m) hl'.1
      rw [setWhere] at hrest
      rw [hrest]
      dsimp only
      split
      · rw [get_set, if_pos rfl]
      · rfl
    · rw [if_neg hk, ih _ hl'.2]
      have hsame : get (if p e.1 (get m e.1) e.2 then set m e.1 e.2 else m) k = get m k := by
        split
        · rw [get_set, if_neg (Ne.symm hk)]
        · rfl
      rw [hsame]

/-- What is there after the loop was there, or is an entry of the list. -/
theorem of_get_setWhere {p : α → Option β → β → Bool} {v : β}
    (h : get (setWhere p m l) k = some v) : get m k = some v ∨ (k, v) ∈ l := by
  unfold setWhere at h
  induction l generalizing m with
  | nil => exact .inl h
  | cons e l ih =>
    rw [List.foldl_cons] at h
    rcases ih h with hm | hl
    · split at hm
      · rw [get_set] at hm
        split at hm
        next hk =>
          cases hm
          exact .inr (hk ▸ List.mem_cons_self)
        next => exact .inl hm
      · exact .inl hm
    · exact .inr (List.mem_cons_of_mem _ hl)

/-- A loop that only raises what is there keeps every key, at no lower value. -/
theorem le_get_setWhere [Preorder β] {p : α → Option β → β → Bool}
    (hp : ∀ k v v', p k (some v) v' = true → v ≤ v') {v : β}
    (h : get m k = some v) : ∃ v', get (setWhere p m l) k = some v' ∧ v ≤ v' := by
  unfold setWhere
  induction l generalizing m v with
  | nil => exact ⟨v, h, le_refl v⟩
  | cons e l ih =>
    rw [List.foldl_cons]
    split
    next hset =>
      by_cases hk : k = e.1
      · subst hk
        rw [h] at hset
        have hget : get (set m e.1 e.2) e.1 = some e.2 := by rw [get_set, if_pos rfl]
        obtain ⟨v', hv', hle⟩ := ih hget
        exact ⟨v', hv', le_trans (hp _ _ _ hset) hle⟩
      · exact ih (by rw [get_set, if_neg hk]; exact h)
    next => exact ih h

theorem get_foldl_set (l m : List (α × β)) (hl : Keyed l) (k : α) :
    get (l.foldl (fun m e => set m e.1 e.2) m) k = (get l k).or (get m k) := by
  have hwhere := get_setWhere (fun _ _ _ => true) m hl k
  have hsame : setWhere (fun _ _ _ => true) m l = l.foldl (fun m e => set m e.1 e.2) m := by
    simp [setWhere]
  rw [← hsame, hwhere]
  cases get l k <;> rfl

theorem get_ofPairs (hl : Keyed l) (k : α) : get (ofPairs l) k = get l k := by
  rw [ofPairs, get_foldl_set l [] hl, get_nil, Option.or_none]

end Sp00ky.Lib.EntryMap
