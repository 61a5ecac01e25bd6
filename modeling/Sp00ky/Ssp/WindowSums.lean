/-
  The additions of a window (`TopK::new`, `node_size`, `current_window`, `needs_rebuild` of
  `operator/top_k.rs`, `IndexWindow::read` of `operator/index_scan.rs`), on both targets.

  A function's sums are the values that its plain additions are to have; saturating ones have none.
  The end of a window and the power of two that sizes a node are the ones that can leave the range
  of `usize` (`window_sums_iff`); what `IndexWindow` adds up are positions of its index.
-/
import Sp00ky.Ssp.IndexWindows

namespace Sp00ky.Ssp

/-! ## Machine words -/

/-- The pointer width a node is built for. -/
inductive Target where
  | bits32
  | bits64
deriving DecidableEq, Repr

namespace Target

def width : Target → Nat
  | bits32 => 32
  | bits64 => 64

/-- The sums stay in the range of `usize`. -/
def InRange (t : Target) (sums : List Nat) : Prop := ∀ s ∈ sums, s < 2 ^ t.width

instance (t : Target) (sums : List Nat) : Decidable (t.InRange sums) :=
  inferInstanceAs (Decidable (∀ s ∈ sums, _))

/-- The length of a vector that fits in memory: at most `isize::MAX`. -/
def Fits (t : Target) (length : Nat) : Prop := length < 2 ^ (t.width - 1)

/-- `usize::saturating_add`. -/
def saturatingAdd (t : Target) (a b : Nat) : Nat := min (a + b) (2 ^ t.width - 1)

/-- `one_less_than_next_power_of_two`, which `next_power_of_two` adds one to. -/
def oneLess (n : Nat) : Nat := if n ≤ 1 then 0 else 2 ^ ((n - 1).log2 + 1) - 1

variable {t : Target}

theorem two_pow_width (t : Target) : 2 ^ t.width = 2 * 2 ^ (t.width - 1) := by
  cases t <;> rfl

theorem inRange_oneLess_iff {n : Nat} : t.InRange [oneLess n + 1] ↔ n ≤ 2 ^ (t.width - 1) := by
  have hpos : 0 < 2 ^ (t.width - 1) := Nat.two_pow_pos _
  have hone : 2 ^ 0 < 2 ^ t.width := Nat.pow_lt_pow_right (by decide) (by cases t <;> decide)
  unfold InRange oneLess
  rw [List.forall_mem_singleton]
  split
  next hle => exact ⟨fun _ => by omega, fun _ => hone⟩
  next hgt =>
    have hsum : 2 ^ ((n - 1).log2 + 1) - 1 + 1 = 2 ^ ((n - 1).log2 + 1) :=
      Nat.sub_add_cancel (Nat.two_pow_pos _)
    rw [hsum, Nat.pow_lt_pow_iff_right (by decide)]
    have hlog : (n - 1).log2 < t.width - 1 ↔ n - 1 < 2 ^ (t.width - 1) := Nat.log2_lt (by omega)
    omega

end Target

/-! ## Sums -/

variable (t : Target)

/-- `TopK::new`: the size of the buffer's node. -/
def newSums (limit offset : Nat) : List Nat :=
  let capacity := t.saturatingAdd (t.saturatingAdd offset limit) (max limit minSlack)
  [Target.oneLess (t.saturatingAdd capacity 1) + 1]

/-- `TopK::current_window`, over a buffer of `n` entries. -/
def currentWindowSums (limit offset n : Nat) : List Nat :=
  if n ≤ offset then [] else [offset + limit]

/-- `TopK::current_window`, where a sum out of range wraps. -/
def currentWindowAt {α : Type} (limit offset : Nat) (buffer : List α) : List α :=
  if buffer.length ≤ offset then []
  else
    let stop := min ((offset + limit) % 2 ^ t.width) buffer.length
    (buffer.drop offset).take (stop - offset)

theorem currentWindow_eq (op : TopK) :
    op.currentWindow = (currentWindowAt .bits64 op.limit op.offset op.buffer).map Prod.snd := by
  unfold TopK.currentWindow currentWindowAt
  dsimp only
  split <;> rfl

/-- `IndexWindow::nth`, from the field `field` on. -/
def nthLoopSums (ix : OrderedIndex) (prefixLen : Nat) :
    List Bool → (field a b k : Nat) → List Nat
  | [], _, a, b, k => if k < b - a then [a + k] else []
  | desc :: ds, field, a, b, k =>
    if b - a ≤ k then []
    else
      let p := if desc then b - 1 - k else a + k
      (if desc then [] else [a + k]) ++ [prefixLen + field, prefixLen + field + 1] ++
        match ix.groupOf p (prefixLen + field + 1) with
        | none => []
        | some (lo, hi) =>
          nthLoopSums ix prefixLen ds (field + 1) lo hi (k - if desc then b - hi else lo - a)

/-- `IndexWindow::read`, over the entries of its index that start with `pre`. -/
def readSums (w : IndexWindow) (ix : OrderedIndex) (pre : IndexKey) : List Nat :=
  let (lo, hi) := ix.prefixRange pre
  let len := hi - lo
  if len ≤ w.offset then []
  else
    let take := min w.limit (len - w.offset)
    if w.descending.contains true then
      (w.offset + take) :: (List.range' w.offset take).flatMap fun k =>
        nthLoopSums ix pre.length w.descending 0 lo hi k
    else [lo + w.offset, lo + w.offset + take]

/-! ## What stays in range -/

variable {t}

theorem prefixRange_le (ix : OrderedIndex) (pre : IndexKey) :
    (ix.prefixRange pre).1 ≤ (ix.prefixRange pre).2 ∧
      (ix.prefixRange pre).2 ≤ ix.entries.length := by
  have hlength : ∀ e, ix.rank e ≤ ix.entries.length := fun e =>
    (List.takeWhile_sublist _).length_le
  exact ⟨le_max_right _ _, max_le (hlength _) (hlength _)⟩

theorem inRange_nthLoopSums {ix : OrderedIndex} {prefixLen : Nat} (hix : t.Fits ix.entries.length)
    {ds : List Bool} {field a b k : Nat} (hlen : prefixLen + field + ds.length < 2 ^ t.width)
    (hb : b ≤ ix.entries.length) : t.InRange (nthLoopSums ix prefixLen ds field a b k) := by
  have hwidth := t.two_pow_width
  unfold Target.Fits at hix
  induction ds generalizing field a b k with
  | nil =>
    unfold nthLoopSums
    intro s hs
    split at hs
    · rw [List.mem_singleton.mp hs]
      omega
    · cases hs
  | cons desc ds ih =>
    rw [List.length_cons] at hlen
    unfold nthLoopSums
    intro s hs
    split at hs
    · cases hs
    · rcases List.mem_append.mp hs with hs | hs
      · rcases List.mem_append.mp hs with hs | hs
        · split at hs
          · cases hs
          · rw [List.mem_singleton.mp hs]
            omega
        · rcases List.mem_pair.mp hs with rfl | rfl <;> omega
      · split at hs
        · cases hs
        next lo hi hgroup =>
          obtain ⟨e, -, he⟩ := Option.map_eq_some_iff.mp hgroup
          have hle := (prefixRange_le ix (e.1.take (prefixLen + field + 1))).2
          rw [he] at hle
          exact ih (by omega) hle s hs

/-- What `IndexWindow::read` adds up stays in range. -/
theorem inRange_readSums (w : IndexWindow) (ix : OrderedIndex) (pre : IndexKey)
    (hix : t.Fits ix.entries.length) (hpre : t.Fits pre.length)
    (hdesc : t.Fits w.descending.length) : t.InRange (readSums w ix pre) := by
  have hwidth := t.two_pow_width
  obtain ⟨hle, hlen⟩ := prefixRange_le ix pre
  have hentries := hix
  unfold Target.Fits at hentries hpre hdesc
  unfold readSums
  dsimp only
  split
  · exact fun s hs => by cases hs
  next hin =>
    have htake := Nat.min_le_right w.limit ((ix.prefixRange pre).2 - (ix.prefixRange pre).1 - w.offset)
    split
    · intro s hs
      rcases List.mem_cons.mp hs with rfl | hs
      · omega
      · obtain ⟨k, -, hs⟩ := List.mem_flatMap.mp hs
        exact inRange_nthLoopSums hix (by omega) hlen s hs
    · intro s hs
      rcases List.mem_pair.mp hs with rfl | rfl <;> omega

theorem inRange_newSums_iff {limit offset : Nat} : t.InRange (newSums t limit offset) ↔
    offset + limit + max limit minSlack + 1 ≤ 2 ^ (t.width - 1) := by
  have hwidth := t.two_pow_width
  have hpos : 1 < 2 ^ (t.width - 1) := Nat.one_lt_two_pow (by cases t <;> decide)
  unfold newSums
  dsimp only
  rw [Target.inRange_oneLess_iff]
  unfold Target.saturatingAdd
  omega

/-- A window whose end is in range is whole. -/
theorem currentWindowAt_eq {α : Type} {limit offset : Nat} (h : offset + limit < 2 ^ t.width)
    (buffer : List α) : currentWindowAt t limit offset buffer = (buffer.drop offset).take limit := by
  unfold currentWindowAt
  split
  next hle => rw [List.drop_of_length_le hle, List.take_nil]
  next hgt =>
    dsimp only
    rw [Nat.mod_eq_of_lt h]
    have hlength : (buffer.drop offset).length = buffer.length - offset := List.length_drop
    rcases Nat.le_total (offset + limit) buffer.length with hle | hge
    · rw [Nat.min_eq_left hle, Nat.add_sub_cancel_left]
    · rw [Nat.min_eq_right hge, List.take_of_length_le (by omega), List.take_of_length_le (by omega)]

/-- Every addition of a window stays in range, and the window is whole, exactly when the window, its
slack and one more take up no more than half of what a `usize` counts. -/
theorem window_sums_iff (t : Target) (limit offset : Fin (2 ^ t.width)) :
    ((t.InRange (newSums t limit offset) ∧
      (∀ n, t.Fits n → t.InRange (currentWindowSums limit offset n)) ∧
      ∀ (binding : IndexBinding) (descending : List Bool) (ix : OrderedIndex) (pre : IndexKey),
        t.Fits ix.entries.length → t.Fits pre.length → t.Fits descending.length →
          t.InRange (readSums (.new binding limit offset descending) ix pre)) ∧
      ∀ buffer : List Entry, t.Fits buffer.length →
        currentWindowAt t limit offset buffer = (buffer.drop offset).take limit) ↔
    (offset : Nat) + limit + max (limit : Nat) minSlack + 1 ≤ 2 ^ (t.width - 1) := by
  rw [← inRange_newSums_iff]
  refine ⟨fun h => h.1.1, fun hnew => ?_⟩
  have hsum : (offset : Nat) + limit < 2 ^ t.width := by
    have := inRange_newSums_iff.mp hnew
    have := t.two_pow_width
    omega
  refine ⟨⟨hnew, fun n _ s hs => ?_, fun binding descending ix pre hix hpre hdesc =>
    inRange_readSums _ ix pre hix hpre hdesc⟩, fun buffer _ => currentWindowAt_eq hsum buffer⟩
  unfold currentWindowSums at hs
  split at hs
  · cases hs
  · rw [List.mem_singleton.mp hs]
    exact hsum

/-- `LIMIT 18446744073709551615 START 1` over two rows: the end of the window is out of range, and
where it wraps the window is empty. -/
theorem window_sums_wrap :
    ¬ Target.InRange .bits64 (newSums .bits64 (2 ^ 64 - 1) 1) ∧
      ¬ Target.InRange .bits64 (currentWindowSums (2 ^ 64 - 1) 1 2) ∧
      currentWindowAt .bits64 (2 ^ 64 - 1) 1 ["a", "b"] = [] ∧
      (["a", "b"].drop 1).take (2 ^ 64 - 1) = ["b"] := by
  refine ⟨?_, by decide, by decide, by decide⟩
  rw [inRange_newSums_iff]
  decide

end Sp00ky.Ssp
