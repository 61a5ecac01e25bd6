/-
  Outbox mutation ids (`packages/core/src/mutation/mutation-id.ts`) and the order `loadOutbox`
  reads them in (`rows.ts`, `push.saga.ts`).

  An id is thirteen digits of the clock, four base 36 digits of a counter and the tab. The counter
  runs across milliseconds and wraps on its own, so ids sort in the order they were minted exactly
  when it does not wrap between two calls of one millisecond (`mutation_ids_sorted_iff`).
-/
import Sp00ky.Core.OutboxMirror
import Mathlib.Data.Nat.Digits.Defs
import Mathlib.Data.String.Basic

namespace Sp00ky.Core.Client

/-! ## Numerals -/

/-- The digits of `Number.prototype.toString(radix)`. -/
def radixDigits : List Char := "0123456789abcdefghijklmnopqrstuvwxyz".toList

def radixDigit (d : Nat) : Char := radixDigits.getD d '0'

/-- `n.toString(b)`. -/
def toRadix (b n : Nat) : List Char :=
  if n = 0 then ['0'] else ((Nat.digits b n).map radixDigit).reverse

/-- `toRadix`, padded with `padStart(w, '0')`. -/
def padded (b w n : Nat) : List Char := (toRadix b n).leftpad w '0'

theorem radixDigit_lt {d e : Nat} (hlt : d < e) (he : e < 36) : radixDigit d < radixDigit e := by
  have hall : ∀ e < 36, ∀ d < e, radixDigit d < radixDigit e := by decide +kernel
  exact hall e he d hlt

/-- The last `w` digits of `n`. -/
def lastDigits (b : Nat) : Nat → Nat → List Char
  | 0, _ => []
  | w + 1, n => lastDigits b w (n / b) ++ [radixDigit (n % b)]

theorem lastDigits_length (b w n : Nat) : (lastDigits b w n).length = w := by
  induction w generalizing n with
  | zero => rfl
  | succ w ih => simp [lastDigits, ih]

theorem lastDigits_zero (b w : Nat) : lastDigits b w 0 = List.replicate w '0' := by
  induction w with
  | zero => rfl
  | succ w ih =>
    rw [lastDigits, Nat.zero_div, Nat.zero_mod, ih, List.replicate_succ']
    rfl

/-- Fewer than `w` digits are padded to `w`. -/
theorem padded_eq {b : Nat} (hb : 1 < b) {w n : Nat} (hw : 0 < w) (hn : n < b ^ w) :
    padded b w n = lastDigits b w n := by
  unfold padded toRadix
  split
  next hzero =>
    rw [hzero, lastDigits_zero, List.leftpad, List.length_singleton, ← List.replicate_succ',
      Nat.sub_add_cancel hw]
  next hne =>
    clear hw
    induction w generalizing n with
    | zero => exact absurd (Nat.lt_one_iff.mp hn) hne
    | succ w ih =>
      rw [lastDigits, Nat.digits_def' hb (by omega), List.map_cons, List.reverse_cons,
        List.leftpad, List.length_append, List.length_singleton, ← List.append_assoc]
      congr 1
      rw [Nat.add_sub_add_right]
      by_cases hdiv : n / b = 0
      · simp [hdiv, lastDigits_zero]
      · exact ih (Nat.div_lt_of_lt_mul (by rwa [← Nat.pow_succ'])) hdiv

theorem append_lt_append {l l' : List Char} (hlt : l < l') (hlen : l.length = l'.length)
    (s t : List Char) : l ++ s < l' ++ t := by
  induction l generalizing l' with
  | nil =>
    cases l' with
    | nil => cases hlt
    | cons a l' => cases hlen
  | cons a l ih =>
    cases l' with
    | nil => cases hlen
    | cons b l' =>
      rw [List.cons_append, List.cons_append, List.cons_lt_cons_iff]
      rcases List.cons_lt_cons_iff.mp hlt with hab | ⟨rfl, hrest⟩
      · exact .inl hab
      · exact .inr ⟨rfl, ih hrest (Nat.succ.inj hlen)⟩

/-- Numerals of one width sort as their numbers do. -/
theorem lastDigits_lt {b : Nat} (hb : 0 < b) (hb' : b ≤ 36) {w n m : Nat} (hlt : n < m)
    (hm : m < b ^ w) : lastDigits b w n < lastDigits b w m := by
  induction w generalizing n m with
  | zero => exact absurd (Nat.lt_one_iff.mp hm) (Nat.ne_zero_of_lt hlt)
  | succ w ih =>
    rw [lastDigits, lastDigits]
    rcases Nat.lt_or_eq_of_le (Nat.div_le_div_right (c := b) hlt.le) with hdiv | hdiv
    · exact append_lt_append (ih hdiv (Nat.div_lt_of_lt_mul (by rwa [← Nat.pow_succ'])))
        (by rw [lastDigits_length, lastDigits_length]) _ _
    · have hmod : n % b < m % b := by
        have hn := Nat.div_add_mod n b
        have hm := Nat.div_add_mod m b
        rw [hdiv] at hn
        omega
      rw [hdiv]
      refine List.append_left_lt (List.cons_lt_cons_iff.mpr (.inl ?_))
      exact radixDigit_lt hmod (lt_of_lt_of_le (Nat.mod_lt _ hb) hb')

/-! ## Minting -/

/-- The counter's period, `36 ** 4`. -/
def seqPeriod : Nat := 36 ^ 4

/-- The id for a clock reading and a counter. -/
def mutationId (tabId : String) (ts n : Nat) : String :=
  String.ofList ("_00_pending_mutations:".toList ++ (padded 10 13 ts ++
    ('_' :: (padded 36 4 n ++ ('_' :: tabId.toList)))))

theorem mutationId_toList (tabId : String) (ts n : Nat) :
    (mutationId tabId ts n).toList = "_00_pending_mutations:".toList ++ (padded 10 13 ts ++
      ('_' :: (padded 36 4 n ++ ('_' :: tabId.toList)))) :=
  String.toList_ofList

/-- `mintMutationId`, with what `Date.now()` reads: the id and the module's next `seq`. -/
def mintMutationId (fallbackTabId : String) (tabId : Option String) (now seq : Nat) :
    String × Nat :=
  let n := (seq + 1) % seqPeriod
  (mutationId (tabId.getD fallbackTabId) now n, n)

/-- The ids of one tab's calls, one for each reading of the clock. -/
def mintAll (fallbackTabId : String) (tabId : Option String) : Nat → List Nat → List String
  | _, [] => []
  | seq, now :: times =>
    let (id, seq') := mintMutationId fallbackTabId tabId now seq
    id :: mintAll fallbackTabId tabId seq' times

/-- `loadOutbox`: the rows in the order of their ids, as far as they can be replayed. -/
def loadOutbox (table : List (String × StoredRow)) : List OutboxItem :=
  (table.mergeSort fun r r' => r.1 ≤ r'.1).filterMap fun r => parsePendingRow r.1 r.2

section Mint

variable {fallbackTabId : String} {tabId : Option String}

theorem mintAll_length (seq : Nat) (times : List Nat) :
    (mintAll fallbackTabId tabId seq times).length = times.length := by
  induction times generalizing seq with
  | nil => rfl
  | cons now times ih => simp [mintAll, ih]

theorem mintAll_getElem (seq : Nat) (times : List Nat) (i : Nat) (h : i < times.length)
    {hlen : i < (mintAll fallbackTabId tabId seq times).length} :
    (mintAll fallbackTabId tabId seq times)[i] =
      mutationId (tabId.getD fallbackTabId) times[i] ((seq + i + 1) % seqPeriod) := by
  induction times generalizing seq i with
  | nil => cases h
  | cons now times ih =>
    cases i with
    | zero => rfl
    | succ i =>
      have hrest := @ih ((seq + 1) % seqPeriod) i (Nat.lt_of_succ_lt_succ h)
        (Nat.lt_of_succ_lt_succ hlen)
      simp only [mintAll, mintMutationId, List.getElem_cons_succ]
      rw [hrest, Nat.add_assoc, Nat.mod_add_mod]
      congr 2
      omega

end Mint

theorem mutationId_lt {tab : String} {ts ts' n n' : Nat} (hts : ts' < 10 ^ 13)
    (hn : n < seqPeriod) (hn' : n' < seqPeriod) (hlt : ts < ts' ∨ ts = ts' ∧ n < n') :
    mutationId tab ts n < mutationId tab ts' n' := by
  rw [String.lt_iff, mutationId_toList, mutationId_toList]
  apply List.append_left_lt
  have hseq : ∀ n < seqPeriod, padded 36 4 n = lastDigits 36 4 n :=
    fun n hn => padded_eq (by decide) (by decide) hn
  have hclock : ∀ ts < 10 ^ 13, padded 10 13 ts = lastDigits 10 13 ts :=
    fun ts hts => padded_eq (by decide) (by decide) hts
  rw [hseq n hn, hseq n' hn', hclock ts' hts, hclock ts (by omega)]
  rcases hlt with hlt | ⟨rfl, hlt⟩
  · exact append_lt_append (lastDigits_lt (by decide) (by decide) hlt hts)
      (by rw [lastDigits_length, lastDigits_length]) _ _
  · refine List.append_left_lt (List.cons_lt_cons_iff.mpr (.inr ⟨rfl, ?_⟩))
    exact append_lt_append (lastDigits_lt (by decide) (by decide) hlt hn')
      (by rw [lastDigits_length, lastDigits_length]) _ _

theorem loadOutbox_of_perm {rows table : List (String × StoredRow)}
    (hsorted : (rows.map (·.1)).Pairwise (· < ·)) (hperm : table.Perm rows) :
    loadOutbox table = rows.filterMap fun r => parsePendingRow r.1 r.2 := by
  have hrows : rows.Pairwise fun r r' => r.1 < r'.1 := List.pairwise_map.mp hsorted
  have hnodup : (rows.map (·.1)).Nodup := hsorted.imp fun h => h.ne
  have hmerge : (table.mergeSort fun r r' => decide (r.1 ≤ r'.1)).Pairwise
      fun r r' => r.1 ≤ r'.1 := by
    have h := @List.pairwise_mergeSort _ (fun r r' : String × StoredRow => decide (r.1 ≤ r'.1))
      (fun a b c hab hbc => by
        simp only [decide_eq_true_eq] at *
        exact hab.trans hbc)
      (fun a b => by simpa using le_total a.1 b.1) table
    simpa using h
  have heq : (table.mergeSort fun r r' => decide (r.1 ≤ r'.1)) = rows := by
    have hperm' := (List.mergeSort_perm table fun r r' => decide (r.1 ≤ r'.1)).trans hperm
    refine hperm'.eq_of_pairwise (fun r r' hr hr' hle hle' => ?_) hmerge (hrows.imp fun h => h.le)
    exact List.inj_on_of_nodup_map hnodup (hperm'.mem_iff.mp hr) hr' (le_antisymm hle hle')
  unfold loadOutbox
  rw [heq]

theorem mutation_ids_sorted_iff (fallbackTabId : String) (tabId : Option String) (seq : Nat)
    (times : List Nat) (hmono : times.Pairwise (· ≤ ·)) (hyear : ∀ now ∈ times, now < 10 ^ 13) :
    ((mintAll fallbackTabId tabId seq times).Nodup ∧
      (mintAll fallbackTabId tabId seq times).Pairwise (· < ·) ∧
      ∀ rows table : List (String × StoredRow),
        rows.map (·.1) = mintAll fallbackTabId tabId seq times → table.Perm rows →
          loadOutbox table = rows.filterMap fun r => parsePendingRow r.1 r.2) ↔
      ∀ i (h : i + 1 < times.length), times[i] = times[i + 1] →
        (seq + i + 1) % seqPeriod ≠ seqPeriod - 1 := by
  have hperiod : 0 < seqPeriod := by decide
  constructor
  · rintro ⟨-, hsorted, -⟩ i hi hsame hwrap
    have hlt := List.pairwise_iff_getElem.mp hsorted i (i + 1) (by rw [mintAll_length]; omega)
      (by rwa [mintAll_length]) (Nat.lt_succ_self i)
    rw [mintAll_getElem _ _ _ (by omega), mintAll_getElem _ _ _ hi] at hlt
    have hzero : (seq + (i + 1) + 1) % seqPeriod = 0 := by
      have hnext : seq + (i + 1) + 1 = seq + i + 1 + 1 := by omega
      rw [hnext, Nat.add_mod, hwrap]
      rfl
    rw [hwrap, hzero, hsame] at hlt
    refine lt_asymm hlt (mutationId_lt (hyear _ (List.getElem_mem _)) hperiod ?_ (.inr ⟨rfl, ?_⟩))
    · exact Nat.sub_lt hperiod Nat.one_pos
    · decide
  · intro hwrap
    have hsorted : (mintAll fallbackTabId tabId seq times).Pairwise (· < ·) := by
      refine List.isChain_iff_pairwise.mp (List.isChain_iff_getElem.mpr fun i hi => ?_)
      rw [mintAll_length] at hi
      have hle : times[i] ≤ times[i + 1] :=
        List.pairwise_iff_getElem.mp hmono i (i + 1) (by omega) hi (Nat.lt_succ_self i)
      rw [mintAll_getElem _ _ _ (by omega), mintAll_getElem _ _ _ hi]
      refine mutationId_lt (hyear _ (List.getElem_mem _)) (Nat.mod_lt _ hperiod)
        (Nat.mod_lt _ hperiod) ?_
      rcases Nat.lt_or_eq_of_le hle with hlt | hsame
      · exact .inl hlt
      · have hne := hwrap i hi hsame
        refine .inr ⟨hsame, ?_⟩
        have hlt := Nat.mod_lt (seq + i + 1) hperiod
        have hnext : (seq + (i + 1) + 1) % seqPeriod = (seq + i + 1) % seqPeriod + 1 := by
          rw [show seq + (i + 1) + 1 = seq + i + 1 + 1 by omega, Nat.add_mod]
          rw [Nat.mod_eq_of_lt (show 1 < seqPeriod by decide)]
          exact Nat.mod_eq_of_lt (by omega)
        omega
    refine ⟨hsorted.imp fun h => h.ne, hsorted, fun rows table hrows hperm => ?_⟩
    exact loadOutbox_of_perm (hrows ▸ hsorted) hperm

/-- Two calls of one millisecond and one of the next, the counter far from its end. -/
theorem mutation_ids_sorted_three :
    ((mintAll "k2f9x0" (some "tab1") 41 [1760000000000, 1760000000000, 1760000000001]).Nodup ∧
      (mintAll "k2f9x0" (some "tab1") 41
        [1760000000000, 1760000000000, 1760000000001]).Pairwise (· < ·) ∧
      ∀ rows table : List (String × StoredRow),
        rows.map (·.1) = mintAll "k2f9x0" (some "tab1") 41
          [1760000000000, 1760000000000, 1760000000001] → table.Perm rows →
          loadOutbox table = rows.filterMap fun r => parsePendingRow r.1 r.2) :=
  (mutation_ids_sorted_iff "k2f9x0" (some "tab1") 41 _ (by decide) (by decide)).mpr (by
    intro i hi _
    have hi : i < 2 := Nat.lt_of_succ_lt_succ hi
    rcases i with - | - | i
    · decide
    · decide
    · omega)

/-- The counter wraps between a create and its update, made in one millisecond. -/
theorem mutation_ids_not_sorted :
    ¬ ∀ (fallbackTabId : String) (tabId : Option String) (seq : Nat) (times : List Nat),
      times.Pairwise (· ≤ ·) → (∀ now ∈ times, now < 10 ^ 13) →
      (∀ now, times.count now < seqPeriod) →
      (mintAll fallbackTabId tabId seq times).Nodup ∧
        (mintAll fallbackTabId tabId seq times).Pairwise (· < ·) ∧
        ∀ rows table : List (String × StoredRow),
          rows.map (·.1) = mintAll fallbackTabId tabId seq times → table.Perm rows →
            loadOutbox table = rows.filterMap fun r => parsePendingRow r.1 r.2 := by
  intro hall
  have hids := (hall "k2f9x0" (some "tab1") 1679614 [1760000000000, 1760000000000] (by decide)
    (by decide) (fun now => lt_of_le_of_lt List.count_le_length (by decide))).2.1
  revert hids
  decide +kernel

end Sp00ky.Core.Client
