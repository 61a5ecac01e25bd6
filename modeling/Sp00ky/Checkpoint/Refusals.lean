/-
  A refused delta and the table it is refused by.

  `load_table` says of a delta that fails that the table is "as it was before that delta". On the
  heap that depends on how the delta fails: `read_table` takes the hash check for the one failure
  that leaves the index changed, but a repeated name leaves the dictionary longer, and a bad head
  leaves the rows before it absorbed. `RefusedCleanly` is when nothing of that shows.
-/
import Sp00ky.Checkpoint.Chained

namespace Sp00ky.Checkpoint

open Lib Ssp

/-- The delta a load stops at, if there is one, leaves no trace. -/
def RefusedCleanly (blake3 : Bytes → Digest) (base : Bytes) (deltas : List Bytes) : Prop :=
  ∀ s0 r, Chained.ofBase blake3 base = .ok s0 →
    (Chained.run blake3 s0 deltas 0).2 = some r →
    (Chained.run blake3 s0 deltas 0).1.LeavesNoTrace blake3 r.delta

/-- The same rows (id, value, digest and version) and the same catch-up hash. -/
def SameTable (load load' : TableLoad) : Prop :=
  (∀ id, load.collection.rows.view id = load'.collection.rows.view id) ∧
    load.collection.catchupXor = load'.collection.catchupXor

/-! ## A delta with one byte too many -/

/-- The front of a file of table `t`, with no field names. -/
def plainFront (seq stored prev rows headsLen bodiesLen : Nat) : Bytes :=
  magic ++ leBytes 4 format ++ leBytes 4 recordFormat ++ leBytes 8 7 ++ leBytes 4 seq ++
    leBytes 4 1 ++ strBytes "t" ++ leBytes 32 stored ++ leBytes 32 prev ++ leBytes 4 0 ++
    leBytes 8 rows ++ leBytes 8 headsLen ++ leBytes 8 bodiesLen

/-- A base with the row `a`, under a hash that is always 0. -/
def baseOfA : Bytes :=
  plainFront 0 5 0 1 50 1 ++ encodeHead "a" 5 rvAbsent 50 1 ++ [0] ++ leBytes 32 0 ++ leBytes 32 0

/-- A delta that removes `a` and has a byte behind its one head. -/
def removesA : Bytes :=
  plainFront 1 5 5 1 51 0 ++ encodeHead "a" 0 rvAbsent 0 0 ++ [0] ++ leBytes 32 0 ++ leBytes 32 0

/-- Whether a pass loaded a table that meets `p`. -/
def loadedWith (p : TableLoad → Bool) : Except CheckpointError Attempt → Bool
  | .ok (.loaded load) => p load
  | _ => false

theorem exists_of_loadedWith {p : TableLoad → Bool} {a : Except CheckpointError Attempt}
    (h : loadedWith p a = true) : ∃ load, a = .ok (.loaded load) ∧ p load = true := by
  unfold loadedWith at h
  split at h
  next load => exact ⟨load, rfl, h⟩
  next => cases h

theorem read_removesA : ∃ load, readTable (fun _ => 0) baseOfA [removesA] = .ok load ∧
    load.refused = some (0, .invalid "bytes after the declared rows") ∧
    load.collection.rows.view "a" = none := by
  have h : loadedWith (fun load => load.refused ==
      some (0, CheckpointError.invalid "bytes after the declared rows") &&
      (load.collection.rows.view "a").isNone)
      (readAttempt (fun _ => 0) baseOfA [removesA]) = true := by decide +kernel
  obtain ⟨load, hload, hp⟩ := exists_of_loadedWith h
  rw [Bool.and_eq_true, beq_iff_eq, Option.isNone_iff_eq_none] at hp
  exact ⟨load, readTable_loaded hload, hp⟩

theorem read_baseOfA : ∃ load, readTable (fun _ => 0) baseOfA [] = .ok load ∧
    load.collection.rows.view "a" ≠ none := by
  have h : loadedWith (fun load => (load.collection.rows.view "a").isSome)
      (readAttempt (fun _ => 0) baseOfA []) = true := by decide +kernel
  obtain ⟨load, hload, hp⟩ := exists_of_loadedWith h
  exact ⟨load, readTable_loaded hload, Option.isSome_iff_ne_none.mp hp⟩

theorem map_removesA : ∃ load,
    mapTable (fun _ => 0) 4096 .atLoad baseOfA [removesA] = .ok load ∧
    load.collection.rows.view "a" ≠ none := by
  have h : loadedWith (fun load => (load.collection.rows.view "a").isSome)
      (mapAttempt (fun _ => 0) 4096 .atLoad baseOfA []) = true := by decide +kernel
  have hover : mapAttempt (fun _ => 0) 4096 .atLoad baseOfA [removesA] =
      .ok (.startOver 0 (.invalid "bytes after the declared rows")) := by
    have hb : ((mapAttempt (fun _ => 0) 4096 .atLoad baseOfA [removesA]).toOption.any fun a =>
        a.rec (fun _ => false) fun k e => k == 0 && e == .invalid "bytes after the declared rows") =
          true := by decide +kernel
    generalize mapAttempt (fun _ => 0) 4096 .atLoad baseOfA [removesA] = a at hb ⊢
    rcases a with _ | _ | ⟨k, e⟩
    · cases hb
    · cases hb
    · obtain ⟨hk, he⟩ := Bool.and_eq_true_iff.mp hb
      rw [beq_iff_eq.mp hk, beq_iff_eq.mp he]
  obtain ⟨load, hload, hp⟩ := exists_of_loadedWith h
  refine ⟨{ load with refused := some (0, .invalid "bytes after the declared rows") }, ?_,
    Option.isSome_iff_ne_none.mp hp⟩
  rw [mapTable_startOver hover, List.take_zero, mapTable_loaded hload]
  rfl

/-! ## On the heap -/

/-- On the heap a load shows the run's own state exactly when its refusal leaves no trace. -/
theorem endOnHeap_clean_iff {blake3 : Bytes → Digest} {out : Chained × Option Refusal}
    {load load' : TableLoad} {refused : Option Refusal}
    (h : LoadIs load out.1 out.2 (Chained.endOnHeap blake3 out).1 (Chained.endOnHeap blake3 out).2)
    (h' : LoadIs load' out.1 refused out.1.dict out.1.recs) :
    SameTable load load' ↔ ∀ r, out.2 = some r → out.1.LeavesNoTrace blake3 r.delta := by
  obtain ⟨now, stopped⟩ := out
  have hxor : load.collection.catchupXor = load'.collection.catchupXor := h.xor.trans h'.xor.symm
  cases stopped with
  | none =>
    refine ⟨?_, fun _ => ⟨fun id => ?_, hxor⟩⟩
    · intro _ r hr
      cases hr
    · rw [h.view_eq, h'.view_eq]
      rfl
  | some r =>
    simp only [Option.some.injEq, forall_eq']
    rw [← now.view_leftBy_eq_iff blake3 r.delta]
    constructor
    · rintro ⟨hview, -⟩ id
      rw [← h'.view_eq, ← hview id, h.view_eq]
      rfl
    · intro hview
      refine ⟨fun id => ?_, hxor⟩
      rw [h.view_eq, h'.view_eq]
      exact hview id

/-- Without a base nothing is refused. -/
theorem refusedCleanly_of_error {blake3 : Bytes → Digest} {base : Bytes} {deltas : List Bytes}
    {e : CheckpointError} (hbase : Chained.ofBase blake3 base = .error e) :
    RefusedCleanly blake3 base deltas := by
  intro s0 r hs0
  rw [hbase] at hs0
  cases hs0

/-- A heap load that stops at delta `k` shows the table of the files before it exactly when that
    delta leaves no trace. -/
theorem refused_delta_leaves_table_iff (blake3 : Bytes → Digest) (base : Bytes)
    (deltas : List Bytes) (load : TableLoad) (k : Nat) (e : CheckpointError)
    (hload : readTable blake3 base deltas = .ok load) (hrefused : load.refused = some (k, e)) :
    (∃ shorter, readTable blake3 base (deltas.take k) = .ok shorter ∧ SameTable load shorter) ↔
      RefusedCleanly blake3 base deltas := by
  cases hbase : Chained.ofBase blake3 base with
  | error e' =>
    refine ⟨fun _ => refusedCleanly_of_error hbase, fun _ => ?_⟩
    rcases attempts_of_ofBase_error hbase with ⟨e2, hboth⟩ | ⟨collection, hboth⟩
    · rw [readTable_error (hboth deltas).1] at hload
      cases hload
    · -- An image of the previous format is loaded whole, and no delta is looked at.
      obtain ⟨hv1, hread, -⟩ := hboth deltas
      rw [hv1] at hread
      rw [readTable_loaded hread] at hload
      cases hload
      have hk : k = 0 := by
        simp only at hrefused
        split at hrefused
        · cases hrefused
        · cases hrefused
          rfl
      subst hk
      obtain ⟨hv1', hread', -⟩ := hboth (deltas.take 0)
      rw [hv1'] at hread'
      exact ⟨_, readTable_loaded hread', fun _ => rfl, rfl⟩
  | ok s0 =>
    obtain ⟨load', hload', his⟩ := readTable_spec hbase deltas
    rw [hload'] at hload
    cases hload
    obtain ⟨r, hr, hk⟩ : ∃ r, (Chained.run blake3 s0 deltas 0).2 = some r ∧ r.k = k := by
      have := his.refused
      rw [hrefused] at this
      obtain ⟨r, hr, heq⟩ := Option.map_eq_some_iff.mp this.symm
      cases heq
      exact ⟨r, hr, rfl⟩
    obtain ⟨i, hi, -, -, hrun⟩ := Chained.run_refused hr
    rw [Nat.zero_add, hk] at hi
    subst hi
    obtain ⟨shorter, hshorter, hisShort⟩ := readTable_spec hbase (deltas.take k)
    rw [hrun] at hisShort
    have hiff := endOnHeap_clean_iff his hisShort
    rw [hshorter]
    simp only [Except.ok.injEq, exists_eq_left']
    rw [hiff]
    constructor
    · intro hclean s0' r' hs0'
      rw [hbase] at hs0'
      cases hs0'
      exact hclean r'
    · intro hclean r' hr'
      exact hclean s0 r' hbase hr'

/-- The delta that removes `a` and then fails takes the row away. -/
theorem refused_delta_changes_table :
    ∃ load e, readTable (fun _ => 0) baseOfA [removesA] = .ok load ∧ load.refused = some (0, e) ∧
      ¬ ∃ shorter, readTable (fun _ => 0) baseOfA ([removesA].take 0) = .ok shorter ∧
        SameTable load shorter := by
  obtain ⟨load, hload, hrefused, hview⟩ := read_removesA
  obtain ⟨short, hshort, hsome⟩ := read_baseOfA
  refine ⟨load, _, hload, hrefused, ?_⟩
  rintro ⟨shorter, hshorter, hsame⟩
  rw [List.take_zero, hshort] at hshorter
  cases hshorter
  exact hsome ((hsame.1 "a").symm.trans hview)

theorem refused_delta_leaves_table_empty_file :
    ∃ load e, readTable (fun _ => 0) baseOfA [[]] = .ok load ∧ load.refused = some (0, e) ∧
      ((∃ shorter, readTable (fun _ => 0) baseOfA ([[]].take 0) = .ok shorter ∧
        SameTable load shorter) ↔ RefusedCleanly (fun _ => 0) baseOfA [[]]) := by
  have h : loadedWith (fun load => load.refused ==
      some (0, CheckpointError.invalid "too short to be a row checkpoint"))
      (readAttempt (fun _ => 0) baseOfA [[]]) = true := by decide +kernel
  obtain ⟨load, hload, hp⟩ := exists_of_loadedWith h
  have hread := readTable_loaded hload
  have hrefused := beq_iff_eq.mp hp
  exact ⟨load, _, hread, hrefused,
    refused_delta_leaves_table_iff (fun _ => 0) baseOfA [[]] load 0 _ hread hrefused⟩

/-! ## Two loaders -/

/-- The same deltas applied, the same one refused for the same reason, and the same table. -/
def SameLoad (load load' : TableLoad) : Prop :=
  load.deltas = load'.deltas ∧ load.refused = load'.refused ∧ SameTable load load'

/-- Two loads of the same files: both fail alike or both give the same. -/
def LoadsAgree : Except CheckpointError TableLoad → Except CheckpointError TableLoad → Prop
  | .ok load, .ok load' => SameLoad load load'
  | .error e, .error e' => e = e'
  | _, _ => False

/-- Loading by copying and loading by mapping agree exactly when the copying load's refusal leaves
    no trace. A segment number is a `u16`, so the files must be that few. -/
theorem heap_and_mapped_loads_agree_iff (blake3 : Bytes → Digest) (segmentBytes : Nat)
    (base : Bytes) (deltas : List Bytes) (hsmall : deltas.length < 2 ^ 16) :
    LoadsAgree (readTable blake3 base deltas) (mapTable blake3 segmentBytes .atLoad base deltas) ↔
      RefusedCleanly blake3 base deltas := by
  cases hbase : Chained.ofBase blake3 base with
  | error e =>
    refine ⟨fun _ => refusedCleanly_of_error hbase, fun _ => ?_⟩
    rcases attempts_of_ofBase_error hbase with ⟨e', hboth⟩ | ⟨collection, hboth⟩
    · obtain ⟨hread, hmap⟩ := hboth deltas
      rw [readTable_error hread, mapTable_error (hmap segmentBytes)]
      exact rfl
    · obtain ⟨hv1, hread, hmap⟩ := hboth deltas
      rw [hv1] at hread hmap
      rw [readTable_loaded hread, mapTable_loaded (hmap segmentBytes)]
      exact ⟨rfl, rfl, fun _ => rfl, rfl⟩
  | ok s0 =>
    obtain ⟨load, hload, his⟩ := readTable_spec hbase deltas
    obtain ⟨load', hload', his'⟩ := mapTable_spec hbase segmentBytes deltas hsmall
    rw [hload, hload']
    have hiff := endOnHeap_clean_iff his his'
    constructor
    · rintro ⟨-, -, hsame⟩ s0' r hs0' hr
      rw [hbase] at hs0'
      cases hs0'
      exact hiff.mp hsame r hr
    · intro hclean
      refine ⟨his.deltas.trans his'.deltas.symm, his.refused.trans his'.refused.symm, ?_⟩
      exact hiff.mpr fun r hr => hclean s0 r hbase hr

/-- At the delta that removes `a` and then fails, the heap has lost the row and the mapping has
    not. -/
theorem heap_and_mapped_loads_differ :
    ¬ LoadsAgree (readTable (fun _ => 0) baseOfA [removesA])
      (mapTable (fun _ => 0) 4096 .atLoad baseOfA [removesA]) := by
  obtain ⟨load, hload, -, hview⟩ := read_removesA
  obtain ⟨load', hload', hsome⟩ := map_removesA
  rw [hload, hload']
  rintro ⟨-, -, hsame⟩
  exact hsome ((hsame.1 "a").symm.trans hview)

theorem heap_and_mapped_loads_agree_iff_removesA :
    [removesA].length < 2 ^ 16 ∧
      (LoadsAgree (readTable (fun _ => 0) baseOfA [removesA])
        (mapTable (fun _ => 0) 4096 .atLoad baseOfA [removesA]) ↔
      RefusedCleanly (fun _ => 0) baseOfA [removesA]) :=
  ⟨by decide, heap_and_mapped_loads_agree_iff (fun _ => 0) 4096 baseOfA [removesA] (by decide)⟩

end Sp00ky.Checkpoint
