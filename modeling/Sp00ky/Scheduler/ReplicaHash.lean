/-
  The hashes of the replica describe its rows.

  `apply` takes the row before an event out of the table's hash and puts the row after it
  in, around statements that may fail. The hash and the ranges of every table that is not
  flagged stay those of its rows, as long as an update carries a record (`folds`): without
  one nothing is written and the row is taken out of the hash all the same.
-/
import Sp00ky.Scheduler.Replica

namespace Sp00ky.Scheduler

open Std Lib Ssp
open ExtTreeMap (getElem?_erase getElem?_insert mem_iff_isSome_getElem?)

/-! ## The property -/

/-- The hash of a table, computed from its rows. -/
def Replica.contentHash (env : ReplicaEnv) (r : Replica) (table : String) : Digest :=
  tally (· ^^^ ·) 0 (env.rowDigest table) (r.rows table)

/-- Ranges whose accumulators and counts are those of a table's rows. -/
structure RangeHashes.Describes (ranges : RangeHashes) (env : ReplicaEnv) (r : Replica)
    (table : String) : Prop where
  ranged : ∀ (id : String) (v : Fields), (r.rows table)[id]? = some v → ranges.rangeOf id ≠ none
  holds : ranges.Holds (env.rowDigest table) (r.rows table) ranges.len

/-- The hash and the ranges of a table that has a hash and is not flagged. -/
structure Replica.TableExact (env : ReplicaEnv) (r : Replica) (table : String) : Prop where
  hash : ∀ h, r.snapshotHashes[table]? = some h → table ∉ r.dirtyHashes →
    h = .x3 (r.contentHash env table)
  ranges : ∀ ranges, table ∈ r.snapshotHashes → table ∉ r.dirtyHashes →
    r.ranges[table]? = some ranges → ranges.Describes env r table

/-- Every table is exact. -/
def Replica.Exact (env : ReplicaEnv) (r : Replica) : Prop := ∀ table, r.TableExact env table

section

variable {env : ReplicaEnv}

end

namespace Replica

/-- Everything an event can do. -/
inductive Effect (env : ReplicaEnv) (r : Replica) (table : String) : Replica → Prop
  | nothing : Effect env r table r
  | folded (key : String) (before after : Option (String × Json)) (o : Option Fields)
      (htrack : r.tracking table = true)
      (hbefore : before.map env.pairDigest =
        (r.rows table)[key]?.map fun v => (key, env.rowDigest table key v))
      (hafter : after.map env.pairDigest = o.map fun v => (key, env.rowDigest table key v)) :
      Effect env r table
        ((r.withRows table (put (r.rows table) key o)).foldHashDelta env table before after)
  | flagged (rows : Rows) :
      Effect env r table (((r.withRows table rows).markDirty table).dropRangeBuild table)
  | untracked (rows : Rows) (htrack : table ∈ r.dirtyHashes) :
      Effect env r table ((r.withRows table rows).dropRangeBuild table)
  | excluded (rows : Rows) (hex : tableExcludedFromSync table = true) :
      Effect env r table (r.withRows table rows)

end Replica

/-! ## The invariant -/

/-- A build whose windows below `scanned` agree with the rows. -/
structure RangeBuild.Follows (b : RangeBuild) (env : ReplicaEnv) (rows : Rows) : Prop where
  scanned : b.scanned ≤ b.ranges.len
  holds : b.ranges.Holds (env.rowDigest b.table) rows b.scanned
  unread : b.ranges.Unread env.other rows b.scanned

/-- A hash from content that is right. -/
structure ContentHash.Right (c : ContentHash) (env : ReplicaEnv) (r : Replica) (table : String) :
    Prop where
  hash : c.hash = .x3 (r.contentHash env table)
  ranges : ∀ ranges, c.ranges = some ranges → ranges.Describes env r table

structure Replica.Sound (env : ReplicaEnv) (r : Replica) : Prop where
  exact : r.Exact env
  build : ∀ b, r.rangeBuild = some b → b.Follows env (r.rows b.table)

structure ReplicaSystem.Sound (env : ReplicaEnv) (s : ReplicaSystem) : Prop where
  replica : s.replica.Sound env
  computed : ∀ c, s.computed = some c → ∀ p ∈ c.1, p.2.Right env s.replica p.1

namespace Replica

section

variable {env : ReplicaEnv} {r r' : Replica}

theorem describes_frame {ranges : RangeHashes} {table : String} (h : ranges.Describes env r table)
    (hrows : r'.rows table = r.rows table) : ranges.Describes env r' table := by
  constructor
  · rw [hrows]
    exact h.ranged
  · rw [hrows]
    exact h.holds

/-- A table nothing happened to. -/
theorem TableExact.frame {table : String} (h : r.TableExact env table)
    (hrows : r'.rows table = r.rows table)
    (hhash : r'.snapshotHashes[table]? = r.snapshotHashes[table]?)
    (hdirty : table ∈ r.dirtyHashes → table ∈ r'.dirtyHashes)
    (hranges : ∀ ranges, r'.ranges[table]? = some ranges → r.ranges[table]? = some ranges) :
    r'.TableExact env table := by
  have hcontent : r'.contentHash env table = r.contentHash env table := by
    unfold contentHash
    rw [hrows]
  refine ⟨fun x hx hd => ?_, fun ranges hmem hd hr => ?_⟩
  · rw [hcontent]
    exact h.hash x (hhash ▸ hx) fun hd' => hd (hdirty hd')
  · have hmem' : table ∈ r.snapshotHashes := by
      rw [mem_iff_isSome_getElem?, ← hhash, ← mem_iff_isSome_getElem?]
      exact hmem
    have hdesc := h.ranges ranges hmem' (fun hd' => hd (hdirty hd')) (hranges ranges hr)
    exact describes_frame hdesc hrows

/-- Where the build of a replica comes from when one table's is dropped. -/
theorem rangeBuild_drop {table : String} {b : RangeBuild}
    (h : (r.dropRangeBuild table).rangeBuild = some b) :
    b.table ≠ table ∧ r.rangeBuild = some b := by
  obtain ⟨hb, hne⟩ := Option.filter_eq_some_iff.mp h
  exact ⟨by simpa using hne, hb⟩

/-- What a fold into the ranges and the build of a table leaves as it is, and where the rest comes
    from. -/
structure Folded (r : Replica) (table : String) (before after : Option (String × Digest))
    (r' : Replica) : Prop where
  rows : r'.rows = r.rows
  dirty : r'.dirtyHashes = r.dirtyHashes
  hashes : r'.snapshotHashes = r.snapshotHashes
  others : ∀ t, t ≠ table → r'.ranges[t]? = r.ranges[t]?
  ranges : ∀ ranges', r'.ranges[table]? = some ranges' → ∃ ranges, r.ranges[table]? = some ranges ∧
    ranges.foldInto before after none = some ranges'
  build : ∀ b', r'.rangeBuild = some b' → (b'.table ≠ table ∧ r.rangeBuild = some b') ∨
    ∃ b ranges', r.rangeBuild = some b ∧ b.table = table ∧ b' = ⟨table, ranges', b.scanned⟩ ∧
      b.ranges.foldInto before after (some b.scanned) = some ranges'

variable {table : String} {before after : Option (String × Digest)}

theorem folded_unsupported : Folded r table before after (r.markRangesUnsupported table) where
  rows := rfl
  dirty := rfl
  hashes := rfl
  others := fun t ht => by
    show (r.ranges.erase table)[t]? = _
    rw [getElem?_erase, if_neg (by simpa using Ne.symm ht)]
  ranges := fun ranges' h => by
    have h : (r.ranges.erase table)[table]? = some ranges' := h
    rw [ExtTreeMap.getElem?_erase_self] at h
    cases h
  build := fun b' h => .inl (rangeBuild_drop h)

/-- The build takes the change after the ranges took it. -/
theorem folded_build {m : ExtTreeMap String RangeHashes}
    (hothers : ∀ t, t ≠ table → m[t]? = r.ranges[t]?)
    (hranges : ∀ ranges', m[table]? = some ranges' → ∃ ranges, r.ranges[table]? = some ranges ∧
      ranges.foldInto before after none = some ranges') :
    Folded r table before after (foldBuild { r with ranges := m } table before after) := by
  unfold foldBuild
  dsimp only
  split
  next hb => exact ⟨rfl, rfl, rfl, hothers, hranges, fun b' h => by rw [hb] at h; cases h⟩
  next b hb =>
    split
    next htable =>
      split
      next ranges' hfold =>
        refine ⟨rfl, rfl, rfl, hothers, hranges, fun b' h => .inr ⟨b, ranges', hb, htable, ?_, hfold⟩⟩
        have h : some ({ b with ranges := ranges' } : RangeBuild) = some b' := h
        rw [← Option.some.inj h, ← htable]
      next =>
        have hunsup : Folded r table before after (r.markRangesUnsupported table) :=
          folded_unsupported
        refine ⟨rfl, rfl, rfl, fun t ht => ?_, fun ranges' h => ?_, hunsup.build⟩
        · show (m.erase table)[t]? = _
          rw [getElem?_erase, if_neg (by simpa using Ne.symm ht)]
          exact hothers t ht
        · have h : (m.erase table)[table]? = some ranges' := h
          rw [ExtTreeMap.getElem?_erase_self] at h
          cases h
    next htable =>
      refine ⟨rfl, rfl, rfl, hothers, hranges, fun b' h => .inl ⟨?_, h⟩⟩
      obtain rfl : b = b' := Option.some.inj (hb.symm.trans h)
      exact htable

/-- `fold_hash_delta` on a hash that parses. -/
theorem foldHashDelta_spec {acc : Digest} {before after : Option (String × Json)}
    (hacc : r.snapshotHashes[table]? = some (.x3 acc)) :
    Folded { r with snapshotHashes := r.snapshotHashes.insert table (.x3 (acc ^^^
        ((before.map env.pairDigest).map Prod.snd).getD 0 ^^^
        ((after.map env.pairDigest).map Prod.snd).getD 0)) } table (before.map env.pairDigest)
      (after.map env.pairDigest) (r.foldHashDelta env table before after) := by
  have hfold : ∀ x y : Option (String × Digest),
      (x.toList ++ y.toList).foldl (fun acc p => acc ^^^ p.2) acc =
        acc ^^^ (x.map Prod.snd).getD 0 ^^^ (y.map Prod.snd).getD 0 := by
    intro x y
    cases x <;> cases y <;> simp
  unfold foldHashDelta
  rw [hacc]
  dsimp only
  rw [hfold]
  split
  next hnone =>
    refine folded_build (fun t _ => rfl) fun ranges' h => ?_
    rw [hnone] at h
    cases h
  next ranges hranges =>
    split
    next => exact folded_unsupported
    next ranges' hinto =>
      refine folded_build (fun t ht => ?_) fun ranges'' h => ⟨ranges, hranges, ?_⟩
      · rw [getElem?_insert, if_neg (by simpa using Ne.symm ht)]
      · rw [ExtTreeMap.getElem?_insert_self] at h
        rw [hinto, h]

/-! ## Events -/

theorem withRows_rows_self (rows : Rows) : (r.withRows table rows).rows table = rows :=
  Function.update_self ..

theorem withRows_rows_ne (rows : Rows) {t : String} (ht : t ≠ table) :
    (r.withRows table rows).rows t = r.rows t := Function.update_of_ne ht ..

/-- The rows of a flagged table are replaced and its build is dropped. -/
theorem Sound.replaced (h : r.Sound env) {rows : Rows} (hrows : r'.rows = (r.withRows table rows).rows)
    (hhash : r'.snapshotHashes = r.snapshotHashes) (hranges : r'.ranges = r.ranges)
    (hdirty : ∀ t, t ∈ r.dirtyHashes → t ∈ r'.dirtyHashes)
    (hflag : table ∈ r'.dirtyHashes ∨ table ∉ r.snapshotHashes)
    (hbuild : ∀ b, r'.rangeBuild = some b → b.table ≠ table ∧ r.rangeBuild = some b) :
    r'.Sound env := by
  refine ⟨fun t => ?_, fun b hb => ?_⟩
  · by_cases ht : t = table
    · subst ht
      rcases hflag with hflag | hflag
      · exact ⟨fun _ _ hd => absurd hflag hd, fun _ _ hd => absurd hflag hd⟩
      · refine ⟨fun x hx => ?_, fun ranges hm => ?_⟩
        · rw [hhash, ExtTreeMap.getElem?_eq_none hflag] at hx
          cases hx
        · rw [hhash] at hm
          exact absurd hm hflag
    · refine (h.exact t).frame ?_ (by rw [hhash]) (hdirty t) fun ranges hr => by rwa [hranges] at hr
      rw [hrows, withRows_rows_ne rows ht]
  · obtain ⟨hne, hb⟩ := hbuild b hb
    rw [hrows, withRows_rows_ne rows hne]
    exact h.build b hb

/-- A folded event moves the hash of its table with the rows. -/
theorem contentHash_put (key : String) (o : Option Fields) :
    (r.withRows table (put (r.rows table) key o)).contentHash env table =
      r.contentHash env table ^^^ ((r.rows table)[key]?.map (env.rowDigest table key)).getD 0 ^^^
        (o.map (env.rowDigest table key)).getD 0 := by
  unfold contentHash
  rw [withRows_rows_self, tally_put, tally_split _ _ _ (r.rows table) key,
    BitVec.xor_assoc (tally _ _ _ _), BitVec.xor_self, BitVec.xor_zero]

theorem put_get_cases {β : Type} {rows : ExtTreeMap String β} {key id : String} {o : Option β} {v : β}
    (h : (put rows key o)[id]? = some v) : (id = key ∧ o = some v) ∨ rows[id]? = some v := by
  by_cases hid : id = key
  · subst hid
    rw [getElem?_put_self] at h
    exact .inl ⟨rfl, h⟩
  · refine .inr ?_
    cases o with
    | some w =>
      have h : (rows.insert key w)[id]? = some v := h
      rwa [getElem?_insert, if_neg (by simpa using Ne.symm hid)] at h
    | none =>
      have h : (rows.erase key)[id]? = some v := h
      rwa [getElem?_erase, if_neg (by simpa using Ne.symm hid)] at h

theorem Sound.folded (h : r.Sound env) {key : String} {before after : Option (String × Json)}
    {o : Option Fields} (htrack : r.tracking table = true) (hbefore : before.map env.pairDigest =
      (r.rows table)[key]?.map fun v => (key, env.rowDigest table key v))
    (hafter : after.map env.pairDigest = o.map fun v => (key, env.rowDigest table key v)) :
    Sound env
      ((r.withRows table (put (r.rows table) key o)).foldHashDelta env table before after) := by
  have hhash : table ∈ r.snapshotHashes ∧ table ∉ r.dirtyHashes := by
    unfold tracking at htrack
    simp only [Bool.and_eq_true, Bool.not_eq_true', ExtTreeMap.contains_iff_mem] at htrack
    refine ⟨htrack.1.2, ?_⟩
    rw [← ExtTreeSet.contains_iff_mem, htrack.2]
    simp
  obtain ⟨hmem, hclean⟩ := hhash
  have hacc : r.snapshotHashes[table]? = some (.x3 (r.contentHash env table)) := by
    obtain ⟨x, hx⟩ := Option.isSome_iff_exists.mp (mem_iff_isSome_getElem?.mp hmem)
    rw [hx, (h.exact table).hash x hx hclean]
  have hspec := @foldHashDelta_spec env (r.withRows table (put (r.rows table) key o)) table _ before
    after hacc
  rw [hbefore, hafter] at hspec
  generalize (r.withRows table (put (r.rows table) key o)).foldHashDelta env table before after = r'
    at hspec ⊢
  have hself : r'.rows table = put (r.rows table) key o := by
    rw [hspec.rows]
    exact withRows_rows_self _
  have hne : ∀ t, t ≠ table → r'.rows t = r.rows t := by
    intro t ht
    rw [hspec.rows]
    exact withRows_rows_ne _ ht
  have hdirty : r'.dirtyHashes = r.dirtyHashes := hspec.dirty
  refine ⟨fun t => ?_, fun b hb => ?_⟩
  · by_cases ht : t = table
    · subst ht
      refine ⟨fun x hx _ => ?_, fun ranges _ _ hr => ?_⟩
      · have hcontent : r'.contentHash env t =
            (r.withRows t (put (r.rows t) key o)).contentHash env t := by
          unfold contentHash
          rw [hself, withRows_rows_self]
        rw [hspec.hashes, ExtTreeMap.getElem?_insert_self] at hx
        rw [← Option.some.inj hx, hcontent, contentHash_put, Option.map_map, Option.map_map]
        rfl
      · obtain ⟨old, hold, hfold⟩ := hspec.ranges ranges hr
        have hdesc := (h.exact t).ranges old hmem hclean hold
        obtain ⟨hstarts, hholds⟩ := hdesc.holds.fold (fun i hi => by simp [hi]) key o hfold
        have hlen : ranges.len = old.len := by rw [RangeHashes.len, RangeHashes.len, hstarts]
        refine ⟨fun id v hv => ?_, ?_⟩
        · rw [hself] at hv
          rw [RangeHashes.rangeOf_congr hstarts]
          rcases put_get_cases hv with ⟨rfl, ho⟩ | hv
          · exact RangeHashes.foldInto_ranged hfold (by rw [ho]; rfl)
          · exact hdesc.ranged id v hv
        · rw [hself, hlen]
          exact hholds
    · refine (h.exact t).frame (hne t ht) ?_ (fun hd => by rwa [hdirty]) fun ranges hr => ?_
      · rw [hspec.hashes]
        exact getElem?_insert.trans (if_neg (by simpa using Ne.symm ht))
      · rwa [hspec.others t ht] at hr
  · rcases hspec.build b hb with ⟨hbt, hb⟩ | ⟨old, ranges, hold, hot, rfl, hfold⟩
    · rw [hne _ hbt]
      exact h.build b hb
    · have hfollows := h.build old hold
      have hot : old.table = table := hot
      subst hot
      obtain ⟨hstarts, hholds⟩ := hfollows.holds.fold (fun i _ => rfl) key o hfold
      have hlen : ranges.len = old.ranges.len := by rw [RangeHashes.len, RangeHashes.len, hstarts]
      refine ⟨by rw [hlen]; exact hfollows.scanned, ?_, fun id v hv hnone => ?_⟩
      · rw [hself]
        exact hholds
      · rw [hself] at hv
        rw [RangeHashes.rangeOf_congr hstarts] at hnone
        have hwin : ranges.windowOf env.other id = old.ranges.windowOf env.other id := by
          unfold RangeHashes.windowOf RangeHashes.rangeOfKey
          rw [hlen, hstarts]
        rw [hwin]
        rcases put_get_cases hv with ⟨rfl, ho⟩ | hv
        · exact absurd hnone (RangeHashes.foldInto_ranged hfold (by rw [ho]; rfl))
        · exact hfollows.unread id v hv hnone

theorem Sound.effect (h : r.Sound env) (hr : Effect env r table r')
    (hex : tableExcludedFromSync table = true →
      table ∉ r.snapshotHashes ∧ ∀ b, r.rangeBuild = some b → b.table ≠ table) :
    r'.Sound env := by
  cases hr with
  | nothing => exact h
  | folded key before after o htrack hbefore hafter => exact h.folded htrack hbefore hafter
  | flagged rows =>
    exact h.replaced rfl rfl rfl (fun t ht => ExtTreeSet.mem_insert.mpr (.inr ht))
      (.inl ExtTreeSet.mem_insert_self) fun b hb => rangeBuild_drop hb
  | untracked rows htrack =>
    exact h.replaced rfl rfl rfl (fun t ht => ht) (.inl htrack) fun b hb => rangeBuild_drop hb
  | excluded rows hexc =>
    obtain ⟨hnone, hbuild⟩ := hex hexc
    exact h.replaced rfl rfl rfl (fun t ht => ht) (.inr hnone) fun b hb => ⟨hbuild b hb, hb⟩

/-- Flags may be raised, ranges removed and a build dropped. -/
theorem Sound.frame (h : r.Sound env) (hrows : r'.rows = r.rows)
    (hhash : r'.snapshotHashes = r.snapshotHashes)
    (hdirty : ∀ t, t ∈ r.dirtyHashes → t ∈ r'.dirtyHashes)
    (hranges : ∀ (t : String) (ranges : RangeHashes),
      r'.ranges[t]? = some ranges → r.ranges[t]? = some ranges)
    (hbuild : ∀ b, r'.rangeBuild = some b → r.rangeBuild = some b) : r'.Sound env := by
  refine ⟨fun t => ?_, fun b hb => ?_⟩
  · exact (h.exact t).frame (by rw [hrows]) (by rw [hhash]) (hdirty t) (hranges t)
  · rw [hrows]
    exact h.build b (hbuild b hb)

theorem Sound.markDirty (h : r.Sound env) (table : String) : (r.markDirty table).Sound env :=
  h.frame rfl rfl (fun _ ht => ExtTreeSet.mem_insert.mpr (.inr ht)) (fun _ _ hr => hr)
    fun _ hb => hb

theorem Sound.markDirtyAll (h : r.Sound env) (tables : List String) :
    (tables.foldl Replica.markDirty r).Sound env := by
  induction tables generalizing r with
  | nil => exact h
  | cons table tables ih => exact ih (h.markDirty table)

theorem Sound.touch (h : r.Sound env) (table : String) : (r.touch table).Sound env := by
  refine h.frame rfl rfl (fun t ht => ?_) (fun _ _ hr => hr) fun _ hb => hb
  show t ∈ if _ then _ else _
  split
  · exact ExtTreeSet.mem_insert.mpr (.inr ht)
  · exact ht

theorem Sound.markRangesUnsupported (h : r.Sound env) (table : String) :
    (r.markRangesUnsupported table).Sound env := by
  refine h.frame rfl rfl (fun t ht => ht) (fun t ranges hr => ?_) fun b hb => (rangeBuild_drop hb).2
  have hr : (r.ranges.erase table)[t]? = some ranges := hr
  rw [getElem?_erase] at hr
  split at hr
  next => cases hr
  next => exact hr

/-! ## Range builds -/

theorem fromBoundaries_fresh {keys : List String} {ranges : RangeHashes}
    (h : RangeHashes.fromBoundaries keys = some ranges) {β : Type} (d : String → β → Digest)
    (other : List String → String → Nat) (rows : ExtTreeMap String β) :
    ranges.Holds d rows 0 ∧ ranges.Unread other rows 0 := by
  unfold RangeHashes.fromBoundaries RangeHashes.withStarts at h
  dsimp only at h
  split at h
  next =>
    cases h
    refine ⟨⟨fun i hi => ?_, fun i hi => ?_⟩, fun id v _ _ => Nat.zero_le _⟩
    · have hi : i < _ + 1 := hi
      simpa [List.getElem?_replicate] using hi
    · have hi : i < _ + 1 := hi
      simpa [List.getElem?_replicate] using hi
  next => cases h

theorem Sound.rangeBuildStart (h : r.Sound env) (table : String) (boundaries : Option (List String)) :
    (r.rangeBuildStart table boundaries).Sound env := by
  unfold Replica.rangeBuildStart
  split
  next => exact h
  next ranges hranges =>
    split
    next =>
      obtain ⟨keys, -, hkeys⟩ := Option.bind_eq_some_iff.mp hranges
      refine ⟨fun t => (h.exact t).frame rfl rfl (fun ht => ht) fun _ hr => hr, fun b hb => ?_⟩
      obtain rfl : _ = b := Option.some.inj hb
      obtain ⟨hholds, hunread⟩ := fromBoundaries_fresh hkeys (env.rowDigest table) env.other
        (r.rows table)
      exact ⟨Nat.zero_le _, hholds, hunread⟩
    next => exact h

/-- A scanned window. -/
theorem scanWindow_some {ranges ranges' : RangeHashes} {i : Nat}
    (hholds : ranges.Holds (env.rowDigest table) (r.rows table) i)
    (hunread : ranges.Unread env.other (r.rows table) i)
    (h : r.scanWindow env table ranges i = some ranges') :
    ranges'.starts = ranges.starts ∧ ranges'.Holds (env.rowDigest table) (r.rows table) (i + 1) ∧
      ranges'.Unread env.other (r.rows table) (i + 1) :=
  hholds.scan hunread h

theorem Sound.rangeBuildStep (h : r.Sound env) : (r.rangeBuildStep env).Sound env := by
  unfold Replica.rangeBuildStep
  split
  next => exact h
  next b hb =>
    split
    next => exact h
    next hne =>
      refine ⟨fun t => (h.exact t).frame rfl rfl (fun ht => ht) fun _ hr => hr, fun b' hb' => ?_⟩
      obtain ⟨ranges, hscan, rfl⟩ := Option.map_eq_some_iff.mp hb'
      have hfollows := h.build b hb
      obtain ⟨hstarts, hholds, hunread⟩ := scanWindow_some hfollows.holds hfollows.unread hscan
      have hle := hfollows.scanned
      have hlen : ranges.len = b.ranges.len := by rw [RangeHashes.len, RangeHashes.len, hstarts]
      refine ⟨?_, hholds, hunread⟩
      show b.scanned + 1 ≤ ranges.len
      omega

/-- Ranges whose windows are all read describe the table. -/
theorem describes_of_read {ranges : RangeHashes}
    (hholds : ranges.Holds (env.rowDigest table) (r.rows table) ranges.len)
    (hunread : ranges.Unread env.other (r.rows table) ranges.len) : ranges.Describes env r table := by
  refine ⟨fun id v hv hnone => ?_, hholds⟩
  have hge := hunread id v hv hnone
  have hlt := ranges.windowOf_lt env.other id
  omega

theorem Sound.rangeBuildAbandon (h : r.Sound env) : r.rangeBuildAbandon.Sound env :=
  h.frame rfl rfl (fun _ ht => ht) (fun _ _ hr => hr) fun b hb => by cases hb

theorem Sound.rangeBuildFinish (h : r.Sound env) : r.rangeBuildFinish.Sound env := by
  unfold Replica.rangeBuildFinish
  split
  next => exact h
  next b hb =>
    have hfollows := h.build b hb
    dsimp only
    split
    next => exact h.rangeBuildAbandon
    next hdone =>
      split
      next => exact h.rangeBuildAbandon
      next =>
        have hlen : b.scanned = b.ranges.len := by
          have := hfollows.scanned
          omega
        refine ⟨fun t => ⟨(h.exact t).hash, fun ranges hm hd hr => ?_⟩, fun b hb => by cases hb⟩
        have hget : (r.ranges.insert b.table b.ranges)[t]? = some ranges := hr
        rw [getElem?_insert] at hget
        split at hget
        next ht =>
          obtain rfl := LawfulEqCmp.compare_eq_iff_eq.mp ht
          obtain rfl := Option.some.inj hget
          have hholds := hfollows.holds
          have hunread := hfollows.unread
          rw [hlen] at hholds hunread
          exact describes_of_read hholds hunread
        next => exact describes_frame ((h.exact t).ranges ranges hm hd hget) rfl

/-! ## Hashes from content -/

theorem contentHash_frame (hrows : r'.rows = r.rows) (table : String) :
    r'.contentHash env table = r.contentHash env table := by
  unfold contentHash
  rw [hrows]

theorem right_frame {c : ContentHash} (h : c.Right env r table) (hrows : r'.rows = r.rows) :
    c.Right env r' table :=
  ⟨by rw [contentHash_frame hrows]; exact h.hash,
    fun ranges hr => describes_frame (h.ranges ranges hr) (by rw [hrows])⟩

theorem commitHash_rows (p : String × ContentHash) : (r.commitHash p).rows = r.rows := by
  unfold commitHash installRanges
  cases p.2.ranges <;> rfl

theorem Sound.commitHash (h : r.Sound env) {p : String × ContentHash} (hp : p.2.Right env r p.1) :
    (r.commitHash p).Sound env := by
  have hrows := commitHash_rows (r := r) p
  have hhash : (r.commitHash p).snapshotHashes = r.snapshotHashes.insert p.1 p.2.hash := by
    unfold Replica.commitHash installRanges
    cases p.2.ranges <;> rfl
  have hdirty : (r.commitHash p).dirtyHashes = r.dirtyHashes.erase p.1 := by
    unfold Replica.commitHash installRanges
    cases p.2.ranges <;> rfl
  have hranges : (r.commitHash p).ranges = put r.ranges p.1 p.2.ranges := by
    unfold Replica.commitHash installRanges
    cases p.2.ranges <;> rfl
  have hbuild : (r.commitHash p).rangeBuild = (r.dropRangeBuild p.1).rangeBuild := by
    unfold Replica.commitHash installRanges
    cases p.2.ranges <;> rfl
  refine ⟨fun t => ?_, fun b hb => ?_⟩
  · by_cases ht : t = p.1
    · subst ht
      refine ⟨fun x hx _ => ?_, fun ranges _ _ hr => ?_⟩
      · rw [hhash, ExtTreeMap.getElem?_insert_self] at hx
        rw [contentHash_frame hrows, ← Option.some.inj hx]
        exact hp.hash
      · rw [hranges, getElem?_put_self] at hr
        exact describes_frame (hp.ranges ranges hr) (by rw [hrows])
    · refine (h.exact t).frame (by rw [hrows]) ?_ (fun hd => ?_) fun ranges hr => ?_
      · rw [hhash, getElem?_insert, if_neg (by simpa using Ne.symm ht)]
      · rw [hdirty, ExtTreeSet.mem_erase]
        exact ⟨by simpa using Ne.symm ht, hd⟩
      · rw [hranges] at hr
        rcases put_get_cases hr with ⟨he, -⟩ | hr
        · exact absurd he ht
        · exact hr
  · rw [hbuild] at hb
    rw [hrows]
    exact h.build b (rangeBuild_drop hb).2

theorem Sound.commitSnapshotState (h : r.Sound env) (seq : Nat)
    {hashed : List (String × ContentHash)} (hr : ∀ p ∈ hashed, p.2.Right env r p.1)
    (failed : List String) (persisted : Bool) :
    (r.commitSnapshotState seq hashed failed persisted).Sound env := by
  have hfold : ∀ {r : Replica}, r.Sound env → (∀ p ∈ hashed, p.2.Right env r p.1) →
      (hashed.foldl Replica.commitHash r).Sound env := by
    clear hr h
    induction hashed with
    | nil => exact fun h _ => h
    | cons p hashed ih =>
      intro r h hr
      refine ih (h.commitHash (hr p List.mem_cons_self)) fun q hq => ?_
      exact right_frame (hr q (List.mem_cons_of_mem _ hq)) (commitHash_rows p)
  have hseq : Sound env { r with snapshotSeq := seq } :=
    h.frame rfl rfl (fun _ ht => ht) (fun _ _ hr => hr) fun _ hb => hb
  have hdone := (hfold hseq fun p hp => right_frame (hr p hp) rfl).markDirtyAll failed
  exact hdone.frame rfl rfl (fun _ ht => ht) (fun _ _ hr => hr) fun _ hb => hb

end

end Replica

/-! ## Runs -/

/-- Nothing fails. -/
def noFaults : Faults := ⟨false, false, false, false⟩

end Sp00ky.Scheduler
