/-
  What the membership of a query comes to.

  Whatever the order of reads, registrations and deltas, the version held for an id does not go
  down, an id that a delta has added is not dropped by a read that was underway, and once the server
  is at rest one more read leaves the server's edges. It rests on fresh answers: a registration is
  applied as it is, so one that the server ran before a delta takes the delta back
  (`registration_drops_join`).
-/
import Sp00ky.Core.Membership
import Mathlib.Data.List.Perm.Subperm
import Mathlib.Order.Lattice.Nat

namespace Sp00ky.Core.Client

open Lib

/-! ## Functions -/

theorem above_iff {old : Option Nat} {v : Nat} : above old v = true ↔ ∀ o ∈ old, o < v := by
  cases old <;> simp [above]

theorem names_iff {rows : RecordVersionArray} {id : String} :
    Names rows id ↔ ∃ v, EntryMap.get rows id = some v := by
  rw [← Option.ne_none_iff_exists', Ne, EntryMap.get_eq_none, not_not]
  rfl

variable {held before read : RecordVersionArray}

theorem keyed_withDeltas (h : EntryMap.Keyed held)
    (deltas : RecordVersionArray) : EntryMap.Keyed (withDeltas held deltas) := by
  unfold withDeltas
  dsimp only
  split
  · exact h
  · exact EntryMap.keyed_setWhere _ (EntryMap.keyed_ofPairs held) _

/-- Deltas keep what is held, at no lower version. -/
theorem le_get_withDeltas (h : EntryMap.Keyed held)
    (deltas : RecordVersionArray) {id : String} {v : Nat} (hv : EntryMap.get held id = some v) :
    ∃ v', EntryMap.get (withDeltas held deltas) id = some v' ∧ v ≤ v' := by
  unfold withDeltas
  dsimp only
  split
  · exact ⟨v, hv, Nat.le_refl v⟩
  · rw [← EntryMap.get_ofPairs h] at hv
    exact EntryMap.le_get_setWhere
      (fun _ o v' ho => Nat.le_of_lt (above_iff.mp ho o rfl)) hv

theorem of_get_withDeltas {held deltas : RecordVersionArray} (h : EntryMap.Keyed held)
    {id : String} {v : Nat} (hv : EntryMap.get (withDeltas held deltas) id = some v) :
    EntryMap.get held id = some v ∨ (id, v) ∈ deltas := by
  unfold withDeltas at hv
  dsimp only at hv
  split at hv
  · exact .inl hv
  · rw [← EntryMap.get_ofPairs h]
    exact EntryMap.of_get_setWhere hv

/-- What has left since goes, the rest of the read stays. -/
theorem get_dropGone (is : RecordVersionArray) (id : String) :
    EntryMap.get (before.foldl
      (fun out e => if (EntryMap.get is e.1).isSome then out else EntryMap.delete out e.1) read) id =
        if Names before id ∧ EntryMap.get is id = none then none else EntryMap.get read id := by
  induction before generalizing read with
  | nil => simp [Names]
  | cons e before ih =>
    rw [List.foldl_cons, ih]
    by_cases he : e.1 = id
    · subst he
      cases his : EntryMap.get is e.1 with
      | none =>
        have hdrop : EntryMap.get (if (none : Option Nat).isSome then read
            else EntryMap.delete read e.1) e.1 = none := by
          rw [if_neg (by simp), EntryMap.get_delete, if_pos rfl]
        have hnamed : Names (e :: before) e.1 := List.mem_cons_self
        rw [hdrop, ite_self, if_pos ⟨hnamed, rfl⟩]
      | some v => simp
    · have hnames : Names (e :: before) id ↔ Names before id := by
        simp [Names, Ne.symm he]
      have hread : EntryMap.get (if (EntryMap.get is e.1).isSome then read
          else EntryMap.delete read e.1) id = EntryMap.get read id := by
        split
        · rfl
        · rw [EntryMap.get_delete, if_neg (Ne.symm he)]
      rw [hread]
      simp only [hnames]

theorem keyed_dropGone (is : RecordVersionArray)
    (h : EntryMap.Keyed read) : EntryMap.Keyed (before.foldl
      (fun out e => if (EntryMap.get is e.1).isSome then out else EntryMap.delete out e.1) read) := by
  induction before generalizing read with
  | nil => exact h
  | cons e before ih =>
    rw [List.foldl_cons]
    refine ih ?_
    split
    · exact h
    · exact EntryMap.keyed_delete h _

theorem keyed_rebaseRead {read before now : RecordVersionArray} (h : EntryMap.Keyed read) :
    EntryMap.Keyed (rebaseRead read before now) := by
  unfold rebaseRead
  split
  · exact h
  · exact EntryMap.keyed_setWhere _ (keyed_dropGone _ (EntryMap.keyed_ofPairs read)) _

/-- What a rebased read says of an id: of one that is held, the version that has come since, if it
is above the read's; of another, what the read says unless it has left since. -/
theorem get_rebaseRead {read before now : RecordVersionArray} (hread : EntryMap.Keyed read)
    (hbefore : EntryMap.Keyed before) (hnow : EntryMap.Keyed now) (id : String) :
    EntryMap.get (rebaseRead read before now) id = match EntryMap.get now id with
      | none => if Names before id then none else EntryMap.get read id
      | some v => if above (EntryMap.get before id) v && above (EntryMap.get read id) v then some v
        else EntryMap.get read id := by
  unfold rebaseRead
  split
  next hsame =>
    subst hsame
    cases hg : EntryMap.get before id with
    | none =>
      have hno : ¬ Names before id := fun h => by
        obtain ⟨v, hv⟩ := names_iff.mp h
        rw [hg] at hv
        cases hv
      rw [if_neg hno]
    | some v => simp [above]
  next =>
    rw [EntryMap.get_setWhere _ _ hnow, get_dropGone, EntryMap.get_ofPairs hnow,
      EntryMap.get_ofPairs hread, EntryMap.get_ofPairs hbefore]
    cases hg : EntryMap.get now id with
    | none => simp
    | some v => simp

/-- Arrays that are taken as equal are equal as maps. -/
theorem get_of_recordVersionArraysEqual {a b : RecordVersionArray} (ha : EntryMap.Keyed a)
    (hb : EntryMap.Keyed b) (h : recordVersionArraysEqual a b = true) (id : String) :
    EntryMap.get a id = EntryMap.get b id := by
  obtain ⟨hlength, hall⟩ := Bool.and_eq_true_iff.mp h
  have hsub : b ⊆ a := by
    intro e he
    have hget : EntryMap.get (EntryMap.ofPairs a) e.1 = some e.2 := by
      simpa using List.all_eq_true.mp hall e he
    rw [EntryMap.get_ofPairs ha] at hget
    exact EntryMap.mem_of_get hget
  have hperm : b.Perm a := by
    have hnodup : b.Nodup := List.Nodup.of_map _ hb
    exact (List.subperm_of_subset hnodup hsub).perm_of_length_le
      (Nat.le_of_eq (of_decide_eq_true hlength))
  cases hg : EntryMap.get b id with
  | none =>
    rw [EntryMap.get_eq_none] at hg ⊢
    exact fun hmem => hg ((hperm.map Prod.fst).mem_iff.mpr hmem)
  | some v => exact EntryMap.get_of_mem ha (hsub (EntryMap.mem_of_get hg))

/-! ## One query -/

namespace Watch

theorem applyMembership_remoteArray (w : Watch) (remoteArray : RecordVersionArray)
    (rowMeta : Option ServerViewMeta) (now : Nat) :
    (w.applyMembership remoteArray rowMeta now).remoteArray = w.remoteArray ∨
      (w.applyMembership remoteArray rowMeta now).remoteArray = remoteArray := by
  have hnote : (w.noteMeta rowMeta).remoteArray = w.remoteArray := by
    cases rowMeta with
    | none => rfl
    | some m =>
      unfold noteMeta
      dsimp only
      split <;> rfl
  unfold applyMembership
  split
  · exact .inl hnote
  · refine .inl ?_
    unfold loseView
    dsimp only
    split
    · exact hnote
    · split <;> exact hnote
  · unfold commitMembership
    split
    · exact .inl hnote
    · exact .inr rfl

theorem applyEdgeDeltas_remoteArray (limited : Bool) (deltas : RecordVersionArray) (now : Nat)
    (w : Watch) : (w.applyEdgeDeltas limited deltas now).remoteArray = w.remoteArray ∨
      (w.applyEdgeDeltas limited deltas now).remoteArray = withDeltas w.remoteArray deltas := by
  unfold applyEdgeDeltas
  split
  · exact .inl rfl
  · split
    · exact .inl rfl
    · split
      · exact .inl rfl
      · exact applyMembership_remoteArray ..

theorem takeRead_remoteArray (w : Watch) (before : RecordVersionArray) (snap : ListRefSnapshot)
    (now : Nat) : (w.takeRead before snap now).remoteArray = w.remoteArray ∨
      (w.takeRead before snap now).remoteArray =
        rebaseRead snap.primary before w.remoteArray := by
  unfold takeRead
  dsimp only
  split
  · exact applyMembership_remoteArray ..
  · exact .inl rfl

/-- A row that is there and ready is believed, an empty set if it counts no row. -/
theorem applyMembership_ready (w : Watch) {remoteArray : RecordVersionArray}
    {rowMeta : ServerViewMeta} (hpresent : rowMeta.present = true)
    (hready : rowMeta.state = some .ready)
    (hcount : remoteArray = [] → rowMeta.rowCount = some 0) (now : Nat) :
    (w.applyMembership remoteArray (some rowMeta) now).remoteArray = remoteArray := by
  have hdecide : decideMembershipOutcome w.phase w.remoteArray.length remoteArray (some rowMeta) =
      .applied := by
    unfold decideMembershipOutcome
    cases hempty : remoteArray with
    | nil =>
      have hfilter : (some rowMeta).filter (·.present) = some rowMeta := by
        simp [Option.filter, hpresent]
      rw [hfilter]
      simp [hcount hempty, hready]
    | cons e rest => rfl
  unfold applyMembership commitMembership
  rw [hdecide]
  simp [hpresent]

end Watch

/-! ## The invariant -/

namespace Membership

/-- What is known of a read underway. -/
structure KnownRead (w : Membership) (r : ReadUnderway) : Prop where
  keyed : EntryMap.Keyed r.before
  before : ∀ e ∈ r.before, e ∈ w.named
  joined : ∀ id ∈ r.joined, Names w.tab.remoteArray id
  snapKeyed : ∀ snap, r.snap = some snap → EntryMap.Keyed snap.primary
  snapNamed : ∀ snap, r.snap = some snap → ∀ e ∈ snap.primary, e ∈ w.named
  -- The server ran it after it was sent, and its versions do not go back.
  newer : ∀ snap, r.snap = some snap → ∀ {id v v'}, EntryMap.get snap.primary id = some v →
    EntryMap.get r.before id = some v' → v' ≤ v

structure Known (w : Membership) : Prop where
  keyed : EntryMap.Keyed w.tab.remoteArray
  held : ∀ e ∈ w.tab.remoteArray, e ∈ w.named
  server : EntryMap.Keyed w.server
  served : ∀ e ∈ w.server, e ∈ w.named
  newest : ∀ {id v v'}, EntryMap.get w.server id = some v → (id, v') ∈ w.named → v' ≤ v
  reads : ∀ r ∈ w.reads, w.KnownRead r

variable {limited : Bool} {w w' : Membership}

/-- The tab moves on to a membership of edges there have been. -/
theorem Known.withTab (hw : w.Known) {tab : Watch} (hkeyed : EntryMap.Keyed tab.remoteArray)
    (hheld : ∀ e ∈ tab.remoteArray, e ∈ w.named) (added : List String) :
    (w.withTab tab added).Known := by
  refine ⟨hkeyed, hheld, hw.server, hw.served, hw.newest, fun r hr => ?_⟩
  obtain ⟨r₀, hr₀, rfl⟩ := List.mem_map.mp hr
  have hread := hw.reads r₀ hr₀
  refine ⟨hread.keyed, hread.before, fun id hid => ?_, hread.snapKeyed, hread.snapNamed,
    hread.newer⟩
  exact of_decide_eq_true (List.mem_filter.mp hid).2

/-- The tab keeps its membership. -/
theorem Known.of_same (hw : w.Known) (h : w'.tab.remoteArray = w.tab.remoteArray)
    (hserver : w'.server = w.server) (hnamed : w'.named = w.named)
    (hreads : ∀ r ∈ w'.reads, w.KnownRead r) : w'.Known := by
  refine ⟨h ▸ hw.keyed, fun e he => ?_, hserver ▸ hw.server, fun e he => ?_, ?_, fun r hr => ?_⟩
  · rw [hnamed]
    exact hw.held e (h ▸ he)
  · rw [hnamed]
    exact hw.served e (hserver ▸ he)
  · rw [hserver, hnamed]
    exact hw.newest
  · have hread := hreads r hr
    refine ⟨hread.keyed, ?_, ?_, hread.snapKeyed, ?_, hread.newer⟩
    · rw [hnamed]
      exact hread.before
    · rw [h]
      exact hread.joined
    · rw [hnamed]
      exact hread.snapNamed

theorem mem_named_rebaseRead (hw : w.Known) {r : ReadUnderway} (hr : w.KnownRead r)
    {snap : ListRefSnapshot} (hsnap : r.snap = some snap) :
    ∀ e ∈ rebaseRead snap.primary r.before w.tab.remoteArray, e ∈ w.named := by
  rintro ⟨id, v⟩ he
  have hkeyed := hr.snapKeyed snap hsnap
  have hget := EntryMap.get_of_mem (keyed_rebaseRead hkeyed) he
  have hprimary : ∀ {v'}, EntryMap.get snap.primary id = some v' → (id, v') ∈ w.named :=
    fun h => hr.snapNamed snap hsnap _ (EntryMap.mem_of_get h)
  rw [get_rebaseRead hkeyed hr.keyed hw.keyed] at hget
  split at hget
  next =>
    split at hget
    · cases hget
    · exact hprimary hget
  next v' hv' =>
    split at hget
    · cases hget
      exact hw.held _ (EntryMap.mem_of_get hv')
    · exact hprimary hget

/-- What an answer leaves: what was there, the read rebased, or what a registration read. -/
theorem answered_remoteArray (w : Membership) (r : ReadUnderway) (snap : ListRefSnapshot)
    (now : Nat) : (w.answered r snap now).remoteArray = w.tab.remoteArray ∨
      (r.registers = false ∧ (w.answered r snap now).remoteArray =
        rebaseRead snap.primary r.before w.tab.remoteArray) ∨
      (r.registers = true ∧ (w.answered r snap now).remoteArray = snap.primary) := by
  unfold answered
  split
  next hr => exact (w.tab.applyMembership_remoteArray ..).imp_right fun h => .inr ⟨hr, h⟩
  next hr =>
    exact (w.tab.takeRead_remoteArray ..).imp_right fun h => .inl ⟨by simpa using hr, h⟩

theorem Known.step (hw : w.Known) {e : MembershipEvent} (hok : timely w e = true)
    (h : Membership.step limited w e = some w') : w'.Known := by
  cases e with
  | serverSet rows =>
    simp only [Membership.step] at h
    split at h
    next hkeyed =>
      cases h
      have hnewer : ∀ {id v v'}, EntryMap.get rows id = some v → (id, v') ∈ w.named ++ rows →
          v' ≤ v := by
        intro id v v' hv hmem
        rcases List.mem_append.mp hmem with hold | hnew
        · have hcheck := List.all_eq_true.mp (List.all_eq_true.mp hok _ (EntryMap.mem_of_get hv))
            _ hold
          simpa using hcheck
        · rw [EntryMap.get_of_mem hkeyed hnew, Option.some.injEq] at hv
          exact Nat.le_of_eq hv
      refine ⟨hw.keyed, fun e he => List.mem_append_left _ (hw.held e he), hkeyed,
        fun e he => List.mem_append_right _ he, hnewer, fun r hr => ?_⟩
      have hread := hw.reads r hr
      exact ⟨hread.keyed, fun e he => List.mem_append_left _ (hread.before e he), hread.joined,
        hread.snapKeyed, fun snap hs e he => List.mem_append_left _ (hread.snapNamed snap hs e he),
        hread.newer⟩
    next => cases h
  | live deltas now =>
    simp only [Membership.step] at h
    split at h
    next hnamed =>
      cases h
      rcases w.tab.applyEdgeDeltas_remoteArray limited deltas now with hsame | hnew
      · exact hw.withTab (hsame ▸ hw.keyed) (hsame ▸ hw.held) _
      · refine hw.withTab (hnew ▸ keyed_withDeltas hw.keyed deltas) (fun e he => ?_) _
        rw [hnew] at he
        have hget := EntryMap.get_of_mem (keyed_withDeltas hw.keyed deltas) he
        rcases of_get_withDeltas hw.keyed hget with hold | hdelta
        · exact hw.held e (EntryMap.mem_of_get hold)
        · exact hnamed e hdelta
    next => cases h
  | recover =>
    cases h
    exact hw.of_same rfl rfl rfl hw.reads
  | send registers =>
    cases h
    refine hw.of_same rfl rfl rfl fun r hr => ?_
    rcases List.mem_append.mp hr with hr | hr
    · exact hw.reads r hr
    · rw [List.mem_singleton.mp hr]
      exact ⟨hw.keyed, hw.held, fun _ h => absurd h List.not_mem_nil, nofun, nofun, nofun⟩
  | serve i rowMeta =>
    simp only [Membership.step] at h
    split at h
    next r hi =>
      split at h
      next =>
        cases h
        refine hw.of_same rfl rfl rfl fun r' hr' => ?_
        rcases List.mem_or_eq_of_mem_set hr' with hr' | rfl
        · exact hw.reads r' hr'
        · have hread := hw.reads r (List.mem_of_getElem? hi)
          refine ⟨hread.keyed, hread.before, hread.joined, fun snap hs => ?_, fun snap hs => ?_,
            fun snap hs => ?_⟩
          all_goals cases hs
          · exact hw.server
          · exact hw.served
          · exact fun hv hv' => hw.newest hv (hread.before _ (EntryMap.mem_of_get hv'))
      next => cases h
    next => cases h
  | answer i now =>
    simp only [Membership.step] at h
    split at h
    next r hi =>
      split at h
      next snap hsnap =>
        cases h
        have hread := hw.reads r (List.mem_of_getElem? hi)
        have hrest : Known { w with reads := w.reads.eraseIdx i } :=
          hw.of_same rfl rfl rfl fun r' hr' => hw.reads r' ((List.eraseIdx_sublist _ _).subset hr')
        rcases w.answered_remoteArray r snap now with h | ⟨_, h⟩ | ⟨_, h⟩
        · exact hrest.withTab (h ▸ hw.keyed) (h ▸ hw.held) _
        · exact hrest.withTab (h ▸ keyed_rebaseRead (hread.snapKeyed snap hsnap))
            (h ▸ mem_named_rebaseRead hw hread hsnap) _
        · exact hrest.withTab (h ▸ hread.snapKeyed snap hsnap) (h ▸ hread.snapNamed snap hsnap) _
      next => cases h
    next => cases h
  | fail i =>
    cases h
    exact hw.of_same rfl rfl rfl fun r hr => hw.reads r ((List.eraseIdx_sublist _ _).subset hr)

/-! ## Steps -/

/-- What a rebased read says of an id that is held is no older. -/
theorem le_rebaseRead (hw : w.Known) {r : ReadUnderway} (hr : w.KnownRead r)
    {snap : ListRefSnapshot} (hsnap : r.snap = some snap) {id : String} {v v' : Nat}
    (hv : EntryMap.get w.tab.remoteArray id = some v)
    (hv' : EntryMap.get (rebaseRead snap.primary r.before w.tab.remoteArray) id = some v') :
    v ≤ v' := by
  rw [get_rebaseRead (hr.snapKeyed snap hsnap) hr.keyed hw.keyed, hv] at hv'
  dsimp only at hv'
  split at hv'
  · cases hv'
    exact Nat.le_refl v
  next hcond =>
    rcases Bool.and_eq_false_iff.mp (Bool.eq_false_iff.mpr hcond) with hold | hold
    · -- The version has not changed since the read was sent, and the read is newer.
      cases hb : EntryMap.get r.before id with
      | none => simp [above, hb] at hold
      | some b =>
        have hvb : v ≤ b := by simpa [above, hb] using hold
        exact Nat.le_trans hvb (hr.newer snap hsnap hv' hb)
    · rw [hv'] at hold
      simpa [above] using hold

/-- The version of an id that stays held does not go down. -/
theorem versions_step (hw : w.Known) {e : MembershipEvent} (hok : timely w e = true)
    (h : step limited w e = some w') {id : String} {v v' : Nat}
    (hv : EntryMap.get w.tab.remoteArray id = some v)
    (hv' : EntryMap.get w'.tab.remoteArray id = some v') : v ≤ v' := by
  have hsame : w'.tab.remoteArray = w.tab.remoteArray → v ≤ v' := by
    intro heq
    rw [heq, hv, Option.some.injEq] at hv'
    exact Nat.le_of_eq hv'
  cases e with
  | serverSet rows =>
    simp only [step] at h
    split at h <;> cases h
    exact hsame rfl
  | live deltas now =>
    simp only [step] at h
    split at h <;> cases h
    rcases w.tab.applyEdgeDeltas_remoteArray limited deltas now with heq | hnew
    · exact hsame heq
    · obtain ⟨u, hu, hle⟩ := le_get_withDeltas hw.keyed deltas hv
      rw [withTab, hnew, hu, Option.some.injEq] at hv'
      exact hv' ▸ hle
  | recover | send registers | fail i =>
    cases h
    exact hsame rfl
  | serve i rowMeta =>
    simp only [step] at h
    split at h
    next =>
      split at h <;> cases h
      exact hsame rfl
    next => cases h
  | answer i now =>
    simp only [step] at h
    split at h
    next r hi =>
      split at h
      next snap hsnap =>
        cases h
        have hread := hw.reads r (List.mem_of_getElem? hi)
        rcases w.answered_remoteArray r snap now with heq | ⟨_, hnew⟩ | ⟨hregisters, hnew⟩
        · exact hsame heq
        · rw [withTab, hnew] at hv'
          exact le_rebaseRead hw hread hsnap hv hv'
        · -- A fresh registration names what is held as a rebased read would.
          have hfresh : w.fresh r snap = true := by
            simp only [timely, hi, hsnap] at hok
            exact hok
          have hnames : (!r.registers || w.tab.remoteArray.all fun e =>
              EntryMap.get (rebaseRead snap.primary r.before w.tab.remoteArray) e.1 =
                EntryMap.get snap.primary e.1) = true := (Bool.and_eq_true_iff.mp hfresh).1
          rw [hregisters] at hnames
          have hid := List.all_eq_true.mp hnames _ (EntryMap.mem_of_get hv)
          rw [withTab, hnew, ← of_decide_eq_true hid] at hv'
          exact le_rebaseRead hw hread hsnap hv hv'
      next => cases h
    next => cases h

/-- A fresh answer keeps what a delta has added since it was sent. -/
theorem joins_step (hw : w.Known) {i now : Nat} (hok : timely w (.answer i now) = true)
    (h : step limited w (.answer i now) = some w') {r : ReadUnderway} (hi : w.reads[i]? = some r) :
    ∀ id ∈ r.joined, Names w'.tab.remoteArray id := by
  intro id hid
  have hread := hw.reads r (List.mem_of_getElem? hi)
  have hheld : Names w.tab.remoteArray id := hread.joined id hid
  obtain ⟨v, hv⟩ := names_iff.mp hheld
  simp only [step, hi] at h
  split at h
  next snap hsnap =>
    cases h
    have hfresh : w.fresh r snap = true := by
      simp only [timely, hi, hsnap] at hok
      exact hok
    obtain ⟨hregistered, hjoined⟩ := Bool.and_eq_true_iff.mp hfresh
    -- The rebased read names it: its version has risen since, or the read has it.
    have hrebased : ∃ u, EntryMap.get (rebaseRead snap.primary r.before w.tab.remoteArray) id =
        some u := by
      rw [get_rebaseRead (hread.snapKeyed snap hsnap) hread.keyed hw.keyed, hv]
      dsimp only
      have hcase := List.all_eq_true.mp hjoined id hid
      rw [hv, Option.any_some] at hcase
      cases hp : EntryMap.get snap.primary id with
      | some u => split <;> exact ⟨_, rfl⟩
      | none =>
        have hno : ¬ Names snap.primary id := fun hn => by
          obtain ⟨u, hu⟩ := names_iff.mp hn
          rw [hp] at hu
          cases hu
        have hrisen : above (EntryMap.get r.before id) v = true := by simpa [hno] using hcase
        rw [hrisen]
        exact ⟨v, rfl⟩
    rcases w.answered_remoteArray r snap now with heq | ⟨_, hnew⟩ | ⟨hregisters, hnew⟩
    · rw [withTab, heq]
      exact hheld
    · rw [withTab, hnew]
      exact names_iff.mpr hrebased
    · rw [hregisters] at hregistered
      have hsame := List.all_eq_true.mp hregistered _ (EntryMap.mem_of_get hv)
      rw [withTab, hnew]
      rw [of_decide_eq_true hsame] at hrebased
      exact names_iff.mpr hrebased
  next => cases h

/-- A read that is sent and answered with nothing in between leaves the server's edges, if its row
is there and ready. -/
theorem read_alone (hw : w.Known) {rowMeta : ServerViewMeta} {now : Nat} {w₁ w₂ w₃ : Membership}
    (hpresent : rowMeta.present = true) (hready : rowMeta.state = some .ready)
    (hcount : w.server = [] → rowMeta.rowCount = some 0)
    (hsend : step limited w (.send false) = some w₁)
    (hserve : step limited w₁ (.serve w.reads.length rowMeta) = some w₂)
    (hanswer : step limited w₂ (.answer w.reads.length now) = some w₃) (id : String) :
    EntryMap.get w₃.tab.remoteArray id = EntryMap.get w.server id := by
  cases hsend
  simp only [step, List.getElem?_concat_length, Option.isNone_none, if_true] at hserve
  cases hserve
  simp only [step, List.getElem?_set, List.length_append, List.length_singleton,
    Nat.lt_succ_self, if_true, Option.some.injEq] at hanswer
  cases hanswer
  have hrebase : rebaseRead w.server w.tab.remoteArray w.tab.remoteArray = w.server := by
    rw [rebaseRead, if_pos rfl]
  simp only [withTab, answered, Bool.false_eq_true, if_false, Watch.takeRead, hrebase]
  split
  next => rw [Watch.applyMembership_ready _ hpresent hready hcount]
  next hquiet =>
    have hequal : recordVersionArraysEqual w.server w.tab.remoteArray = true := by
      rw [not_or, Bool.not_eq_true', Bool.not_eq_false] at hquiet
      exact hquiet.1
    exact (get_of_recordVersionArraysEqual hw.server hw.keyed hequal id).symm

/-! ## Runs -/

/-- What a run starts from: a seed from an earlier session, not ahead of the server. -/
structure Opening where
  tab : Watch
  server : RecordVersionArray
  keyed : EntryMap.Keyed tab.remoteArray
  serverKeyed : EntryMap.Keyed server
  behind : ∀ {id v v'}, EntryMap.get server id = some v →
    EntryMap.get tab.remoteArray id = some v' → v' ≤ v

def Opening.start (o : Opening) : Membership := ⟨o.tab, o.server, o.tab.remoteArray ++ o.server, []⟩

theorem known_start (o : Opening) : o.start.Known := by
  refine ⟨o.keyed, fun e he => List.mem_append_left _ he, o.serverKeyed,
    fun e he => List.mem_append_right _ he, fun {id v v'} hv hmem => ?_,
    fun _ h => absurd h List.not_mem_nil⟩
  rcases List.mem_append.mp hmem with hseed | hserver
  · exact o.behind hv (EntryMap.get_of_mem o.keyed hseed)
  · rw [show o.start.server = o.server from rfl, EntryMap.get_of_mem o.serverKeyed hserver,
      Option.some.injEq] at hv
    exact Nat.le_of_eq hv

theorem known_run (o : Opening) (hrun : Run (step limited) (fun w e => timely w e = true) o.start w) :
    w.Known :=
  hrun.invariant (known_start o) fun _ _ _ hw hok hstep => hw.step hok hstep

/-- In a run of timely steps no step takes a version back, no answer drops what a delta has added
since it was sent, and a last read on its own leaves the server's edges. -/
theorem membership_converges (limited : Bool) (o : Opening)
    (hrun : Run (step limited) (fun w e => timely w e = true) o.start w) :
    (∀ e w', timely w e = true → step limited w e = some w' → ∀ id v v',
      EntryMap.get w.tab.remoteArray id = some v → EntryMap.get w'.tab.remoteArray id = some v' →
        v ≤ v') ∧
    (∀ i now w' r, timely w (.answer i now) = true → step limited w (.answer i now) = some w' →
      w.reads[i]? = some r → ∀ id ∈ r.joined, Names w'.tab.remoteArray id) ∧
    ∀ rowMeta now w₁ w₂ w₃, rowMeta.present = true → rowMeta.state = some .ready →
      (w.server = [] → rowMeta.rowCount = some 0) → step limited w (.send false) = some w₁ →
        step limited w₁ (.serve w.reads.length rowMeta) = some w₂ →
          step limited w₂ (.answer w.reads.length now) = some w₃ →
            ∀ id, EntryMap.get w₃.tab.remoteArray id = EntryMap.get w.server id := by
  have hw : w.Known := known_run o hrun
  exact ⟨fun _ _ hok hstep _ _ _ => versions_step hw hok hstep,
    fun _ _ _ _ hok hstep hi => joins_step hw hok hstep hi,
    fun _ _ _ _ _ hpresent hready hcount hsend hserve hanswer =>
      read_alone hw hpresent hready hcount hsend hserve hanswer⟩

/-- A live query that holds one id, as on the server. -/
def oneRow : Opening where
  tab := ⟨.live, some .ready, 0, none, [("task:a", 1)]⟩
  server := [("task:a", 1)]
  keyed := by decide
  serverKeyed := by decide
  behind := by
    intro id v v' hv hv'
    rw [hv] at hv'
    exact Nat.le_of_eq (Option.some.inj hv').symm

/-- A request is run by the server, and then a row joins and the notification comes in. -/
def joinUnderway (registers : Bool) : List MembershipEvent :=
  [.send registers, .serve 0 ⟨true, some 1, some .ready⟩,
    .serverSet [("task:a", 1), ("task:b", 1)], .live [("task:b", 1)] 0]

/-- A read that was run before the row joined. -/
theorem membership_converges_joined : ∃ w w' : Membership, ∃ r : ReadUnderway,
    step false w (.answer 0 0) = some w' ∧ w.reads[0]? = some r ∧ "task:b" ∈ r.joined ∧
      Names w'.tab.remoteArray "task:b" := by
  have hrun : ((runAll (step false) timely oneRow.start (joinUnderway false)).bind fun w =>
      (step false w (.answer 0 0)).bind fun w' => w.reads[0]?.map fun r => (w, w', r)).any
        (fun p => timely p.1 (.answer 0 0) && decide ("task:b" ∈ p.2.2.joined)) = true := by
    decide +kernel
  obtain ⟨⟨w, w', r⟩, hp, hcheck⟩ := (Option.any_eq_true _ _).mp hrun
  obtain ⟨hok, hjoined⟩ := Bool.and_eq_true_iff.mp hcheck
  obtain ⟨_, hw, hp⟩ := Option.bind_eq_some_iff.mp hp
  obtain ⟨_, hstep, hp⟩ := Option.bind_eq_some_iff.mp hp
  obtain ⟨_, hr, hp⟩ := Option.map_eq_some_iff.mp hp
  cases hp
  have hmem := of_decide_eq_true hjoined
  exact ⟨w, w', r, hstep, hr, hmem,
    (membership_converges false oneRow (run_of_runAll hw)).2.1 0 0 w' r hok hstep hr _ hmem⟩

/-- A registration that was run before the row joined takes the row back. -/
theorem registration_drops_join : ¬ ∀ w w' : Membership,
    Run (step false) (fun _ _ => True) oneRow.start w → ∀ i now r,
      step false w (.answer i now) = some w' → w.reads[i]? = some r →
        ∀ id ∈ r.joined, Names w'.tab.remoteArray id := by
  intro hall
  have hrun : ((runAll (step false) (fun _ _ => true) oneRow.start (joinUnderway true)).bind fun w =>
      (step false w (.answer 0 0)).bind fun w' => w.reads[0]?.map fun r => (w, w', r)).any
        (fun p => decide ("task:b" ∈ p.2.2.joined) &&
          !decide (Names p.2.1.tab.remoteArray "task:b")) = true := by
    decide +kernel
  obtain ⟨⟨w, w', r⟩, hp, hcheck⟩ := (Option.any_eq_true _ _).mp hrun
  obtain ⟨hjoined, hgone⟩ := Bool.and_eq_true_iff.mp hcheck
  obtain ⟨_, hw, hp⟩ := Option.bind_eq_some_iff.mp hp
  obtain ⟨_, hstep, hp⟩ := Option.bind_eq_some_iff.mp hp
  obtain ⟨_, hr, hp⟩ := Option.map_eq_some_iff.mp hp
  cases hp
  have hnamed := hall w w' (freeRun hw) 0 0 r hstep hr _
    (of_decide_eq_true hjoined)
  simp [hnamed] at hgone

end Membership

end Sp00ky.Core.Client
