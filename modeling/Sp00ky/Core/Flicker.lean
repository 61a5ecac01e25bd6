/-
  Optimistic rows (`packages/core/src/state/reducers.ts`, `query/render-set.ts`).

  A created record is rendered out of the outbox until the membership of the query names it. The
  outbox is one for all queries: the first membership that names an acknowledged record takes its
  item out, and so does a reload of the outbox, while another query still waits
  (`created_row_flickers`). As long as an item is only taken out with nobody waiting, the record
  stays (`created_row_stays`).
-/
import Sp00ky.Core.ClientState
import Sp00ky.Lib.Transition

namespace Sp00ky.Core.Client

open Std Lib

/-- `ACK_GRACE_MS`. -/
def ackGraceMs : Nat := 30000

/-! ## Steps -/

/-- The state updates of the sagas that a rendering depends on. -/
inductive ClientAct where
  | putQuery (hash : String) (entry : QueryEntry)
  | removeQuery (hash : String)
  | rowMissing (hash : String)
  | commitMembership (hash : String) (remoteArray : RecordVersionArray) (present : Bool)
  | setLocalArray (hash : String) (localArray : RecordVersionArray)
  | rebindQuery (hash : String) (phase : QueryPhase) (remoteArray localArray : RecordVersionArray)
  | outboxReplace (items : List OutboxItem)
  | outboxPush (item : OutboxItem)
  | outboxAck (id : String) (now : Nat)
  /-- `outboxRemove`, by `rollback`. -/
  | rolledBack (id : String)
  /-- `outboxRemove`, by a drain that does not find the row. -/
  | rowGone (id : String)
  | ackPrune (now : Nat)
  | setPeerWrite (id : String) (write : PeerWrite)
  | clearPeerWrite (id : String)
  | clearBucketState

def ClientAct.run (s : ClientState) : ClientAct → Option ClientState
  | .putQuery hash entry => some (s.putQuery hash entry)
  | .removeQuery hash => some (s.removeQuery hash)
  | .rowMissing hash => some (s.rowMissing hash)
  | .commitMembership hash remoteArray present => s.commitMembership hash remoteArray present
  | .setLocalArray hash localArray => some (s.setLocalArray hash localArray)
  | .rebindQuery hash phase remoteArray localArray =>
    some (s.rebindQuery hash phase remoteArray localArray)
  | .outboxReplace items => some (s.outboxReplace items)
  | .outboxPush item => some (s.outboxPush item)
  | .outboxAck id now => some (s.outboxAck id now)
  | .rolledBack id => some (s.outboxRemove id)
  | .rowGone id => some (s.outboxRemove id)
  | .ackPrune now => some (s.outboxPruneAcked now ackGraceMs)
  | .setPeerWrite id write => some (s.setPeerWrite id write)
  | .clearPeerWrite id => some (s.clearPeerWrite id)
  | .clearBucketState => some s.clearBucketState

/-- The state since a create was pushed: which queries' memberships have named the record, and
whether the create was rolled back, a delete queued or the grace has passed. -/
structure Created where
  client : ClientState
  caught : String → Bool
  isOver : Bool

namespace Created

section

-- The mutation and the record it creates.
variable (id recordId : String)

/-- The membership of a query names the record. -/
def catches (s : ClientState) (hash : String) : Bool :=
  match s.queries[hash]? with
  | none => false
  | some e => decide (Names e.remoteArray recordId)

/-- `outboxPush`, of a create. -/
def pushed (s : ClientState) : Created :=
  ⟨s.outboxPush ⟨id, .create, recordId, .pending⟩, catches recordId s, false⟩

/-- The write is rolled back, a delete of the record is queued, or the grace has passed. -/
def ends (s : ClientState) : ClientAct → Bool
  | .rolledBack i => decide (i = id)
  | .outboxPush item => decide (item.type = .delete ∧ item.recordId = recordId)
  | .outboxReplace items => items.any fun i => decide (i.type = .delete ∧ i.recordId = recordId)
  | .ackPrune now =>
    s.outbox.any fun i => decide (i.id = id) && ClientState.OutboxItem.stale now ackGraceMs i
  | _ => false

def step (t : Created) (a : ClientAct) : Option Created :=
  (a.run t.client).map fun s =>
    ⟨s, fun hash => t.caught hash || catches recordId s hash,
      t.isOver || ends id recordId t.client a⟩

/-- The query renders from its membership, which has not named the record, and its local view
matches it. -/
def Waits (t : Created) (hash : String) : Prop :=
  ∃ e, t.client.queries[hash]? = some e ∧ e.phase ≠ .cold ∧ Names e.localArray recordId ∧
    t.caught hash = false

/-- The outbox item is a create or an update of the record. -/
def IsWrite (i : OutboxItem) : Prop := i.type ≠ .delete ∧ i.recordId = recordId

/-- The step takes the last write of the record out of the overlay. -/
def TakesOut (s : ClientState) : ClientAct → Prop
  | .commitMembership _ remoteArray _ => Names remoteArray recordId ∧
      s.peerWrites[recordId]? ≠ some .create ∧
      ∀ i ∈ s.outbox, IsWrite recordId i → i.status.isAcked = true
  | .outboxReplace items =>
      s.peerWrites[recordId]? ≠ some .create ∧ ∀ i ∈ items, ¬ IsWrite recordId i
  | .rolledBack gone | .rowGone gone =>
      s.peerWrites[recordId]? ≠ some .create ∧ ∀ i ∈ s.outbox, IsWrite recordId i → i.id = gone
  | .ackPrune now => s.peerWrites[recordId]? ≠ some .create ∧
      ∀ i ∈ s.outbox, IsWrite recordId i → ClientState.OutboxItem.stale now ackGraceMs i = true
  | .clearPeerWrite peer => peer = recordId ∧ ∀ i ∈ s.outbox, ¬ IsWrite recordId i
  | .clearBucketState => True
  | _ => False

/-- The query comes to match the record locally, past cold, with a membership without it. -/
def Joins (s : ClientState) (hash : String) : ClientAct → Prop
  | .putQuery h entry => h = hash ∧ entry.phase ≠ .cold ∧ Names entry.localArray recordId
  | .commitMembership h remoteArray _ => h = hash ∧ ¬ Names remoteArray recordId ∧
      ∃ e, s.queries[h]? = some e ∧ Names e.localArray recordId
  | .setLocalArray h localArray => h = hash ∧ Names localArray recordId ∧
      ∃ e, s.queries[h]? = some e ∧ e.phase ≠ .cold
  | .rebindQuery h phase _ localArray => h = hash ∧ phase ≠ .cold ∧ Names localArray recordId
  | _ => False

/-- A channel peer deletes the record. -/
def PeerDeletes : ClientAct → Prop
  | .setPeerWrite peer write => peer = recordId ∧ write = .delete
  | _ => False

/-- The query whose membership a step commits. -/
def Commits (hash : String) : ClientAct → Prop
  | .commitMembership h _ _ => h = hash
  | _ => False

/-- The record's last write leaves the overlay only when no other query waits for the record, no
query comes to wait for it later, and no peer deletes the record. -/
def WaitedFor (t : Created) (a : ClientAct) : Prop :=
  t.isOver = true ∨ ends id recordId t.client a = true ∨
    (¬ PeerDeletes recordId a ∧
      (TakesOut recordId t.client a → ∀ hash, Waits recordId t hash → Commits hash a) ∧
      ∀ hash, Joins recordId t.client hash a → t.caught hash = false → t.client.Writes recordId)

/-- Until it is over, the record is not hidden and an overlay write backs it for who waits. -/
def Backed (t : Created) : Prop :=
  t.isOver = true ∨ (¬ t.client.Deletes recordId ∧
    ∀ hash, Waits recordId t hash → t.client.Writes recordId)

/-! ## What a step does to the overlay and to who waits -/

variable {id recordId} {s s' : ClientState}

theorem writes_of_isWrite {i : OutboxItem} (hi : i ∈ s.outbox)
    (hw : IsWrite recordId i) : s.Writes recordId := .inl ⟨i, hi, hw.1, hw.2⟩

theorem mem_ackFirst (i : String) (now : Nat) {l : List OutboxItem} {j : OutboxItem} (h : j ∈ l) :
    ∃ j' ∈ ClientState.ackFirst i now l, j'.type = j.type ∧ j'.recordId = j.recordId := by
  have hmem := List.mem_map_of_mem (f := fun j : OutboxItem => (j.type, j.recordId)) h
  rw [← ClientState.map_ackFirst (fun _ _ => rfl) i now] at hmem
  obtain ⟨j', hj', hsame⟩ := List.mem_map.mp hmem
  exact ⟨j', hj', Prod.mk.inj hsame⟩

theorem of_mem_ackFirst {i : String} {now : Nat} {l : List OutboxItem} {j : OutboxItem}
    (h : j ∈ ClientState.ackFirst i now l) : ∃ j' ∈ l, j'.type = j.type ∧ j'.recordId = j.recordId := by
  have hmem := List.mem_map_of_mem (f := fun j : OutboxItem => (j.type, j.recordId)) h
  rw [ClientState.map_ackFirst fun _ _ => rfl] at hmem
  obtain ⟨j', hj', hsame⟩ := List.mem_map.mp hmem
  exact ⟨j', hj', Prod.mk.inj hsame⟩

/-- An update of one query leaves the overlay. -/
theorem withEntry_outbox (s : ClientState) (hash : String) (f : QueryEntry → QueryEntry) :
    (s.withEntry hash f).outbox = s.outbox ∧ (s.withEntry hash f).peerWrites = s.peerWrites := by
  unfold ClientState.withEntry
  split <;> exact ⟨rfl, rfl⟩

/-- The entries after an update of one query. -/
theorem withEntry_queries {hash h : String} {f : QueryEntry → QueryEntry}
    {e : QueryEntry} (he : (s.withEntry hash f).queries[h]? = some e) :
    s.queries[h]? = some e ∨ hash = h ∧ ∃ e', s.queries[h]? = some e' ∧ e = f e' := by
  unfold ClientState.withEntry at he
  split at he
  next => exact .inl he
  next e' he' =>
    dsimp only at he
    rw [ExtTreeMap.getElem?_insert] at he
    split at he
    next heq =>
      have hh : hash = h := by simpa using heq
      subst hh
      exact .inr ⟨rfl, e', he', (Option.some.inj he).symm⟩
    next => exact .inl he

/-- What is left of the outbox writes the record. -/
theorem writes_filter {keeps : OutboxItem → Bool}
    (hout : s'.outbox = s.outbox.filter keeps) (hpeer : s'.peerWrites = s.peerWrites)
    (hkept : s.peerWrites[recordId]? = some .create ∨
      ∃ i ∈ s.outbox, IsWrite recordId i ∧ keeps i = true) : s'.Writes recordId := by
  rcases hkept with hc | ⟨i, hi, hiw, hk⟩
  · exact .inr (hpeer ▸ hc)
  · exact .inl ⟨i, by rw [hout]; exact List.mem_filter.mpr ⟨hi, hk⟩, hiw.1, hiw.2⟩

/-- If not every write of the record goes, one stays. -/
theorem one_stays {goes : OutboxItem → Prop} (h : ¬ (s.peerWrites[recordId]? ≠ some .create ∧
      ∀ i ∈ s.outbox, IsWrite recordId i → goes i)) :
    s.peerWrites[recordId]? = some .create ∨ ∃ i ∈ s.outbox, IsWrite recordId i ∧ ¬ goes i := by
  by_cases hc : s.peerWrites[recordId]? = some .create
  · exact .inl hc
  · refine .inr ?_
    by_contra hnone
    refine h ⟨hc, fun i hi hw => ?_⟩
    by_contra hg
    exact hnone ⟨i, hi, hw, hg⟩

variable {a : ClientAct}

/-- The record stays in the overlay unless its last write is taken out. -/
theorem writes_step (hrun : a.run s = some s')
    (hw : s.Writes recordId) (hstays : ¬ TakesOut recordId s a) (hpeer : ¬ PeerDeletes recordId a) :
    s'.Writes recordId := by
  cases a with
  | putQuery | removeQuery =>
    cases hrun
    exact hw
  | rowMissing hash | setLocalArray hash arr | rebindQuery hash phase remote arr =>
    cases hrun
    obtain ⟨hout, hpeers⟩ := withEntry_outbox s hash _
    unfold ClientState.Writes
    erw [hout, hpeers]
    exact hw
  | commitMembership hash arr present =>
    simp only [ClientAct.run, ClientState.commitMembership] at hrun
    split at hrun
    next =>
      cases hrun
      exact hw
    next e he =>
      split at hrun
      next => cases hrun
      next =>
        cases hrun
        by_cases hnames : Names arr recordId
        · rcases one_stays (fun h => hstays ⟨hnames, h⟩) with hc | ⟨i, hi, hiw, hk⟩
          · exact .inr hc
          · refine writes_filter rfl rfl (.inr ⟨i, hi, hiw, ?_⟩)
            simpa using Or.inl (Bool.not_eq_true _ ▸ hk)
        · rcases hw with ⟨i, hi, hty, hrid⟩ | hc
          · refine writes_filter rfl rfl (.inr ⟨i, hi, ⟨hty, hrid⟩, ?_⟩)
            subst hrid
            simpa using Or.inr hnames
          · exact .inr hc
  | outboxReplace items =>
    cases hrun
    by_cases hc : s.peerWrites[recordId]? = some .create
    · exact .inr hc
    · by_contra hnone
      refine hstays ⟨hc, fun i hi hiw => hnone (.inl ⟨i, hi, hiw.1, hiw.2⟩)⟩
  | outboxPush item =>
    cases hrun
    rcases hw with ⟨i, hi, hiw⟩ | hc
    · exact .inl ⟨i, List.mem_append_left _ hi, hiw⟩
    · exact .inr hc
  | outboxAck i now =>
    cases hrun
    rcases hw with ⟨j, hj, hty, hrid⟩ | hc
    · obtain ⟨j', hj', ht, hr⟩ := mem_ackFirst i now hj
      exact .inl ⟨j', hj', ht ▸ hty, hr.trans hrid⟩
    · exact .inr hc
  | rolledBack gone | rowGone gone =>
    cases hrun
    rcases one_stays hstays with hc | ⟨i, hi, hiw, hk⟩
    · exact .inr hc
    · exact writes_filter rfl rfl (.inr ⟨i, hi, hiw, by simpa using hk⟩)
  | ackPrune now =>
    cases hrun
    rcases one_stays hstays with hc | ⟨i, hi, hiw, hk⟩
    · exact .inr hc
    · exact writes_filter rfl rfl (.inr ⟨i, hi, hiw, by simpa using hk⟩)
  | setPeerWrite peer write =>
    cases hrun
    rcases hw with hi | hc
    · exact .inl hi
    · refine .inr ?_
      change (s.peerWrites.insert peer write)[recordId]? = _
      rw [ExtTreeMap.getElem?_insert]
      split
      next heq =>
        have hp : peer = recordId := by simpa using heq
        cases write with
        | create => rfl
        | delete => exact absurd ⟨hp, rfl⟩ hpeer
      next => exact hc
  | clearPeerWrite peer =>
    cases hrun
    rcases hw with hi | hc
    · exact .inl hi
    · by_cases hp : peer = recordId
      · by_contra hnone
        refine hstays ⟨hp, fun i hi hiw => hnone (.inl ⟨i, hi, hiw.1, hiw.2⟩)⟩
      · refine .inr ?_
        change (s.peerWrites.erase peer)[recordId]? = _
        rw [ExtTreeMap.getElem?_erase, if_neg (by simpa using hp)]
        exact hc
  | clearBucketState => exact absurd trivial hstays

/-- Only a queued delete or a peer's hides the record. -/
theorem deletes_step (hrun : a.run s = some s')
    (hd : ¬ s.Deletes recordId) (hends : ends id recordId s a = false)
    (hpeer : ¬ PeerDeletes recordId a) : ¬ s'.Deletes recordId := by
  -- A delete that the step does not bring was there before.
  have hold : (∀ i ∈ s'.outbox, i.type = .delete → i.recordId = recordId →
      ∃ j ∈ s.outbox, j.type = i.type ∧ j.recordId = i.recordId) →
      (s'.peerWrites[recordId]? = some .delete → s.peerWrites[recordId]? = some .delete) →
      ¬ s'.Deletes recordId := by
    rintro hitems hpeers (⟨i, hi, hty, hrid⟩ | hp)
    · obtain ⟨j, hj, ht, hr⟩ := hitems i hi hty hrid
      exact hd (.inl ⟨j, hj, ht.trans hty, hr.trans hrid⟩)
    · exact hd (.inr (hpeers hp))
  cases a with
  | putQuery | removeQuery =>
    cases hrun
    exact hd
  | rowMissing hash | setLocalArray hash arr | rebindQuery hash phase remote arr =>
    cases hrun
    obtain ⟨hout, hpeers⟩ := withEntry_outbox s hash _
    unfold ClientState.Deletes
    erw [hout, hpeers]
    exact hd
  | commitMembership hash arr present =>
    simp only [ClientAct.run, ClientState.commitMembership] at hrun
    split at hrun
    next =>
      cases hrun
      exact hd
    next e he =>
      split at hrun
      next => cases hrun
      next =>
        cases hrun
        exact hold (fun i hi _ _ => ⟨i, List.mem_of_mem_filter hi, rfl, rfl⟩) fun h => h
  | outboxReplace items =>
    cases hrun
    refine hold (fun i hi hty hrid => ?_) fun h => h
    have hnone := List.any_eq_false.mp hends i hi
    simp [hty, hrid] at hnone
  | outboxPush item =>
    cases hrun
    refine hold (fun i hi hty hrid => ?_) fun h => h
    rcases List.mem_append.mp hi with hi | hi
    · exact ⟨i, hi, rfl, rfl⟩
    · rw [List.mem_singleton] at hi
      subst hi
      simp [ends, hty, hrid] at hends
  | outboxAck i now =>
    cases hrun
    exact hold (fun j hj _ _ => of_mem_ackFirst hj) fun h => h
  | rolledBack | rowGone | ackPrune =>
    cases hrun
    exact hold (fun i hi _ _ => ⟨i, List.mem_of_mem_filter hi, rfl, rfl⟩) fun h => h
  | setPeerWrite peer write =>
    cases hrun
    refine hold (fun i hi _ _ => ⟨i, hi, rfl, rfl⟩) fun h => ?_
    change (s.peerWrites.insert peer write)[recordId]? = _ at h
    rw [ExtTreeMap.getElem?_insert] at h
    split at h
    next heq => exact absurd ⟨by simpa using heq, Option.some.inj h⟩ hpeer
    next => exact h
  | clearPeerWrite peer =>
    cases hrun
    refine hold (fun i hi _ _ => ⟨i, hi, rfl, rfl⟩) fun h => ?_
    change (s.peerWrites.erase peer)[recordId]? = _ at h
    rw [ExtTreeMap.getElem?_erase] at h
    split at h
    next => cases h
    next => exact h
  | clearBucketState =>
    cases hrun
    refine hold (fun i hi _ _ => absurd hi List.not_mem_nil) fun h => ?_
    change (∅ : ExtTreeMap String PeerWrite)[recordId]? = _ at h
    simp at h

/-- Who waits after a step has waited before, or joins in it. -/
theorem waits_step {t t' : Created} {hash : String}
    (hstep : step id recordId t a = some t') (hw : Waits recordId t' hash) :
    t.caught hash = false ∧ (Waits recordId t hash ∨ Joins recordId t.client hash a) := by
  obtain ⟨s', hrun, rfl⟩ := Option.map_eq_some_iff.mp hstep
  obtain ⟨e, he, hphase, hlocal, hcaught⟩ := hw
  obtain ⟨hbefore, hnot⟩ := Bool.or_eq_false_iff.mp hcaught
  refine ⟨hbefore, ?_⟩
  have hsame : t.client.queries[hash]? = some e →
      Waits recordId t hash ∨ Joins recordId t.client hash a :=
    fun h => .inl ⟨e, h, hphase, hlocal, hbefore⟩
  cases a with
  | putQuery h entry =>
    cases hrun
    change (t.client.queries.insert h entry)[hash]? = _ at he
    rw [ExtTreeMap.getElem?_insert] at he
    split at he
    next heq =>
      cases he
      exact .inr ⟨by simpa using heq, hphase, hlocal⟩
    next => exact hsame he
  | removeQuery h =>
    cases hrun
    change (t.client.queries.erase h)[hash]? = _ at he
    rw [ExtTreeMap.getElem?_erase] at he
    split at he
    next => cases he
    next => exact hsame he
  | rowMissing h =>
    cases hrun
    rcases withEntry_queries he with he | ⟨rfl, e', he', rfl⟩
    · exact hsame he
    · refine .inl ⟨e', he', fun hcold => hphase ?_, hlocal, hbefore⟩
      exact if_pos hcold
  | commitMembership h arr present =>
    simp only [ClientAct.run, ClientState.commitMembership] at hrun
    split at hrun
    next =>
      cases hrun
      exact hsame he
    next e' he' =>
      split at hrun
      next => cases hrun
      next =>
        cases hrun
        rw [ExtTreeMap.getElem?_insert] at he
        split at he
        next heq =>
          have hh : h = hash := by simpa using heq
          subst hh
          cases he
          refine .inr ⟨rfl, fun hnames => ?_, e', he', hlocal⟩
          simp [catches, hnames] at hnot
        next => exact hsame he
  | setLocalArray h arr =>
    cases hrun
    rcases withEntry_queries he with he | ⟨rfl, e', he', rfl⟩
    · exact hsame he
    · exact .inr ⟨rfl, hlocal, e', he', hphase⟩
  | rebindQuery h phase remote arr =>
    cases hrun
    rcases withEntry_queries he with he | ⟨rfl, e', he', rfl⟩
    · exact hsame he
    · exact .inr ⟨rfl, hphase, hlocal⟩
  | _ =>
    cases hrun
    exact hsame he

/-- Of a query that still waits, the step that takes the last write out is not the commit. -/
theorem not_commits_of_waits {t t' : Created} {hash : String}
    (hstep : step id recordId t a = some t') (hw : Waits recordId t' hash)
    (hout : TakesOut recordId t.client a) : ¬ Commits hash a := by
  intro hcommits
  cases a with
  | commitMembership h arr present =>
    cases hcommits
    obtain ⟨s', hrun, rfl⟩ := Option.map_eq_some_iff.mp hstep
    obtain ⟨e, he, -, -, hcaught⟩ := hw
    obtain ⟨hbefore, hnot⟩ := Bool.or_eq_false_iff.mp hcaught
    simp only [ClientAct.run, ClientState.commitMembership] at hrun
    split at hrun
    next hnone =>
      cases hrun
      dsimp only at he
      rw [hnone] at he
      cases he
    next e' he' =>
      split at hrun
      next => cases hrun
      next =>
        cases hrun
        simp [catches, hout.1] at hnot
  | _ => cases hcommits

/-- A step in which a query comes to wait takes no write out. -/
theorem not_takesOut_of_joins {hash : String}
    (hjoins : Joins recordId s hash a) : ¬ TakesOut recordId s a := by
  intro hout
  cases a with
  | commitMembership => exact hjoins.2.1 hout.1
  | putQuery | setLocalArray | rebindQuery => exact hout
  | _ => exact hjoins

/-! ## Runs -/

/-- A step that waits for who waits keeps the record backed. -/
theorem Backed.step {t t' : Created} (h : Backed recordId t)
    (hok : WaitedFor id recordId t a) (hstep : step id recordId t a = some t') :
    Backed recordId t' := by
  obtain ⟨s', hrun, heq⟩ := Option.map_eq_some_iff.mp hstep
  by_cases hover : t'.isOver = true
  · exact .inl hover
  obtain ⟨hrunning, hends⟩ : t.isOver = false ∧ ends id recordId t.client a = false := by
    subst heq
    exact Bool.or_eq_false_iff.mp (Bool.not_eq_true _ ▸ hover)
  rcases h with h | ⟨hd, hback⟩
  · rw [hrunning] at h
    cases h
  rcases hok with hok | hok | ⟨hpeer, hnobody, hjoined⟩
  · rw [hrunning] at hok
    cases hok
  · rw [hends] at hok
    cases hok
  have hclient : t'.client = s' := by rw [← heq]
  refine .inr ⟨hclient ▸ deletes_step hrun hd hends hpeer, fun hash hw => ?_⟩
  obtain ⟨hfree, hwho⟩ := waits_step hstep hw
  rw [hclient]
  rcases hwho with hwaits | hjoins
  · refine writes_step hrun (hback hash hwaits) (fun hout => ?_) hpeer
    exact not_commits_of_waits hstep hw hout (hnobody hout hash hwaits)
  · exact writes_step hrun (hjoined hash hjoins hfree) (not_takesOut_of_joins hjoins) hpeer

/-- The pushed create backs its record, unless a delete of it still hides it. -/
theorem Backed.pushed (h : ¬ s.Deletes recordId) :
    Backed recordId (pushed id recordId s) := by
  refine .inr ⟨?_, fun _ _ => .inl ⟨_, List.mem_append_right _ List.mem_cons_self, by simp, rfl⟩⟩
  rintro (⟨i, hi, hty, hrid⟩ | hp)
  · rcases List.mem_append.mp hi with hi | hi
    · exact h (.inl ⟨i, hi, hty, hrid⟩)
    · rw [List.mem_singleton] at hi
      subst hi
      cases hty
  · exact h (.inr hp)

end

end Created

open Created in
/-- As long as the record is waited for, every query that is past cold and matches it locally
renders it, until its own membership names it or the write is over. -/
theorem created_row_stays (s : ClientState) (id recordId : String)
    (hshown : ¬ s.Deletes recordId) (t : Created)
    (hrun : Run (step id recordId) (WaitedFor id recordId) (pushed id recordId s) t)
    (hover : t.isOver = false) (hash : String) (e : QueryEntry)
    (he : t.client.queries[hash]? = some e) (hphase : e.phase ≠ .cold)
    (hlocal : Names e.localArray recordId) (hcaught : t.caught hash = false) :
    recordId ∈ buildRenderIds t.client e := by
  have hbacked := hrun.invariant (Backed.pushed hshown) fun _ _ _ h hok hs => h.step hok hs
  rcases hbacked with h | ⟨hd, hback⟩
  · rw [hover] at h
    cases h
  · exact mem_buildRenderIds.mpr ⟨.inr ⟨hback hash ⟨e, he, hphase, hlocal, hcaught⟩, hlocal⟩, hd⟩

/-- A step that is waited for: while a write of the record is in the overlay, one that is not
acknowledged yet where a membership is committed. -/
def waitedFor (recordId : String) (t : Created) : ClientAct → Bool
  | .putQuery .. | .setLocalArray .. => decide (t.client.Writes recordId)
  | .outboxAck .. => true
  | .commitMembership .. => t.client.outbox.any fun i =>
      decide (i.type ≠ .delete ∧ i.recordId = recordId) && !i.status.isAcked
  | _ => false

theorem waitedFor_sound (id : String) {recordId : String} (t : Created) (a : ClientAct)
    (h : waitedFor recordId t a = true) : Created.WaitedFor id recordId t a := by
  refine .inr (.inr ?_)
  cases a with
  | putQuery | setLocalArray =>
    exact ⟨fun h => h, fun h => h.elim, fun _ _ _ => of_decide_eq_true h⟩
  | outboxAck => exact ⟨fun h => h, fun h => h.elim, fun _ h => h.elim⟩
  | commitMembership =>
    obtain ⟨i, hi, hw⟩ := List.any_eq_true.mp h
    obtain ⟨hiw, hpending⟩ := Bool.and_eq_true_iff.mp hw
    have hwrite : Created.IsWrite recordId i := by
      unfold Created.IsWrite
      exact of_decide_eq_true hiw
    refine ⟨fun h => h, fun hout => ?_, fun _ _ _ => Created.writes_of_isWrite hi hwrite⟩
    rw [hout.2.2 i hi hwrite] at hpending
    cases hpending
  | _ => cases h

/-- A query whose membership is known and empty. -/
def emptyLive : QueryEntry := ⟨.live, [], [], [], false, false⟩

/-- Two queries of one table. -/
def twoQueries : ClientState :=
  ⟨((∅ : ExtTreeMap String QueryEntry).insert "all" emptyLive).insert "mine" emptyLive, ∅, [], ∅⟩

/-- Both match the created task. -/
def bothMatch : List ClientAct :=
  [.setLocalArray "all" [("task:1", 1)], .setLocalArray "mine" [("task:1", 1)]]

/-- The tasks after some steps. -/
def taskCreated (ok : Created → ClientAct → Bool) (acts : List ClientAct) : Option Created :=
  runAll (Created.step "m1" "task:1") ok (.pushed "m1" "task:1" twoQueries) (bothMatch ++ acts)

/-- The membership of one query names the task, then the push is acknowledged. -/
def namedFirst : Created :=
  (taskCreated (waitedFor "task:1")
    [.commitMembership "all" [("task:1", 1)] true, .outboxAck "m1" 0]).getD
    ⟨twoQueries, fun _ => false, false⟩

/-- The other query. -/
def waiting (t : Created) : QueryEntry := (t.client.queries["mine"]?).getD emptyLive

theorem created_row_stays_named_first :
    "task:1" ∈ buildRenderIds namedFirst.client (waiting namedFirst) := by
  have hsome : (taskCreated (waitedFor "task:1")
      [.commitMembership "all" [("task:1", 1)] true, .outboxAck "m1" 0]).isSome = true := by
    decide +kernel
  obtain ⟨t, ht⟩ := Option.isSome_iff_exists.mp hsome
  have hnamed : namedFirst = t := by
    unfold namedFirst
    rw [ht]
    rfl
  have hentry : (namedFirst.client.queries["mine"]?) = some (waiting namedFirst) := by
    decide +kernel
  refine created_row_stays twoQueries "m1" "task:1" (by decide +kernel) namedFirst ?_
    (by decide +kernel) "mine" (waiting namedFirst) hentry (by decide +kernel) (by decide +kernel)
    (by decide +kernel)
  rw [hnamed]
  exact (run_of_runAll ht).mono (waitedFor_sound "m1")

/-- The push is acknowledged, then the membership of one query names the task. -/
def ackedFirst : List ClientAct :=
  [.outboxAck "m1" 0, .commitMembership "all" [("task:1", 1)] true]

/-- The other query no longer renders it. -/
theorem created_row_flickers : ¬ ∀ (s : ClientState) (id recordId : String) (t : Created),
    Run (Created.step id recordId) (fun _ _ => True) (Created.pushed id recordId s) t →
      t.isOver = false → ∀ (hash : String) (e : QueryEntry), t.client.queries[hash]? = some e →
        e.phase ≠ .cold → Names e.localArray recordId → t.caught hash = false →
          recordId ∈ buildRenderIds t.client e := by
  intro hall
  have hsome : (taskCreated (fun _ _ => true) ackedFirst).isSome = true := by decide +kernel
  obtain ⟨t, ht⟩ := Option.isSome_iff_exists.mp hsome
  have hlost : (taskCreated (fun _ _ => true) ackedFirst).map (fun t =>
      (t.isOver, t.caught "mine", t.client.queries["mine"]?,
        buildRenderIds t.client (waiting t))) =
      some (false, false, some ⟨.live, [], [("task:1", 1)], [], false, false⟩, []) := by
    decide +kernel
  rw [ht] at hlost
  obtain ⟨hover, hrest⟩ := Prod.mk.inj (Option.some.inj hlost)
  obtain ⟨hcaught, hrest⟩ := Prod.mk.inj hrest
  obtain ⟨hentry, hrender⟩ := Prod.mk.inj hrest
  have hmem := hall twoQueries "m1" "task:1" t (freeRun ht) hover
    "mine" _ hentry (by decide) (by decide) hcaught
  unfold waiting at hrender
  rw [hentry, Option.getD_some] at hrender
  rw [hrender] at hmem
  cases hmem

end Sp00ky.Core.Client
