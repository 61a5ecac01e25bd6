/-
  The state of a tab (`packages/core/src/state/client-state.ts`, `reducers.ts`, `selectors.ts`) and
  what a query renders from it (`query/render-set.ts`).

  A query holds the membership the server sent last and the ids its local view matches. Between a
  write and the membership that names it, the outbox stands in: the ids of its items are rendered
  too, as far as the local view matches them.
-/
import Sp00ky.Lib.Maps
import Mathlib.Algebra.Order.Ring.Int
import Mathlib.Data.List.Lex

namespace Sp00ky.Core.Client

open Std

/-! ## State -/

/-- Record ids with the versions they were named at. -/
abbrev RecordVersionArray := List (String × Nat)

/-- An id is named. -/
def Names (rows : RecordVersionArray) (id : String) : Prop := id ∈ rows.map (·.1)

instance (rows : RecordVersionArray) (id : String) : Decidable (Names rows id) :=
  inferInstanceAs (Decidable (_ ∈ _))

/-- `QueryPhase`. -/
inductive QueryPhase where
  | cold | cached | live | viewLost
deriving DecidableEq, Repr

/-- What a query renders from, and how: `RenderOptions` is read off its text. -/
structure QueryEntry where
  phase : QueryPhase
  remoteArray : RecordVersionArray
  localArray : RecordVersionArray
  subqueryRemoteArray : RecordVersionArray
  hasExplicitOrder : Bool
  isWindow : Bool
deriving DecidableEq, Repr

/-- `MutationEventType`. -/
inductive MutationEventType where
  | create | update | delete
deriving DecidableEq, Repr

/-- `OutboxStatus`, with the time of the acknowledgement. -/
inductive OutboxStatus where
  | pending
  | acked (ackedAt : Nat)
deriving DecidableEq, Repr

def OutboxStatus.isAcked : OutboxStatus → Bool
  | .pending => false
  | .acked _ => true

/-- The mirror of a row of `_00_pending_mutations`. -/
structure OutboxItem where
  id : String
  type : MutationEventType
  recordId : String
  status : OutboxStatus
deriving DecidableEq, Repr

/-- `PeerWrite`: what a channel peer did to a record. -/
inductive PeerWrite where
  | create | delete
deriving DecidableEq, Repr

structure ClientState where
  queries : ExtTreeMap String QueryEntry
  versions : ExtTreeMap String Nat
  outbox : List OutboxItem
  peerWrites : ExtTreeMap String PeerWrite

namespace ClientState

/-! ## Reducers -/

/-- `withEntry`. -/
def withEntry (s : ClientState) (hash : String) (f : QueryEntry → QueryEntry) : ClientState :=
  match s.queries[hash]? with
  | none => s
  | some e => { s with queries := s.queries.insert hash (f e) }

def putQuery (hash : String) (entry : QueryEntry) (s : ClientState) : ClientState :=
  { s with queries := s.queries.insert hash entry }

def removeQuery (hash : String) (s : ClientState) : ClientState :=
  { s with queries := s.queries.erase hash }

/-- `applyLifecycle`, of `row-missing`. -/
def rowMissing (hash : String) (s : ClientState) : ClientState :=
  s.withEntry hash fun e => { e with phase := if e.phase = .cold then .cold else .viewLost }

/-- `commitMembership`; of a lost view it takes a row that is there. -/
def commitMembership (hash : String) (remoteArray : RecordVersionArray) (present : Bool)
    (s : ClientState) : Option ClientState :=
  match s.queries[hash]? with
  | none => some s
  | some e =>
    if e.phase = .viewLost ∧ present = false then none
    else some { s with
      queries := s.queries.insert hash { e with remoteArray, phase := .live }
      outbox := s.outbox.filter fun i => !(i.status.isAcked && decide (Names remoteArray i.recordId)) }

def setLocalArray (hash : String) (localArray : RecordVersionArray) (s : ClientState) :
    ClientState :=
  s.withEntry hash fun e => { e with localArray }

/-- `rebindQuery`. -/
def rebindQuery (hash : String) (phase : QueryPhase) (remoteArray localArray : RecordVersionArray)
    (s : ClientState) : ClientState :=
  s.withEntry hash fun e => { e with phase, remoteArray, localArray, subqueryRemoteArray := [] }

def outboxReplace (items : List OutboxItem) (s : ClientState) : ClientState :=
  { s with outbox := items }

def outboxPush (item : OutboxItem) (s : ClientState) : ClientState :=
  { s with outbox := s.outbox ++ [item] }

/-- The first item with the id becomes an acked one. -/
def ackFirst (id : String) (now : Nat) : List OutboxItem → List OutboxItem
  | [] => []
  | i :: rest =>
    if i.id = id then { i with status := .acked now } :: rest else i :: ackFirst id now rest

/-- What an acked item keeps, the outbox keeps. -/
theorem map_ackFirst {β : Type} {f : OutboxItem → β}
    (hf : ∀ i status, f { i with status := status } = f i) (id : String) (now : Nat)
    (outbox : List OutboxItem) : (ackFirst id now outbox).map f = outbox.map f := by
  induction outbox with
  | nil => rfl
  | cons i rest ih =>
    unfold ackFirst
    split
    next => rw [List.map_cons, hf, List.map_cons]
    next => rw [List.map_cons, ih, List.map_cons]

def outboxAck (id : String) (now : Nat) (s : ClientState) : ClientState :=
  { s with outbox := ackFirst id now s.outbox }

def outboxRemove (id : String) (s : ClientState) : ClientState :=
  { s with outbox := s.outbox.filter fun i => i.id ≠ id }

/-- An acked item whose grace has passed. -/
def OutboxItem.stale (now graceMs : Nat) (i : OutboxItem) : Bool :=
  match i.status with
  | .pending => false
  | .acked ackedAt => decide (ackedAt + graceMs ≤ now)

def outboxPruneAcked (now graceMs : Nat) (s : ClientState) : ClientState :=
  { s with outbox := s.outbox.filter fun i => !OutboxItem.stale now graceMs i }

def setPeerWrite (id : String) (write : PeerWrite) (s : ClientState) : ClientState :=
  { s with peerWrites := s.peerWrites.insert id write }

def clearPeerWrite (id : String) (s : ClientState) : ClientState :=
  { s with peerWrites := s.peerWrites.erase id }

/-- `clearBucketState`. -/
def clearBucketState (s : ClientState) : ClientState :=
  { s with versions := ∅, outbox := [], peerWrites := ∅ }

/-! ## What a query renders -/

/-- `overlay(s).writes`. -/
def Writes (s : ClientState) (id : String) : Prop :=
  (∃ i ∈ s.outbox, i.type ≠ .delete ∧ i.recordId = id) ∨ s.peerWrites[id]? = some .create

/-- `overlay(s).deletes`. -/
def Deletes (s : ClientState) (id : String) : Prop :=
  (∃ i ∈ s.outbox, i.type = .delete ∧ i.recordId = id) ∨ s.peerWrites[id]? = some .delete

instance (s : ClientState) (id : String) : Decidable (s.Writes id) :=
  inferInstanceAs (Decidable (_ ∨ _))

instance (s : ClientState) (id : String) : Decidable (s.Deletes id) :=
  inferInstanceAs (Decidable (_ ∨ _))

end ClientState

/-- The first of each id, in order. -/
def firsts (seen : List String) : List String → List String
  | [] => []
  | id :: rest => if id ∈ seen then firsts seen rest else id :: firsts (id :: seen) rest

theorem mem_firsts {seen ids : List String} {id : String} :
    id ∈ firsts seen ids ↔ id ∈ ids ∧ id ∉ seen := by
  induction ids generalizing seen with
  | nil => simp [firsts]
  | cons x rest ih =>
    unfold firsts
    split
    next hx =>
      rw [ih, List.mem_cons]
      refine ⟨fun h => ⟨.inr h.1, h.2⟩, ?_⟩
      rintro ⟨rfl | h, hs⟩
      · exact absurd hx hs
      · exact ⟨h, hs⟩
    next hx =>
      rw [List.mem_cons, ih, List.mem_cons, List.mem_cons]
      by_cases he : id = x
      · subst he
        simp [hx]
      · simp [he]

/-- The UTF-16 code units of a character, by which `sort` compares. -/
def codeUnits (c : Char) : List Nat :=
  if c.toNat < 0x10000 then [c.toNat]
  else [0xD800 + (c.toNat - 0x10000) / 0x400, 0xDC00 + (c.toNat - 0x10000) % 0x400]

/-- The order of `sort`. -/
def sortsBefore (a b : String) : Bool :=
  decide (a.toList.flatMap codeUnits ≤ b.toList.flatMap codeUnits)

/-- `buildRenderIds`. -/
def buildRenderIds (s : ClientState) (e : QueryEntry) : List String :=
  let shown := (e.remoteArray.map (·.1)).filter fun id => ¬ s.Deletes id
  let written := (e.localArray.map (·.1)).filter fun id => s.Writes id ∧ ¬ s.Deletes id
  let ordered := firsts [] (shown ++ written)
  if e.hasExplicitOrder || e.isWindow then ordered else ordered.mergeSort sortsBefore

/-- `render = (membership ∪ (writes ∩ localView)) − deletes`. -/
theorem mem_buildRenderIds {s : ClientState} {e : QueryEntry} {id : String} :
    id ∈ buildRenderIds s e ↔
      (Names e.remoteArray id ∨ (s.Writes id ∧ Names e.localArray id)) ∧ ¬ s.Deletes id := by
  have hset : id ∈ buildRenderIds s e ↔
      id ∈ firsts [] ((e.remoteArray.map (·.1)).filter (fun id => ¬ s.Deletes id) ++
        (e.localArray.map (·.1)).filter (fun id => s.Writes id ∧ ¬ s.Deletes id)) := by
    unfold buildRenderIds
    split
    · exact Iff.rfl
    · exact List.mem_mergeSort
  rw [hset, mem_firsts]
  simp only [List.mem_append, List.mem_filter, decide_eq_true_eq, List.not_mem_nil,
    not_false_eq_true, and_true]
  unfold Names
  tauto

end Sp00ky.Core.Client
