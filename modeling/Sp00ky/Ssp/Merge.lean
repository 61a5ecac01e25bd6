/-
  Registrations that share a graph (`claim_merge_key` to `drop_graph_if_unused`).

  A graph belongs to the registration that built it, its owner; other registrations
  of the same computation attach to it as subscribers and get every delta under their
  own id. An owner that leaves is marked as detached while subscribers remain. The
  maps are hash maps: where a loop over one can be seen, it takes the order `ho`.
-/
import Sp00ky.Ssp.Circuit

namespace Sp00ky.Ssp.Circuit

open Lib

/-- `claim_merge_key`. -/
def claimMergeKey (c : Circuit) (mergeKey queryId : String) : Circuit :=
  { c with mergeIndex := c.mergeIndex.insert mergeKey (canonicalQueryId queryId) }

/-- `get_view`. -/
def getView (c : Circuit) (queryId : String) : Option View :=
  (c.views[queryId]?).or c.views[canonicalQueryId queryId]?

/-- `snapshot_delta_from`. -/
def snapshotDeltaFrom (ho : HashOrder) (c : Circuit) (source queryId authId : String) :
    Option ViewDelta :=
  (c.getView source).map fun v =>
    let additions := ho.visit v.cache.keys
    { queryId := canonicalQueryId queryId
      additions := additions
      removals := []
      updates := []
      rowCount := additions.length
      resultHash := v.lastHash
      subqueryItems := (entriesIn v.subqueryCache (ho.visit v.subqueryCache.keys)).map fun e =>
        ⟨e.1, e.2.1, e.2.2, .add⟩
      authId := authId
      initial := true }

/-- The subscribers of an owner. -/
def subscribersOf (c : Circuit) (owner : String) : List Subscriber := c.subscribers[owner]?.getD []

/-- `attach_subscriber`. -/
def attachSubscriber (ho : HashOrder) (c : Circuit) (owner queryId authId : String) :
    Circuit × Option ViewDelta :=
  let owner := canonicalQueryId owner
  let queryId := canonicalQueryId queryId
  match c.snapshotDeltaFrom ho owner queryId authId with
  | none => (c, none)
  | some d =>
    let subs := c.subscribersOf owner
    let subs' := if subs.any (fun s => s.queryId == queryId) then subs
      else subs ++ [⟨queryId, authId⟩]
    ({ c with subscribers := c.subscribers.insert owner subs' }, some d)

/-- `owner_of`: the first owner found with the subscriber. -/
def ownerOf (ho : HashOrder) (c : Circuit) (queryId : String) : Option String :=
  (ho.visit c.subscribers.keys).find? fun owner =>
    (c.subscribersOf owner).any fun s => s.queryId == queryId

/-- `registration`: the graph that an id reads and the identity it came with. -/
def registration (ho : HashOrder) (c : Circuit) (queryId : String) : Option (String × String) :=
  let key := canonicalQueryId queryId
  match c.views[key]? with
  | some v => some (key, v.authId)
  | none =>
    (ho.visit c.subscribers.keys).findSome? fun owner =>
      ((c.subscribersOf owner).find? fun s => s.queryId == key).map fun s => (owner, s.authId)

/-- `is_registered`. -/
def isRegistered (ho : HashOrder) (c : Circuit) (queryId : String) : Bool :=
  let key := canonicalQueryId queryId
  (c.views.contains key && !c.detachedOwners.contains key) || (c.ownerOf ho key).isSome

/-- `drop_graph_if_unused`. -/
def dropGraphIfUnused (c : Circuit) (owner : String) : Circuit × Bool :=
  if !(c.subscribersOf owner).isEmpty || !c.detachedOwners.contains owner then (c, false)
  else
    let c1 := c.removeQuery owner
    ({ c1 with
        subscribers := c1.subscribers.erase owner
        detachedOwners := c1.detachedOwners.erase owner
        mergeIndex := c1.mergeIndex.filter fun _ v => v != owner }, true)

/-- `detach_subscriber`. -/
def detachSubscriber (ho : HashOrder) (c : Circuit) (queryId : String) : Circuit × Bool :=
  let queryId := canonicalQueryId queryId
  match c.ownerOf ho queryId with
  | some owner =>
    let left := (c.subscribersOf owner).filter fun s => s.queryId != queryId
    dropGraphIfUnused { c with subscribers := c.subscribers.insert owner left } owner
  | none =>
    if c.views.contains queryId then
      dropGraphIfUnused { c with detachedOwners := c.detachedOwners.insert queryId } queryId
    else (c, false)

end Sp00ky.Ssp.Circuit
