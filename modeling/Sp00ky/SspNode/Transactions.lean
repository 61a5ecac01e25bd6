/-
  The transactions a batch of edge writes goes out in (`plan_transactions`, `OpenTx` and
  `wrap_in_transaction` of `packages/ssp-node/src/edges.rs`).

  A transaction is a list of segments, each a non-empty part of one delta's body. The plan is
  described by its segments: they cover the bodies in order, a delta that cannot run again is one
  segment, and only a segment that fits nowhere is over the cap (`planTransactions_carries`).
-/
import Mathlib.Data.List.Nodup
import Mathlib.Tactic.Common

namespace Sp00ky.SspNode

/-! ## The planner -/

/-- `DeltaStatements`. -/
structure DeltaStatements where
  delta : Nat
  preamble : List String
  bindings : List (String × String)
  body : List String
  idempotent : Bool
deriving DecidableEq, Repr

/-- `EdgeBatch`: one group for each delta that had anything to write. -/
structure EdgeBatch where
  deltas : List DeltaStatements
  one : (deltas.map (·.delta)).Nodup

/-- `PlannedTx`. -/
structure PlannedTx where
  sql : String
  bindings : List (String × String)
  deltas : List Nat
deriving DecidableEq, Repr

/-- `wrap_in_transaction`. -/
def wrapInTransaction (statements : List String) : Option String :=
  if statements.isEmpty then none
  else some ("BEGIN TRANSACTION;\n" ++ ";\n".intercalate statements ++ ";\nCOMMIT TRANSACTION;")

/-- `OpenTx`. -/
structure OpenTx where
  statements : List String
  bindings : List (String × String)
  deltas : List Nat

namespace OpenTx

/-- `OpenTx::default`. -/
def fresh : OpenTx := ⟨[], [], []⟩

/-- `OpenTx::push`. -/
def push (tx : OpenTx) (group : DeltaStatements) (body : List String) : OpenTx :=
  let opened : OpenTx :=
    if tx.deltas.getLast? ≠ some group.delta then
      ⟨tx.statements ++ group.preamble, tx.bindings ++ group.bindings, tx.deltas ++ [group.delta]⟩
    else tx
  { opened with statements := opened.statements ++ body }

/-- `OpenTx::close`. It leaves `fresh` behind what it returns. -/
def close (tx : OpenTx) : Option PlannedTx :=
  (wrapInTransaction tx.statements).map fun sql => ⟨sql, tx.bindings, tx.deltas⟩

theorem close_eq_none {tx : OpenTx} : tx.close = none ↔ tx.statements = [] := by
  simp [close, wrapInTransaction]

theorem close_deltas {tx : OpenTx} {closed : PlannedTx} (h : tx.close = some closed) :
    closed.deltas = tx.deltas := by
  obtain ⟨sql, -, rfl⟩ := Option.map_eq_some_iff.mp h
  rfl

end OpenTx

/-- `room`: what the cap leaves for a group, its preamble counted. -/
def OpenTx.room (tx : OpenTx) (cap : Nat) (group : DeltaStatements) : Nat :=
  cap - (tx.statements.length + group.preamble.length)

/-- `take`: how much of the rest is to go out next. -/
def OpenTx.take (tx : OpenTx) (cap : Nat) (group : DeltaStatements) (rest : List String) : Nat :=
  if group.idempotent then min rest.length (tx.room cap group) else rest.length

/-- The loop over one group's body. -/
def planGroup (cap : Nat) (group : DeltaStatements) (planned : List PlannedTx) (tx : OpenTx)
    (rest : List String) : List PlannedTx × OpenTx :=
  if rest = [] then (planned, tx)
  else if tx.take cap group rest = 0 ∨ tx.room cap group < tx.take cap group rest then
    match _hclose : tx.close with
    | some closed => planGroup cap group (planned ++ [closed]) .fresh rest
    | none => (planned, tx.push group rest)
  else
    planGroup cap group planned (tx.push group (rest.take (tx.take cap group rest)))
      (rest.drop (tx.take cap group rest))
termination_by 2 * rest.length + (if tx.statements = [] then 0 else 1)
decreasing_by
  · have hopen : tx.statements ≠ [] := fun h => by simp [OpenTx.close_eq_none.mpr h] at _hclose
    simp [OpenTx.fresh, hopen]
  next hrest htake =>
    have hlen := List.length_pos_iff.mpr hrest
    rw [List.length_drop]
    split <;> split <;> omega

section Equations

variable {cap : Nat} {group : DeltaStatements} {planned : List PlannedTx} {tx : OpenTx}
  {rest : List String}

theorem planGroup_flush (hrest : rest ≠ [])
    (htake : tx.take cap group rest = 0 ∨ tx.room cap group < tx.take cap group rest)
    {closed : PlannedTx} (hclose : tx.close = some closed) :
    planGroup cap group planned tx rest =
      planGroup cap group (planned ++ [closed]) .fresh rest := by
  rw [planGroup, if_neg hrest, if_pos htake]
  split
  next closed' hclose' =>
    rw [hclose] at hclose'
    cases hclose'
    rfl
  next hclose' => rw [hclose] at hclose'; cases hclose'

theorem planGroup_alone (hrest : rest ≠ [])
    (htake : tx.take cap group rest = 0 ∨ tx.room cap group < tx.take cap group rest)
    (hclose : tx.close = none) :
    planGroup cap group planned tx rest = (planned, tx.push group rest) := by
  rw [planGroup, if_neg hrest, if_pos htake]
  split
  next closed hclose' => rw [hclose] at hclose'; cases hclose'
  next => rfl

end Equations

/-- The loop over the groups. -/
def planGroups (cap : Nat) (groups : List DeltaStatements) (state : List PlannedTx × OpenTx) :
    List PlannedTx × OpenTx :=
  groups.foldl (fun (planned, tx) group => planGroup cap group planned tx group.body) state

/-- `plan_transactions`. -/
def planTransactions (batch : EdgeBatch) (maxStatements : Nat) : List PlannedTx :=
  let (planned, tx) := planGroups (max maxStatements 1) batch.deltas ([], .fresh)
  planned ++ tx.close.toList

/-! ## Segments -/

/-- A part of a delta's body. -/
structure Segment where
  group : DeltaStatements
  body : List String

/-- The transaction that carries some segments. Each brings its delta's preamble and bindings. -/
def OpenTx.ofSegments (segments : List Segment) : OpenTx where
  statements := segments.flatMap fun s => s.group.preamble ++ s.body
  bindings := segments.flatMap fun s => s.group.bindings
  deltas := segments.map fun s => s.group.delta

/-- At most `cap` statements, or one delta that an empty transaction has no room for. -/
def Capped (cap : Nat) (segments : List Segment) : Prop :=
  (OpenTx.ofSegments segments).statements.length ≤ cap ∨
    ∃ s, segments = [s] ∧ if s.group.idempotent then cap ≤ s.group.preamble.length
      else cap < s.group.preamble.length + s.group.body.length

/-- Non-empty segments that keep to the cap. -/
def Sound (cap : Nat) (segments : List Segment) : Prop :=
  (∀ s ∈ segments, s.body ≠ []) ∧ Capped cap segments

/-- The deltas' bodies, each cut into its segments. -/
def Cut (groups : List DeltaStatements) (segments : List Segment) : Prop :=
  ∃ cuts : List (DeltaStatements × List (List String)), cuts.map (·.1) = groups ∧
    (∀ cut ∈ cuts, cut.2.flatten = cut.1.body ∧
      (cut.1.idempotent = false → cut.2.length ≤ 1)) ∧
    segments = cuts.flatMap fun cut => cut.2.map (Segment.mk cut.1)

/-- The segments of each transaction of a plan. -/
structure Carries (batch : List DeltaStatements) (cap : Nat) (txs : List (List Segment)) :
    Prop where
  cuts : Cut batch txs.flatten
  sound : ∀ tx ∈ txs, Sound cap tx

section Segments

variable {cap : Nat} {group : DeltaStatements} {segments : List Segment}

theorem ofSegments_length (segments : List Segment) (s : Segment) :
    (OpenTx.ofSegments (segments ++ [s])).statements.length =
      (OpenTx.ofSegments segments).statements.length +
        (s.group.preamble.length + s.body.length) := by
  simp [OpenTx.ofSegments]

theorem ofSegments_statements_eq_nil (hfull : ∀ s ∈ segments, s.body ≠ []) :
    (OpenTx.ofSegments segments).statements = [] ↔ segments = [] := by
  cases segments with
  | nil => simp [OpenTx.ofSegments]
  | cons s segments => simp [OpenTx.ofSegments, hfull s List.mem_cons_self]

/-- A delta the transaction does not end with opens a segment. -/
theorem push_ofSegments (hlast : (segments.map (·.group.delta)).getLast? ≠ some group.delta)
    (body : List String) :
    (OpenTx.ofSegments segments).push group body =
      OpenTx.ofSegments (segments ++ [⟨group, body⟩]) := by
  have hdeltas : (OpenTx.ofSegments segments).deltas.getLast? ≠ some group.delta := hlast
  unfold OpenTx.push
  rw [if_pos hdeltas]
  simp [OpenTx.ofSegments]

end Segments

/-! ## Plans -/

/-- What is planned, and what is open, carries `txs` and `segments`. -/
structure Planned (cap : Nat) (planned : List PlannedTx) (tx : OpenTx)
    (txs : List (List Segment)) (segments : List Segment) : Prop where
  closed : planned.map some = txs.map fun segments => (OpenTx.ofSegments segments).close
  opened : tx = OpenTx.ofSegments segments
  done : ∀ tx ∈ txs, Sound cap tx
  sound : Sound cap segments

section Plans

variable {cap : Nat} {group : DeltaStatements} {planned : List PlannedTx} {tx : OpenTx}
  {txs : List (List Segment)} {segments : List Segment}

/-- The open transaction is planned, and a fresh one opened. -/
theorem Planned.flush (h : Planned cap planned tx txs segments) {closed : PlannedTx}
    (hclose : tx.close = some closed) :
    Planned cap (planned ++ [closed]) .fresh (txs ++ [segments]) [] where
  closed := by
    rw [List.map_append, List.map_append, h.closed, List.map_singleton, List.map_singleton,
      ← hclose, h.opened]
  opened := rfl
  done := List.forall_mem_append.mpr ⟨h.done, List.forall_mem_singleton.mpr h.sound⟩
  sound := ⟨fun _ hs => absurd hs List.not_mem_nil, .inl (Nat.zero_le _)⟩

/-- A part of a body goes into the open transaction. -/
theorem Planned.push (h : Planned cap planned tx txs segments) {body : List String}
    (hne : body ≠ []) (hlast : (segments.map (·.group.delta)).getLast? ≠ some group.delta)
    (hcap : Capped cap (segments ++ [⟨group, body⟩])) :
    Planned cap planned (tx.push group body) txs (segments ++ [⟨group, body⟩]) where
  closed := h.closed
  opened := by rw [h.opened, push_ofSegments hlast]
  done := h.done
  sound := ⟨List.forall_mem_append.mpr ⟨h.sound.1, List.forall_mem_singleton.mpr hne⟩, hcap⟩

/-- What is left of a group's body goes out in order; of a transaction that ends with the group
only as many statements are left over as it has no room for. -/
theorem planGroup_planned {rest : List String} (h : Planned cap planned tx txs segments)
    (hlast : rest ≠ [] → (segments.map (·.group.delta)).getLast? = some group.delta →
      cap ≤ tx.statements.length)
    (hwhole : rest ≠ [] → group.idempotent = false → rest = group.body) :
    ∃ (bodies : List (List String)) (txs' : List (List Segment)) (segments' : List Segment),
      Planned cap (planGroup cap group planned tx rest).1 (planGroup cap group planned tx rest).2
        txs' segments' ∧
      (txs' ++ [segments']).flatten =
        (txs ++ [segments]).flatten ++ bodies.map (Segment.mk group) ∧
      bodies.flatten = rest ∧ (rest = [] → bodies = []) ∧
      (group.idempotent = false → bodies.length ≤ 1) := by
  induction planned, tx, rest using planGroup.induct cap group generalizing txs segments with
  | case1 planned tx =>
    rw [planGroup, if_pos rfl]
    exact ⟨[], txs, segments, h, by simp, rfl, fun _ => rfl, fun _ => Nat.zero_le _⟩
  | case2 planned tx rest hrest htake closed hclose ih =>
    -- what is open is flushed
    obtain ⟨bodies, txs', segments', h', hflat, hbodies⟩ :=
      ih (h.flush hclose) (fun _ hlast => by simp at hlast) hwhole
    rw [planGroup_flush hrest htake hclose]
    refine ⟨bodies, txs', segments', h', ?_, hbodies⟩
    rw [hflat]
    simp
  | case3 planned tx rest hrest htake hclose =>
    -- nothing is open, and the rest rides alone
    have hempty : segments = [] := by
      rw [h.opened, OpenTx.close_eq_none] at hclose
      exact (ofSegments_statements_eq_nil h.sound.1).mp hclose
    rw [planGroup_alone hrest htake hclose]
    subst hempty
    refine ⟨[rest], txs, [⟨group, rest⟩], h.push hrest (by simp) (.inr ⟨_, rfl, ?_⟩), by simp,
      by simp, fun h => absurd h hrest, fun _ => Nat.le_refl _⟩
    have hlen := List.length_pos_iff.mpr hrest
    have htx : tx.statements.length = 0 := by rw [h.opened]; rfl
    unfold OpenTx.take OpenTx.room at htake
    dsimp only
    cases hidem : group.idempotent with
    | true =>
      rw [if_pos hidem] at htake
      rw [if_pos rfl]
      omega
    | false =>
      rw [hidem, if_neg Bool.false_ne_true] at htake
      rw [if_neg Bool.false_ne_true, ← hwhole hrest hidem]
      omega
  | case4 planned tx rest hrest htake ih =>
    have hlen := List.length_pos_iff.mpr hrest
    have htakes : (group.idempotent = true → tx.take cap group rest =
        min rest.length (tx.room cap group)) ∧
        (group.idempotent = false → tx.take cap group rest = rest.length) := by
      constructor <;> intro hidem <;> simp [OpenTx.take, hidem]
    rw [planGroup, if_neg hrest, if_neg htake]
    generalize tx.take cap group rest = take at *
    have hle : take ≤ rest.length := by
      cases hidem : group.idempotent with
      | true => exact Nat.le_trans (Nat.le_of_eq (htakes.1 hidem)) (Nat.min_le_left _ _)
      | false => exact Nat.le_of_eq (htakes.2 hidem)
    have htaken : (rest.take take).length = take := List.length_take_of_le hle
    have hlength : (OpenTx.ofSegments (segments ++ [⟨group, rest.take take⟩])).statements.length =
        tx.statements.length + (group.preamble.length + take) := by
      rw [ofSegments_length, h.opened, htaken]
    have hroom : tx.room cap group = cap - (tx.statements.length + group.preamble.length) := rfl
    have hnot : (segments.map (·.group.delta)).getLast? ≠ some group.delta := by
      intro hend
      have hfull := hlast hrest hend
      omega
    have hne : rest.take take ≠ [] := List.length_pos_iff.mp (by omega)
    have hpush := h.push hne hnot (.inl (by rw [hlength]; omega))
    have hagain : group.idempotent = false → rest.drop take = [] := by
      intro hidem
      rw [htakes.2 hidem, List.drop_length]
    obtain ⟨bodies, txs', segments', h', hflat, hbodies, hnone, -⟩ := ih hpush
      (fun hdrop _ => by
        -- something is left over of a delta that can run again, so the room is used up
        have hleft := List.length_pos_iff.mpr hdrop
        have hidem : group.idempotent = true := by
          cases hidem : group.idempotent with
          | true => rfl
          | false => exact absurd (hagain hidem) hdrop
        have hmin := htakes.1 hidem
        rw [List.length_drop] at hleft
        rw [hpush.opened, hlength]
        omega)
      (fun hdrop hidem => absurd (hagain hidem) hdrop)
    refine ⟨rest.take take :: bodies, txs', segments', h', ?_, ?_, fun h => absurd h hrest, ?_⟩
    · rw [hflat]
      simp
    · rw [List.flatten_cons, hbodies, List.take_append_drop]
    · intro hidem
      rw [hnone (hagain hidem)]
      exact Nat.le_refl _

/-- One group after the other. -/
theorem planGroups_planned {groups : List DeltaStatements} (todo : List DeltaStatements)
    (state : List PlannedTx × OpenTx) (done : List DeltaStatements)
    (hgroups : groups = done ++ todo) (hone : (groups.map (·.delta)).Nodup)
    (h : Planned cap state.1 state.2 txs segments) (hcut : Cut done (txs ++ [segments]).flatten) :
    ∃ txs' segments',
      Planned cap (planGroups cap todo state).1 (planGroups cap todo state).2 txs' segments' ∧
      Cut groups (txs' ++ [segments']).flatten := by
  induction todo generalizing state done txs segments with
  | nil => exact ⟨txs, segments, h, by rwa [hgroups, List.append_nil]⟩
  | cons group todo ih =>
    obtain ⟨cuts, hdone, hcuts, hflat⟩ := hcut
    -- the open transaction does not end with the next group: its deltas are done
    have hlast : (segments.map (·.group.delta)).getLast? ≠ some group.delta := by
      intro hend
      obtain ⟨s, hs, hdelta⟩ := List.mem_map.mp (List.mem_of_getLast? hend)
      have hmem : s ∈ (txs ++ [segments]).flatten :=
        List.mem_flatten.mpr ⟨segments, List.mem_append_right _ List.mem_cons_self, hs⟩
      rw [hflat] at hmem
      obtain ⟨cut, hcut, hs⟩ := List.mem_flatMap.mp hmem
      obtain ⟨body, -, rfl⟩ := List.mem_map.mp hs
      rw [hgroups, List.map_append, List.map_cons] at hone
      refine (List.nodup_append.mp hone).2.2 _ (List.mem_map_of_mem ?_) _ List.mem_cons_self hdelta
      rw [← hdone]
      exact List.mem_map_of_mem hcut
    obtain ⟨bodies, txs', segments', h', hflat', hbodies, -, hwhole⟩ :=
      planGroup_planned h (fun _ hend => absurd hend hlast) (fun (_ : group.body ≠ []) _ => rfl)
    refine ih _ (done ++ [group]) (by simp [hgroups]) h'
      ⟨cuts ++ [(group, bodies)], by simp [hdone], ?_, by rw [hflat', hflat]; simp⟩
    intro cut hcut
    rcases List.mem_append.mp hcut with hcut | hcut
    · exact hcuts cut hcut
    · rw [List.mem_singleton.mp hcut]
      exact ⟨hbodies, hwhole⟩

end Plans

/-! ## What a plan carries -/

/-- A delta that cannot run again is one segment, or none if its body is empty. -/
theorem Carries.count {batch : List DeltaStatements} {cap : Nat} {txs : List (List Segment)}
    (h : Carries batch cap txs) (hone : (batch.map (·.delta)).Nodup) {group : DeltaStatements}
    (hgroup : group ∈ batch) (hidem : group.idempotent = false) :
    txs.flatten.countP (fun s => s.group.delta == group.delta) =
      if group.body = [] then 0 else 1 := by
  obtain ⟨cuts, rfl, hcuts, hflat⟩ := h.cuts
  obtain ⟨⟨group', bodies⟩, hcut, hgroup'⟩ := List.mem_map.mp hgroup
  obtain rfl : group' = group := hgroup'
  obtain ⟨hbodies, hwhole⟩ := hcuts _ hcut
  have hfull : ∀ body ∈ bodies, body ≠ [] := by
    intro body hbody
    have hmem : Segment.mk group' body ∈ txs.flatten := by
      rw [hflat]
      exact List.mem_flatMap.mpr ⟨_, hcut, List.mem_map_of_mem hbody⟩
    obtain ⟨tx, htx, hs⟩ := List.mem_flatten.mp hmem
    exact (h.sound tx htx).1 _ hs
  have hlength : bodies.length = if group'.body = [] then 0 else 1 := by
    cases bodies with
    | nil => exact (if_pos hbodies.symm).symm
    | cons body bodies =>
      have hnil : bodies = [] := List.eq_nil_of_length_eq_zero (Nat.le_zero.mp
        (Nat.le_of_succ_le_succ (hwhole hidem)))
      have hbody : group'.body = body := by rw [← hbodies, hnil]; simp
      rw [if_neg (hbody ▸ hfull body List.mem_cons_self), hnil]
      rfl
  -- the other cuts are of other deltas
  obtain ⟨before, after, rfl⟩ := List.append_of_mem hcut
  rw [List.map_append, List.map_append, List.map_cons, List.map_cons] at hone
  obtain ⟨-, hafter, hbefore⟩ := List.nodup_append.mp hone
  have hzero : ∀ cuts : List (DeltaStatements × List (List String)),
      (∀ cut ∈ cuts, cut.1.delta ≠ group'.delta) →
      (cuts.flatMap fun cut => cut.2.map (Segment.mk cut.1)).countP
        (fun s => s.group.delta == group'.delta) = 0 := by
    intro cuts hne
    refine List.countP_eq_zero.mpr fun s hs => ?_
    obtain ⟨cut, hcut, hs⟩ := List.mem_flatMap.mp hs
    obtain ⟨body, -, rfl⟩ := List.mem_map.mp hs
    simpa using hne cut hcut
  rw [hflat, List.flatMap_append, List.flatMap_cons, List.countP_append, List.countP_append,
    hzero before, hzero after, ← hlength, Nat.zero_add, Nat.add_zero, List.countP_map]
  · simp
  · intro cut hcut hdelta
    exact (List.nodup_cons.mp hafter).1 (hdelta ▸ List.mem_map_of_mem (List.mem_map_of_mem hcut))
  · intro cut hcut
    exact hbefore _ (List.mem_map_of_mem (List.mem_map_of_mem hcut)) _ List.mem_cons_self

/-- As many transactions carry a delta as there are segments of it, if that is one at most. -/
theorem countP_any {α : Type} {p : α → Bool} (txs : List (List α))
    (h : txs.flatten.countP p ≤ 1) : txs.countP (·.any p) = txs.flatten.countP p := by
  induction txs with
  | nil => rfl
  | cons tx txs ih =>
    rw [List.flatten_cons, List.countP_append] at h
    rw [List.flatten_cons, List.countP_append, List.countP_cons, ih (by omega)]
    by_cases hany : tx.any p = true
    · have hpos : 0 < tx.countP p := List.countP_pos_iff.mpr (List.any_eq_true.mp hany)
      rw [if_pos hany]
      omega
    · have hzero : tx.countP p = 0 :=
        List.countP_eq_zero.mpr fun s hs hp => hany (List.any_eq_true.mpr ⟨s, hs, hp⟩)
      rw [if_neg hany, hzero]
      omega

/-- The segments `txs` are planned as the transactions `planned`. -/
def PlannedAs (txs : List (List Segment)) (planned : List PlannedTx) : Prop :=
  planned.map some = txs.map fun segments => (OpenTx.ofSegments segments).close

/-- The transactions of a plan carry the batch, segment by segment. -/
theorem planTransactions_segments (batch : EdgeBatch) (maxStatements : Nat) :
    ∃ txs, PlannedAs txs (planTransactions batch maxStatements) ∧
      Carries batch.deltas (max maxStatements 1) txs := by
  have hstart : Planned (max maxStatements 1) [] .fresh [] [] :=
    ⟨rfl, rfl, by simp, by simp [Sound, Capped, OpenTx.ofSegments]⟩
  obtain ⟨txs, segments, h, hcut⟩ :=
    planGroups_planned batch.deltas ([], .fresh) [] rfl batch.one hstart ⟨[], rfl, by simp, rfl⟩
  unfold planTransactions PlannedAs
  dsimp only
  generalize planGroups _ batch.deltas _ = state at *
  cases hclose : state.2.close with
  | none =>
    have hempty : segments = [] := by
      rw [h.opened, OpenTx.close_eq_none] at hclose
      exact (ofSegments_statements_eq_nil h.sound.1).mp hclose
    subst hempty
    exact ⟨txs, by simpa using h.closed, by simpa using hcut, h.done⟩
  | some closed =>
    refine ⟨txs ++ [segments], ?_, hcut,
      List.forall_mem_append.mpr ⟨h.done, List.forall_mem_singleton.mpr h.sound⟩⟩
    rw [List.map_append, List.map_append, h.closed, List.map_singleton, ← h.opened, hclose]
    rfl

theorem planTransactions_carries (batch : EdgeBatch) (maxStatements : Nat) :
    (∃ txs, PlannedAs txs (planTransactions batch maxStatements) ∧
      Carries batch.deltas (max maxStatements 1) txs) ∧
    ∀ group ∈ batch.deltas, group.idempotent = false →
      (planTransactions batch maxStatements).countP (·.deltas.contains group.delta) =
        if group.body = [] then 0 else 1 := by
  obtain ⟨txs, hplanned, h⟩ := planTransactions_segments batch maxStatements
  refine ⟨⟨txs, hplanned, h⟩, fun group hgroup hidem => ?_⟩
  have hcount := h.count batch.one hgroup hidem
  rw [← hcount, ← countP_any txs (by rw [hcount]; split <;> decide)]
  have hmap : ((planTransactions batch maxStatements).map some).countP
      (·.any (·.deltas.contains group.delta)) =
      (planTransactions batch maxStatements).countP (·.deltas.contains group.delta) := by
    rw [List.countP_map]
    rfl
  rw [← hmap, hplanned, List.countP_map]
  refine List.countP_congr fun segments hsegments => ?_
  obtain ⟨tx, -, htx⟩ := List.mem_map.mp (hplanned ▸ List.mem_map_of_mem hsegments :
    (OpenTx.ofSegments segments).close ∈ (planTransactions batch maxStatements).map some)
  rw [Function.comp, ← htx, Option.any_some, OpenTx.close_deltas htx.symm]
  simp only [OpenTx.ofSegments, List.contains_eq_mem, List.mem_map, List.any_eq_true, beq_iff_eq,
    decide_eq_true_eq]

/-- A delta with nothing to write lies in no transaction. -/
theorem planTransactions_skips :
    ¬ ∀ (batch : EdgeBatch) (maxStatements : Nat),
      (∃ txs, PlannedAs txs (planTransactions batch maxStatements) ∧
        Carries batch.deltas (max maxStatements 1) txs) ∧
      ∀ group ∈ batch.deltas, group.idempotent = false →
        (planTransactions batch maxStatements).countP (·.deltas.contains group.delta) = 1 := by
  intro h
  have hone := (h ⟨[⟨0, ["LET $from0 = type::record('_00_query', $from0)"], [("from0", "k")], [],
    false⟩], by decide⟩ 500).2 _ List.mem_cons_self rfl
  unfold planTransactions planGroups at hone
  simp only [List.foldl_cons, List.foldl_nil] at hone
  rw [planGroup, if_pos rfl] at hone
  cases hone

end Sp00ky.SspNode
