/-
  What a pass knows of its copy, and what follows for the pool.

  `Copy` is what a pass knows of the machines it has read, and `Holds` what it knows of their jobs.
  Each part of a pass keeps them along its list: an entry changes as its row did. From them come the
  slots of every machine (`machines_are_not_oversubscribed`) and the limits of the pool
  (`pool_stays_within`).
-/
import Sp00ky.Pool.OnePass
import Sp00ky.Pool.Fenced

namespace Sp00ky.Pool

open Lib

/-! ## Rules for a pass -/

/-- What is known if a call went through. -/
def Gives {α : Type} (K : α → Db → Prop) (r : Option α) (w : World) : Prop :=
  ∀ a, r = some a → K a w.db

/-- It stays known whatever agents and operators do. -/
def Lasting (K : Db → Prop) : Prop := ∀ s t, Calm noMachine s t → K s → K t

section

variable {fixed : Prop} {α β γ : Type} {w : World}

theorem Lasting.and {K K' : Db → Prop} (h : Lasting K) (h' : Lasting K') :
    Lasting fun s => K s ∧ K' s :=
  fun s t hst hs => ⟨h s t hst hs.1, h' s t hst hs.2⟩

theorem lasting_true : Lasting fun _ => True := fun _ _ _ _ => trivial

theorem sound_none {K : α → Db → Prop} : (onePass fixed).Sound (Gives K) (.done none) w :=
  fun _ _ _ => nofun

theorem sound_some {K : α → Db → Prop} {a : α} (hK : Lasting (K a)) (h : K a w.db) :
    (onePass fixed).Sound (Gives K) (.done (some a)) w := by
  intro t hst _ b hb
  obtain rfl := Option.some.inj hb
  exact hK _ _ hst h

theorem sound_ite {post : α → World → Prop} {c : Prop} [Decidable c] {p p' : Call α}
    (h : c → (onePass fixed).Sound post p w) (h' : ¬ c → (onePass fixed).Sound post p' w) :
    (onePass fixed).Sound post (if c then p else p') w := by
  split
  next hc => exact h hc
  next hc => exact h' hc

theorem sound_andThen {K : α → Db → Prop} {K' : β → Db → Prop} {p : Call (Option α)}
    {f : α → Call (Option β)} (h : (onePass fixed).Sound (Gives K) p w) (hw : Pooled fixed w.db)
    (hf : ∀ a t, Pooled fixed t.db → K a t.db → (onePass fixed).Sound (Gives K') (f a) t) :
    (onePass fixed).Sound (Gives K') (andThen p f) w :=
  h.bind hw fun r t ht hr => match r with
    | none => sound_none
    | some a => hf a t ht (hr a rfl)

/-- A statement, with what it does to a database. -/
theorem sound_ask {q : Statement} {K : Db → Prop} (hK : Lasting K)
    (h : ∀ t, Calm noMachine w.db t → Pooled fixed t →
      SafeStatement t q ∧ Pooled fixed (t.exec q).1 ∧ K (t.exec q).1 ∧ K t) :
    (onePass fixed).Sound (fun _ u => K u.db) (ask q) w := by
  refine SoloDiscipline.Sound.stmt (fun _ _ _ hst hs => hK _ _ hst hs) fun t hwt ht => ?_
  obtain ⟨hsafe, hpooled, hexec, hsame⟩ := h t.db hwt ht
  refine ⟨hsafe, ?_⟩
  show Pooled fixed (t.exec q).1.db ∧ K (t.exec q).1.db
  rcases t.exec_db q with hdb | hdb <;> rw [hdb]
  · exact ⟨hpooled, hexec⟩
  · exact ⟨ht, hsame⟩

/-- A statement whose answer counts. -/
theorem sound_attempt {q : Statement} {K : Answer q → Db → Prop} (hK : ∀ a, Lasting (K a))
    (h : ∀ t, Calm noMachine w.db t → Pooled fixed t →
      SafeStatement t q ∧ Pooled fixed (t.exec q).1 ∧ K (t.exec q).2 (t.exec q).1) :
    (onePass fixed).Sound (Gives K) (attempt q) w := by
  intro t hwt ht
  obtain ⟨hsafe, hpooled, hexec⟩ := h t.db hwt ht
  refine ⟨hsafe, ?_, ?_⟩
  · show Pooled fixed (t.exec q).1.db
    rcases t.exec_db q with hdb | hdb <;> rw [hdb]
    · exact hpooled
    · exact ht
  · intro u htu _ a ha
    cases hreply : (t.exec q).2 with
    | error fault =>
      rw [hreply] at ha
      cases ha
    | ok a' =>
      rw [hreply] at ha
      obtain rfl := Option.some.inj ha
      obtain ⟨hdb, rfl⟩ := World.exec_ok hreply
      exact hK _ _ _ (hdb ▸ htu) hexec

/-- Gentle statements keep what is known. -/
theorem sound_gentle {K : Db → Prop} {p : Call α} (hp : p.Only Statement.gentle) (hK : Lasting K)
    (h : K w.db) : (onePass fixed).Sound (fun _ u => K u.db) p w :=
  SoloDiscipline.Sound.gentle (D := onePass fixed) (K := fun u => K u.db) hp
    (fun _ _ hst hs => hK _ _ hst hs) h

theorem gives_gentle {K : Db → Prop} {p : Call (Option α)} (hp : p.Only Statement.gentle)
    (hK : Lasting K) (h : K w.db) : (onePass fixed).Sound (Gives fun _ => K) p w :=
  (sound_gentle hp hK h).imp fun _ _ _ hk _ _ => hk

variable {K : List α → Db → Prop} {l : List α}

section

variable {f : α → Call (Option α)} (hK : ∀ l, Lasting (K l))
  (hf : ∀ before a after t, Pooled fixed t.db → K (before ++ a :: after) t.db →
    (onePass fixed).Sound (Gives fun b => K (before ++ b :: after)) (f a) t)

include hK hf

/-- Each entry of a list in turn: what is known of the list is known with the new entries. -/
theorem sound_forEach (before : List α) (hw : Pooled fixed w.db) (h : K (before ++ l) w.db) :
    (onePass fixed).Sound (Gives fun bs => K (before ++ bs)) (forEach f l) w := by
  induction l generalizing before w with
  | nil => exact sound_some (hK _) h
  | cons a l ih =>
    refine sound_andThen (hf before a l w hw h) hw fun b t ht hb => ?_
    have hnext : K ((before ++ [b]) ++ l) t.db := by
      rw [List.append_assoc]
      exact hb
    refine sound_andThen (ih _ ht hnext) ht fun bs u hu hbs => sound_some (hK _) ?_
    rw [List.append_assoc] at hbs
    exact hbs

/-- Of a whole list. -/
theorem sound_each (hw : Pooled fixed w.db) (h : K l w.db) :
    (onePass fixed).Sound (Gives K) (forEach f l) w :=
  sound_forEach hK hf [] hw h

end

section

variable {f : γ → α → Call (Option (α × γ))} (hK : ∀ l, Lasting (K l))
  (hf : ∀ c before a after t, Pooled fixed t.db → K (before ++ a :: after) t.db →
    (onePass fixed).Sound (Gives fun p => K (before ++ p.1 :: after)) (f c a) t)

include hK hf

/-- The same with something carried along. -/
theorem sound_mapAccum (before : List α) {c : γ} (hw : Pooled fixed w.db)
    (h : K (before ++ l) w.db) :
    (onePass fixed).Sound (Gives fun p => K (before ++ p.1)) (mapAccum f l c) w := by
  induction l generalizing before c w with
  | nil => exact sound_some (hK _) h
  | cons a l ih =>
    refine sound_andThen (hf c before a l w hw h) hw fun p t ht hp => ?_
    have hnext : K ((before ++ [p.1]) ++ l) t.db := by
      rw [List.append_assoc]
      exact hp
    refine sound_andThen (ih _ ht hnext) ht fun rest u hu hrest => sound_some (hK _) ?_
    rw [List.append_assoc] at hrest
    exact hrest

theorem sound_eachAccum {c : γ} (hw : Pooled fixed w.db) (h : K l w.db) :
    (onePass fixed).Sound (Gives fun p => K p.1) (mapAccum f l c) w :=
  sound_mapAccum hK hf [] hw h

end

end

/-! ## What a pass knows -/

/-- The pool that a pass has read is still deployed. -/
structure SpecRead (spec : PoolSpec) (s : Db) : Prop where
  specHash : spec.specHash = s.pool.specHash
  ceiling : spec.ceiling = s.pool.ceiling
  hardStop : spec.hardStop = s.pool.hardStop
  slots : 0 < spec.slots ∧ spec.slots ≤ u32Max

/-- The copy of the machines against their rows: what is ready in it is ready, with these slots and
of this deploy; what is live is in it, and in supply only if it is there. -/
structure Copy (fixed : Prop) (spec : PoolSpec) (machines : List MachineView) (s : Db) : Prop where
  read : SpecRead spec s
  ids : (machines.map (·.id)).Nodup
  known : ∀ c ∈ machines, c.state = .ready → ∃ m ∈ s.machines, m.id = c.id ∧ m.state = .ready ∧
    m.slots = c.slots ∧ m.specHash = c.specHash
  covers : ∀ m ∈ s.machines, m.state.isLive = true →
    ∃ c ∈ machines, c.id = m.id ∧ (m.state.isSupply = true → c.state.isSupply = true)
  within : fixed → supplyOf machines ≤ s.pool.ceiling ∧ machines.length ≤ s.pool.hardStop

/-- No machine of the copy that may hold jobs holds more than the occupancy says. -/
def Holds (occ : Occupancy) (machines : List MachineView) (s : Db) : Prop :=
  ∀ c ∈ machines, c.state = .ready ∨ c.state = .draining → s.held c.id ≤ occ.busy c.id

theorem SpecRead.of_deployed {spec : PoolSpec} {s t : Db} (h : SpecRead spec s)
    (hst : t.pool.deployed = s.pool.deployed) : SpecRead spec t where
  specHash := h.specHash.trans (PoolRow.specHash_eq hst).symm
  ceiling := h.ceiling.trans (PoolRow.ceiling_eq hst).symm
  hardStop := h.hardStop.trans (PoolRow.hardStop_eq hst).symm
  slots := h.slots

theorem SpecRead.fromRow (row : PoolRow) (breakerOpen : Bool) {s : Db} (h : s.pool = row) :
    SpecRead (PoolSpec.fromRow row breakerOpen) s := by
  subst h
  refine ⟨rfl, rfl, rfl, Nat.lt_of_lt_of_le Nat.zero_lt_one (Nat.le_max_right _ _), ?_⟩
  exact Nat.max_le.mpr ⟨PoolRow.clampU32_le _, by decide⟩

theorem lasting_specRead {spec : PoolSpec} : Lasting (SpecRead spec) :=
  fun _ _ hst h => h.of_deployed hst.pool

theorem lasting_holds {occ : Occupancy} {machines : List MachineView} :
    Lasting (Holds occ machines) :=
  fun _ _ hst h c hc hstate => (hst.held c.id).trans (h c hc hstate)

section

variable {fixed : Prop} {spec : PoolSpec} {s t : Db} {q : Statement} {c : MachineView}
  {occ : Occupancy} {before after : List MachineView}

variable {machines : List MachineView}

theorem lasting_copy : Lasting (Copy fixed spec machines) := by
  intro s t hst h
  refine ⟨h.read.of_deployed hst.pool, h.ids, fun c hc hready => ?_, fun m' hm' hlive => ?_,
    fun hfixed => ?_⟩
  · obtain ⟨m, hm, hid, hstate, hslots, hspec⟩ := h.known c hc hready
    obtain ⟨m', hm', hid', hstate', hslots', hspec'⟩ := hst.ready m hm hstate fun h => h
    exact ⟨m', hm', hid'.trans hid, hstate', hslots'.trans hslots, hspec'.trans hspec⟩
  · obtain ⟨m, hm, hid, hlive', hsupply⟩ := hst.back m' hm'
    obtain ⟨c, hc, hcid, hcsupply⟩ := h.covers m hm (hlive' hlive)
    exact ⟨c, hc, hcid.trans hid, hcsupply ∘ hsupply⟩
  · rw [PoolRow.ceiling_eq hst.pool, PoolRow.hardStop_eq hst.pool]
    exact h.within hfixed

theorem Copy.congr (h : Copy fixed spec machines s)
    (hmachines : t.machines = s.machines) (hpool : t.pool = s.pool) : Copy fixed spec machines t := by
  obtain ⟨⟨hhash, hceiling, hstop, hslots⟩, hids, hknown, hcovers, hwithin⟩ := h
  refine ⟨⟨?_, ?_, ?_, hslots⟩, hids, ?_, ?_, ?_⟩ <;> simp only [hmachines, hpool] <;> assumption

/-- The entry of a machine that has left changes as its row did. -/
theorem Copy.leave (h : Copy fixed spec (before ++ c :: after) s) (hq : q.calm)
    (hleaves : ∀ id, q.leaves id → id = c.id) {state : MachineState}
    (htarget : ∀ m ∈ (s.exec q).1.machines, m.id = c.id → m.state = state)
    (hsupply : state.isSupply = false) :
    Copy fixed spec (before ++ { c with state := state } :: after) (s.exec q).1 := by
  have hcalm := Calm.exec s hq
  have hnotReady : state ≠ .ready := by
    rintro rfl
    cases hsupply
  -- The ids of the others differ from that of the entry.
  have hids : (before.map (·.id) ++ c.id :: after.map (·.id)).Nodup := by
    simpa using h.ids
  have hother : ∀ c' ∈ before ++ after, c'.id ≠ c.id := by
    intro c' hc' heq
    have hmem : c.id ∈ before.map (·.id) ++ after.map (·.id) := by
      rw [← List.map_append, ← heq]
      exact List.mem_map_of_mem hc'
    exact (List.nodup_middle.mp hids).notMem hmem
  have hsplit : ∀ {x : MachineView} {c' : MachineView}, c' ∈ before ++ x :: after →
      c' = x ∨ c' ∈ before ++ after := by
    intro x c' hc'
    simp only [List.mem_append, List.mem_cons] at hc' ⊢
    tauto
  refine ⟨h.read.of_deployed hcalm.pool, by simpa using hids, fun c' hc' hready => ?_,
    fun m' hm' hlive => ?_, fun hfixed => ?_⟩
  · rcases hsplit hc' with rfl | hc'
    · exact absurd hready hnotReady
    · have hmem : c' ∈ before ++ c :: after := by
        simp only [List.mem_append, List.mem_cons] at hc' ⊢
        tauto
      obtain ⟨m, hm, hid, hstate, hslots, hspec⟩ := h.known c' hmem hready
      obtain ⟨m', hm', hid', hstate', hslots', hspec'⟩ := hcalm.ready m hm hstate fun hleft =>
        hother c' hc' (hid.symm.trans (hleaves _ hleft))
      exact ⟨m', hm', hid'.trans hid, hstate', hslots'.trans hslots, hspec'.trans hspec⟩
  · obtain ⟨m, hm, hid, hlive', hsup⟩ := hcalm.back m' hm'
    obtain ⟨c', hc', hcid, hcsupply⟩ := h.covers m hm (hlive' hlive)
    rcases hsplit hc' with rfl | hc'
    · refine ⟨{ c' with state := state }, by simp, hcid.trans hid, fun hm'supply => ?_⟩
      rw [htarget m' hm' (hid.symm.trans hcid.symm), hsupply] at hm'supply
      cases hm'supply
    · refine ⟨c', ?_, hcid.trans hid, hcsupply ∘ hsup⟩
      simp only [List.mem_append, List.mem_cons] at hc' ⊢
      tauto
  · rw [PoolRow.ceiling_eq hcalm.pool, PoolRow.hardStop_eq hcalm.pool]
    obtain ⟨hceiling, hstop⟩ := h.within hfixed
    refine ⟨le_trans ?_ hceiling, by simpa using hstop⟩
    simp only [supplyOf, List.countP_append, List.countP_cons, hsupply]
    simp

/-- What an entry that may hold jobs holds, after a calm statement and its change. -/
theorem Holds.leave (h : Holds occ (before ++ c :: after) s) (hq : q.calm) {c' : MachineView}
    (hid : c'.id = c.id) (hstate : c'.state = .ready ∨ c'.state = .draining →
      c.state = .ready ∨ c.state = .draining) :
    Holds occ (before ++ c' :: after) (s.exec q).1 := by
  intro x hx hxstate
  refine ((Calm.exec s hq).held x.id).trans ?_
  simp only [List.mem_append, List.mem_cons] at hx
  rcases hx with hx | rfl | hx
  · exact h x (by simp [hx]) hxstate
  · rw [hid]
    exact h c (by simp) (hstate hxstate)
  · exact h x (by simp [hx]) hxstate

variable {source : List MachineState}

theorem terminate_matched (h : Pooled fixed s) {id : MachineId} {reason : String} {failure : Bool}
    (hmoved : (s.exec (.beginTerminate id source reason failure)).2 = true) :
    ∀ m ∈ (s.exec (.beginTerminate id source reason failure)).1.machines, m.id = id →
      m.state = .terminating := by
  intro m hm hid
  obtain ⟨old, _, rfl⟩ := Db.updateMachine_matched
    (fun m => { m with state := .terminating, reason := some reason, failure := failure }) h.ids
    (fun _ => rfl) hmoved hm hid
  rfl

theorem move_matched (h : Pooled fixed s) {id : MachineId}
    {target : MachineState} (hmoved : (s.exec (.moveMachine id source target)).2 = true) :
    ∀ m ∈ (s.exec (.moveMachine id source target)).1.machines, m.id = id → m.state = target := by
  intro m hm hid
  obtain ⟨old, _, rfl⟩ := Db.updateMachine_matched (fun m => { m with state := target }) h.ids
    (fun _ => rfl) hmoved hm hid
  rfl

/-! ## Liveness -/

variable (cfg : PoolEngineConfig)

theorem gentle_recordBootFailure (b : Breaker) (detail : String) :
    (recordBootFailure cfg b detail).Only Statement.gentle :=
  (only_ask trivial).bind fun _ => trivial

/-- The sources that a lost machine is taken from are live, and it is not said to have drained. -/
theorem lostFrom_cases {reason : String} (h : c.lostFrom = some (source, reason)) :
    (∀ state ∈ source, state.isLive = true) ∧ reason ≠ "drained" := by
  unfold MachineView.lostFrom at h
  split at h <;> first
    | cases h
    | (split at h <;> cases h <;> exact ⟨by decide, by decide⟩)

variable {w : World}

theorem sound_checkMachine (b : Breaker)
    (hw : Pooled fixed w.db) (h : Copy fixed spec (before ++ c :: after) w.db) :
    (onePass fixed).Sound (Gives fun p => Copy fixed spec (before ++ p.1 :: after))
      (checkMachine cfg b c) w := by
  unfold checkMachine
  split
  next => exact sound_some lasting_copy h
  next source reason hlost =>
    obtain ⟨hlive, hreason⟩ := lostFrom_cases hlost
    have hattempt : (onePass fixed).Sound
        (Gives fun (moved : Bool) => Copy fixed spec (before ++
          (if moved then { c with state := .terminating } else c) :: after))
        (attempt (.beginTerminate c.id source reason true)) w := by
      refine sound_attempt (fun _ => lasting_copy) fun t hwt ht => ?_
      have hcopy := lasting_copy _ _ hwt h
      have hcalm : (Statement.beginTerminate c.id source reason true).calm := hlive
      refine ⟨fun hdrained => absurd hdrained hreason, ht.calm_exec hcalm, ?_⟩
      obtain ⟨moved, hmoved⟩ : ∃ moved : Bool,
        (t.exec (.beginTerminate c.id source reason true)).2 = moved := ⟨_, rfl⟩
      rw [hmoved]
      cases moved with
      | false =>
        have hsame : (t.exec (.beginTerminate c.id source reason true)).1 = t :=
          Db.updateMachine_unmatched hmoved
        rw [hsame]
        exact hcopy
      | true => exact hcopy.leave hcalm (fun _ hleft => hleft.1) (terminate_matched ht hmoved) rfl
    refine sound_andThen hattempt hw fun (moved : Bool) t ht hcopy => ?_
    refine sound_ite (fun hmoved => ?_) fun hmoved => ?_
    · rw [if_pos hmoved] at hcopy
      refine sound_ite (fun _ => ?_) fun _ => sound_some lasting_copy hcopy
      exact (sound_gentle (gentle_recordBootFailure cfg b reason) lasting_copy hcopy).bind ht
        fun b' u _ hcopy => sound_some lasting_copy hcopy
    · rw [if_neg hmoved] at hcopy
      exact sound_some lasting_copy hcopy

/-! ## Occupancy -/

variable {n : Nat}

theorem toU32_eq (h : n ≤ u32Max) : toU32 n = n :=
  Nat.mod_eq_of_lt (Nat.lt_of_le_of_lt h (by decide))

/-- The occupancy that is read has what each of the machines holds. -/
theorem held_le_busy (hle : ∀ machine, s.held machine ≤ u32Max) {ids : List MachineId}
    {id : MachineId} (hid : id ∈ ids) :
    s.held id ≤ Occupancy.busy (((ids.map fun m => (m, s.held m)).filter fun p => 0 < p.2).map
      fun p => (p.1, toU32 p.2)) id := by
  by_cases hzero : s.held id = 0
  · rw [hzero]
    exact Nat.zero_le _
  induction ids with
  | nil => cases hid
  | cons m ids ih =>
    by_cases hm : 0 < s.held m
    · rw [List.map_cons, List.filter_cons_of_pos (by simpa using hm), List.map_cons]
      unfold Occupancy.busy
      by_cases heq : id = m
      · subst heq
        rw [List.lookup_cons_self, Option.getD_some, toU32_eq (hle id)]
      · have hne : (id == m) = false := beq_eq_false_iff_ne.mpr heq
        simp only [List.lookup_cons, hne]
        exact ih ((List.mem_cons.mp hid).resolve_left heq)
    · rw [List.map_cons, List.filter_cons_of_neg (by simpa using hm)]
      refine ih ((List.mem_cons.mp hid).resolve_left ?_)
      rintro rfl
      exact hm (Nat.pos_of_ne_zero hzero)

theorem sound_readOccupancy (hw : Pooled fixed w.db) (h : Copy fixed spec machines w.db) :
    (onePass fixed).Sound
      (Gives fun occ s => Copy fixed spec machines s ∧ Holds occ machines s)
      (readOccupancy machines) w := by
  have hlasting : ∀ occ, Lasting fun s => Copy fixed spec machines s ∧ Holds occ machines s :=
    fun _ => lasting_copy.and lasting_holds
  -- What may hold jobs is asked for.
  have hids : ∀ c ∈ machines, c.state = .ready ∨ c.state = .draining →
      c.id ∈ (machines.filter fun m => m.state = .ready || m.state = .draining).map (·.id) :=
    fun c hc hstate => List.mem_map_of_mem (List.mem_filter.mpr ⟨hc, by simpa using hstate⟩)
  unfold readOccupancy
  dsimp only
  refine sound_ite (fun hempty => ?_) fun _ => ?_
  · refine sound_some (hlasting []) ⟨h, fun c hc hstate => ?_⟩
    rw [List.isEmpty_iff.mp hempty] at hids
    exact absurd (hids c hc hstate) List.not_mem_nil
  · refine sound_andThen (sound_attempt
      (q := .selectOccupancy ((machines.filter fun m => m.state = .ready || m.state = .draining).map
        (·.id))) (K := fun (found : List (MachineId × Nat)) s => Copy fixed spec machines s ∧ Holds (found.map fun p => (p.1, toU32 p.2)) machines s)
      (fun _ => hlasting _) fun t hwt ht => ?_) hw fun found t _ hfound => ?_
    · refine ⟨trivial, ht, lasting_copy _ _ hwt h, fun c hc hstate => ?_⟩
      exact held_le_busy ht.heldLe (hids c hc hstate)
    · exact sound_some (hlasting _) hfound

/-! ## Roll -/

theorem sound_rollMachine (hw : Pooled fixed w.db)
    (h : Copy fixed spec (before ++ c :: after) w.db ∧ Holds occ (before ++ c :: after) w.db) :
    (onePass fixed).Sound
      (Gives fun c' s => Copy fixed spec (before ++ c' :: after) s ∧ Holds occ (before ++ c' :: after) s)
      (rollMachine spec c) w := by
  have hlasting : ∀ c', Lasting fun s =>
      Copy fixed spec (before ++ c' :: after) s ∧ Holds occ (before ++ c' :: after) s :=
    fun _ => lasting_copy.and lasting_holds
  unfold rollMachine
  refine sound_ite (fun hroll => ?_) fun _ => sound_some (hlasting c) h
  have hready : c.state = .ready := of_decide_eq_true hroll.1
  refine sound_andThen (sound_attempt (q := .moveMachine c.id [.ready] .draining)
    (K := fun (moved : Bool) s => Copy fixed spec (before ++
      (if moved then { c with state := .draining } else c) :: after) s ∧
      Holds occ (before ++ (if moved then { c with state := .draining } else c) :: after) s)
    (fun _ => hlasting _) fun t hwt ht => ?_) hw fun (moved : Bool) t _ hmoved =>
      sound_some (hlasting _) hmoved
  obtain ⟨hcopy, hholds⟩ := (hlasting c) _ _ hwt h
  have hcalm : (Statement.moveMachine c.id [.ready] .draining).calm := .inl ⟨rfl, rfl⟩
  refine ⟨trivial, ht.calm_exec hcalm, ?_⟩
  obtain ⟨moved, hmoved⟩ : ∃ moved : Bool,
    (t.exec (.moveMachine c.id [.ready] .draining)).2 = moved := ⟨_, rfl⟩
  rw [hmoved]
  cases moved with
  | false =>
    have hsame : (t.exec (.moveMachine c.id [.ready] .draining)).1 = t :=
      Db.updateMachine_unmatched hmoved
    rw [hsame]
    exact ⟨hcopy, hholds⟩
  | true =>
    refine ⟨hcopy.leave hcalm (fun _ hleft => hleft.1) (move_matched ht hmoved) rfl, ?_⟩
    exact hholds.leave hcalm rfl fun _ => .inl hready

/-! ## Assignment -/

theorem busy_bump (occ : Occupancy) (machine id : MachineId) : (occ.bump machine).busy id =
    if id = machine then toU32 (occ.busy machine + 1) else occ.busy id := by
  have hcons : occ.bump machine =
      (machine, toU32 (occ.busy machine + 1)) :: occ.filter fun p => p.1 ≠ machine := rfl
  rw [hcons]
  split
  next h =>
    subst h
    simp only [Occupancy.busy, List.lookup_cons_self, Option.getD_some]
  next h =>
    have hne : (id == machine) = false := beq_eq_false_iff_ne.mpr h
    have hrest : (occ.filter fun p => p.1 ≠ machine).lookup id = occ.lookup id := by
      induction occ with
      | nil => rfl
      | cons p occ ih =>
        obtain ⟨other, jobs⟩ := p
        by_cases hp : other = machine
        · have hp' : (id == other) = false := beq_eq_false_iff_ne.mpr (hp ▸ h)
          rw [List.filter_cons_of_neg (by simpa using hp), ih rfl]
          simp only [List.lookup_cons, hp']
        · rw [List.filter_cons_of_pos (by simpa using hp), List.lookup_cons, List.lookup_cons, ih rfl]
    simp only [Occupancy.busy, List.lookup_cons, hne, hrest]

/-- The slots that are left are those of ready machines of this deploy, and no more than they have
free. -/
def FreeFor (spec : PoolSpec) (machines : List MachineView) (occ : Occupancy)
    (slots : List MachineId) : Prop :=
  ∀ id ∈ slots, ∃ c ∈ machines, c.id = id ∧ c.state = .ready ∧ c.specHash = spec.specHash ∧
    slots.count id + occ.busy id ≤ c.slots

/-- A machine has as many entries among the free slots as it has slots free. -/
theorem count_freeSlots {free : List (MachineView × Nat)} (hids : (free.map (·.1.id)).Nodup)
    {p : MachineView × Nat} (hp : p ∈ free) : (freeSlots free).count p.1.id = p.2 := by
  induction free with
  | nil => cases hp
  | cons p' free ih =>
    obtain ⟨hnot, hids⟩ : p'.1.id ∉ free.map (·.1.id) ∧ (free.map (·.1.id)).Nodup :=
      List.nodup_cons.mp hids
    have hsplit : freeSlots (p' :: free) = List.replicate p'.2 p'.1.id ++ freeSlots free := rfl
    rw [hsplit, List.count_append, List.count_replicate]
    rcases List.mem_cons.mp hp with rfl | hp
    · have hzero : (freeSlots free).count p.1.id = 0 := by
        refine List.count_eq_zero.mpr fun hmem => hnot ?_
        obtain ⟨p', hp', hid⟩ := List.mem_flatMap.mp hmem
        rw [(List.mem_replicate.mp hid).2]
        exact List.mem_map.mpr ⟨p', hp', rfl⟩
      simp [hzero]
    · have hne : p'.1.id ≠ p.1.id := by
        intro heq
        exact hnot (heq ▸ List.mem_map.mpr ⟨p, hp, rfl⟩)
      rw [ih hids hp, if_neg (by simpa using hne), Nat.zero_add]

theorem map_filterMap_sublist {α β γ : Type} {f : α → Option β} {g : β → γ} {g' : α → γ}
    (h : ∀ a b, f a = some b → g b = g' a) (l : List α) :
    ((l.filterMap f).map g).Sublist (l.map g') := by
  induction l with
  | nil => exact List.Sublist.slnil
  | cons a l ih =>
    cases ha : f a with
    | none =>
      rw [List.filterMap_cons_none ha]
      exact ih.cons _
    | some b =>
      rw [List.filterMap_cons_some ha, List.map_cons, h a b ha]
      exact ih.cons_cons _

theorem freeFor_freeMachines (hids : (machines.map (·.id)).Nodup) :
    FreeFor spec machines occ (freeSlots (freeMachines spec machines occ)) := by
  have hperm := List.perm_insertionSort
    (fun p q : MachineView × Nat => p.2 < q.2 ∨ p.2 = q.2 ∧ p.1.id ≤ q.1.id)
    ((machines.filter fun m => isReady m && m.fresh && m.specHash = spec.specHash).filterMap
      fun m => if occ.busy m.id < m.slots then some (m, m.slots - occ.busy m.id) else none)
  have hfound : ∀ p ∈ freeMachines spec machines occ, p.1 ∈ machines ∧ p.1.state = .ready ∧
      p.1.specHash = spec.specHash ∧ p.2 + occ.busy p.1.id = p.1.slots := by
    intro p hp
    obtain ⟨m, hm, hsome⟩ := List.mem_filterMap.mp (hperm.mem_iff.mp hp)
    obtain ⟨hmem, hguard⟩ := List.mem_filter.mp hm
    obtain ⟨hless, heq⟩ := Option.ite_none_right_eq_some.mp hsome
    obtain rfl := Option.some.inj heq
    simp only [isReady, Bool.and_eq_true, decide_eq_true_eq] at hguard
    exact ⟨hmem, hguard.1.1, hguard.2, Nat.sub_add_cancel hless.le⟩
  have hfree : ((freeMachines spec machines occ).map (·.1.id)).Nodup := by
    refine (hperm.map _).nodup_iff.mpr ?_
    refine (hids.sublist (List.filter_sublist.map _)).sublist
      (map_filterMap_sublist (fun m p h => ?_) _)
    obtain ⟨_, heq⟩ := Option.ite_none_right_eq_some.mp h
    rw [← Option.some.inj heq]
  intro id hid
  obtain ⟨p, hp, hpid⟩ := List.mem_flatMap.mp hid
  obtain ⟨hmem, hready, hspec, hslots⟩ := hfound p hp
  refine ⟨p.1, hmem, (List.mem_replicate.mp hpid).2.symm, hready, hspec, ?_⟩
  rw [(List.mem_replicate.mp hpid).2, count_freeSlots hfree hp]
  exact hslots.le

/-- The copy and what its machines hold. -/
def Placed (fixed : Prop) (spec : PoolSpec) (machines : List MachineView) (occ : Occupancy) (s : Db) :
    Prop := Copy fixed spec machines s ∧ Holds occ machines s

theorem lasting_placed : Lasting (Placed fixed spec machines occ) :=
  lasting_copy.and lasting_holds

variable {slots : List MachineId} {machine : MachineId}

/-- A free slot of the copy is one of a ready machine with room. -/
theorem Placed.has_room
    (h : Placed fixed spec machines occ s) (hfree : FreeFor spec machines occ (machine :: slots)) :
    ∃ m ∈ s.machines, m.id = machine ∧ m.state = .ready ∧ m.specHash = s.pool.specHash ∧
      s.held machine < m.slots ∧ occ.busy machine < m.slots := by
  obtain ⟨c, hc, rfl, hready, hspec, hcount⟩ := hfree machine List.mem_cons_self
  obtain ⟨m, hm, hid, hstate, hslots, hhash⟩ := h.1.known c hc hready
  have hheld := h.2 c hc (.inl hready)
  rw [List.count_cons_self] at hcount
  refine ⟨m, hm, hid, hstate, hhash.trans (hspec.trans h.1.read.specHash), ?_, ?_⟩ <;> omega

/-- A claim for a free slot keeps what holds of the pool. -/
theorem Pooled.claim {job : JobId} {leaseSecs : Nat} (h : Pooled fixed s)
    {m : MachineRow} (hm : m ∈ s.machines) (hid : m.id = machine) (hroom : s.held machine < m.slots) :
    Pooled fixed (s.exec (.claimJob job machine leaseSecs)).1 := by
  have hheld := Db.held_claim_le h.jobIds job machine leaseSecs
  have hslots := (h.slots m hm).2
  refine h.exec (fun m' hm' => (hheld m'.id).trans ?_) (fun id => (hheld id).trans ?_) ?_ nofun
    h.within
  · split
    next heq =>
      obtain rfl := List.inj_on_of_nodup_map h.ids hm' hm (heq.trans hid.symm)
      rw [heq]
      omega
    next => exact h.room m' hm'
  · split
    next heq =>
      rw [heq]
      omega
    next => exact h.heldLe id
  · intro _ claimed _ hq
    injection hq with _ hclaimed
    rw [← hclaimed, ← hid]
    exact h.fresh m hm

/-- After a claim that went through, the copy counts the job. -/
theorem Placed.claim {job : JobId}
    {leaseSecs : Nat} (h : Placed fixed spec machines occ s) (hs : Pooled fixed s)
    (hbusy : occ.busy machine < u32Max) :
    Placed fixed spec machines (occ.bump machine) (s.exec (.claimJob job machine leaseSecs)).1 := by
  refine ⟨h.1.congr rfl rfl, fun c hc hstate => ?_⟩
  refine (Db.held_claim_le hs.jobIds job machine leaseSecs c.id).trans ?_
  have hheld := h.2 c hc hstate
  rw [busy_bump]
  split
  next heq =>
    rw [toU32_eq hbusy, ← heq]
    omega
  next => omega

theorem FreeFor.next
    (h : FreeFor spec machines occ (machine :: slots)) (hbusy : occ.busy machine < u32Max) :
    FreeFor spec machines (occ.bump machine) slots := by
  intro id hid
  obtain ⟨c, hc, hcid, hready, hspec, hcount⟩ := h id (List.mem_cons_of_mem _ hid)
  refine ⟨c, hc, hcid, hready, hspec, ?_⟩
  rw [busy_bump]
  split
  next heq =>
    subst heq
    rw [List.count_cons_self] at hcount
    rw [toU32_eq hbusy]
    omega
  next hne =>
    rw [List.count_cons_of_ne (Ne.symm hne)] at hcount
    exact hcount

theorem sound_claimJobs (leaseSecs : Nat) {jobs : List JobId} {assigned : Nat} (hw : Pooled fixed w.db)
    (h : Placed fixed spec machines occ w.db) (hfree : FreeFor spec machines occ slots) :
    (onePass fixed).Sound (Gives fun p => Placed fixed spec machines p.1)
      (claimJobs leaseSecs jobs slots occ assigned) w := by
  induction jobs generalizing slots occ assigned w with
  | nil => exact sound_some lasting_placed h
  | cons job jobs ih =>
    cases slots with
    | nil => exact sound_some lasting_placed h
    | cons machine slots =>
      -- The slot is free now, and the copy cannot count it over the range of the counter.
      have hbusy : occ.busy machine < u32Max := by
        obtain ⟨m, hm, _, _, _, _, hlt⟩ := h.has_room hfree
        exact hlt.trans_le (hw.slots m hm).2
      refine sound_andThen (sound_attempt (q := .claimJob job machine leaseSecs)
        (K := fun (claimed : Bool) => Placed fixed spec machines
          (if claimed then occ.bump machine else occ)) (fun _ => lasting_placed)
        fun t hwt ht => ?_) hw fun (claimed : Bool) t ht hclaimed => ?_
      · have hplaced := lasting_placed _ _ hwt h
        obtain ⟨m, hm, hid, hstate, hspec, hroom, _⟩ := hplaced.has_room hfree
        refine ⟨⟨m, hm, hid, hstate, hspec⟩, ht.claim hm hid hroom, ?_⟩
        obtain ⟨claimed, hclaimed⟩ : ∃ claimed : Bool,
          (t.exec (.claimJob job machine leaseSecs)).2 = claimed := ⟨_, rfl⟩
        rw [hclaimed]
        cases claimed with
        | true => exact hplaced.claim ht hbusy
        | false =>
          refine ⟨hplaced.1.congr rfl rfl, fun c hc hstate => ?_⟩
          have hjobs := Db.claim_unmatched hclaimed
          rw [Db.held_eq, hjobs, ← Db.held_eq]
          exact hplaced.2 c hc hstate
      · refine sound_ite (fun hyes => ?_) fun hno => ?_
        · rw [if_pos hyes] at hclaimed
          exact ih ht hclaimed (hfree.next hbusy)
        · rw [if_neg hno] at hclaimed
          exact ih ht hclaimed hfree

theorem sound_assign (hw : Pooled fixed w.db) (h : Placed fixed spec machines occ w.db) :
    (onePass fixed).Sound (Gives fun p => Placed fixed spec machines p.1)
      (assign spec machines occ) w := by
  unfold assign
  dsimp only
  refine sound_ite (fun _ => sound_some lasting_placed h) fun _ => ?_
  refine sound_andThen (gives_gentle (only_attempt trivial) lasting_placed h) hw fun jobs t ht h => ?_
  refine sound_andThen (sound_claimJobs _ ht h (freeFor_freeMachines h.1.ids)) ht fun p u hu h => ?_
  refine sound_ite (fun _ => ?_) fun _ => sound_some lasting_placed h
  refine SoloDiscipline.Sound.bind (sound_gentle ?_ lasting_placed h) hu
    fun _ v _ h => sound_some lasting_placed h
  exact Prog.Only.each fun entry _ => (only_ask trivial).bind fun _ => trivial

theorem sound_assignQueued (hw : Pooled fixed w.db) (h : Placed fixed spec machines occ w.db) :
    (onePass fixed).Sound (Gives fun p => Placed fixed spec machines p.1)
      (assignQueued spec machines occ) w := by
  refine sound_andThen (gives_gentle (only_attempt trivial) lasting_placed h) hw fun count t ht h => ?_
  refine sound_ite (fun _ => ?_) fun _ => sound_some lasting_placed h
  exact sound_andThen (sound_assign ht h) ht fun p u _ h => sound_some lasting_placed h

/-! ## Scaling -/

/-- What is live, or in supply, has an entry of its own in the copy. -/
theorem Copy.countP_le (h : Copy fixed spec machines s)
    (hs : Pooled fixed s) {p : MachineState → Bool} (hlive : ∀ state, p state = true →
      state.isLive = true) {p' : MachineView → Bool}
    (hp : ∀ m ∈ s.machines, ∀ c ∈ machines, p m.state = true →
      (m.state.isSupply = true → c.state.isSupply = true) → p' c = true) :
    (s.machines.countP fun m => p m.state) ≤ machines.countP p' := by
  rw [List.countP_eq_length_filter, List.countP_eq_length_filter]
  have hids : ((s.machines.filter fun m => p m.state).map (·.id)).Nodup :=
    hs.ids.sublist (List.filter_sublist.map _)
  have hsub : (s.machines.filter fun m => p m.state).map (·.id) ⊆ (machines.filter p').map (·.id) := by
    intro id hid
    obtain ⟨m, hm, rfl⟩ := List.mem_map.mp hid
    obtain ⟨hmem, hstate⟩ := List.mem_filter.mp hm
    obtain ⟨c, hc, hcid, hsupply⟩ := h.covers m hmem (hlive _ hstate)
    exact hcid ▸ List.mem_map_of_mem (List.mem_filter.mpr ⟨hc, hp m hmem c hc hstate hsupply⟩)
  simpa using (List.subperm_of_subset hids hsub).length_le

theorem Copy.supply_le (h : Copy fixed spec machines s)
    (hs : Pooled fixed s) : s.supply ≤ supplyOf machines :=
  h.countP_le hs (fun _ => MachineState.isLive_of_isSupply) fun _ _ _ _ hm himp => himp hm

theorem Copy.live_le (h : Copy fixed spec machines s)
    (hs : Pooled fixed s) : s.live ≤ machines.length := by
  have hle : s.live ≤ machines.countP fun _ => true :=
    h.countP_le hs (fun _ hlive => hlive) fun _ _ _ _ _ _ => rfl
  simpa using hle

/-- So many machines may still be added. -/
def Affords (fixed : Prop) (n : Nat) (s : Db) : Prop :=
  fixed → s.supply + n ≤ s.pool.ceiling ∧ s.live + n ≤ s.pool.hardStop

/-- What is known while machines are created. -/
def Creating (fixed : Prop) (spec : PoolSpec) (machines : List MachineView) (occ : Occupancy) (n : Nat)
    (s : Db) : Prop := (SpecRead spec s ∧ Affords fixed n s) ∧ Holds occ machines s

theorem lasting_affords : Lasting (Affords fixed n) := by
  intro s t hst h hfixed
  obtain ⟨hsupply, hlive⟩ := h hfixed
  have hsupply' := hst.supply
  have hlive' := hst.live
  rw [PoolRow.ceiling_eq hst.pool, PoolRow.hardStop_eq hst.pool]
  omega

theorem lasting_creating :
    Lasting (Creating fixed spec machines occ n) :=
  (lasting_specRead.and lasting_affords).and lasting_holds

/-- What the copy leaves room for may be created. -/
theorem Placed.affords (h : Placed fixed spec machines occ s)
    (hs : Pooled fixed s) (cfg : PoolEngineConfig) {desired : Nat} (hdesired : desired ≤ spec.ceiling)
    (hless : toU32 (supplyOf machines) < desired) :
    Affords fixed (wanted cfg spec desired (toU32 (supplyOf machines)) (toU32 machines.length)) s := by
  intro hfixed
  obtain ⟨hceiling, hstop⟩ := h.1.within hfixed
  have hsupply := h.1.supply_le hs
  have hlive := h.1.live_le hs
  rw [toU32_eq (hceiling.trans (PoolRow.ceiling_le _))] at hless ⊢
  rw [toU32_eq (hstop.trans (PoolRow.hardStop_le_u32 _))]
  rw [h.1.read.ceiling] at hdesired
  have hwant : wanted cfg spec desired (supplyOf machines) machines.length ≤
      desired - supplyOf machines := (Nat.min_le_left _ _).trans (Nat.min_le_left _ _)
  have hroom : wanted cfg spec desired (supplyOf machines) machines.length ≤
      spec.hardStop - machines.length := Nat.min_le_right _ _
  rw [h.1.read.hardStop] at hroom
  omega

theorem gentle_ensureCreated (id : MachineId) : (ensureCreated id).Only Statement.gentle :=
  only_andThen (only_attempt trivial) fun _ => only_andThen (only_attempt trivial) fun _ =>
    only_andThen (only_attempt (show Statement.gentle (.moveMachine ..) from ⟨rfl, rfl⟩))
      fun _ => trivial

theorem sound_createMachine
    (hw : Pooled fixed w.db) (h : Creating fixed spec machines occ (n + 1) w.db) :
    (onePass fixed).Sound (fun _ u => Creating fixed spec machines occ n u.db) (createMachine spec) w := by
  have hask : (onePass fixed).Sound (fun _ u => Creating fixed spec machines occ n u.db)
      (ask (.createMachine spec.slots spec.specHash)) w := by
    refine sound_ask lasting_creating fun t hwt ht => ?_
    obtain ⟨⟨hread, hafford⟩, hholds⟩ := lasting_creating _ _ hwt h
    have hheld : ∀ id, (t.exec (.createMachine spec.slots spec.specHash)).1.held id ≤ t.held id :=
      fun id => Nat.le_refl _
    refine ⟨trivial, ?_, ?_, ?_⟩
    · refine ht.exec (fun m hm => (hheld m.id).trans (ht.room m hm))
        (fun id => (hheld id).trans (ht.heldLe id)) nofun ?_ fun hfixed => ?_
      · intro slots specHash hq
        injection hq with hslots
        exact hslots ▸ hread.slots
      · rw [Db.supply_create, Db.live_create]
        have hmore := hafford hfixed
        omega
    · refine ⟨⟨hread.of_deployed rfl, fun hfixed => ?_⟩, fun c hc hstate => ?_⟩
      · rw [Db.supply_create, Db.live_create]
        have hmore := hafford hfixed
        have hpool : (t.exec (.createMachine spec.slots spec.specHash)).1.pool = t.pool := rfl
        rw [hpool]
        omega
      · exact (hheld c.id).trans (hholds c hc hstate)
    · refine ⟨⟨hread, fun hfixed => ?_⟩, hholds⟩
      have hmore := hafford hfixed
      omega
  have hattempt : (onePass fixed).Sound (fun _ u => Creating fixed spec machines occ n u.db)
      (attempt (.createMachine spec.slots spec.specHash)) w :=
    hask.bind hw fun _ t _ ht => SoloDiscipline.Sound.done (fun _ _ hst => lasting_creating _ _ hst) ht
  refine hattempt.bind hw fun id t ht hcreating => ?_
  cases id with
  | none => exact SoloDiscipline.Sound.done (fun _ _ hst => lasting_creating _ _ hst) hcreating
  | some id =>
    refine sound_gentle ((gentle_ensureCreated id).bind fun made => ?_) lasting_creating hcreating
    cases made with
    | some => trivial
    | none =>
      have hterminate : (Statement.beginTerminate id [.requested] "create failed" true).gentle :=
        ⟨fun state hstate => .inl (List.mem_singleton.mp hstate), by decide⟩
      exact (only_ask hterminate).bind fun _ => trivial

theorem sound_createMachines
    {b : Breaker} (hw : Pooled fixed w.db) (h : Creating fixed spec machines occ n w.db) :
    (onePass fixed).Sound (fun _ u => Holds occ machines u.db) (createMachines cfg spec n b) w := by
  have hlasting : ∀ b : Breaker, (onePass fixed).Stable
      ((fun (_ : Breaker) (u : World) => Holds occ machines u.db) b) :=
    fun _ _ _ hst => lasting_holds _ _ hst
  induction n generalizing b w with
  | zero => exact SoloDiscipline.Sound.done (hlasting b) h.2
  | succ n ih =>
    refine (sound_createMachine hw h).bind hw fun made t ht hcreating => ?_
    cases made with
    | some => exact ih ht hcreating
    | none =>
      refine (sound_gentle (gentle_recordBootFailure cfg b _) lasting_creating hcreating).bind ht
        fun b' u hu hcreating => ?_
      exact sound_ite (fun _ => SoloDiscipline.Sound.done (hlasting b') hcreating.2)
        fun _ => ih hu hcreating

theorem sound_drainIdle {surplus : Nat} (hw : Pooled fixed w.db)
    (h : Holds occ (before ++ c :: after) w.db) :
    (onePass fixed).Sound (Gives fun p => Holds occ (before ++ p.1 :: after))
      (drainIdle occ surplus c) w := by
  unfold drainIdle
  refine sound_ite (fun hidle => ?_) fun _ => sound_some lasting_holds h
  have hready : c.state = .ready := of_decide_eq_true hidle.2.1
  refine sound_andThen (sound_attempt (q := .moveMachine c.id [.ready] .draining)
    (K := fun (moved : Bool) => Holds occ (before ++
      (if moved then ({ c with state := .draining }, surplus - 1) else (c, surplus)).1 :: after))
    (fun _ => lasting_holds) fun t hwt ht => ?_) hw fun (moved : Bool) t _ hmoved =>
      sound_some lasting_holds hmoved
  have hcalm : (Statement.moveMachine c.id [.ready] .draining).calm := .inl ⟨rfl, rfl⟩
  refine ⟨trivial, ht.calm_exec hcalm, (lasting_holds _ _ hwt h).leave hcalm ?_ fun _ => .inl hready⟩
  split <;> rfl

theorem sound_scale {queued : Nat} {b : Breaker} (hw : Pooled fixed w.db) (h : Placed fixed spec machines occ w.db) :
    (onePass fixed).Sound (Gives fun p => Holds occ p.1)
      (scale cfg spec machines occ queued b) w := by
  unfold scale
  dsimp only
  refine sound_ite (fun hless => ?_) fun _ => sound_ite (fun _ => ?_) fun _ =>
    sound_some lasting_holds h.2
  · refine sound_ite (fun _ => ?_) fun _ => sound_ite (fun _ => sound_none) fun _ =>
      sound_some lasting_holds h.2
    have hafford := h.affords hw cfg (spec.desiredMachines_le_ceiling _ _) hless.1
    exact (sound_createMachines cfg hw ⟨⟨h.1.read, hafford⟩, h.2⟩).bind hw
      fun b' t _ hholds => sound_some lasting_holds hholds
  · refine sound_andThen (sound_eachAccum (K := fun l => Holds occ l) (fun _ => lasting_holds)
      (fun _ _ _ _ _ ht hholds => sound_drainIdle ht hholds) hw h.2) hw
        fun p t _ hholds => sound_some lasting_holds hholds

/-! ## Termination -/

theorem sound_terminateDrained (hw : Pooled fixed w.db)
    (h : Holds occ (before ++ c :: after) w.db) :
    (onePass fixed).Sound (Gives fun c' => Holds occ (before ++ c' :: after))
      (terminateDrained occ c) w := by
  unfold terminateDrained
  refine sound_ite (fun hdrained => ?_) fun _ => sound_some lasting_holds h
  refine sound_andThen (sound_attempt (q := .beginTerminate c.id [.draining] "drained" false)
    (K := fun (moved : Bool) => Holds occ (before ++
      (if moved then { c with state := .terminating } else c) :: after))
    (fun _ => lasting_holds) fun t hwt ht => ?_) hw fun (moved : Bool) t _ hmoved =>
      sound_some lasting_holds hmoved
  have hcalm : (Statement.beginTerminate c.id [.draining] "drained" false).calm :=
    fun state hstate => by rw [List.mem_singleton.mp hstate]; rfl
  have hholds := lasting_holds _ _ hwt h
  refine ⟨fun _ => ?_, ht.calm_exec hcalm, hholds.leave hcalm ?_ fun _ => .inr hdrained.1⟩
  · have hzero := hholds c (by simp) (.inr hdrained.1)
    rw [hdrained.2] at hzero
    exact Nat.le_zero.mp hzero
  · split <;> rfl

theorem gentle_ifProvider {p : Call (Option Unit)}
    (h : p.Only Statement.gentle) : (ifProvider cfg p).Only Statement.gentle :=
  only_ite h trivial

theorem gentle_destroyMachine (c : MachineView) : (destroyMachine c).Only Statement.gentle := by
  refine only_ite ((only_ask trivial).bind fun reply => ?_) trivial
  cases reply with
  | ok => exact only_attempt trivial
  | error => trivial

theorem gentle_recreate (c : MachineView) : (recreate c).Only Statement.gentle :=
  only_ite ((gentle_ensureCreated _).bind fun _ => trivial) trivial

theorem gentle_cacheOccupancy (occ : Occupancy) (c : MachineView) :
    (cacheOccupancy occ c).Only Statement.gentle :=
  only_ite (only_attempt trivial) (only_ite (only_attempt trivial) trivial)

theorem sound_finishPass
    (hw : Pooled fixed w.db) (h : Holds occ machines w.db) :
    (onePass fixed).Sound (Gives fun _ _ => True) (finishPass cfg machines occ) w := by
  refine sound_andThen (gives_gentle (gentle_ifProvider cfg (only_andThen
    (only_forEach gentle_recreate _) fun _ => trivial)) lasting_holds h) hw fun _ t ht h => ?_
  refine sound_andThen (sound_each (K := fun l => Holds occ l) (fun _ => lasting_holds)
    (fun _ _ _ _ hu hholds => sound_terminateDrained hu hholds) ht h) ht fun left u _ _ => ?_
  exact gives_gentle (gentle_ifProvider cfg (only_andThen (only_forEach gentle_destroyMachine _)
    fun _ => trivial)) lasting_true trivial

/-! ## A whole pass -/

/-- The rows that are live are the copy. -/
theorem copy_selected (hs : Pooled fixed s) (hread : SpecRead spec s) (now : Nat) :
    Copy fixed spec ((s.machines.filter (·.state.isLive)).map (·.view now spec)) s where
  read := hread
  ids := by
    rw [List.map_map]
    exact hs.ids.sublist (List.filter_sublist.map _)
  known c hc hready := by
    obtain ⟨m, hm, rfl⟩ := List.mem_map.mp hc
    have hmem := (List.mem_filter.mp hm).1
    exact ⟨m, hmem, rfl, hready, (Nat.max_eq_left (hs.slots m hmem).1).symm, rfl⟩
  covers m hm hlive :=
    ⟨m.view now spec, List.mem_map_of_mem (List.mem_filter.mpr ⟨hm, hlive⟩), rfl, id⟩
  within hfixed := by
    obtain ⟨hsupply, hlive⟩ := hs.within hfixed
    refine ⟨le_trans ?_ hsupply, ?_⟩
    · unfold supplyOf
      rw [List.countP_map]
      exact List.filter_sublist.countP_le
    · rw [List.length_map, ← List.countP_eq_length_filter]
      exact hlive

theorem sound_placeAndScale {b : Breaker} (hw : Pooled fixed w.db) (h : Placed fixed spec machines occ w.db) :
    (onePass fixed).Sound (Gives fun _ _ => True) (placeAndScale cfg spec machines b occ) w := by
  refine sound_andThen (gives_gentle (only_forEach (gentle_cacheOccupancy occ) _) lasting_placed h) hw
    fun _ t ht h => ?_
  refine sound_andThen (sound_each (K := fun l => Placed fixed spec l occ)
    (fun _ => lasting_placed) (fun _ _ _ _ hu hplaced => sound_rollMachine hu hplaced) ht h) ht
      fun rolled u hu h => ?_
  refine sound_andThen (sound_assignQueued hu h) hu fun p v hv h => ?_
  exact sound_andThen (sound_scale cfg hv h) hv fun left x hx h => sound_finishPass cfg hx h

theorem sound_tickPool (hw : Pooled fixed w.db) (h : SpecRead spec w.db) :
    (onePass fixed).Sound (Gives fun _ _ => True) (tickPool cfg spec) w := by
  refine sound_andThen (gives_gentle (only_andThen (only_attempt trivial) fun _ =>
    only_andThen (only_attempt trivial) fun _ => only_attempt trivial) lasting_specRead h) hw
      fun _ t ht h => ?_
  refine sound_andThen (sound_attempt (q := .selectLiveMachines spec)
    (K := fun (machines : List MachineView) => Copy fixed spec machines) (fun _ => lasting_copy)
    fun u htu hu => ⟨trivial, hu, copy_selected hu (lasting_specRead _ _ htu h) u.now⟩) ht
      fun machines u hu h => ?_
  refine sound_andThen (sound_eachAccum (K := fun l => Copy fixed spec l) (fun _ => lasting_copy)
    (fun b _ _ _ _ hv hcopy => sound_checkMachine cfg b hv hcopy) hu h) hu fun p v hv h => ?_
  exact sound_andThen (sound_readOccupancy hv h) hv fun occ x hx h => sound_placeAndScale cfg hx h

theorem sound_tickPass (prune : Bool) (hw : Pooled fixed w.db) :
    (onePass fixed).Sound (fun _ _ => True) (tickPass cfg prune) w := by
  refine SoloDiscipline.Sound.bind (sound_attempt (q := .selectPool)
    (K := fun (spec : PoolSpec) => SpecRead spec) (fun _ => lasting_specRead)
    fun t _ ht => ⟨trivial, ht, SpecRead.fromRow t.pool _ rfl⟩) hw fun spec t ht h => ?_
  cases spec with
  | none => exact fun _ _ _ => trivial
  | some spec =>
    refine (sound_tickPool cfg ht (h spec rfl)).bind ht fun result u _ _ => ?_
    refine (sound_gentle (K := fun _ => True) ?_ lasting_true trivial).imp fun _ _ _ _ => trivial
    refine Prog.Only.bind ?_ fun _ => only_ite ((only_ask trivial).bind fun _ => trivial) trivial
    cases result with
    | some => trivial
    | none => exact (only_ask trivial).bind fun _ => trivial

end

/-! ## Whole runs -/

theorem gentle_of_agent {q : Statement} (h : q.ofAgent) : q.gentle := by
  cases q <;> first | trivial | exact h.elim

theorem gentle_agentCall (c : AgentCall) : c.invocation.program.Only Statement.gentle := by
  cases c with
  | onReady machine =>
    refine Prog.Only.bind (only_andThen (only_attempt trivial) fun (moved : Bool) => ?_) fun _ => trivial
    refine only_ite ((only_ask trivial).bind fun _ => trivial) ?_
    exact only_andThen ((only_poolOfMachine machine).mono fun _ => gentle_of_agent) fun _ => trivial
  | onPoll req =>
    exact ((only_onPoll req).mono fun _ => gentle_of_agent).bind fun _ => trivial
  | onResult cfg attempt_ outcome =>
    exact ((only_onResult cfg attempt_ outcome).mono fun _ => gentle_of_agent).bind fun _ => trivial
  | retryJob job | killJob job => exact (only_attempt trivial).bind fun _ => trivial

theorem good_start (fixed : Prop) (pool : PoolRow) :
    (onePass fixed).Good (PoolRun.start pool) where
  inv := Pooled.empty pool
  others := nofun
  main := nofun

theorem Pooled.deploy {fixed : Prop} {w : World} (h : Pooled fixed w.db) (hfixed : ¬ fixed)
    (row : PoolRow) : Pooled fixed (w.deploy row).db :=
  ⟨h.ids, h.fresh, h.jobIds, h.jobFresh, h.assigned, h.slots, h.room, h.heldLe,
    fun hf => absurd hf hfixed⟩

theorem good_poolRun {fixed : Prop} {ok : PoolRun → PoolEvent → Prop}
    (hok : ∀ e row, ok e (.between row) → ¬ fixed) {pool : PoolRow} {e : PoolRun}
    (h : Run poolStep ok (PoolRun.start pool) e) : (onePass fixed).Good e :=
  SoloDiscipline.good_run (fun pass _ hw => sound_tickPass pass.1 pass.2 hw) gentle_agentCall
    (fun e row hrow hw => hw.deploy (hok e row hrow) row) (good_start fixed pool) h

/-- One engine, whose passes run one after another and may die at any statement, between them any
deploys, and at any time any agents and operators: no machine holds more jobs than it has slots;
a job is only claimed for a machine that is ready and of the current deploy; and a machine is
terminated as drained only while no job is bound to it. -/
theorem machines_are_not_oversubscribed (pool : PoolRow) {e : PoolRun}
    (h : Run poolStep (fun _ _ => True) (PoolRun.start pool) e) :
    (∀ m ∈ e.rest.state.db.machines, (e.rest.state.db.boundTo m.id).length ≤ m.slots) ∧
    ∀ (a : PoolEvent) q, e.asked a = some q → SafeStatement e.rest.state.db q := by
  have hgood : (onePass False).Good e := good_poolRun (fun _ _ _ h => h) h
  exact ⟨hgood.inv.room, fun a q hq => SoloDiscipline.safe_step hgood hq⟩

/-- It is not a deploy. -/
def keepsSpec (a : PoolEvent) : Bool :=
  match a with
  | .between _ => false
  | _ => true

/-- Without a deploy the pool stays as it was deployed. -/
theorem deployed_step {e e' : PoolRun} {a : PoolEvent} (ha : keepsSpec a = true)
    (h : poolStep e a = some e') :
    e'.rest.state.db.pool.deployed = e.rest.state.db.pool.deployed := by
  have hexec : ∀ (w : World) (q : Statement), (w.exec q).1.db.pool.deployed = w.db.pool.deployed := by
    intro w q
    rcases w.exec_db q with hdb | hdb <;> rw [hdb]
    exact w.db.exec_deployed q
  cases a with
  | start pass =>
    simp only [poolStep, Solo.step] at h
    split at h <;> cases h
    rfl
  | advance =>
    simp only [poolStep, Solo.step] at h
    split at h <;> cases h
    · rfl
    · exact hexec _ _
  | crash =>
    cases h
    rfl
  | between row => cases ha
  | other a =>
    obtain ⟨rest, hrest, rfl⟩ := Option.map_eq_some_iff.mp h
    rcases Calls.step_cases hrest with ⟨hstate, _⟩ | ⟨_, _, hstate, _⟩ | ⟨_, _, _, _, _, hstate, _⟩ |
      ⟨event, _, hstate, _⟩
    · rw [hstate]
    · rw [hstate]
    · rw [hstate]
      exact hexec _ _
    · obtain hstate := Option.some.inj hstate
      rw [← hstate]
      cases event with
      | db event => cases event <;> rfl
      | fault fault => rfl

/-- One engine whose pool is not deployed again, whatever its provider and its database fail with
and wherever its passes die: the machines in supply stay within the ceiling, and those that are not
gone within twice that and one more. -/
theorem pool_stays_within (pool : PoolRow) {e : PoolRun}
    (h : Run poolStep (fun _ a => keepsSpec a = true) (PoolRun.start pool) e) :
    (e.rest.state.db.machines.countP fun m => m.state.isSupply) ≤ (PoolSpec.fromRow pool false).ceiling ∧
    (e.rest.state.db.machines.countP fun m => m.state.isLive) ≤
      2 * (PoolSpec.fromRow pool false).ceiling + 1 := by
  have hgood : (onePass True).Good e := good_poolRun (fun _ _ hbetween => by cases hbetween) h
  obtain ⟨hsupply, hlive⟩ := hgood.inv.within trivial
  have hdeployed : e.rest.state.db.pool.deployed = pool.deployed :=
    h.invariant (P := fun e => e.rest.state.db.pool.deployed = pool.deployed) rfl
      fun _ _ _ he ha hstep => (deployed_step ha hstep).trans he
  rw [PoolRow.ceiling_eq hdeployed] at hsupply
  rw [PoolRow.hardStop_eq hdeployed] at hlive
  exact ⟨hsupply, hlive.trans (PoolSpec.hardStop_le _)⟩

/-- A pass that runs so many statements. -/
def onePassOf (statements : Nat) : List PoolEvent :=
  .start (defaultConfig, false) :: List.replicate (statements + 1) .advance

/-- A call of an agent that runs so many statements. -/
def agentCall (c : AgentCall) (statements : Nat) : List PoolEvent :=
  .other (.call c) :: List.replicate (statements + 1) (.other (.next 0))

/-- A machine is created and becomes ready, and its job is claimed. -/
def firstJob : List PoolEvent :=
  .other (.env (.db (.createJob none none none))) :: onePassOf 10 ++
    agentCall (.onReady 0) 2 ++ onePassOf 10

theorem machines_are_not_oversubscribed_claimed : ∃ e,
    Run poolStep (fun _ _ => True) (PoolRun.start smallPool) e ∧
      e.rest.state.db.held 0 = 1 ∧
      ∀ m ∈ e.rest.state.db.machines, (e.rest.state.db.boundTo m.id).length ≤ m.slots := by
  have hrun : (runAll poolStep (fun _ _ => true) (PoolRun.start smallPool) firstJob).any
      (fun e => e.rest.state.db.held 0 = 1) = true := by
    decide +kernel
  obtain ⟨e, he, hheld⟩ := exists_freeRun hrun
  have hreach := he
  exact ⟨e, hreach, of_decide_eq_true hheld, (machines_are_not_oversubscribed smallPool hreach).1⟩

theorem pool_stays_within_created : ∃ e,
    Run poolStep (fun _ a => keepsSpec a = true) (PoolRun.start smallPool) e ∧
      e.rest.state.db.supply = 1 ∧
      (e.rest.state.db.machines.countP fun m => m.state.isSupply) ≤
        (PoolSpec.fromRow smallPool false).ceiling := by
  have hrun : (runAll poolStep (fun _ a => keepsSpec a) (PoolRun.start smallPool) firstJob).any
      (fun e => e.rest.state.db.supply = 1) = true := by
    decide +kernel
  obtain ⟨e, he, hsupply⟩ := exists_run hrun
  have hreach := he
  exact ⟨e, hreach, of_decide_eq_true hsupply, (pool_stays_within smallPool hreach).1⟩

end Sp00ky.Pool
