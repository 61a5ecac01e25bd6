/-
  The boot breaker of a pool.

  The row counts the boots that have failed since a machine last became ready, and pauses the pool
  at a threshold. A pass reads the count once and writes it back, one higher for each failure of its
  own; `on_ready` clears it with a statement after the one that marks the machine. A pass that began
  before writes the old count over the cleared one (`paused_by_old_failures`). Where the count a
  failure is recorded with is the one of the row, and no `on_ready` is between its two statements,
  the row counts right (`boots_are_counted`).
-/
import Sp00ky.Pool.Fenced

namespace Sp00ky.Pool

open Lib

/-! ## What a pass asks -/

/-- What a pass says of failed boots: a count, with the pause that goes with it. -/
def countsBoots (cfg : PoolEngineConfig) : Statement → Prop
  | .recordBootFailure failures _ untilSecs => untilSecs = cfg.untilSecs failures
  | .resetBootFailures | .markReady _ => False
  | _ => True

section

variable (cfg : PoolEngineConfig)

theorem only_recordBootFailure (b : Breaker) (detail : String) :
    (recordBootFailure cfg b detail).Only (countsBoots cfg) :=
  (only_ask (show countsBoots cfg (.recordBootFailure ..) from rfl)).bind fun _ => trivial

theorem only_checkMachine (b : Breaker) (m : MachineView) :
    (checkMachine cfg b m).Only (countsBoots cfg) := by
  unfold checkMachine
  split
  next => trivial
  next =>
    refine only_andThen (only_attempt trivial) fun (moved : Bool) => ?_
    exact only_ite (only_ite ((only_recordBootFailure cfg b _).bind fun _ => trivial) trivial) trivial

theorem only_claimJobs (leaseSecs : Nat) (jobs : List JobId) (slots : List MachineId)
    (occ : Occupancy) (assigned : Nat) :
    (claimJobs leaseSecs jobs slots occ assigned).Only (countsBoots cfg) := by
  induction jobs generalizing slots occ assigned with
  | nil => trivial
  | cons job jobs ih =>
    cases slots with
    | nil => trivial
    | cons machine slots =>
      exact only_andThen (only_attempt trivial) fun (claimed : Bool) =>
        only_ite (ih slots _ _) (ih (machine :: slots) _ _)

variable (spec : PoolSpec) (machines : List MachineView)

theorem only_assign (occ : Occupancy) :
    (assign spec machines occ).Only (countsBoots cfg) := by
  refine only_ite trivial (only_andThen (only_attempt trivial) fun jobs => ?_)
  refine only_andThen (only_claimJobs cfg _ _ _ _ _) fun p => only_ite (Prog.Only.bind ?_ fun _ => ?_) ?_
  · exact Prog.Only.each fun entry _ => (only_ask trivial).bind fun _ => trivial
  · trivial
  · trivial

theorem only_assignQueued (occ : Occupancy) :
    (assignQueued spec machines occ).Only (countsBoots cfg) :=
  only_andThen (only_attempt trivial) fun _ =>
    only_ite (only_andThen (only_assign cfg _ _ _) fun _ => trivial) trivial

theorem only_ensureCreated (id : MachineId) : (ensureCreated id).Only (countsBoots cfg) :=
  only_andThen (only_attempt trivial) fun _ => only_andThen (only_attempt trivial) fun _ =>
    only_andThen (only_attempt trivial) fun _ => trivial

theorem only_createMachine : (createMachine spec).Only (countsBoots cfg) := by
  refine only_andThen (only_attempt trivial) fun id => (only_ensureCreated cfg id).bind fun made => ?_
  cases made with
  | some => trivial
  | none => exact (only_ask trivial).bind fun _ => trivial

theorem only_createMachines (n : Nat) (b : Breaker) :
    (createMachines cfg spec n b).Only (countsBoots cfg) := by
  induction n generalizing b with
  | zero => trivial
  | succ n ih =>
    refine (only_createMachine cfg spec).bind fun made => ?_
    cases made with
    | some => exact ih b
    | none =>
      exact (only_recordBootFailure cfg b _).bind fun b' => only_ite trivial (ih b')

theorem only_scale (occ : Occupancy) (queued : Nat)
    (b : Breaker) : (scale cfg spec machines occ queued b).Only (countsBoots cfg) := by
  refine only_ite (only_ite ?_ (only_ite trivial trivial)) (only_ite ?_ trivial)
  · exact (only_createMachines cfg spec _ b).bind fun _ => trivial
  · refine only_andThen (only_mapAccum (fun surplus m => ?_) _ _) fun _ => trivial
    exact only_ite (only_andThen (only_attempt trivial) fun _ => trivial) trivial

theorem only_ifProvider {p : Call (Option Unit)} (h : p.Only (countsBoots cfg)) :
    (ifProvider cfg p).Only (countsBoots cfg) :=
  only_ite h trivial

theorem only_finishPass (occ : Occupancy) :
    (finishPass cfg machines occ).Only (countsBoots cfg) := by
  refine only_andThen (only_ifProvider cfg (only_andThen (only_forEach (fun m => ?_) _)
    fun _ => trivial)) fun _ => ?_
  · exact only_ite ((only_ensureCreated cfg _).bind fun _ => trivial) trivial
  refine only_andThen (only_forEach (fun m => ?_) _) fun left => ?_
  · exact only_ite (only_andThen (only_attempt trivial) fun _ => trivial) trivial
  refine only_ifProvider cfg (only_andThen (only_forEach (fun m => ?_) _) fun _ => trivial)
  refine only_ite ((only_ask trivial).bind fun reply => ?_) trivial
  cases reply with
  | ok => exact only_attempt trivial
  | error => trivial

theorem only_placeAndScale (b : Breaker)
    (occ : Occupancy) : (placeAndScale cfg spec machines b occ).Only (countsBoots cfg) := by
  refine only_andThen (only_forEach (fun m => ?_) _) fun _ => ?_
  · exact only_ite (only_attempt trivial) (only_ite (only_attempt trivial) trivial)
  refine only_andThen (only_forEach (fun m => ?_) _) fun rolled => ?_
  · exact only_ite (only_andThen (only_attempt trivial) fun _ => trivial) trivial
  refine only_andThen (only_assignQueued cfg _ _ _) fun p => ?_
  exact only_andThen (only_scale cfg _ _ _ _ _) fun left => only_finishPass cfg _ _

theorem only_tickPass (prune : Bool) : (tickPass cfg prune).Only (countsBoots cfg) := by
  refine (only_attempt trivial).bind fun spec => ?_
  cases spec with
  | none => trivial
  | some spec =>
    have hpool : (tickPool cfg spec).Only (countsBoots cfg) := by
      refine only_andThen ?_ fun _ => ?_
      · exact only_andThen (only_attempt trivial) fun _ =>
          only_andThen (only_attempt trivial) fun _ => only_attempt trivial
      refine only_andThen (only_attempt trivial) fun machines => ?_
      refine only_andThen (only_mapAccum (only_checkMachine cfg) _ _) fun p => ?_
      refine only_andThen ?_ fun occ => only_placeAndScale cfg _ _ _ _
      exact only_ite trivial (only_andThen (only_attempt trivial) fun _ => trivial)
    refine hpool.bind fun result => Prog.Only.bind ?_ fun _ => ?_
    · cases result with
      | some => trivial
      | none => exact (only_ask trivial).bind fun _ => trivial
    · exact only_ite ((only_ask trivial).bind fun _ => trivial) trivial

end

theorem countsBoots_of_agent {cfg : PoolEngineConfig} {q : Statement} (h : q.ofAgent) :
    countsBoots cfg q := by
  cases q <;> trivial

/-! ## Clearing the count -/

/-- A machine was marked ready. -/
def movesReady : (q : Statement) → Reply q → Bool
  | .markReady _, reply => isAccepted reply
  | _, _ => false

/-- The call is about to clear the count. -/
def clears : Call Unit → Bool
  | .ask .resetBootFailures _ => true
  | _ => false

/-- A call clears the count right after it marked a machine ready, and at no other time. -/
def BootsInOrder (cfg : PoolEngineConfig) : Call Unit → Prop
  | .done _ => True
  | .ask q k => (∀ failures error untilSecs, q = .recordBootFailure failures error untilSecs →
      untilSecs = cfg.untilSecs failures) ∧
      ∀ x, clears (k x) = movesReady q x ∧ BootsInOrder cfg (k x)

theorem clears_of_only {cfg : PoolEngineConfig} {p : Call Unit} (h : p.Only (countsBoots cfg)) :
    clears p = false := by
  cases p with
  | done => rfl
  | ask q k =>
    cases q with
    | resetBootFailures => exact h.1.elim
    | _ => rfl

theorem bootsInOrder_of_only {cfg : PoolEngineConfig} {p : Call Unit}
    (h : p.Only (countsBoots cfg)) : BootsInOrder cfg p := by
  induction p with
  | done => trivial
  | ask q k ih =>
    refine ⟨?_, fun x => ⟨?_, ih x (h.2 x)⟩⟩
    · rintro failures error untilSecs rfl
      exact h.1
    · rw [clears_of_only (h.2 x)]
      cases q with
      | markReady id => exact h.1.elim
      | _ => rfl

theorem bootsInOrder_onReady (cfg : PoolEngineConfig) (id : MachineId) :
    BootsInOrder cfg ((onReady id).bind fun _ => .done ()) := by
  have hfound : ∀ found : Call (Option Bool), found.Only (countsBoots cfg) →
      clears (found.bind fun _ => .done ()) = false ∧
        BootsInOrder cfg (found.bind fun _ => .done ()) := by
    intro found h
    have honly : (found.bind fun _ => Prog.done ()).Only (countsBoots cfg) := h.bind fun _ => trivial
    exact ⟨clears_of_only honly, bootsInOrder_of_only honly⟩
  refine ⟨nofun, fun reply => ?_⟩
  cases reply with
  | error fault => exact hfound (.done none) trivial
  | ok moved =>
    cases (show Bool from moved) with
    | false =>
      exact hfound (andThen (poolOfMachine id) fun found => .done (some (found.any fun p =>
        p.1 = .ready || p.1 = .draining))) (only_andThen ((only_poolOfMachine id).mono fun _ =>
          countsBoots_of_agent) fun _ => trivial)
    | true => exact ⟨rfl, nofun, fun _ => ⟨rfl, trivial⟩⟩

/-- Each call clears the count in order, those of other engines too, if a pass has this engine's
configuration. -/
theorem bootsInOrder_program {cfg : PoolEngineConfig} {c : Invocation}
    (h : ∀ cfg' prune, c = .tickPass cfg' prune → cfg' = cfg) : BootsInOrder cfg c.program := by
  cases c with
  | tickPass cfg' prune =>
    obtain rfl := h cfg' prune rfl
    exact bootsInOrder_of_only (only_tickPass cfg' prune)
  | onReady machine => exact bootsInOrder_onReady cfg machine
  | onPoll req =>
    exact bootsInOrder_of_only (((only_onPoll req).mono fun _ => countsBoots_of_agent).bind
      fun _ => trivial)
  | onResult cfg' attempt_ outcome =>
    exact bootsInOrder_of_only (((only_onResult cfg' attempt_ outcome).mono fun _ =>
      countsBoots_of_agent).bind fun _ => trivial)
  | retryJob job | killJob job =>
    exact bootsInOrder_of_only ((only_attempt trivial).bind fun _ => trivial)

/-! ## The invariant -/

/-- It asks the provider, not the database. -/
def Statement.asksProvider : Statement → Bool
  | .providerCreate _ | .providerDestroy _ => true
  | _ => false

/-- The sweeps of one engine, agents and operators, where no call dies between two statements and
no statement of the database fails. -/
def bootEvent (cfg : PoolEngineConfig) (e : Engines) : EngineEvent → Bool
  | .call (.tickPass cfg' _) => cfg' = cfg
  | .call _ | .env _ => true
  | .die _ => false
  | .next i =>
    match e.calls[i]? with
    | some (.ask q _) => e.state.fault.isNone || q.asksProvider
    | _ => true

/-- No `on_ready` is between its two statements. -/
def Engines.settled (e : Engines) : Bool := e.calls.all fun p => !clears p

/-- A failure is recorded as one more than the row counts, while no `on_ready` is between its two
statements. -/
def countsOn (e : Engines) : EngineEvent → Bool
  | .next i =>
    match e.calls[i]? with
    | some (.ask (.recordBootFailure failures _ _) _) =>
      failures = e.state.db.pool.bootFailures.getD 0 + 1 && e.settled
    | _ => true
  | _ => true

/-- The count of the row against the failures there were. -/
structure Counted (cfg : PoolEngineConfig) (e : Engines) : Prop where
  calls : ∀ p ∈ e.calls, BootsInOrder cfg p
  right : e.settled = true → e.state.db.pool.bootFailures.getD 0 = e.state.db.failedBoots ∧
    (e.state.db.pool.breakerUntil.isSome = true → cfg.breakerThreshold ≤ e.state.db.failedBoots)
  nonneg : 0 ≤ e.state.db.pool.bootFailures.getD 0
  cleared : e.settled = false → e.state.db.failedBoots = 0

/-- What is known of the count, of a database. -/
structure SameBoots (s t : Db) : Prop where
  failures : t.pool.bootFailures = s.pool.bootFailures
  breaker : t.pool.breakerUntil = s.pool.breakerUntil
  failed : t.failedBoots = s.failedBoots

/-- Statements that are not about boots leave the count. -/
theorem sameBoots_exec (s : Db) {cfg : PoolEngineConfig} {q : Statement} (h : countsBoots cfg q)
    (hq : ∀ failures error untilSecs, q ≠ .recordBootFailure failures error untilSecs) :
    SameBoots s (s.exec q).1 := by
  cases q with
  | resetBootFailures | markReady id => exact h.elim
  | recordBootFailure failures error untilSecs => exact absurd rfl (hq failures error untilSecs)
  | _ => exact ⟨rfl, rfl, rfl⟩

theorem sameBoots_world (w : World) {cfg : PoolEngineConfig} {q : Statement} (h : countsBoots cfg q)
    (hq : ∀ failures error untilSecs, q ≠ .recordBootFailure failures error untilSecs) :
    SameBoots w.db (w.exec q).1.db := by
  rcases w.exec_db q with hdb | hdb <;> rw [hdb]
  · exact sameBoots_exec w.db h hq
  · exact ⟨rfl, rfl, rfl⟩

theorem not_settled_of_mem {e : Engines} {p : Call Unit} (hp : p ∈ e.calls) (h : clears p = true) :
    e.settled = false := by
  simp only [Engines.settled, List.all_eq_false]
  exact ⟨p, hp, by simp [h]⟩

/-- The pause is only set from the threshold on. -/
theorem threshold_le_of_untilSecs {cfg : PoolEngineConfig} {failures : Int}
    (h : 0 < cfg.untilSecs failures) : cfg.breakerThreshold ≤ failures := by
  unfold PoolEngineConfig.untilSecs at h
  dsimp only at h
  split at h <;> omega

/-- The other calls after one has gone on. -/
theorem settled_set {e : Engines} {i : Nat} {p p' : Call Unit} {w : World}
    (hi : e.calls[i]? = some p) (hp : clears p = clears p') :
    Engines.settled ⟨w, e.calls.set i p'⟩ = e.settled := by
  obtain ⟨hlt, rfl⟩ := List.getElem?_eq_some_iff.mp hi
  have hmap : (e.calls.set i p').map clears = e.calls.map clears := by
    rw [List.map_set, ← hp, ← List.getElem_map clears (h := by simpa using hlt), List.set_getElem_self]
  have hall : ∀ l : List (Call Unit), (l.all fun p => !clears p) = (l.map clears).all fun b => !b :=
    fun l => by rw [List.all_map]; rfl
  unfold Engines.settled
  rw [hall, hall, hmap]

theorem settled_eraseIdx {e : Engines} {i : Nat} {w : World}
    (hi : e.calls[i]? = some (.done ())) : Engines.settled ⟨w, e.calls.eraseIdx i⟩ = e.settled := by
  have hall : ∀ (l : List (Call Unit)) (i : Nat), l[i]? = some (.done ()) →
      ((l.eraseIdx i).all fun p => !clears p) = l.all fun p => !clears p := by
    intro l
    induction l with
    | nil => exact fun _ _ => rfl
    | cons p l ih =>
      intro i hi
      cases i with
      | zero =>
        obtain rfl := Option.some.inj hi
        rfl
      | succ i => exact congrArg (!clears p && ·) (ih i hi)
  exact hall e.calls i hi

theorem clears_program (c : Invocation) : clears c.program = false := by
  cases c with
  | onResult cfg attempt_ outcome => cases outcome <;> rfl
  | _ => rfl

namespace Counted

variable {cfg : PoolEngineConfig} {e : Engines}

/-- A step that changes nothing about the boots. -/
theorem same (h : Counted cfg e) {e' : Engines} (hcalls : ∀ p ∈ e'.calls, BootsInOrder cfg p)
    (hsettled : e'.settled = e.settled) (hdb : SameBoots e.state.db e'.state.db) :
    Counted cfg e' where
  calls := hcalls
  right hs := by
    rw [hdb.failures, hdb.breaker, hdb.failed]
    exact h.right (hsettled ▸ hs)
  nonneg := by
    rw [hdb.failures]
    exact h.nonneg
  cleared hs := by
    rw [hdb.failed]
    exact h.cleared (hsettled ▸ hs)

/-- A call goes on after its statement. -/
theorem next (h : Counted cfg e) {i : Nat} {q : Statement} {k : Reply q → Call Unit}
    (hi : e.calls[i]? = some (.ask q k)) (hok : bootEvent cfg e (.next i) = true)
    (hcount : countsOn e (.next i) = true) :
    Counted cfg ⟨(e.state.exec q).1, e.calls.set i (k (e.state.exec q).2)⟩ := by
  obtain ⟨hpause, horder⟩ := h.calls _ (List.mem_of_getElem? hi)
  have hcalls : ∀ p ∈ e.calls.set i (k (e.state.exec q).2), BootsInOrder cfg p := by
    intro p hp
    rcases List.mem_or_eq_of_mem_set hp with hp | rfl
    · exact h.calls p hp
    · exact (horder _).2
  have hfault : q.asksProvider = false → e.state.fault = none := by
    intro hq
    simpa only [bootEvent, hi, hq, Bool.or_false, Option.isNone_iff_eq_none] using hok
  have hsame : countsBoots cfg q → (∀ failures error untilSecs,
      q ≠ .recordBootFailure failures error untilSecs) → clears (.ask q k) = false →
      movesReady q (e.state.exec q).2 = false →
      Counted cfg ⟨(e.state.exec q).1, e.calls.set i (k (e.state.exec q).2)⟩ := by
    intro hq hrecord hclears hmoves
    refine h.same hcalls (settled_set hi ?_) (sameBoots_world e.state hq hrecord)
    rw [hclears, (horder _).1, hmoves]
  cases q with
  | resetBootFailures =>
    have hzero : e.state.db.failedBoots = 0 :=
      h.cleared (not_settled_of_mem (List.mem_of_getElem? hi) rfl)
    have hdb : (e.state.exec .resetBootFailures).1.db = (e.state.db.exec .resetBootFailures).1 := by
      simp only [World.exec, hfault rfl]
    have hcleared : (e.state.db.exec .resetBootFailures).1.pool.bootFailures.getD 0 = 0 ∧
        (e.state.db.exec .resetBootFailures).1.pool.breakerUntil = none ∧
        (e.state.db.exec .resetBootFailures).1.failedBoots = e.state.db.failedBoots := by
      have hnonneg := h.nonneg
      simp only [Db.exec]
      split
      next => exact ⟨rfl, rfl, rfl⟩
      next hnot =>
        obtain ⟨hle, hnone⟩ := not_or.mp hnot
        exact ⟨by omega, by simpa using hnone, rfl⟩
    obtain ⟨hcount, hpause', hfailed⟩ := hcleared
    refine ⟨hcalls, fun _ => ?_, ?_, fun _ => ?_⟩ <;> dsimp only <;> rw [hdb]
    · rw [hcount, hpause', hfailed, hzero]
      exact ⟨rfl, fun h => by cases h⟩
    · rw [hcount]
    · rw [hfailed, hzero]
  | markReady id =>
    have hexec : e.state.exec (.markReady id) =
        ({ e.state with db := (e.state.db.exec (.markReady id)).1 },
          .ok (e.state.db.exec (.markReady id)).2) := by
      simp only [World.exec, hfault rfl]
    cases hmoved : (show Bool from (e.state.db.exec (.markReady id)).2) with
    | true =>
      have hmoves : movesReady (.markReady id) (e.state.exec (.markReady id)).2 = true := by
        rw [hexec]
        exact hmoved
      have hopen : Engines.settled ⟨(e.state.exec (.markReady id)).1,
          e.calls.set i (k (e.state.exec (.markReady id)).2)⟩ = false :=
        not_settled_of_mem (List.mem_set (List.getElem?_eq_some_iff.mp hi).1 _)
          ((horder _).1.trans hmoves)
      refine ⟨hcalls, fun hs => ?_, ?_, fun _ => ?_⟩
      · rw [hopen] at hs
        cases hs
      · rw [hexec]
        exact h.nonneg
      · rw [hexec]
        exact if_pos hmoved
    | false =>
      have hmoves : movesReady (.markReady id) (e.state.exec (.markReady id)).2 = false := by
        rw [hexec]
        exact hmoved
      refine h.same hcalls (settled_set hi ?_) ?_
      · exact ((horder _).1.trans hmoves).symm
      · rw [hexec]
        exact ⟨rfl, rfl, if_neg (Bool.eq_false_iff.mp hmoved)⟩
  | recordBootFailure failures error untilSecs =>
    simp only [countsOn, hi, Bool.and_eq_true, decide_eq_true_eq] at hcount
    obtain ⟨hone, hsettled⟩ := hcount
    obtain ⟨hright, _⟩ := h.right hsettled
    have hset := @settled_set e i _ (k (e.state.exec (.recordBootFailure failures error untilSecs)).2)
      (e.state.exec (.recordBootFailure failures error untilSecs)).1 hi ((horder _).1.trans rfl).symm
    have hdb : (e.state.exec (.recordBootFailure failures error untilSecs)).1.db =
        (e.state.db.exec (.recordBootFailure failures error untilSecs)).1 := by
      simp only [World.exec, hfault rfl]
    refine ⟨hcalls, fun _ => ?_, ?_, fun hs => ?_⟩
    · dsimp only
      rw [hdb]
      refine ⟨hone.trans (by rw [hright]; rfl), fun hpaused => ?_⟩
      have huntil : 0 < untilSecs := by
        by_contra hnot
        simp only [Db.exec, if_neg hnot] at hpaused
        cases hpaused
      have hthreshold := threshold_le_of_untilSecs (hpause _ _ _ rfl ▸ huntil)
      rw [hone, hright] at hthreshold
      exact hthreshold
    · dsimp only
      rw [hdb]
      have hnonneg := h.nonneg
      simp only [Db.exec, Option.getD_some]
      omega
    · rw [hset, hsettled] at hs
      cases hs
  | _ => exact hsame trivial (by simp) rfl rfl

theorem step (h : Counted cfg e) {e' : Engines} {a : EngineEvent} (hok : bootEvent cfg e a = true)
    (hcount : countsOn e a = true) (hstep : engineStep e a = some e') : Counted cfg e' := by
  cases a with
  | call c =>
    cases hstep
    have hprogram : BootsInOrder cfg c.program := by
      refine bootsInOrder_program fun cfg' prune hc => ?_
      subst hc
      exact of_decide_eq_true hok
    refine h.same (fun p hp => ?_) ?_ ⟨rfl, rfl, rfl⟩
    · rcases List.mem_append.mp hp with hp | hp
      · exact h.calls p hp
      · rw [List.mem_singleton.mp hp]
        exact hprogram
    · simp [Engines.settled, clears_program]
  | next i =>
    simp only [engineStep, Calls.step] at hstep
    split at hstep
    next => cases hstep
    next hi =>
      cases hstep
      refine h.same (fun p hp => h.calls p ((List.eraseIdx_sublist _ _).subset hp)) ?_
        ⟨rfl, rfl, rfl⟩
      exact settled_eraseIdx hi
    next q k hi =>
      cases hstep
      exact h.next hi hok hcount
  | die i => cases hok
  | env event =>
    cases hstep
    refine h.same h.calls rfl ?_
    cases event with
    | db event => cases event <;> exact ⟨rfl, rfl, rfl⟩
    | fault fault => exact ⟨rfl, rfl, rfl⟩

end Counted

/-! ## Whole runs -/

theorem Counted.start (cfg : PoolEngineConfig) (row : PoolRow) :
    Counted cfg (Engines.start row.deployed) where
  calls _ hp := absurd hp List.not_mem_nil
  right _ := ⟨rfl, nofun⟩
  nonneg := le_refl _
  cleared := nofun

/-- In a run in which each failure is recorded as one more than the row counts, and none between
the two statements of an `on_ready`: whenever no `on_ready` is between them (in particular, when
no call is in progress) the row counts the boots that failed since a machine became ready, and it
is paused only if these reached the threshold. -/
theorem boots_are_counted (cfg : PoolEngineConfig) (row : PoolRow) {e : Engines}
    (h : Run engineStep (fun e a => bootEvent cfg e a = true ∧ countsOn e a = true)
      (Engines.start row.deployed) e) (hsettled : e.settled = true) :
    e.state.db.pool.bootFailures.getD 0 = e.state.db.failedBoots ∧
      (e.state.db.pool.breakerUntil.isSome = true → cfg.breakerThreshold ≤ e.state.db.failedBoots) :=
  (h.invariant (P := Counted cfg) (Counted.start cfg row)
    fun _ _ _ hcounted hok hstep => hcounted.step hok.1 hok.2 hstep).right hsettled

/-- A pool of two machines. -/
def pairPool : PoolRow := { smallPool with min := some 2 }

/-- The provider fails the next call, between so many statements of a pass. -/
def failedCreate (before after : Nat) : List EngineEvent :=
  List.replicate before (.next 0 : EngineEvent) ++ (.env (.fault (some ⟨false, false⟩)) : EngineEvent) :: .next 0 ::
    .env (.fault none) :: List.replicate after (.next 0)

/-- Two passes fail to create the second machine. The third reads the count of two; then the first
machine becomes ready, and the pass fails to create another. -/
def staleCount : List EngineEvent :=
  (.call (.tickPass defaultConfig false) : EngineEvent) :: failedCreate 11 3 ++
    (.call (.tickPass defaultConfig false) : EngineEvent) :: failedCreate 7 5 ++
    (.call (.tickPass defaultConfig false) : EngineEvent) :: .next 0 :: .call (.onReady 0) ::
      List.replicate 3 (.next 1) ++ failedCreate 7 5

theorem paused_by_old_failures : ∃ e,
    Run engineStep (fun e a => bootEvent defaultConfig e a = true)
      (Engines.start pairPool.deployed) e ∧ e.calls.isEmpty = true ∧
      e.state.db.pool.bootFailures.getD 0 ≠ e.state.db.failedBoots ∧
      e.state.db.pool.breakerUntil.isSome = true ∧
      (e.state.db.failedBoots : Int) < defaultConfig.breakerThreshold := by
  have hrun : (runAll engineStep (bootEvent defaultConfig) (Engines.start pairPool.deployed)
      staleCount).any (fun e => e.calls.isEmpty ∧
        e.state.db.pool.bootFailures.getD 0 ≠ e.state.db.failedBoots ∧
        e.state.db.pool.breakerUntil.isSome = true ∧
        (e.state.db.failedBoots : Int) < defaultConfig.breakerThreshold) = true := by
    decide +kernel
  obtain ⟨e, he, hover⟩ := exists_run hrun
  exact ⟨e, he, of_decide_eq_true hover⟩

theorem boots_are_counted_failed : ∃ e, Run engineStep
    (fun e a => bootEvent defaultConfig e a = true ∧ countsOn e a = true)
      (Engines.start pairPool.deployed) e ∧ e.state.db.failedBoots = 1 ∧
      e.state.db.pool.bootFailures.getD 0 = e.state.db.failedBoots := by
  have hrun : (runAll engineStep (fun e a => bootEvent defaultConfig e a && countsOn e a)
      (Engines.start pairPool.deployed) (.call (.tickPass defaultConfig false) :: failedCreate 11 3)).any
        (fun e => e.settled && decide (e.state.db.failedBoots = 1)) = true := by
    decide +kernel
  obtain ⟨e, he, hfailed⟩ := exists_run hrun
  obtain ⟨hsettled, hone⟩ := Bool.and_eq_true_iff.mp hfailed
  have hreach := he.mono fun _ _ h => Bool.and_eq_true_iff.mp h
  exact ⟨e, hreach, of_decide_eq_true hone,
    (boots_are_counted defaultConfig pairPool hreach hsettled).1⟩

end Sp00ky.Pool
