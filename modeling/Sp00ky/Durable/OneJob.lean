/-
  An active instance has a job that can run it.

  Every token of an active instance is the token of a job, and what is written on that job is
  never a success: a 200 that reaches the runner in time says that the instance ended, or that its
  token was replaced. What can take the job away is its own retry budget. A `busy` answer spends
  it like any failure, so an event whose job finds a long run going on can be left without one
  (`outbox_gives_up`).

  One answer is not of this kind. A run is also told that it is fenced when another run took its
  lease over with the same token, which is a success for the runner; `Timely` keeps it out where
  the row of the job has not been claimed again.
-/
import Sp00ky.Durable.Outbox

namespace Sp00ky.Durable

open Lib

namespace Tables

/-- The token is the one of the instance, and the instance is active. -/
def current (s : Tables) (wake : Token) : Bool :=
  s.inst.any fun i => i.status.active && decide (i.wake = wake)

/-- A run that finds itself fenced has lost its token, or its job to a later attempt. -/
def Timely (s : Tables) : Event → Prop
  | .renewLease a epoch _ | .saveStep a epoch | .finish a epoch _ =>
    s.fence epoch = none → s.holds a = true → s.current a.wake = false
  | _ => True

instance (s : Tables) (e : Event) : Decidable (s.Timely e) :=
  match e with
  | .renewLease _ _ _ | .saveStep _ _ | .finish _ _ _ =>
    inferInstanceAs (Decidable (_ → _ → _))
  | .create _ | .sendEvent _ | .terminate _ | .restart _ | .tick _ | .pickUp _ | .reclaim _
  | .resume _ _ | .storeFailure _ _ | .answer _ _ _ | .lose _ _ | .die _ => isTrue trivial

end Tables

/-- A job that can run the instance, or that was given up after all its attempts. -/
def Job.CanRun (j : Job) : Prop :=
  j.status = .pending ∨ j.status = .processing ∨ j.status = .failed ∧ maxRetries ≤ j.losses

instance (j : Job) : Decidable j.CanRun := inferInstanceAs (Decidable (_ ∨ _ ∨ _ ∧ _))

/-! ## What a call knows -/

/-- The jobs a table knows do not go back, and no token becomes current again. -/
structure Ahead (s t : Tables) : Prop where
  jobs : ∀ wake j, EntryMap.get s.jobs wake = some j → ∃ j', EntryMap.get t.jobs wake = some j' ∧
    j.leaseEpoch ≤ j'.leaseEpoch ∧ j.losses ≤ j'.losses
  current : ∀ wake j, EntryMap.get s.jobs wake = some j → t.current wake = true →
    s.current wake = true

/-- The job of an attempt, with what is known of it. -/
def JobWith (s : Tables) (wake : Token) (p : Job → Prop) : Prop :=
  ∃ j, EntryMap.get s.jobs wake = some j ∧ p j

/-- A success of the attempt cannot be the success of the job that is to run the instance. -/
def Spent (s : Tables) (a : Attempt) : Prop :=
  JobWith s a.wake fun j => s.current a.wake = true → a.epoch < j.leaseEpoch

def Call.Fits (s : Tables) : Call → Prop
  | .queued wake retries => JobWith s wake fun j => retries ≤ j.losses
  | .awaiting a | .requested a | .running a _ | .answered a false =>
    JobWith s a.wake fun j => a.epoch ≤ j.leaseEpoch ∧ a.retries ≤ j.losses
  | .retrying a => JobWith s a.wake fun j => a.retries ≤ j.losses
  | .givingUp a => JobWith s a.wake fun j => maxRetries ≤ j.losses
  | .answered a true | .completing a => Spent s a

theorem JobWith.mono {s : Tables} {wake : Token} {p q : Job → Prop} (h : JobWith s wake p)
    (hpq : ∀ j, p j → q j) : JobWith s wake q := by
  obtain ⟨j, hj, hp⟩ := h
  exact ⟨j, hj, hpq j hp⟩

section

variable {s t : Tables}

/-- What is known of a job only by its epoch and its losses stays known. -/
theorem Ahead.jobWith (h : Ahead s t) {wake : Token} {p q : Job → Prop} (hj : JobWith s wake p)
    (hpq : ∀ j j', j.leaseEpoch ≤ j'.leaseEpoch → j.losses ≤ j'.losses → p j → q j') :
    JobWith t wake q := by
  obtain ⟨j, hj, hp⟩ := hj
  obtain ⟨j', hj', he, hl⟩ := h.jobs wake j hj
  exact ⟨j', hj', hpq j j' he hl hp⟩

theorem Ahead.spent (h : Ahead s t) {a : Attempt} (hs : Spent s a) : Spent t a := by
  obtain ⟨j, hj, hp⟩ := hs
  obtain ⟨j', hj', he, -⟩ := h.jobs _ j hj
  exact ⟨j', hj', fun hcur => Nat.lt_of_lt_of_le (hp (h.current _ j hj hcur)) he⟩

theorem Ahead.fits (h : Ahead s t) {c : Call} (hc : c.Fits s) : c.Fits t := by
  cases c with
  | queued wake retries | retrying a
  | givingUp a => exact h.jobWith hc fun _ _ _ hl hp => Nat.le_trans hp hl
  | awaiting a | requested a | running a epoch =>
    exact h.jobWith hc fun _ _ he hl hp => ⟨Nat.le_trans hp.1 he, Nat.le_trans hp.2 hl⟩
  | answered a ok =>
    cases ok with
    | true => exact h.spent hc
    | false => exact h.jobWith hc fun _ _ he hl hp => ⟨Nat.le_trans hp.1 he, Nat.le_trans hp.2 hl⟩
  | completing a => exact h.spent hc

end

/-! ## The invariant -/

/-- A job's count does not pass its failed attempts, and it fails after all of them. -/
structure Job.Sound (j : Job) : Prop where
  retries : j.retries ≤ j.losses
  failed : j.status = .failed → maxRetries ≤ j.losses

structure Kept (s : Tables) : Prop where
  calls : ∀ c ∈ s.calls, c.Fits s
  jobs : ∀ wake j, EntryMap.get s.jobs wake = some j → j.Sound
  current : ∀ wake, s.current wake = true → JobWith s wake fun j => j.status ≠ .success

namespace Kept

variable {s t : Tables}

theorem start : Kept Tables.start :=
  ⟨fun _ hc => (by cases hc), fun _ _ hj => (by cases hj), fun _ hc => (by cases hc)⟩

theorem drop (h : Kept s) (call : Call) : Kept (s.drop call) :=
  ⟨fun c hc => h.calls c (List.mem_of_mem_erase hc), h.jobs, h.current⟩

theorem spawn (h : Kept s) {calls : List Call} (hc : ∀ c ∈ calls, c.Fits s) :
    Kept (s.spawn calls) :=
  ⟨fun c hmem => (List.mem_append.mp hmem).elim (h.calls c) (hc c), h.jobs, h.current⟩

theorem spawn_one (h : Kept s) {call : Call} (hc : call.Fits s) : Kept (s.spawn [call]) :=
  h.spawn fun _ hmem => (List.mem_singleton.mp hmem) ▸ hc

/-! ### The instance -/

variable {i : Instance}

theorem ahead_inst (hi : i.status.active = true → s.current i.wake = true) :
    Ahead s { s with inst := some i } := by
  refine ⟨fun _ j hj => ⟨j, hj, Nat.le_refl _, Nat.le_refl _⟩, fun wake j _ hcur => ?_⟩
  obtain ⟨hactive, rfl⟩ : i.status.active = true ∧ i.wake = wake := by
    simpa [Tables.current] using hcur
  exact hi hactive

/-- A change of the instance that leaves its token, or ends it. -/
theorem inst (h : Kept s)
    (hi : i.status.active = true → s.current i.wake = true) : Kept { s with inst := some i } where
  calls c hc := (ahead_inst hi).fits (h.calls c hc)
  jobs := h.jobs
  current wake hcur := by
    obtain ⟨hactive, rfl⟩ : i.status.active = true ∧ i.wake = wake := by
      simpa [Tables.current] using hcur
    exact h.current _ (hi hactive)

variable {wake : Token} {delay leaseMs : Nat}

/-- What the next job's transaction leaves: a token is current only with its new job. -/
theorem createJob_spec (ht : s.createJob wake delay i = some t) :
    EntryMap.get s.jobs wake = none ∧
      t = { s with
        inst := some i, jobs := EntryMap.set s.jobs wake ⟨delay, .pending, 0, 0, 0⟩ } := by
  unfold Tables.createJob at ht
  split at ht
  next => cases ht
  next hnone =>
    cases ht
    exact ⟨hnone, rfl⟩

theorem ahead_createJob (ht : s.createJob i.wake delay i = some t) : Ahead s t := by
  obtain ⟨hnone, rfl⟩ := createJob_spec ht
  have hother : ∀ wake j, EntryMap.get s.jobs wake = some j → wake ≠ i.wake := by
    rintro wake j hj rfl
    rw [hnone] at hj
    cases hj
  refine ⟨fun wake j hj => ⟨j, ?_, Nat.le_refl _, Nat.le_refl _⟩, fun wake j hj hcur => ?_⟩
  · rw [EntryMap.get_set, if_neg (hother wake j hj), hj]
  · obtain ⟨-, rfl⟩ : i.status.active = true ∧ i.wake = wake := by
      simpa [Tables.current] using hcur
    exact absurd rfl (hother _ j hj)

theorem createJob (h : Kept s)
    (ht : s.createJob wake delay i = some t) (hw : i.wake = wake) : Kept t := by
  subst hw
  have hahead := ahead_createJob ht
  obtain ⟨hnone, rfl⟩ := createJob_spec ht
  refine ⟨fun c hc => hahead.fits (h.calls c hc), fun wake j hj => ?_, fun wake hcur => ?_⟩
  · rw [EntryMap.get_set] at hj
    split at hj
    · cases hj
      exact ⟨Nat.le_refl _, fun hf => (by cases hf)⟩
    · exact h.jobs wake j hj
  · obtain ⟨-, rfl⟩ : i.status.active = true ∧ i.wake = wake := by
      simpa [Tables.current] using hcur
    exact ⟨_, by rw [EntryMap.get_set, if_pos rfl], by simp⟩

/-! ### The jobs -/

/-- A change of a row that goes forward, and is no success while the token is current. -/
structure Forward (s : Tables) (wake : Token) (j j' : Job) : Prop where
  epoch : j.leaseEpoch ≤ j'.leaseEpoch
  losses : j.losses ≤ j'.losses
  sound : j'.Sound
  success : s.current wake = true → j'.status ≠ .success

theorem current_onJob (s : Tables) (wake : Token) (change : Job → Job) (w : Token) :
    (s.onJob wake change).current w = s.current w := by
  unfold Tables.onJob
  split <;> rfl

theorem calls_onJob (s : Tables) (wake : Token) (change : Job → Job) :
    (s.onJob wake change).calls = s.calls := by
  unfold Tables.onJob
  split <;> rfl

theorem get_onJob (s : Tables) (wake : Token) (change : Job → Job) (w : Token) :
    EntryMap.get (s.onJob wake change).jobs w =
      if w = wake then (EntryMap.get s.jobs wake).map change else EntryMap.get s.jobs w := by
  unfold Tables.onJob
  split
  next j hj =>
    rw [EntryMap.get_set, hj]
    rfl
  next hnone =>
    rw [hnone]
    split
    next hw => rw [hw, hnone]; rfl
    next => rfl

variable {change : Job → Job}

theorem ahead_onJob (hf : ∀ j, EntryMap.get s.jobs wake = some j → Forward s wake j (change j)) :
    Ahead s (s.onJob wake change) := by
  refine ⟨fun w j hj => ?_, fun w j _ hcur => by rwa [current_onJob] at hcur⟩
  rw [get_onJob]
  split
  next hw =>
    subst hw
    rw [hj]
    exact ⟨_, rfl, (hf j hj).epoch, (hf j hj).losses⟩
  next => exact ⟨j, hj, Nat.le_refl _, Nat.le_refl _⟩

theorem onJob (h : Kept s)
    (hf : ∀ j, EntryMap.get s.jobs wake = some j → Forward s wake j (change j)) :
    Kept (s.onJob wake change) where
  calls c hc := (ahead_onJob hf).fits (h.calls c (by rwa [calls_onJob] at hc))
  jobs w j hj := by
    rw [get_onJob] at hj
    split at hj
    · obtain ⟨j', hj', rfl⟩ := Option.map_eq_some_iff.mp hj
      exact (hf j' hj').sound
    · exact h.jobs w j hj
  current w hcur := by
    rw [current_onJob] at hcur
    obtain ⟨j, hj, hs⟩ := h.current w hcur
    unfold JobWith
    rw [get_onJob]
    split
    next hw =>
      subst hw
      rw [hj]
      exact ⟨_, rfl, (hf j hj).success hcur⟩
    next => exact ⟨j, hj, hs⟩

/-- A row stays as it is. -/
theorem forward_refl (h : Kept s) {j : Job}
    (hj : EntryMap.get s.jobs wake = some j) : Forward s wake j j := by
  refine ⟨Nat.le_refl _, Nat.le_refl _, h.jobs wake j hj, fun hcur => ?_⟩
  obtain ⟨j', hj', hs⟩ := h.current wake hcur
  rw [hj] at hj'
  cases hj'
  exact hs

variable {a : Attempt}

theorem fencedWrite (h : Kept s)
    (hf : ∀ j, EntryMap.get s.jobs a.wake = some j → j.leaseEpoch = a.epoch →
      Forward s a.wake j (change j)) : Kept (s.fencedWrite a change) := by
  refine h.onJob fun j hj => ?_
  split
  next he => exact hf j hj he
  next => exact h.forward_refl hj

theorem ahead_fencedWrite (h : Kept s)
    (hf : ∀ j, EntryMap.get s.jobs a.wake = some j → j.leaseEpoch = a.epoch →
      Forward s a.wake j (change j)) : Ahead s (s.fencedWrite a change) := by
  refine ahead_onJob fun j hj => ?_
  split
  next he => exact hf j hj he
  next => exact h.forward_refl hj

/-! ### The claim -/

/-- A claim takes the instance by the token it is waiting for. -/
theorem claim_claimed
    (hc : s.claim wake leaseMs = .claimed i) : s.current i.wake = true ∧ i.wake = wake := by
  unfold Tables.claim at hc
  unfold Tables.current
  split at hc
  next => cases hc
  next i' hi =>
    split at hc
    next => cases hc
    next hactive =>
      split at hc
      next => cases hc
      next hwake =>
        split at hc
        next => cases hc
        next =>
          cases hc
          rw [hi]
          exact ⟨by simpa using hactive, Decidable.not_not.mp hwake⟩

/-- A claim that is told to go away has a token that is not current. -/
theorem claim_spent (hc : s.claim wake leaseMs = .gone ∨ s.claim wake leaseMs = .done ∨
      s.claim wake leaseMs = .stale) : s.current wake = false := by
  unfold Tables.claim at hc
  unfold Tables.current
  split at hc
  next hnone => rw [hnone]; rfl
  next i hi =>
    rw [hi]
    split at hc
    next hactive => simp at hactive; simp [hactive]
    next =>
      split at hc
      next hwake => simp [hwake]
      next => split at hc <;> simp at hc

theorem spent_of_not_current {p : Job → Prop} (hj : JobWith s a.wake p)
    (hcur : s.current a.wake = false) : Spent s a :=
  hj.mono fun _ _ h => by rw [hcur] at h; cases h

/-! ## The calls -/

/-- A failed attempt is counted before its job is put back, or given up. -/
theorem handleFailure (h : Kept s) (persisted : Bool)
    (ha : JobWith s a.wake fun j => a.retries ≤ j.losses) :
    Kept (s.handleFailure a persisted) := by
  obtain ⟨j, hj, hr⟩ := ha
  -- the loss is noted
  have hlost : ∀ j, EntryMap.get s.jobs a.wake = some j →
      Forward s a.wake j { j with losses := j.losses + 1 } := by
    intro j hj
    have hrefl := h.forward_refl hj
    exact ⟨Nat.le_refl _, Nat.le_succ _,
      ⟨Nat.le_succ_of_le hrefl.sound.retries, fun hf => Nat.le_succ_of_le (hrefl.sound.failed hf)⟩,
      hrefl.success⟩
  have hmid := h.onJob hlost
  have hmidJob : EntryMap.get (s.onJob a.wake fun j => { j with losses := j.losses + 1 }).jobs
      a.wake = some { j with losses := j.losses + 1 } := by
    rw [get_onJob, if_pos rfl, hj]
    rfl
  -- so the count on the row may follow
  have hcount : ∀ j', EntryMap.get
      (s.onJob a.wake fun j => { j with losses := j.losses + 1 }).jobs a.wake = some j' →
      j'.leaseEpoch = a.epoch →
      Forward (s.onJob a.wake fun j => { j with losses := j.losses + 1 }) a.wake j'
        { j' with retries := j'.retries + 1 } := by
    intro j' hj' _
    have hrefl := hmid.forward_refl hj'
    rw [hmidJob] at hj'
    cases hj'
    exact ⟨Nat.le_refl _, Nat.le_refl _,
      ⟨Nat.succ_le_succ (h.forward_refl hj).sound.retries, hrefl.sound.failed⟩, hrefl.success⟩
  have hknown : JobWith (s.onJob a.wake fun j => { j with losses := j.losses + 1 }) a.wake
      fun j => a.retries + 1 ≤ j.losses := ⟨_, hmidJob, Nat.succ_le_succ hr⟩
  have hspawn : ∀ {t : Tables}, Kept t → (JobWith t a.wake fun j => a.retries + 1 ≤ j.losses) →
      Kept (t.spawn [if a.retries + 1 < maxRetries then .retrying { a with retries := a.retries + 1 }
        else .givingUp { a with retries := a.retries + 1 }]) := by
    intro t ht hjob
    refine ht.spawn_one ?_
    split
    next => exact hjob
    next hmax => exact hjob.mono fun j hle => Nat.le_trans (Nat.not_lt.mp hmax) hle
  unfold Tables.handleFailure
  cases persisted with
  | true =>
    exact hspawn (hmid.fencedWrite hcount)
      ((ahead_fencedWrite hmid hcount).jobWith hknown fun _ _ _ hl hp => Nat.le_trans hp hl)
  | false => exact hspawn hmid hknown

/-- A run that finds itself fenced answers with a success. -/
theorem fenced (h : Kept s) {epoch : Nat} (hcall : .running a epoch ∈ s.calls)
    (hok : s.holds a = true → s.current a.wake = false) :
    Kept ((s.drop (.running a epoch)).spawn [.answered a true]) := by
  refine (h.drop _).spawn_one ?_
  obtain ⟨j, hj, he, -⟩ := h.calls _ hcall
  refine ⟨j, hj, fun hcur => ?_⟩
  rcases Nat.lt_or_eq_of_le he with hlt | heq
  · exact hlt
  · have hholds : s.holds a = true := by
      unfold Tables.holds
      rw [hj]
      exact decide_eq_true heq.symm
    have hno := hok hholds
    have hcur : s.current a.wake = true := hcur
    rw [hno] at hcur
    cases hcur

/-- What the store keeps of a run that ended well is not current any more. -/
theorem finish (h : Kept s) {f : Finish}
    (hjob : JobWith s a.wake fun j => a.epoch ≤ j.leaseEpoch ∧ a.retries ≤ j.losses)
    (ht : s.finish i a.wake f = some t) : Kept (t.spawn [.answered a true]) := by
  obtain ⟨j, hj, -⟩ := hjob
  cases f with
  | complete | errored =>
    cases ht
    exact (h.inst fun hactive => by cases hactive).spawn_one
      ⟨j, hj, fun hcur => by simp [Tables.current, InstanceStatus.active] at hcur⟩
  | suspend delayMs newWake =>
    have hc : s.createJob newWake (if i.wake ≠ a.wake then 0 else delayMs)
        ⟨if 0 < (if i.wake ≠ a.wake then 0 else delayMs) then .waiting else .running, newWake,
          i.leaseEpoch, none⟩ = some t := ht
    have ht' := h.createJob hc rfl
    obtain ⟨hnone, rfl⟩ := createJob_spec hc
    have hne : a.wake ≠ newWake := by
      rintro rfl
      rw [hj] at hnone
      cases hnone
    refine ht'.spawn_one ⟨j, ?_, fun hcur => ?_⟩
    · rw [EntryMap.get_set, if_neg hne, hj]
    · have hwake : newWake = a.wake := by
        simpa [Tables.current] using (Bool.and_eq_true_iff.mp hcur).2
      exact absurd hwake.symm hne

theorem resume (h : Kept s) {call : Call} (hfits : call.Fits s)
    (ht : s.resume leaseMs call = some t) : Kept t := by
  cases call with
  | queued wake retries =>
    simp only [Tables.resume] at ht
    split at ht
    next =>
      cases ht
      exact h
    next j hj =>
      split at ht
      next hpending =>
        cases ht
        have hclaim : ∀ j', EntryMap.get s.jobs wake = some j' → Forward s wake j'
            { j' with status := .processing, leaseEpoch := j'.leaseEpoch + 1 } := by
          intro j' hj'
          have hrefl := h.forward_refl hj'
          exact ⟨Nat.le_succ _, Nat.le_refl _, ⟨hrefl.sound.retries, fun hf => by cases hf⟩,
            fun _ => by simp⟩
        obtain ⟨j', hj', hr⟩ := hfits
        rw [hj] at hj'
        cases hj'
        have hjob : JobWith (s.onJob wake fun j =>
            { j with status := .processing, leaseEpoch := j.leaseEpoch + 1 }) wake
            fun j' => j.leaseEpoch + 1 ≤ j'.leaseEpoch ∧ retries ≤ j'.losses := by
          refine ⟨{ j with status := .processing, leaseEpoch := j.leaseEpoch + 1 }, ?_,
            Nat.le_refl _, hr⟩
          rw [get_onJob, if_pos rfl, hj]
          rfl
        refine (h.onJob hclaim).spawn fun c hc => ?_
        rcases List.mem_cons.mp hc with rfl | hc
        · exact hjob
        · cases List.mem_singleton.mp hc
          exact hjob
      next =>
        cases ht
        exact h
  | awaiting a | running a epoch | answered a ok => cases ht
  | completing a =>
    cases ht
    refine h.fencedWrite fun j hj he => ?_
    obtain ⟨j', hj', hspent⟩ := hfits
    rw [hj] at hj'
    cases hj'
    have hrefl := h.forward_refl hj
    refine ⟨Nat.le_refl _, Nat.le_refl _, ⟨hrefl.sound.retries, fun hf => by cases hf⟩, ?_⟩
    -- the row is the attempt's own, so its token is not current
    intro hcur
    have hlt := hspent hcur
    omega
  | retrying a =>
    have hback : ∀ j, EntryMap.get s.jobs a.wake = some j → j.leaseEpoch = a.epoch →
        Forward s a.wake j { j with status := .pending } := by
      intro j hj _
      have hrefl := h.forward_refl hj
      exact ⟨Nat.le_refl _, Nat.le_refl _, ⟨hrefl.sound.retries, fun hf => by cases hf⟩,
        fun _ => by simp⟩
    have hwritten := h.fencedWrite hback
    simp only [Tables.resume] at ht
    split at ht <;> cases ht
    · exact hwritten.spawn_one ((ahead_fencedWrite h hback).jobWith hfits
        fun _ _ _ hl hp => Nat.le_trans hp hl)
    · exact hwritten
  | givingUp a =>
    cases ht
    refine h.fencedWrite fun j hj _ => ?_
    obtain ⟨j', hj', hmax⟩ := hfits
    rw [hj] at hj'
    cases hj'
    have hrefl := h.forward_refl hj
    exact ⟨Nat.le_refl _, Nat.le_refl _, ⟨hrefl.sound.retries, fun _ => hmax⟩, fun _ => by simp⟩
  | requested a =>
    simp only [Tables.resume] at ht
    split at ht <;> cases ht
    next i hclaim =>
      exact (h.inst fun _ => (claim_claimed hclaim).1).spawn_one hfits
    next hgone => exact h.spawn_one (spent_of_not_current hfits (claim_spent (.inl hgone)))
    next hdone => exact h.spawn_one (spent_of_not_current hfits (claim_spent (.inr (.inl hdone))))
    next hstale =>
      exact h.spawn_one (spent_of_not_current hfits (claim_spent (.inr (.inr hstale))))
    next => exact h.spawn_one hfits

/-! ## Steps -/

theorem step (h : Kept s) {e : Event} (hok : s.Timely e) (ht : s.step e = some t) : Kept t := by
  cases e with
  | create wake =>
    simp only [Tables.step, Tables.create] at ht
    split at ht
    next => cases ht
    next => exact h.createJob ht rfl
  | sendEvent newWake =>
    simp only [Tables.step, Tables.sendEvent] at ht
    split at ht
    next => cases ht
    next =>
      split at ht
      next => exact h.createJob ht rfl
      next =>
        cases ht
        exact h
  | terminate newWake =>
    simp only [Tables.step, Tables.terminate] at ht
    split at ht
    next => cases ht
    next =>
      split at ht <;> cases ht
      next => exact h.inst fun hactive => by cases hactive
      next => exact h
  | restart newWake =>
    simp only [Tables.step, Tables.restart] at ht
    split at ht
    next => cases ht
    next => exact h.createJob ht rfl
  | tick ms =>
    cases ht
    exact ⟨h.calls, h.jobs, h.current⟩
  | pickUp wake =>
    simp only [Tables.step] at ht
    split at ht
    next => cases ht
    next j hj =>
      split at ht <;> cases ht
      exact h.spawn_one ⟨j, hj, (h.jobs wake j hj).retries⟩
  | reclaim wake =>
    cases ht
    refine h.onJob fun j hj => ?_
    have hrefl := h.forward_refl hj
    split
    next => exact ⟨Nat.le_succ _, Nat.le_refl _, ⟨hrefl.sound.retries, fun hf => by cases hf⟩,
      fun _ => by simp⟩
    next => exact hrefl
  | resume call leaseMs =>
    simp only [Tables.step] at ht
    split at ht
    next hcall => exact (h.drop call).resume (h.calls call hcall) ht
    next => cases ht
  | renewLease a epoch leaseMs =>
    simp only [Tables.step] at ht
    split at ht
    next hcall =>
      split at ht <;> cases ht
      next i hi =>
        refine h.inst fun hactive => ?_
        obtain ⟨hi, -⟩ := Option.filter_eq_some_iff.mp hi
        simp [Tables.current, hi, hactive]
      next hnone => exact h.fenced hcall (hok hnone)
    next => cases ht
  | saveStep a epoch =>
    simp only [Tables.step] at ht
    split at ht
    next hcall =>
      split at ht <;> cases ht
      next => exact h
      next hnone => exact h.fenced hcall (hok hnone)
    next => cases ht
  | finish a epoch f =>
    simp only [Tables.step] at ht
    split at ht
    next hcall =>
      have hfits : Call.Fits s (.running a epoch) := h.calls _ hcall
      split at ht
      next i _ =>
        split at ht <;> cases ht
        next hf => exact (h.drop _).finish hfits hf
        next => exact (h.drop _).spawn_one hfits
      next hnone =>
        cases ht
        exact h.fenced hcall (hok hnone)
    next => cases ht
  | storeFailure a epoch =>
    simp only [Tables.step] at ht
    split at ht <;> cases ht
    next hcall =>
      have hfits : Call.Fits s (.running a epoch) := h.calls _ hcall
      exact (h.drop _).spawn_one hfits
  | answer a ok persisted =>
    simp only [Tables.step] at ht
    split at ht
    next hcalls =>
      have hrest := (h.drop (.awaiting a)).drop (.answered a ok)
      cases ok with
      | true =>
        cases ht
        have hspent : Spent s a := h.calls _ hcalls.2
        exact hrest.spawn_one hspent
      | false =>
        cases ht
        have hfits : Call.Fits s (.awaiting a) := h.calls _ hcalls.1
        exact hrest.handleFailure persisted (hfits.mono fun _ hp => hp.2)
    next => cases ht
  | lose a persisted =>
    simp only [Tables.step] at ht
    split at ht <;> cases ht
    next hcall =>
      have hfits : Call.Fits s (.awaiting a) := h.calls _ hcall
      exact (h.drop _).handleFailure persisted (hfits.mono fun _ hp => hp.2)
  | die call =>
    cases ht
    exact h.drop call

end Kept

/-! ## Runs -/

/-- The job of an active instance's token is there and is no success; it has failed only after
all its attempts did. -/
theorem active_instance_has_job (s : Tables)
    (hrun : Run Tables.step Tables.Timely Tables.start s) (i : Instance) (hi : s.inst = some i)
    (hactive : i.status.active = true) :
    ∃ j, EntryMap.get s.jobs i.wake = some j ∧ j.CanRun := by
  have hkept : Kept s := hrun.invariant Kept.start fun _ _ _ h hok hstep => h.step hok hstep
  have hcur : s.current i.wake = true := by simp [Tables.current, hi, hactive]
  obtain ⟨j, hj, hs⟩ := hkept.current _ hcur
  refine ⟨j, hj, ?_⟩
  unfold Job.CanRun
  cases hstatus : j.status with
  | pending => exact .inl rfl
  | processing => exact .inr (.inl rfl)
  | success => exact absurd hstatus hs
  | failed => exact .inr (.inr ⟨rfl, (hkept.jobs _ j hj).failed hstatus⟩)

/-! ## Without a job -/

/-- The run that holds the lease. -/
def longRun : Attempt := ⟨"a", 0, 1⟩

/-- One attempt of the event's job, answered `busy` while the run renews its lease. -/
def busyRound (retries : Nat) : List Event :=
  let a : Attempt := ⟨"b", retries, retries + 1⟩
  let failed : Attempt := { a with retries := retries + 1 }
  [.resume (.queued "b" retries) 0, .resume (.requested a) 30000, .answer a false true,
    .tick 20000, .renewLease longRun 1 30000,
    .resume (if retries + 1 < maxRetries then .retrying failed else .givingUp failed) 0]

/-- A run goes on, and an event replaces its token. -/
def eventMeetsRun : List Event :=
  [.create "a", .pickUp "a", .resume (.queued "a" 0) 0, .resume (.requested longRun) 30000,
    .sendEvent "b", .pickUp "b"]

/-- The run dies; its own job is told that its token is stale. -/
def runDies : List Event :=
  [.die (.running longRun 1), .lose longRun true, .resume (.retrying ⟨"a", 1, 1⟩) 0,
    .resume (.queued "a" 1) 0, .resume (.requested ⟨"a", 1, 2⟩) 30000,
    .answer ⟨"a", 1, 2⟩ true true, .resume (.completing ⟨"a", 1, 2⟩) 0]

/-- The request of an attempt that was given up claims after the lease of the next one has run
out, and dies; the next one is told that it is fenced. -/
def lateClaim : List Event :=
  [.create "a", .pickUp "a", .resume (.queued "a" 0) 0, .lose ⟨"a", 0, 1⟩ true,
    .resume (.retrying ⟨"a", 1, 1⟩) 0, .resume (.queued "a" 1) 0,
    .resume (.requested ⟨"a", 1, 2⟩) 30000, .tick 40000, .resume (.requested ⟨"a", 0, 1⟩) 30000,
    .die (.running ⟨"a", 0, 1⟩ 2), .saveStep ⟨"a", 1, 2⟩ 1, .answer ⟨"a", 1, 2⟩ true true,
    .resume (.completing ⟨"a", 1, 2⟩) 0]

/-- An event's job that is answered `busy` once is put back. -/
theorem active_instance_has_job_busy : ∃ s : Tables,
    Run Tables.step Tables.Timely Tables.start s ∧ s.current "b" = true ∧
    ∃ j, EntryMap.get s.jobs "b" = some j ∧ j.CanRun := by
  have hrun : (runAll Tables.step (fun s e => decide (s.Timely e)) Tables.start
      (eventMeetsRun ++ busyRound 0)).any
        (fun s => s.current "b" && s.inst.any (·.wake = "b")) = true := by decide +kernel
  obtain ⟨s, hs, hall⟩ := exists_run hrun
  have hin : Run Tables.step Tables.Timely Tables.start s :=
    hs.mono fun _ _ => of_decide_eq_true
  obtain ⟨hcur, -⟩ := Bool.and_eq_true_iff.mp hall
  obtain ⟨i, hi, hi'⟩ := (Option.any_eq_true _ _).mp hcur
  obtain ⟨hactive, hwake⟩ := Bool.and_eq_true_iff.mp hi'
  have hjob := active_instance_has_job s hin i hi hactive
  rw [of_decide_eq_true hwake] at hjob
  exact ⟨s, hin, hcur, hjob⟩

/-- An event whose job is answered `busy` until its retries are spent leaves the instance
`running`, with no call going on and no job to come; and a run that is fenced by an older request
of its job ends the job with a success. -/
theorem outbox_gives_up :
    (∃ s : Tables, Run Tables.step Tables.Timely Tables.start s ∧ s.calls = [] ∧
      s.current "b" = true ∧ s.jobs.map (fun e => (e.1, e.2.status)) =
        [("a", .success), ("b", .failed)]) ∧
    (∃ s : Tables, Run Tables.step (fun _ _ => True) Tables.start s ∧ s.calls = [] ∧
      s.current "a" = true ∧ s.jobs.map (fun e => (e.1, e.2.status)) = [("a", .success)]) ∧
    ¬ ∀ s : Tables, Run Tables.step (fun _ _ => True) Tables.start s → ∀ i, s.inst = some i →
      i.status.active = true → ∃ j, EntryMap.get s.jobs i.wake = some j ∧
        (j.status = .pending ∨ j.status = .processing) := by
  have hrun : (runAll Tables.step (fun s e => decide (s.Timely e)) Tables.start
      (eventMeetsRun ++ (List.range maxRetries).flatMap busyRound ++ runDies)).any
        (fun s => decide (s.calls = []) && s.current "b" &&
          decide (s.jobs.map (fun e => (e.1, e.2.status)) = [("a", .success), ("b", .failed)]) &&
          decide ((EntryMap.get s.jobs "b").map (·.status) = some .failed)) = true := by
    decide +kernel
  have hlate : (runAll Tables.step (fun _ _ => true) Tables.start lateClaim).any
      (fun s => decide (s.calls = []) && s.current "a" &&
        decide (s.jobs.map (fun e => (e.1, e.2.status)) = [("a", .success)])) = true := by
    decide +kernel
  obtain ⟨u, hu, hspent⟩ := exists_freeRun hlate
  obtain ⟨hspent, hujobs⟩ := Bool.and_eq_true_iff.mp hspent
  obtain ⟨hucalls, hucur⟩ := Bool.and_eq_true_iff.mp hspent
  obtain ⟨s, hs, hall⟩ := exists_run hrun
  obtain ⟨hall, hb⟩ := Bool.and_eq_true_iff.mp hall
  obtain ⟨hall, hjobs⟩ := Bool.and_eq_true_iff.mp hall
  obtain ⟨hcalls, hcur⟩ := Bool.and_eq_true_iff.mp hall
  have hin : Run Tables.step Tables.Timely Tables.start s :=
    hs.mono fun _ _ => of_decide_eq_true
  refine ⟨⟨s, hin, of_decide_eq_true hcalls, hcur, of_decide_eq_true hjobs⟩,
    ⟨u, hu, of_decide_eq_true hucalls, hucur,
      of_decide_eq_true hujobs⟩, fun h => ?_⟩
  obtain ⟨i, hi, hi'⟩ := (Option.any_eq_true _ _).mp hcur
  obtain ⟨hactive, hwake⟩ := Bool.and_eq_true_iff.mp hi'
  obtain ⟨j, hj, hstatus⟩ := h s (hin.mono fun _ _ _ => trivial) i hi hactive
  rw [of_decide_eq_true hwake] at hj
  have hfailed := of_decide_eq_true hb
  rw [hj] at hfailed
  have hfailed : j.status = .failed := Option.some.inj hfailed
  rcases hstatus with hstatus | hstatus <;> rw [hstatus] at hfailed <;> cases hfailed

end Sp00ky.Durable
