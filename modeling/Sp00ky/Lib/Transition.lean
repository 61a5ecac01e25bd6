/-
  Labelled transition systems given by a step function.

  `Run step ok s t` says that `t` is reached from `s` by steps whose labels are allowed in
  the state they are taken in. What one allowed step preserves, a run preserves
  (`Run.invariant`); what one allowed step does not decrease, a run does not
  (`Run.monotone`).
-/
import Mathlib.Logic.Function.Basic
import Mathlib.Order.Defs.PartialOrder

namespace Sp00ky.Lib

section

variable {σ α : Type*} {step : σ → α → Option σ} {ok : σ → α → Prop}

/-- A run of allowed steps. -/
inductive Run (step : σ → α → Option σ) (ok : σ → α → Prop) (s : σ) : σ → Prop
  | start : Run step ok s s
  | next {t u : σ} {a : α} (h : Run step ok s t) (hok : ok t a) (hstep : step t a = some u) :
      Run step ok s u

variable {s t : σ}

/-- An invariant of the allowed steps holds along a run. -/
theorem Run.invariant {P : σ → Prop} (h : Run step ok s t) (hs : P s)
    (hp : ∀ t a u, P t → ok t a → step t a = some u → P u) : P t := by
  induction h with
  | start => exact hs
  | next _ hok hstep ih => exact hp _ _ _ ih hok hstep

theorem Run.trans {s t u : σ} (h : Run step ok s t) (h' : Run step ok t u) : Run step ok s u := by
  induction h' with
  | start => exact h
  | next _ hok hstep ih => exact ih.next hok hstep

/-- A measure that no allowed step from a state with `P` decreases. -/
theorem Run.monotone {β : Type*} [Preorder β] {P : σ → Prop} {f : σ → β}
    (h : Run step ok s t) (hs : P s) (hp : ∀ t a u, P t → ok t a → step t a = some u → P u)
    (hf : ∀ t a u, P t → ok t a → step t a = some u → f t ≤ f u) : f s ≤ f t := by
  induction h with
  | start => exact le_refl _
  | next h hok hstep ih => exact le_trans ih (hf _ _ _ (h.invariant hs hp) hok hstep)

/-- The state a list of labels leads to, if every step is enabled and allowed. -/
def runAll (step : σ → α → Option σ) (ok : σ → α → Bool) (s : σ) : List α → Option σ
  | [] => some s
  | a :: as => if ok s a then (step s a).bind fun t => runAll step ok t as else none

/-- Allowing more keeps what a list of labels leads to. -/
theorem runAll_mono {ok ok' : σ → α → Bool} (hok : ∀ s a, ok s a = true → ok' s a = true)
    {as : List α} (h : runAll step ok s as = some t) : runAll step ok' s as = some t := by
  induction as generalizing s with
  | nil => exact h
  | cons a as ih =>
    unfold runAll at h ⊢
    split at h
    next ha =>
      rw [if_pos (hok s a ha)]
      obtain ⟨u, hu, ht⟩ := Option.bind_eq_some_iff.mp h
      exact Option.bind_eq_some_iff.mpr ⟨u, hu, ih ht⟩
    next => cases h

theorem run_of_runAll {ok : σ → α → Bool} {as : List α}
    (h : runAll step ok s as = some t) : Run step (fun s a => ok s a = true) s t := by
  induction as generalizing s with
  | nil =>
    cases h
    exact .start
  | cons a as ih =>
    unfold runAll at h
    split at h
    next hok =>
      obtain ⟨u, hu, ht⟩ := Option.bind_eq_some_iff.mp h
      have hfirst : Run step (fun s a => ok s a = true) s u := Run.next Run.start hok hu
      exact hfirst.trans (ih ht)
    next => cases h

/-- Allowing more keeps the runs. -/
theorem Run.mono {ok' : σ → α → Prop} (h : Run step ok s t)
    (hok : ∀ s a, ok s a → ok' s a) : Run step ok' s t := by
  induction h with
  | start => exact .start
  | next _ ha hstep ih => exact ih.next (hok _ _ ha) hstep

/-- A list of labels leads to a state of some run, whatever it allows. -/
theorem freeRun {ok : σ → α → Bool} {as : List α} (h : runAll step ok s as = some t) :
    Run step (fun _ _ => True) s t :=
  (run_of_runAll h).mono fun _ _ _ => trivial

theorem exists_run {ok : σ → α → Bool} {as : List α} {p : σ → Bool}
    (h : (runAll step ok s as).any p = true) :
    ∃ t, Run step (fun s a => ok s a = true) s t ∧ p t = true := by
  obtain ⟨t, ht, hp⟩ := (Option.any_eq_true _ _).mp h
  exact ⟨t, run_of_runAll ht, hp⟩

theorem exists_freeRun {ok : σ → α → Bool} {as : List α} {p : σ → Bool}
    (h : (runAll step ok s as).any p = true) : ∃ t, Run step (fun _ _ => True) s t ∧ p t = true := by
  obtain ⟨t, ht, hp⟩ := exists_run h
  exact ⟨t, ht.mono fun _ _ _ => trivial, hp⟩

/-- Two states, one reached from the other. -/
theorem exists_pair {β γ : Type*} {x : Option β} {f : β → Option γ} {p : β × γ → Bool}
    (h : (x.bind fun e => (f e).map fun e' => (e, e')).any p = true) :
    ∃ e e', x = some e ∧ f e = some e' ∧ p (e, e') = true := by
  obtain ⟨_, hpair, hp⟩ := (Option.any_eq_true _ _).mp h
  obtain ⟨e, he, hmap⟩ := Option.bind_eq_some_iff.mp hpair
  obtain ⟨e', he', rfl⟩ := Option.map_eq_some_iff.mp hmap
  exact ⟨e, e', he, he', hp⟩

/-- A family of systems; a label names the member that takes the step. -/
def family {ι : Type*} [DecidableEq ι] (step : σ → α → Option σ) (s : ι → σ) (a : ι × α) :
    Option (ι → σ) :=
  (step (s a.1) a.2).map (Function.update s a.1)

/-- A run of the family is a run of each member. -/
theorem Run.member {ι : Type*} [DecidableEq ι] {s t : ι → σ}
    (h : Run (family step) (fun s a => ok (s a.1) a.2) s t) (i : ι) : Run step ok (s i) (t i) := by
  induction h with
  | start => exact .start
  | @next t u a _ hok hstep ih =>
    obtain ⟨v, hv, rfl⟩ := Option.map_eq_some_iff.mp hstep
    by_cases hi : i = a.1
    · subst hi
      rw [Function.update_self]
      exact ih.next hok hv
    · rw [Function.update_of_ne hi]
      exact ih

/-- A run of one member is a run of the family. -/
theorem Run.ofMember {ι : Type*} [DecidableEq ι] {s : ι → σ} {i : ι}
    (h : Run step ok (s i) t) :
    Run (family step) (fun s a => ok (s a.1) a.2) s (Function.update s i t) := by
  induction h with
  | start => rw [Function.update_eq_self]; exact .start
  | @next t u a _ hok hstep ih =>
    refine ih.next (a := (i, a)) ?_ ?_
    · dsimp only
      rw [Function.update_self]
      exact hok
    · unfold family
      dsimp only
      rw [Function.update_self, hstep, Option.map_some, Function.update_idem]

end

end Sp00ky.Lib
