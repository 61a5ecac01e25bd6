/-
  One program after another, among calls that change little.

  The main programs run one at a time, each statement against the store as the other calls have left
  it, and each may end between two statements. The other calls ask gentle statements only. What a
  main program knows of the store is carried through what these do (`rely`); its own statements may
  do more, and each is to be safe in the state it meets (`SoloDiscipline.Sound`). The rules for a
  whole run are `SoloDiscipline.good_run` and `SoloDiscipline.safe_step`.
-/
import Sp00ky.Lib.Succession

namespace Sp00ky.Lib

section

variable {σ Q M C E I : Type} {A : Q → Type}

/-- The store with the calls underway, and what is left of the main program. -/
structure Solo (σ Q : Type) (A : Q → Type) where
  rest : Calls σ Q A
  main : Option (Prog Q A Unit)

/-- A main program starts, goes on or dies; something happens between two of them; or another call
takes a step. -/
inductive SoloEvent (M C E I : Type) where
  | start (m : M)
  | advance
  | crash
  | between (i : I)
  | other (e : CallEvent C E)

namespace Solo

variable (exec : σ → (q : Q) → σ × A q) (main : M → Prog Q A Unit) (program : C → Prog Q A Unit)
  (env : σ → E → Option σ) (between : σ → I → σ)

def step (w : Solo σ Q A) : SoloEvent M C E I → Option (Solo σ Q A)
  | .start m =>
    match w.main with
    | none => some { w with main := some (main m) }
    | some _ => none
  | .advance =>
    match w.main with
    | none => none
    | some (.done _) => some { w with main := none }
    | some (.ask q k) =>
      some ⟨{ w.rest with state := (exec w.rest.state q).1 }, some (k (exec w.rest.state q).2)⟩
  | .crash => some { w with main := none }
  | .between i =>
    match w.main with
    | none => some { w with rest := { w.rest with state := between w.rest.state i } }
    | some _ => none
  | .other e => (w.rest.step exec program env e).map fun rest => { w with rest }

/-- The statement that is asked in a step. -/
def asked (w : Solo σ Q A) : SoloEvent M C E I → Option Q
  | .advance => w.main.bind Prog.head?
  | .other (.next i) => w.rest.calls[i]?.bind Prog.head?
  | _ => none

end Solo

/-- What holds of the store, what the gentle statements keep to, and when a statement is safe. -/
structure SoloDiscipline (exec : σ → (q : Q) → σ × A q) (env : σ → E → Option σ) where
  inv : σ → Prop
  rely : σ → σ → Prop
  refl : ∀ s, rely s s
  trans : ∀ {s t u}, rely s t → rely t u → rely s u
  safe : σ → Q → Prop
  gentle : Q → Prop
  gentle_ok : ∀ {s q}, inv s → gentle q → safe s q ∧ inv (exec s q).1 ∧ rely s (exec s q).1
  env_ok : ∀ {s t e}, inv s → env s e = some t → inv t ∧ rely s t

namespace SoloDiscipline

variable {exec : σ → (q : Q) → σ × A q} {main : M → Prog Q A Unit} {program : C → Prog Q A Unit}
  {env : σ → E → Option σ} {between : σ → I → σ} (D : SoloDiscipline exec env) {α β : Type}

/-- Every statement of the program is safe and keeps the invariant, from what is known in a state
on, and the result is right. -/
def Sound (post : α → σ → Prop) : Prog Q A α → σ → Prop
  | .done a, s => ∀ t, D.rely s t → D.inv t → post a t
  | .ask q k, s => ∀ t, D.rely s t → D.inv t →
      D.safe t q ∧ D.inv (exec t q).1 ∧ Sound post (k (exec t q).2) (exec t q).1

/-- What is known stays so, whatever the others do. -/
def Stable (K : σ → Prop) : Prop := ∀ s t, D.rely s t → K s → K t

variable {D} {p : Prog Q A α}

/-- What is sound in a state is sound after what others do. -/
theorem Sound.later {post : α → σ → Prop} {s t : σ} (h : D.Sound post p s)
    (hst : D.rely s t) : D.Sound post p t := by
  cases p with
  | done a | ask q k => exact fun u htu hu => h u (D.trans hst htu) hu

theorem Sound.bind {mid : α → σ → Prop} {post : β → σ → Prop}
    {f : α → Prog Q A β} {s : σ} (h : D.Sound mid p s) (hs : D.inv s)
    (hf : ∀ a t, D.inv t → mid a t → D.Sound post (f a) t) : D.Sound post (p.bind f) s := by
  induction p generalizing s with
  | done a => exact hf a s hs (h s (D.refl s) hs)
  | ask q k ih =>
    intro t hst ht
    obtain ⟨hsafe, hinv, hk⟩ := h t hst ht
    exact ⟨hsafe, hinv, ih _ hk hinv⟩

/-- A result that is right now and stays right. -/
theorem Sound.done {post : α → σ → Prop} {a : α} {s : σ} (hK : D.Stable (post a)) (h : post a s) :
    D.Sound post (.done a) s := fun t hst _ => hK s t hst h

theorem Sound.imp {post post' : α → σ → Prop} {s : σ} (h : D.Sound post p s)
    (himp : ∀ a t, D.inv t → post a t → post' a t) : D.Sound post' p s := by
  induction p generalizing s with
  | done a => exact fun t hst ht => himp a t ht (h t hst ht)
  | ask q k ih =>
    intro t hst ht
    obtain ⟨hsafe, hinv, hk⟩ := h t hst ht
    exact ⟨hsafe, hinv, ih _ hk⟩

/-- A single statement. -/
theorem Sound.stmt {q : Q} {post : A q → σ → Prop} {s : σ} (hpost : ∀ a, D.Stable (post a))
    (h : ∀ t, D.rely s t → D.inv t →
      D.safe t q ∧ D.inv (exec t q).1 ∧ post (exec t q).2 (exec t q).1) :
    D.Sound post (Prog.stmt q) s := fun t hst ht => by
  obtain ⟨hsafe, hinv, hp⟩ := h t hst ht
  exact ⟨hsafe, hinv, fun u htu _ => hpost _ _ _ htu hp⟩

/-- A program of gentle statements keeps what is known. -/
theorem Sound.gentle {K : σ → Prop} {s : σ} (hp : p.Only D.gentle)
    (hK : D.Stable K) (h : K s) : D.Sound (fun _ => K) p s := by
  induction p generalizing s with
  | done a => exact fun t hst _ => hK s t hst h
  | ask q k ih =>
    intro t hst ht
    obtain ⟨hsafe, hinv, hrely⟩ := D.gentle_ok ht hp.1
    exact ⟨hsafe, hinv, ih _ (hp.2 _) (hK t _ hrely (hK s t hst h))⟩

variable (D) in
/-- The invariant holds, the other calls are gentle, and what is left of the main program is
sound. -/
structure Good (w : Solo σ Q A) : Prop where
  inv : D.inv w.rest.state
  others : ∀ p ∈ w.rest.calls, p.Only D.gentle
  main : ∀ p, w.main = some p → D.Sound (fun _ _ => True) p w.rest.state

section

variable {w w' : Solo σ Q A} {e : SoloEvent M C E I}

/-- Whatever is asked in a step is safe. -/
theorem safe_step {q : Q} (h : D.Good w) (hq : w.asked e = some q) : D.safe w.rest.state q := by
  cases e with
  | advance =>
    obtain ⟨k, hp⟩ := Prog.ask_of_head? hq
    exact (h.main _ hp w.rest.state (D.refl _) h.inv).1
  | other e =>
    cases e with
    | next i =>
      obtain ⟨k, hp⟩ := Prog.ask_of_head? hq
      exact (D.gentle_ok h.inv (h.others _ (List.mem_of_getElem? hp)).1).1
    | _ => cases hq
  | _ => cases hq

/-- A step of another call keeps the invariant, and what the main program knows. -/
theorem other_step {rest rest' : Calls σ Q A} {e : CallEvent C E} (hinv : D.inv rest.state)
    (hothers : ∀ p ∈ rest.calls, p.Only D.gentle) (hprogram : ∀ c, (program c).Only D.gentle)
    (hstep : rest.step exec program env e = some rest') :
    D.inv rest'.state ∧ D.rely rest.state rest'.state ∧ ∀ p ∈ rest'.calls, p.Only D.gentle := by
  rcases Calls.step_cases hstep with ⟨hstate, hcalls⟩ | ⟨c, _, hstate, hcalls⟩ |
    ⟨i, q, k, _, hi, hstate, hcalls⟩ | ⟨event, _, henv, hcalls⟩
  · rw [hstate]
    exact ⟨hinv, D.refl _, fun p hp => hothers p (hcalls hp)⟩
  · rw [hstate]
    refine ⟨hinv, D.refl _, fun p hp => ?_⟩
    rcases hcalls p hp with hp | rfl
    · exact hothers p hp
    · exact hprogram c
  · obtain ⟨hgentle, hk⟩ := hothers _ (List.mem_of_getElem? hi)
    obtain ⟨_, hinv', hrely⟩ := D.gentle_ok hinv hgentle
    rw [hstate]
    refine ⟨hinv', hrely, fun p hp => ?_⟩
    rcases hcalls p hp with hp | rfl
    · exact hothers p hp
    · exact hk _
  · obtain ⟨hinv', hrely⟩ := D.env_ok hinv henv
    rw [hcalls]
    exact ⟨hinv', hrely, hothers⟩

theorem good_step (hmain : ∀ m s, D.inv s → D.Sound (fun _ _ => True) (main m) s)
    (hprogram : ∀ c, (program c).Only D.gentle)
    (hbetween : ∀ i, e = .between i → D.inv (between w.rest.state i)) (h : D.Good w)
    (hstep : w.step exec main program env between e = some w') : D.Good w' := by
  cases e with
  | start m =>
    simp only [Solo.step] at hstep
    split at hstep
    next =>
      cases hstep
      refine ⟨h.inv, h.others, fun p hp => ?_⟩
      obtain rfl := Option.some.inj hp
      exact hmain m _ h.inv
    next => cases hstep
  | advance =>
    simp only [Solo.step] at hstep
    split at hstep
    next => cases hstep
    next =>
      cases hstep
      exact ⟨h.inv, h.others, nofun⟩
    next q k hp =>
      cases hstep
      obtain ⟨_, hinv, hk⟩ := h.main _ hp w.rest.state (D.refl _) h.inv
      refine ⟨hinv, h.others, fun p hp => ?_⟩
      obtain rfl := Option.some.inj hp
      exact hk
  | crash =>
    cases hstep
    exact ⟨h.inv, h.others, nofun⟩
  | between i =>
    simp only [Solo.step] at hstep
    split at hstep
    next hnone =>
      cases hstep
      refine ⟨hbetween i rfl, h.others, fun p hp => ?_⟩
      rw [hnone] at hp
      cases hp
    next => cases hstep
  | other e =>
    obtain ⟨rest, hrest, rfl⟩ := Option.map_eq_some_iff.mp hstep
    obtain ⟨hinv, hrely, hothers⟩ := other_step h.inv h.others hprogram hrest
    exact ⟨hinv, hothers, fun p hp => (h.main p hp).later hrely⟩

end

/-- Whatever the main programs and the other calls do, the store keeps the invariant. -/
theorem good_run {ok : Solo σ Q A → SoloEvent M C E I → Prop} {w w' : Solo σ Q A}
    (hmain : ∀ m s, D.inv s → D.Sound (fun _ _ => True) (main m) s)
    (hprogram : ∀ c, (program c).Only D.gentle)
    (hbetween : ∀ w i, ok w (.between i) → D.inv w.rest.state →
      D.inv (between w.rest.state i))
    (h : D.Good w) (hrun : Run (Solo.step exec main program env between) ok w w') : D.Good w' :=
  hrun.invariant (P := D.Good) h fun w _ _ h hok hstep =>
    good_step hmain hprogram (fun i he => hbetween w i (he ▸ hok) h.inv) h hstep

end SoloDiscipline

end

end Sp00ky.Lib
