/-
  Calls that interleave at their statements.

  A program is a tree: it asks the store a statement and goes on with the answer. Any number of
  calls run at once, one statement of one of them after another, and each may die between two
  statements. What a statement does is atomic; what a call knows is as old as its last answer.

  `Discipline` gives an invariant of the store and a relation that every step keeps to. A program
  is `Sound` if each of its statements keeps to them whatever the other calls have done since the
  answer before (`Discipline.good_run` is the rule for whole runs). Knowledge that the relation
  preserves can be used at any later statement.
-/
import Sp00ky.Lib.Transition
import Mathlib.Data.List.Forall2

namespace Sp00ky.Lib

/-- A program over statements `Q` with answers `A`. -/
inductive Prog (Q : Type) (A : Q → Type) (α : Type) where
  | done (a : α)
  | ask (q : Q) (k : A q → Prog Q A α)

namespace Prog

variable {Q : Type} {A : Q → Type} {α β : Type}

/-- One program after another. -/
def bind : Prog Q A α → (α → Prog Q A β) → Prog Q A β
  | .done a, f => f a
  | .ask q k, f => .ask q fun x => (k x).bind f

instance : Monad (Prog Q A) where
  pure := .done
  bind := Prog.bind

/-- A single statement. -/
def stmt (q : Q) : Prog Q A (A q) := .ask q .done

/-- A program for each entry of a list. -/
def each (f : α → Prog Q A β) : List α → Prog Q A (List β)
  | [] => .done []
  | a :: l => (f a).bind fun b => (each f l).bind fun bs => .done (b :: bs)

end Prog

section

variable {σ Q C E : Type} {A : Q → Type}

/-- The store and the calls underway. -/
structure Calls (σ Q : Type) (A : Q → Type) where
  state : σ
  calls : List (Prog Q A Unit)

/-- A call starts, runs its next statement or dies; or the store changes by itself. -/
inductive CallEvent (C E : Type) where
  | call (c : C)
  | next (i : Nat)
  | die (i : Nat)
  | env (e : E)

namespace Calls

variable (exec : σ → (q : Q) → σ × A q) (program : C → Prog Q A Unit) (env : σ → E → Option σ)

def step (w : Calls σ Q A) : CallEvent C E → Option (Calls σ Q A)
  | .call c => some { w with calls := w.calls ++ [program c] }
  | .next i =>
    match w.calls[i]? with
    | none => none
    | some (.done _) => some { w with calls := w.calls.eraseIdx i }
    | some (.ask q k) =>
      some ⟨(exec w.state q).1, w.calls.set i (k (exec w.state q).2)⟩
  | .die i => some { w with calls := w.calls.eraseIdx i }
  | .env e => (env w.state e).map fun s => { w with state := s }

/-- The statement that runs next is allowed in the state it meets. -/
def Allows (ok : σ → Q → Prop) (w : Calls σ Q A) : CallEvent C E → Prop
  | .next i => ∀ q k, w.calls[i]? = some (.ask q k) → ok w.state q
  | _ => True

/-- `Allows`, computed. -/
def allows (ok : σ → Q → Bool) (w : Calls σ Q A) : CallEvent C E → Bool
  | .next i =>
    match w.calls[i]? with
    | some (.ask q _) => ok w.state q
    | _ => true
  | _ => true

theorem allows_sound {ok : σ → Q → Bool} {ok' : σ → Q → Prop} (h : ∀ s q, ok s q = true → ok' s q)
    (w : Calls σ Q A) (e : CallEvent C E) (he : allows ok w e = true) : Allows ok' w e := by
  cases e with
  | next i =>
    intro q k hi
    simp only [allows, hi] at he
    exact h _ _ he
  | _ => trivial

end Calls

/-- What holds of the store, and what every step keeps to. -/
structure Discipline (exec : σ → (q : Q) → σ × A q) (env : σ → E → Option σ)
    (ok : σ → Q → Prop) where
  inv : σ → Prop
  rely : σ → σ → Prop
  refl : ∀ s, rely s s
  trans : ∀ {s t u}, rely s t → rely t u → rely s u
  env_ok : ∀ {s t e}, inv s → env s e = some t → inv t ∧ rely s t

namespace Discipline

variable {exec : σ → (q : Q) → σ × A q} {program : C → Prog Q A Unit} {env : σ → E → Option σ}
  {ok : σ → Q → Prop} (D : Discipline exec env ok) {α β : Type}

/-- Every statement of the program keeps to the discipline, from what is known in a state on, and
the result is right. -/
def Sound (post : α → σ → Prop) : Prog Q A α → σ → Prop
  | .done a, s => ∀ t, D.rely s t → D.inv t → post a t
  | .ask q k, s => ∀ t, D.rely s t → D.inv t → ok t q →
      D.inv (exec t q).1 ∧ D.rely t (exec t q).1 ∧ Sound post (k (exec t q).2) (exec t q).1

variable {D}

/-- What is sound in a state is sound after what others do. -/
theorem Sound.later {post : α → σ → Prop} {p : Prog Q A α} {s t : σ} (h : D.Sound post p s)
    (hst : D.rely s t) : D.Sound post p t := by
  cases p with
  | done a => exact fun u htu hu => h u (D.trans hst htu) hu
  | ask q k => exact fun u htu hu hok => h u (D.trans hst htu) hu hok

variable {s : σ} {f : α → Prog Q A β}

theorem Sound.bind {mid : α → σ → Prop} {post : β → σ → Prop} {p : Prog Q A α} (h : D.Sound mid p s)
    (hf : ∀ a t, D.rely s t → D.inv t → mid a t → D.Sound post (f a) t) (hs : D.inv s) :
    D.Sound post (p.bind f) s := by
  induction p generalizing s with
  | done a => exact hf a s (D.refl s) hs (h s (D.refl s) hs)
  | ask q k ih =>
    intro t hst ht hok
    obtain ⟨hinv, hrely, hk⟩ := h t hst ht hok
    refine ⟨hinv, hrely, ih _ hk (fun a u hu hui hmid => ?_) hinv⟩
    exact hf a u (D.trans hst (D.trans hrely hu)) hui hmid

/-- A single statement. -/
theorem Sound.stmt {q : Q} {post : A q → σ → Prop}
    (h : ∀ t, D.rely s t → D.inv t → ok t q → D.inv (exec t q).1 ∧ D.rely t (exec t q).1 ∧
      ∀ u, D.rely (exec t q).1 u → D.inv u → post (exec t q).2 u) :
    D.Sound post (Prog.stmt q) s := h

/-- A result that is right now and stays right. -/
theorem Sound.done {post : α → σ → Prop} {a : α} (h : ∀ t, D.rely s t → D.inv t → post a t) :
    D.Sound post (.done a) s := h

theorem Sound.imp {post post' : α → σ → Prop} {p : Prog Q A α} (h : D.Sound post p s)
    (himp : ∀ a t, D.rely s t → D.inv t → post a t → post' a t) : D.Sound post' p s := by
  induction p generalizing s with
  | done a => exact fun t hst ht => himp a t hst ht (h t hst ht)
  | ask q k ih =>
    intro t hst ht hok
    obtain ⟨hinv, hrely, hk⟩ := h t hst ht hok
    refine ⟨hinv, hrely, ih _ hk fun a u hu hui hp => ?_⟩
    exact himp a u (D.trans hst (D.trans hrely hu)) hui hp

/-- A program for each entry of a list: what one makes of its entry stays so, and so the list. -/
theorem Sound.each {P : α → σ → Prop} {R : α → β → σ → Prop}
    (hP : ∀ a s t, D.rely s t → P a s → P a t) (hR : ∀ a b s t, D.rely s t → R a b s → R a b t)
    (hf : ∀ a s, D.inv s → P a s → D.Sound (R a) (f a) s) {l : List α}
    (hs : D.inv s) (hl : ∀ a ∈ l, P a s) :
    D.Sound (fun bs t => List.Forall₂ (fun a b => R a b t) l bs) (Prog.each f l) s := by
  induction l generalizing s with
  | nil => exact fun _ _ _ => List.Forall₂.nil
  | cons a l ih =>
    refine Sound.bind (hf a s hs (hl a List.mem_cons_self)) (fun b t hst ht hb => ?_) hs
    have hrest : ∀ a' ∈ l, P a' t :=
      fun a' ha' => hP a' s t hst (hl a' (List.mem_cons_of_mem _ ha'))
    refine Sound.bind (ih ht hrest) (fun bs u htu _ hbs => ?_) ht
    intro v huv _
    refine List.Forall₂.cons (hR a b t v (D.trans htu huv) hb) ?_
    exact hbs.imp fun a' b' h => hR a' b' u v huv h

/-- The same, of the results alone. -/
theorem Sound.eachAll {P : α → σ → Prop} {R : β → σ → Prop}
    (hP : ∀ a s t, D.rely s t → P a s → P a t) (hR : ∀ b s t, D.rely s t → R b s → R b t)
    (hf : ∀ a s, D.inv s → P a s → D.Sound R (f a) s) {l : List α}
    (hs : D.inv s) (hl : ∀ a ∈ l, P a s) :
    D.Sound (fun bs t => ∀ b ∈ bs, R b t) (Prog.each f l) s := by
  refine (Sound.each hP (R := fun _ => R) (fun _ => hR) hf hs hl).imp fun bs t _ _ hbs => ?_
  induction hbs with
  | nil => exact fun b hb => absurd hb List.not_mem_nil
  | cons hb _ ih => exact List.forall_mem_cons.mpr ⟨hb, ih fun a ha => hl a (.tail _ ha)⟩

variable (D) in
/-- The invariant holds, and what is left of every call is sound. -/
def Good (program : C → Prog Q A Unit) (w : Calls σ Q A) : Prop :=
  (∀ c s, D.inv s → D.Sound (fun _ _ => True) (program c) s) ∧ D.inv w.state ∧
    ∀ p ∈ w.calls, D.Sound (fun _ _ => True) p w.state

theorem good_step {w w' : Calls σ Q A} {e : CallEvent C E} (h : D.Good program w)
    (hok : Calls.Allows ok w e) (hw : Calls.step exec program env w e = some w') :
    D.Good program w' ∧ D.rely w.state w'.state := by
  obtain ⟨hprograms, hinv, hcalls⟩ := h
  cases e with
  | call c =>
    cases hw
    refine ⟨⟨hprograms, hinv, fun p hp => ?_⟩, D.refl _⟩
    rcases List.mem_append.mp hp with hp | hp
    · exact hcalls p hp
    · rw [List.mem_singleton.mp hp]
      exact hprograms c _ hinv
  | next i =>
    simp only [Calls.step] at hw
    split at hw
    next => cases hw
    next =>
      cases hw
      exact ⟨⟨hprograms, hinv, fun p hp => hcalls p ((List.eraseIdx_sublist _ _).subset hp)⟩,
        D.refl _⟩
    next q k hi =>
      cases hw
      obtain ⟨hinv', hrely, hk⟩ := hcalls _ (List.mem_of_getElem? hi) w.state (D.refl _) hinv
        (hok q k hi)
      refine ⟨⟨hprograms, hinv', fun p hp => ?_⟩, hrely⟩
      rcases List.mem_or_eq_of_mem_set hp with hp | rfl
      · exact (hcalls p hp).later hrely
      · exact hk
  | die i =>
    cases hw
    exact ⟨⟨hprograms, hinv, fun p hp => hcalls p ((List.eraseIdx_sublist _ _).subset hp)⟩,
      D.refl _⟩
  | env e =>
    obtain ⟨t, ht, rfl⟩ := Option.map_eq_some_iff.mp hw
    obtain ⟨hinv', hrely⟩ := D.env_ok hinv ht
    exact ⟨⟨hprograms, hinv', fun p hp => (hcalls p hp).later hrely⟩, hrely⟩

theorem good_start (hprograms : ∀ c s, D.inv s → D.Sound (fun _ _ => True) (program c) s)
    (hs : D.inv s) : D.Good program ⟨s, []⟩ :=
  ⟨hprograms, hs, fun _ hp => absurd hp List.not_mem_nil⟩

/-- Whatever the calls do, the store keeps the invariant, and to the relation. -/
theorem good_run {w w' : Calls σ Q A} (h : D.Good program w)
    (hrun : Run (Calls.step exec program env) (Calls.Allows ok) w w') :
    D.Good program w' ∧ D.rely w.state w'.state :=
  hrun.invariant (P := fun u => D.Good program u ∧ D.rely w.state u.state) ⟨h, D.refl _⟩
    fun _ _ _ hu hok hstep =>
      (good_step hu.1 hok hstep).imp_right fun hrely => D.trans hu.2 hrely

end Discipline

end

end Sp00ky.Lib
