/-
  What a program asks after what.

  A succession says of each statement and its answer how the rest of the program may go on. Most
  programs may stand anywhere (`fresh`); the others start with a statement that is only asked after
  certain answers. A program keeps to a succession if each of its parts does, which is proved along
  its binds (`Keeps.bind`). `Calls.step_cases` says what one step does to the calls.
-/
import Sp00ky.Lib.Calls

namespace Sp00ky.Lib

namespace Prog

variable {Q Q' : Type} {A : Q → Type} {A' : Q' → Type} {α β γ : Type}

/-- Each statement becomes a program. -/
def translate (g : (q : Q) → Prog Q' A' (A q)) : Prog Q A α → Prog Q' A' α
  | .done a => .done a
  | .ask q k => (g q).bind fun x => (k x).translate g

theorem bind_assoc (p : Prog Q A α) (f : α → Prog Q A β) (g : β → Prog Q A γ) :
    (p.bind f).bind g = p.bind fun a => (f a).bind g := by
  induction p with
  | done a => rfl
  | ask q k ih => exact congrArg (Prog.ask q) (funext ih)

theorem bind_done (p : Prog Q A α) : p.bind .done = p := by
  induction p with
  | done a => rfl
  | ask q k ih => exact congrArg (Prog.ask q) (funext ih)

theorem translate_bind (g : (q : Q) → Prog Q' A' (A q)) (p : Prog Q A α) (f : α → Prog Q A β) :
    (p.bind f).translate g = (p.translate g).bind fun a => (f a).translate g := by
  induction p with
  | done a => rfl
  | ask q k ih =>
    simp only [bind, translate, bind_assoc]
    exact congrArg (g q).bind (funext ih)

theorem translate_each (g : (q : Q) → Prog Q' A' (A q)) (f : α → Prog Q A β) (l : List α) :
    (each f l).translate g = each (fun a => (f a).translate g) l := by
  induction l with
  | nil => rfl
  | cons a l ih =>
    simp only [each, translate_bind, ih]
    rfl

/-- One translation after another. -/
theorem translate_translate {Q'' : Type} {A'' : Q'' → Type} (g : (q : Q) → Prog Q' A' (A q))
    (g' : (q : Q') → Prog Q'' A'' (A' q)) (p : Prog Q A α) :
    (p.translate g).translate g' = p.translate fun q => (g q).translate g' := by
  induction p with
  | done a => rfl
  | ask q k ih =>
    simp only [translate, translate_bind]
    exact congrArg _ (funext ih)

/-- Every statement becomes itself. -/
theorem translate_stmt (p : Prog Q A α) : p.translate stmt = p := by
  induction p with
  | done a => rfl
  | ask q k ih => exact congrArg (Prog.ask q) (funext ih)

/-- The statement that is asked next. -/
def head? : Prog Q A α → Option Q
  | .done _ => none
  | .ask q _ => some q

theorem ask_of_head? {x : Option (Prog Q A α)} {q : Q} (h : x.bind head? = some q) :
    ∃ k, x = some (.ask q k) := by
  obtain ⟨p, hp, hhead⟩ := Option.bind_eq_some_iff.mp h
  cases p with
  | done => cases hhead
  | ask q' k =>
    cases hhead
    exact ⟨k, hp⟩

/-- Every statement of the program, on every way through it. -/
def Only (P : Q → Prop) : Prog Q A α → Prop
  | .done _ => True
  | .ask q k => P q ∧ ∀ x, (k x).Only P

theorem Only.bind {P : Q → Prop} {p : Prog Q A α} {f : α → Prog Q A β} (h : p.Only P)
    (hf : ∀ a, (f a).Only P) : (p.bind f).Only P := by
  induction p with
  | done a => exact hf a
  | ask q k ih => exact ⟨h.1, fun x => ih x (h.2 x)⟩

theorem Only.mono {P P' : Q → Prop} {p : Prog Q A α} (h : p.Only P) (himp : ∀ q, P q → P' q) :
    p.Only P' := by
  induction p with
  | done a => trivial
  | ask q k ih => exact ⟨himp q h.1, fun x => ih x (h.2 x)⟩

theorem Only.each {P : Q → Prop} {f : α → Prog Q A β} {l : List α} (h : ∀ a ∈ l, (f a).Only P) :
    (each f l).Only P := by
  induction l with
  | nil => trivial
  | cons a l ih =>
    refine (h a List.mem_cons_self).bind fun b => ?_
    exact (ih fun a' ha' => h a' (.tail _ ha')).bind fun _ => trivial

/-- The program ends with a result, after statements that were answered so. -/
inductive Returns : Prog Q A α → List ((q : Q) × A q) → α → Prop
  | done (a : α) : Returns (.done a) [] a
  | ask {q : Q} {k : A q → Prog Q A α} {x : A q} {answered : List ((q : Q) × A q)} {a : α}
      (h : Returns (k x) answered a) : Returns (.ask q k) (⟨q, x⟩ :: answered) a

end Prog

/-- How a program may go on after a statement and its answer. What is fresh may stand anywhere. -/
structure Succession (Q : Type) (A : Q → Type) where
  fresh : ∀ {α : Type}, Prog Q A α → Prop
  next : ∀ {α : Type}, (q : Q) → A q → Prog Q A α → Prop
  fresh_done : ∀ {α : Type} (a : α), fresh (.done a : Prog Q A α)
  fresh_bind : ∀ {α β : Type} {p : Prog Q A α} {f : α → Prog Q A β},
    fresh p → (∀ a, fresh (f a)) → fresh (p.bind f)
  next_fresh : ∀ {α : Type} {q : Q} {x : A q} {p : Prog Q A α}, fresh p → next q x p
  next_bind : ∀ {α β : Type} {q : Q} {x : A q} {p : Prog Q A α} {f : α → Prog Q A β},
    next q x p → (∀ a, fresh (f a)) → next q x (p.bind f)

namespace Succession

variable {Q : Type} {A : Q → Type} (S : Succession Q A) {α β : Type}

/-- Each statement of the program is followed as it may be. -/
def Keeps : Prog Q A α → Prop
  | .done _ => True
  | .ask q k => ∀ x, S.next q x (k x) ∧ Keeps (k x)

/-- A program that keeps to the succession wherever it stands. -/
structure Sound (p : Prog Q A α) : Prop where
  fresh : S.fresh p
  keeps : S.Keeps p

variable {S}

theorem Keeps.bind {p : Prog Q A α} {f : α → Prog Q A β} (h : S.Keeps p)
    (hf : ∀ a, S.Sound (f a)) : S.Keeps (p.bind f) := by
  induction p with
  | done a => exact (hf a).keeps
  | ask q k ih =>
    intro x
    obtain ⟨hnext, hk⟩ := h x
    exact ⟨S.next_bind hnext fun a => (hf a).fresh, ih x hk⟩

theorem Sound.done (a : α) : S.Sound (.done a : Prog Q A α) := ⟨S.fresh_done a, trivial⟩

theorem Sound.bind {p : Prog Q A α} {f : α → Prog Q A β} (h : S.Sound p)
    (hf : ∀ a, S.Sound (f a)) : S.Sound (p.bind f) :=
  ⟨S.fresh_bind h.fresh fun a => (hf a).fresh, h.keeps.bind hf⟩

theorem Sound.stmt {q : Q} (h : S.fresh (Prog.stmt q : Prog Q A (A q))) :
    S.Sound (Prog.stmt q : Prog Q A (A q)) :=
  ⟨h, fun x => ⟨S.next_fresh (S.fresh_done x), trivial⟩⟩

theorem Sound.each {f : α → Prog Q A β} {l : List α} (h : ∀ a ∈ l, S.Sound (f a)) :
    S.Sound (Prog.each f l) := by
  induction l with
  | nil => exact Sound.done _
  | cons a l ih =>
    refine (h a List.mem_cons_self).bind fun b => ?_
    exact (ih fun a' ha' => h a' (.tail _ ha')).bind fun _ => Sound.done _

end Succession

/-! ## Steps -/

namespace Calls

variable {σ Q C E : Type} {A : Q → Type} {exec : σ → (q : Q) → σ × A q}
  {program : C → Prog Q A Unit} {env : σ → E → Option σ} {w w' : Calls σ Q A}
  {e : CallEvent C E}

/-- What one step does: a call ends or starts, one of them goes on with its answer, or the store
changes by itself. -/
theorem step_cases (h : step exec program env w e = some w') :
    (w'.state = w.state ∧ w'.calls ⊆ w.calls) ∨
    (∃ c, e = .call c ∧ w'.state = w.state ∧ ∀ p ∈ w'.calls, p ∈ w.calls ∨ p = program c) ∨
    (∃ i q k, e = .next i ∧ w.calls[i]? = some (.ask q k) ∧ w'.state = (exec w.state q).1 ∧
      ∀ p ∈ w'.calls, p ∈ w.calls ∨ p = k (exec w.state q).2) ∨
    (∃ a, e = .env a ∧ env w.state a = some w'.state ∧ w'.calls = w.calls) := by
  cases e with
  | call c =>
    cases h
    refine .inr (.inl ⟨c, rfl, rfl, fun p hp => ?_⟩)
    exact (List.mem_append.mp hp).imp_right List.mem_singleton.mp
  | next i =>
    simp only [step] at h
    split at h
    next => cases h
    next =>
      cases h
      exact .inl ⟨rfl, (List.eraseIdx_sublist _ _).subset⟩
    next q k hi =>
      cases h
      exact .inr (.inr (.inl ⟨i, q, k, rfl, hi, rfl, fun p hp => List.mem_or_eq_of_mem_set hp⟩))
  | die i =>
    cases h
    exact .inl ⟨rfl, (List.eraseIdx_sublist _ _).subset⟩
  | env a =>
    obtain ⟨t, ht, rfl⟩ := Option.map_eq_some_iff.mp h
    exact .inr (.inr (.inr ⟨a, rfl, ht, rfl⟩))

end Calls

end Sp00ky.Lib
