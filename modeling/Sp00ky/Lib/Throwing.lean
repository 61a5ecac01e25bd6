/-
  Programs over a state that may throw, in `ExceptT ε (StateM σ)`.

  What a program changed before it throws stays changed. `Quiet f m` says that `m` returns from
  every state and keeps `f` of it; quiet programs compose to quiet ones (`Quiet.bind`).
-/
import Mathlib.Logic.Function.Basic

namespace Sp00ky.Lib

/-- Programs that read and write a state and may throw. -/
abbrev Throwing (ε σ α : Type) := ExceptT ε (StateM σ) α

namespace Throwing

variable {ε σ α β γ δ : Type}

/-- How the program ends from a state, and the state it leaves. -/
def exec (m : Throwing ε σ α) (s : σ) : Except ε α × σ := m s

/-- The state that the program leaves. -/
def left (m : Throwing ε σ α) (s : σ) : σ := (m.exec s).2

/-- The program returns from every state, and keeps `f` of it. -/
def Quiet (f : σ → γ) (m : Throwing ε σ α) : Prop :=
  ∀ s, ∃ a t, m.exec s = (.ok a, t) ∧ f t = f s

theorem exec_bind_ok {m : Throwing ε σ α} {k : α → Throwing ε σ β} {s t : σ} {a : α}
    (h : m.exec s = (.ok a, t)) : (m >>= k).exec s = (k a).exec t := by
  change (ExceptT.bindCont k (m.exec s).1) (m.exec s).2 = _
  rw [h]
  rfl

theorem exec_bind_error {m : Throwing ε σ α} {k : α → Throwing ε σ β} {s t : σ} {e : ε}
    (h : m.exec s = (.error e, t)) : (m >>= k).exec s = (.error e, t) := by
  change (ExceptT.bindCont k (m.exec s).1) (m.exec s).2 = _
  rw [h]
  rfl

theorem exec_tryCatch_ok {m : Throwing ε σ α} {handle : ε → Throwing ε σ α} {s t : σ} {a : α}
    (h : m.exec s = (.ok a, t)) : (tryCatch m handle).exec s = (.ok a, t) := by
  change (match (m.exec s).1 with | .ok a => _ | .error e => _ : StateM σ (Except ε α))
    (m.exec s).2 = _
  rw [h]
  rfl

theorem exec_tryCatch_error {m : Throwing ε σ α} {handle : ε → Throwing ε σ α} {s t : σ} {e : ε}
    (h : m.exec s = (.error e, t)) : (tryCatch m handle).exec s = (handle e).exec t := by
  change (match (m.exec s).1 with | .ok a => _ | .error e => _ : StateM σ (Except ε α))
    (m.exec s).2 = _
  rw [h]
  rfl

namespace Quiet

variable {f : σ → γ} {m : Throwing ε σ α} {k : α → Throwing ε σ β}

theorem pure (a : α) : Quiet f (Pure.pure a : Throwing ε σ α) := fun s => ⟨a, s, rfl, rfl⟩

theorem get : Quiet f (MonadState.get : Throwing ε σ σ) := fun s => ⟨s, s, rfl, rfl⟩

theorem modify {u : σ → σ} (h : ∀ s, f (u s) = f s) : Quiet f (modify u : Throwing ε σ Unit) :=
  fun s => ⟨(), u s, rfl, h s⟩

theorem bind (hm : Quiet f m) (hk : ∀ a, Quiet f (k a)) : Quiet f (m >>= k) := by
  intro s
  obtain ⟨a, t, hs, ht⟩ := hm s
  obtain ⟨b, u, hu, hf⟩ := hk a t
  exact ⟨b, u, by rw [exec_bind_ok hs, hu], hf.trans ht⟩

theorem ite {c : Prop} [Decidable c] {m' : Throwing ε σ α} (h : c → Quiet f m)
    (h' : ¬ c → Quiet f m') : Quiet f (if c then m else m') := by
  split
  next hc => exact h hc
  next hc => exact h' hc

/-- The state that a quiet program leaves. -/
theorem left (h : Quiet f m) (s : σ) : f (m.left s) = f s := by
  obtain ⟨a, t, hs, ht⟩ := h s
  rw [Throwing.left, hs]
  exact ht

end Quiet

end Throwing

end Sp00ky.Lib
