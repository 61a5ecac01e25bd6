/-
  Writes that leave a value of their own class alone.

  `settle cls x r` keeps `x` when it is in the class of `r` and takes `r` otherwise. A sequence of
  such writes does nothing, always ends at one value, or does what a single write does
  (`foldl_settle_cases`); in each case doing it again changes nothing. For a state of many keys
  this gives: a suffix of a history, applied once more after it, changes nothing
  (`look_replay_suffix`).
-/
import Mathlib.Logic.Basic

namespace Sp00ky.Lib

section

variable {α κ : Type} [DecidableEq κ] (cls : α → κ)

/-- Keep a value of the same class, else take the new one. -/
def settle (x r : α) : α := if cls x = cls r then x else r

theorem cls_settle (x r : α) : cls (settle cls x r) = cls r := by
  unfold settle
  split
  next h => exact h
  next => rfl

/-- What a sequence of writes does to a value. -/
theorem foldl_settle_cases (rs : List α) :
    (∀ x, rs.foldl (settle cls) x = x) ∨ (∃ c, ∀ x, rs.foldl (settle cls) x = c) ∨
      ∃ r, ∀ x, rs.foldl (settle cls) x = settle cls x r := by
  induction rs with
  | nil => exact .inl fun _ => rfl
  | cons r rs ih =>
    rcases ih with hid | ⟨c, hc⟩ | ⟨last, hlast⟩
    · exact .inr (.inr ⟨r, fun x => hid _⟩)
    · exact .inr (.inl ⟨c, fun x => hc _⟩)
    · right
      by_cases h : cls r = cls last
      · refine .inr ⟨r, fun x => ?_⟩
        rw [List.foldl_cons, hlast, settle, if_pos ((cls_settle cls x r).trans h)]
      · refine .inl ⟨last, fun x => ?_⟩
        rw [List.foldl_cons, hlast, settle, cls_settle cls x r, if_neg h]

theorem foldl_settle_idem (rs : List α) (x : α) :
    rs.foldl (settle cls) (rs.foldl (settle cls) x) = rs.foldl (settle cls) x := by
  rcases foldl_settle_cases cls rs with hid | ⟨c, hc⟩ | ⟨r, hr⟩
  · rw [hid, hid]
  · rw [hc, hc]
  · rw [hr, hr, settle, if_pos (cls_settle cls x r)]

end

section Keyed

variable {σ ε ι α κ : Type} [DecidableEq ι] [DecidableEq κ] {cls : α → κ} {step : σ → ε → σ}
variable {look : σ → ι → α} {write : ε → Option (ι × α)} {inv : σ → Prop}

/-- The values written under a key. -/
def writesOf (write : ε → Option (ι × α)) (k : ι) (es : List ε) : List α :=
  es.filterMap fun e => (write e).bind fun w => if w.1 = k then some w.2 else none

/-- Under a key, a run does what the writes of that key do. -/
theorem look_foldl (hstep : ∀ s e k, inv s → look (step s e) k =
      (write e).elim (look s k) fun w => if w.1 = k then settle cls (look s k) w.2 else look s k)
    (hinv : ∀ s e, inv s → inv (step s e)) (es : List ε) {s : σ} (hs : inv s) (k : ι) :
    look (es.foldl step s) k = (writesOf write k es).foldl (settle cls) (look s k) := by
  induction es generalizing s with
  | nil => rfl
  | cons e es ih =>
    rw [List.foldl_cons, ih (hinv s e hs), hstep s e k hs]
    unfold writesOf
    rw [List.filterMap_cons]
    cases hw : write e with
    | none => rfl
    | some w =>
      by_cases hk : w.1 = k
      · simp only [Option.elim_some, Option.bind_some, if_pos hk, List.foldl_cons]
      · simp only [Option.elim_some, Option.bind_some, if_neg hk]

theorem foldl_inv (hinv : ∀ s e, inv s → inv (step s e)) (es : List ε) {s : σ} (hs : inv s) :
    inv (es.foldl step s) := by
  induction es generalizing s with
  | nil => exact hs
  | cons e es ih => exact ih (hinv s e hs)

/-- A suffix of a history applied once more changes nothing. -/
theorem look_replay_suffix (hstep : ∀ s e k, inv s → look (step s e) k =
      (write e).elim (look s k) fun w => if w.1 = k then settle cls (look s k) w.2 else look s k)
    (hinv : ∀ s e, inv s → inv (step s e)) (es : List ε) (i : Nat) {s : σ} (hs : inv s) (k : ι) :
    look ((es.drop i).foldl step (es.foldl step s)) k = look (es.foldl step s) k := by
  have hsplit : es.foldl step s = (es.drop i).foldl step ((es.take i).foldl step s) := by
    rw [← List.foldl_append, List.take_append_drop]
  have htake : inv ((es.take i).foldl step s) := foldl_inv hinv _ hs
  rw [look_foldl hstep hinv (es.drop i) (foldl_inv hinv es hs), hsplit,
    look_foldl hstep hinv (es.drop i) htake, foldl_settle_idem]

end Keyed

end Sp00ky.Lib
