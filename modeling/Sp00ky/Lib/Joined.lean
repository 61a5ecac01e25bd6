/-
  Texts joined by a separator.

  Two pairs joined by a separator are one text if they are one pair, or if the first part of one
  goes on past the separator of the other (`RunsInto`). If neither second part has the separator
  in it, only the first is left (`join_inj`).
-/
import Mathlib.Data.List.Basic

namespace Sp00ky.Lib

section

variable {α : Type*} {sep : α} {a b a' b' : List α}

/-- The first part of the second pair goes on past the separator of the first pair. -/
def RunsInto (sep : α) (a b a' b' : List α) : Prop :=
  ∃ u, a' = a ++ sep :: u ∧ b = u ++ sep :: b'

theorem append_sep_of_runsInto (h : RunsInto sep a b a' b') : a ++ sep :: b = a' ++ sep :: b' := by
  obtain ⟨u, rfl, rfl⟩ := h
  rw [List.append_assoc, List.cons_append]

theorem append_sep_eq_iff : a ++ sep :: b = a' ++ sep :: b' ↔
    (a = a' ∧ b = b') ∨ RunsInto sep a b a' b' ∨ RunsInto sep a' b' a b := by
  constructor
  · intro h
    rcases List.append_eq_append_iff.mp h with ⟨w, ha, hb⟩ | ⟨w, ha, hb⟩
    · cases w with
      | nil => exact .inl ⟨by simpa using ha.symm, by simpa using hb⟩
      | cons c u =>
        obtain ⟨rfl, htail⟩ := List.cons.inj hb
        exact .inr (.inl ⟨u, ha, htail⟩)
    · cases w with
      | nil => exact .inl ⟨by simpa using ha, by simpa using hb.symm⟩
      | cons c u =>
        obtain ⟨rfl, htail⟩ := List.cons.inj hb
        exact .inr (.inr ⟨u, ha, htail⟩)
  · rintro (⟨rfl, rfl⟩ | h | h)
    · rfl
    · exact append_sep_of_runsInto h
    · exact (append_sep_of_runsInto h).symm

/-- Nothing runs into a part without a separator. -/
theorem not_runsInto (hb : sep ∉ b) : ¬ RunsInto sep a b a' b' := by
  rintro ⟨u, -, rfl⟩
  simp at hb

/-- A join is taken apart at its last separator. -/
theorem join_inj (hb : sep ∉ b) (hb' : sep ∉ b') (h : a ++ sep :: b = a' ++ sep :: b') :
    a = a' ∧ b = b' := by
  rcases append_sep_eq_iff.mp h with h | h | h
  · exact h
  · exact absurd h (not_runsInto hb)
  · exact absurd h (not_runsInto hb')

end

end Sp00ky.Lib
