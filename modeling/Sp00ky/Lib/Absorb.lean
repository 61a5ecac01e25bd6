/-
  Writes that undo earlier ones.

  A value `v'` absorbs `v` when a write of `v'` leaves no trace of an earlier write of `v`, whatever
  was written in between. What is absorbed can be left out of a history
  (`foldl_filter_absorbed`), and a history of values that absorb themselves can be started over from
  any point (`foldl_prefix_absorbed`).
-/
import Mathlib.Data.List.Basic

namespace Sp00ky.Lib

variable {α β : Type} {write : α → β → α}

/-- A write of `v'` leaves no trace of an earlier write of `v`. -/
def Absorbs (write : α → β → α) (v v' : β) : Prop :=
  ∀ (a : α) (vs : List β), write (vs.foldl write (write a v)) v' = write (vs.foldl write a) v'

/-- A write that is absorbed later in a history changes nothing. -/
theorem Absorbs.foldl_eq {v v' : β} (h : Absorbs write v v') {vs : List β} (hv : v' ∈ vs) (a : α) :
    vs.foldl write (write a v) = vs.foldl write a := by
  obtain ⟨before, after, rfl⟩ := List.append_of_mem hv
  rw [List.foldl_append, List.foldl_append, List.foldl_cons, List.foldl_cons, h a before]

/-- Entries that are each absorbed by a later one can be left out. -/
theorem foldl_filter_absorbed {ι : Type} (value : ι → β) (keep : ι → Bool) {l : List ι}
    (h : ∀ before e after, l = before ++ e :: after → keep e = false →
      ∃ e' ∈ after, Absorbs write (value e) (value e')) (a : α) :
    (l.map value).foldl write a = ((l.filter keep).map value).foldl write a := by
  induction l generalizing a with
  | nil => rfl
  | cons e l ih =>
    have htail : ∀ before e' after, l = before ++ e' :: after → keep e' = false →
        ∃ e'' ∈ after, Absorbs write (value e') (value e'') := by
      rintro before e' after rfl hkeep
      exact h (e :: before) e' after rfl hkeep
    cases hkeep : keep e with
    | true =>
      rw [List.filter_cons_of_pos hkeep, List.map_cons, List.map_cons, List.foldl_cons,
        List.foldl_cons, ih htail]
    | false =>
      obtain ⟨e', he', habsorbs⟩ := h [] e l rfl hkeep
      rw [List.filter_cons_of_neg (by rw [hkeep]; decide), List.map_cons, List.foldl_cons,
        habsorbs.foldl_eq (List.mem_map_of_mem he'), ih htail]

/-- Values that absorb themselves: a history after a part of itself. -/
theorem foldl_prefix_absorbed {vs : List β} (h : ∀ v ∈ vs, Absorbs write v v) {ws : List β}
    (hw : ∀ w ∈ ws, w ∈ vs) (a : α) : vs.foldl write (ws.foldl write a) = vs.foldl write a := by
  induction ws generalizing a with
  | nil => rfl
  | cons w ws ih =>
    have hmem := hw w List.mem_cons_self
    rw [List.foldl_cons, ih (List.forall_mem_cons.mp hw).2,
      (h w hmem).foldl_eq hmem]

end Sp00ky.Lib
