/-
  The order of index entries (`circuit/index.rs`, `operator/top_k.rs`).

  Index keys without floats are totally ordered, range bounds included, and so are the entries that
  hold them (`indexEntry_lawful`). Floats are not: `1` and `1.0` compare equal.
-/
import Sp00ky.Ssp.TopKFacts

namespace Sp00ky.Ssp

open Std Lib

/-! ## Orders of lists and pairs -/

section

variable {α : Type} {cmp : α → α → Ordering} {S : α → Prop}

/-- Lists are ordered as their elements are. -/
theorem lexCmp_lawful (h : LawfulOn cmp S) : LawfulOn (lexCmp cmp) fun l => ∀ x ∈ l, S x where
  refl l hl := by
    induction l with
    | nil => rfl
    | cons a l ih =>
      have ha := hl a List.mem_cons_self
      have hrest := ih fun x hx => hl x (List.mem_cons_of_mem a hx)
      simp only [lexCmp, h.refl a ha, hrest]
  eq l l' hl hl' he := by
    induction l generalizing l' with
    | nil =>
      cases l' with
      | nil => rfl
      | cons b l' => cases he
    | cons a l ih =>
      cases l' with
      | nil => cases he
      | cons b l' =>
        have ha := hl a List.mem_cons_self
        have hb := hl' b List.mem_cons_self
        simp only [lexCmp] at he
        cases hab : cmp a b with
        | eq =>
          rw [hab] at he
          rw [h.eq a b ha hb hab, ih l' (fun x hx => hl x (List.mem_cons_of_mem a hx))
            (fun x hx => hl' x (List.mem_cons_of_mem b hx)) he]
        | lt | gt =>
          rw [hab] at he
          cases he
  swap l l' hl hl' := by
    induction l generalizing l' with
    | nil => cases l' <;> rfl
    | cons a l ih =>
      cases l' with
      | nil => rfl
      | cons b l' =>
        have hsw := h.swap a b (hl a List.mem_cons_self) (hl' b List.mem_cons_self)
        have hrest := ih l' (fun x hx => hl x (List.mem_cons_of_mem a hx))
          fun x hx => hl' x (List.mem_cons_of_mem b hx)
        simp only [lexCmp]
        cases hab : cmp a b <;> rw [hab] at hsw <;> simp [hsw, hrest]
  trans l l' l'' hl hl' hl'' h1 h2 := by
    induction l generalizing l' l'' with
    | nil =>
      cases l'' with
      | cons c l'' => rfl
      | nil =>
        cases l' with
        | nil => cases h1
        | cons b l' => cases h2
    | cons a l ih =>
      cases l' with
      | nil => cases h1
      | cons b l' =>
        cases l'' with
        | nil => cases h2
        | cons c l'' =>
          have ha := hl a List.mem_cons_self
          have hb := hl' b List.mem_cons_self
          have hc := hl'' c List.mem_cons_self
          simp only [lexCmp] at h1 h2 ⊢
          cases hab : cmp a b with
          | gt =>
            rw [hab] at h1
            cases h1
          | eq =>
            obtain rfl := h.eq a b ha hb hab
            rw [hab] at h1
            cases hac : cmp a c with
            | gt =>
              rw [hac] at h2
              cases h2
            | lt => rfl
            | eq =>
              rw [hac] at h2
              exact ih l' l'' (fun x hx => hl x (List.mem_cons_of_mem a hx))
                (fun x hx => hl' x (List.mem_cons_of_mem a hx))
                (fun x hx => hl'' x (List.mem_cons_of_mem c hx)) h1 h2
          | lt =>
            cases hbc : cmp b c with
            | gt =>
              rw [hbc] at h2
              cases h2
            | eq =>
              obtain rfl := h.eq b c hb hc hbc
              rw [hab]
            | lt => rw [h.trans a b c ha hb hc hab hbc]

/-- Pairs are ordered by their first parts, and equal ones by a text. -/
theorem pairCmp_lawful (h : LawfulOn cmp S) :
    LawfulOn (fun a b : α × String => match cmp a.1 b.1 with
      | .eq => compare a.2 b.2
      | o => o) fun e => S e.1 where
  refl e he := by
    simp only [h.refl e.1 he, ReflCmp.compare_self]
  eq e e' he he' heq := by
    cases hc : cmp e.1 e'.1 with
    | eq =>
      simp only [hc] at heq
      exact Prod.ext (h.eq _ _ he he' hc) (LawfulEqCmp.compare_eq_iff_eq.mp heq)
    | lt | gt => simp [hc] at heq
  swap e e' he he' := by
    have hsw := h.swap e.1 e'.1 he he'
    cases hc : cmp e.1 e'.1 <;> rw [hc] at hsw <;> simp [hsw]
    exact OrientedCmp.eq_swap
  trans e e' e'' he he' he'' h1 h2 := by
    cases hc : cmp e.1 e'.1 with
    | gt => simp [hc] at h1
    | eq =>
      obtain hkey := h.eq _ _ he he' hc
      simp only [hc] at h1
      rw [← hkey] at h2
      cases hc' : cmp e.1 e''.1 with
      | gt => simp [hc'] at h2
      | lt => rfl
      | eq =>
        simp only [hc'] at h2 ⊢
        exact TransCmp.lt_trans h1 h2
    | lt =>
      cases hc' : cmp e'.1 e''.1 with
      | gt => simp [hc'] at h2
      | eq => rw [← h.eq _ _ he' he'' hc', hc]
      | lt => rw [h.trans _ _ _ he he' he'' hc hc']

end

/-! ## Index entries -/

/-- A scalar that is no float. -/
def Scalar.Plain : Scalar → Prop
  | .float _ => False
  | _ => True

instance : DecidablePred Scalar.Plain
  | .float _ => isFalse id
  | .null | .bool _ | .int _ | .str _ | .top => isTrue trivial

theorem Scalar.Exact.plain {s : Scalar} (h : s.Exact) : s.Plain := by
  cases s with
  | float => exact h
  | _ => trivial

theorem plain_lawful : LawfulOn Scalar.cmp Scalar.Plain where
  refl a ha := by cases a <;> simp_all [Scalar.cmp, Scalar.Plain]
  eq a b ha hb h := by
    cases a <;> cases b <;> simp_all [Scalar.cmp, Scalar.rank, Scalar.Plain]
  swap a b ha hb := by
    cases a <;> cases b <;> simp_all [Scalar.cmp, Scalar.rank, Scalar.Plain] <;>
      exact OrientedCmp.eq_swap
  trans a b c ha hb hc hab hbc := by
    cases a <;> cases b <;> cases c <;>
      simp_all +decide [Scalar.cmp, Scalar.rank, Scalar.Plain] <;>
      exact TransCmp.lt_trans hab hbc

/-- The indexed values hold no float. -/
def PlainKey (key : IndexKey) : Prop := ∀ s ∈ key, Scalar.Plain s

instance (key : IndexKey) : Decidable (PlainKey key) := inferInstanceAs (Decidable (∀ s ∈ key, _))

theorem indexCmp_eq : indexCmp = fun a b => match lexCmp Scalar.cmp a.1 b.1 with
    | .eq => compare a.2 b.2
    | o => o := by
  funext a b
  unfold indexCmp
  cases lexCmp Scalar.cmp a.1 b.1 <;> rfl

/-- Index entries without floats are totally ordered. -/
theorem indexEntry_lawful : LawfulOn indexCmp fun e => PlainKey e.1 := by
  rw [indexCmp_eq]
  exact pairCmp_lawful (lexCmp_lawful plain_lawful)

end Sp00ky.Ssp
