/-
  Mutations of one record that run more than once.

  The server runs a prefix of the record's mutations, and later the list from its start again, where
  a create leaves a row that is there. `Resumed` is what holds of the row between two such runs; it
  is kept when more mutations are added (`Resumed.grow`), when the first one is settled
  (`Resumed.settle`) and when a run is given up (`Resumed.abandon`). The last two need that no
  update of an absent record meets a row, which only the create behind it can have left there
  (`Startable`).
-/
import Sp00ky.Core.Fields

namespace Sp00ky.Core

open Std Lib

variable {V : Type} {merge : Option V → V → Option V}

/-! ## Merging again -/

theorem foldl_mergeField (a : Option V) (patches : List (Option V)) :
    patches.foldl (mergeField merge) a = (patches.filterMap id).foldl merge a := by
  induction patches generalizing a with
  | nil => rfl
  | cons p patches ih => cases p <;> exact ih _

theorem getElem?_foldl_mergeFields (row : Fields V) (patches : List (Fields V)) (field : String) :
    (patches.foldl (mergeFields merge) row)[field]? =
      (patches.map fun p => p[field]?).foldl (mergeField merge) row[field]? := by
  induction patches generalizing row with
  | nil => rfl
  | cons p patches ih => rw [List.foldl_cons, ih, getElem?_mergeFields, List.map_cons, List.foldl_cons]

/-- A patch of values that absorb themselves absorbs itself. -/
theorem mergeFields_absorbs (h : ∀ v, Absorbs merge v v) (patch : Fields V) :
    Absorbs (mergeFields merge) patch patch := by
  intro row patches
  refine ExtTreeMap.ext_getElem? fun field => ?_
  rw [getElem?_mergeFields, getElem?_mergeFields, getElem?_foldl_mergeFields,
    getElem?_foldl_mergeFields, getElem?_mergeFields, foldl_mergeField, foldl_mergeField]
  cases patch[field]? with
  | none => rfl
  | some v => exact h v _ _

theorem getElem?_foldl_mergeFields_of_not_mem {field : String} {patches : List (Fields V)}
    (h : ∀ p ∈ patches, p[field]? = none) (row : Fields V) :
    (patches.foldl (mergeFields merge) row)[field]? = row[field]? := by
  induction patches generalizing row with
  | nil => rfl
  | cons p patches ih =>
    rw [List.foldl_cons, ih (List.forall_mem_cons.mp h).2, getElem?_mergeFields,
      h p List.mem_cons_self]
    rfl

/-! ## Running and running again -/

section

variable (merge)

/-- A mutation that is run again: a create leaves the row that is there. -/
def Change.rerun (row : Option (Fields V)) : Change V → Option (Fields V)
  | .create data => some (row.getD data)
  | .update data => row.map fun r => mergeFields merge r data
  | .delete => none

/-- Every mutation once, in order. -/
def runs (row : Option (Fields V)) (l : List (Change V)) : Option (Fields V) :=
  l.foldl (Change.run merge) row

def reruns (row : Option (Fields V)) (l : List (Change V)) : Option (Fields V) :=
  l.foldl (Change.rerun merge) row

/-- Only an absent record is created. -/
def Valid (row : Option (Fields V)) : List (Change V) → Prop
  | [] => True
  | a :: l => (∀ data, a = .create data → row = none) ∧ Valid (a.run merge row) l

end

variable {row y c : Option (Fields V)} {l p q : List (Change V)} {a : Change V}

theorem runs_append : runs merge row (p ++ q) = runs merge (runs merge row p) q := List.foldl_append

theorem reruns_append : reruns merge row (p ++ q) = reruns merge (reruns merge row p) q :=
  List.foldl_append

theorem valid_append :
    Valid merge row (p ++ q) ↔ Valid merge row p ∧ Valid merge (runs merge row p) q := by
  induction p generalizing row with
  | nil => exact ⟨fun h => ⟨trivial, h⟩, fun h => h.2⟩
  | cons a p ih =>
    rw [List.cons_append, Valid, Valid, ih, and_assoc]
    rfl

/-- A valid list that starts where it should needs no care. -/
theorem reruns_eq_runs (h : Valid merge row l) : reruns merge row l = runs merge row l := by
  induction l generalizing row with
  | nil => rfl
  | cons a l ih =>
    have hfirst : a.rerun merge row = a.run merge row := by
      cases a with
      | create data =>
        rw [h.1 data rfl]
        rfl
      | update data => rfl
      | delete => rfl
    unfold reruns runs
    rw [List.foldl_cons, List.foldl_cons, hfirst]
    exact ih h.2

/-- What comes before a delete does not count. -/
theorem reruns_of_delete_mem (h : Change.delete ∈ l) (row row' : Option (Fields V)) :
    reruns merge row l = reruns merge row' l := by
  obtain ⟨p, q, rfl⟩ := List.append_of_mem h
  unfold reruns
  rw [List.foldl_append, List.foldl_append]
  rfl

/-- A row that is only there where it should be stays so. -/
theorem reruns_eq_none (h : c = none → y = none) (hc : runs merge c l = none) :
    reruns merge y l = none := by
  induction l generalizing c y with
  | nil => exact h hc
  | cons a l ih =>
    refine @ih (a.rerun merge y) (a.run merge c) ?_ hc
    intro hnone
    cases a with
    | create data => cases hnone
    | update data =>
      have hcnone : c = none := by
        cases c with
        | none => rfl
        | some r => cases hnone
      rw [h hcnone]
      rfl
    | delete => rfl

/-- Updates of a row that is there. -/
theorem reruns_updates (row : Option (Fields V)) (patches : List (Fields V)) :
    reruns merge row (patches.map .update) =
      row.map fun r => patches.foldl (mergeFields merge) r := by
  induction patches generalizing row with
  | nil => cases row <;> rfl
  | cons p patches ih =>
    rw [List.map_cons]
    refine (ih _).trans ?_
    cases row <;> rfl

/-- Without a delete, what follows on a row that is there is updates. -/
theorem updates_of_valid (h : Valid merge row l) (hrow : row.isSome) (hdelete : Change.delete ∉ l) :
    ∃ patches : List (Fields V), l = patches.map .update := by
  induction l generalizing row with
  | nil => exact ⟨[], rfl⟩
  | cons a l ih =>
    cases a with
    | create data =>
      rw [h.1 data rfl] at hrow
      cases hrow
    | update data =>
      obtain ⟨patches, rfl⟩ := ih h.2 (by
        obtain ⟨r, rfl⟩ := Option.isSome_iff_exists.mp hrow
        rfl) fun hmem => hdelete (List.mem_cons_of_mem _ hmem)
      exact ⟨data :: patches, rfl⟩
    | delete => exact absurd List.mem_cons_self hdelete

/-- Updates after some of them. -/
theorem reruns_updates_again (habsorbs : ∀ v, Absorbs merge v v) (row : Option (Fields V))
    {patches part : List (Fields V)} (h : ∀ p ∈ part, p ∈ patches) :
    reruns merge (reruns merge row (part.map .update)) (patches.map .update) =
      reruns merge row (patches.map .update) := by
  rw [reruns_updates, reruns_updates, reruns_updates, Option.map_map]
  cases row with
  | none => rfl
  | some r =>
    refine congrArg some ?_
    exact foldl_prefix_absorbed (fun p _ => mergeFields_absorbs habsorbs p) h r

/-! ## Starting over -/

/-- No update comes first that should find no row and finds one. -/
def Startable (y c : Option (Fields V)) (l : List (Change V)) : Prop :=
  ∀ data rest, l = .update data :: rest → c = none → y = none

/-- What leaves no row leaves none where it is run again. -/
theorem Startable.rerun_none (h : Startable y c (a :: l)) (hc : a.run merge c = none) :
    a.rerun merge y = none := by
  cases a with
  | create data => cases hc
  | update data =>
    have hcnone : c = none := by
      cases c with
      | none => rfl
      | some r => cases hc
    rw [h data _ rfl hcnone]
    rfl
  | delete => rfl

/-- A list after a part of it. -/
theorem reruns_again (habsorbs : ∀ v, Absorbs merge v v) (hvalid : Valid merge c (p ++ q))
    (hstart : Startable y c p) (hagain : Startable (reruns merge y p) c (p ++ q)) :
    reruns merge (reruns merge y p) (p ++ q) = reruns merge y (p ++ q) := by
  by_cases hdelete : Change.delete ∈ p ++ q
  · exact reruns_of_delete_mem hdelete _ _
  cases p with
  | nil => rfl
  | cons a p =>
    have hrest : Change.delete ∉ p ++ q := fun hmem => hdelete (List.mem_cons_of_mem _ hmem)
    cases a with
    | create data =>
      obtain ⟨patches, hpatches⟩ := updates_of_valid hvalid.2 rfl hrest
      obtain ⟨before, after, rfl, rfl, rfl⟩ := List.map_eq_append_iff.mp hpatches.symm
      have hrow : reruns merge y (.create data :: before.map .update) =
          reruns merge (some (y.getD data)) (before.map .update) := rfl
      have hlist : ∀ z : Option (Fields V), reruns merge z
          (.create data :: before.map .update ++ after.map .update) =
            reruns merge (some (z.getD data)) ((before ++ after).map .update) := by
        intro z
        rw [List.map_append]
        rfl
      rw [hlist, hlist, hrow, reruns_updates (some (y.getD data)) before, Option.map_some,
        Option.getD_some]
      have hpart : ∀ p ∈ before, p ∈ before ++ after := fun p hp => List.mem_append_left _ hp
      have hagain := reruns_updates_again habsorbs (some (y.getD data)) hpart
      rw [reruns_updates (some (y.getD data)) before] at hagain
      exact hagain
    | update data =>
      cases c with
      | none =>
        -- the record is absent before and after the part
        rw [hagain data (p ++ q) rfl rfl, hstart data p rfl rfl]
      | some r =>
        obtain ⟨patches, hpatches⟩ := updates_of_valid hvalid rfl hdelete
        obtain ⟨before, after, rfl, hbefore, rfl⟩ := List.map_eq_append_iff.mp hpatches.symm
        rw [← hbefore, ← List.map_append]
        exact reruns_updates_again habsorbs y fun p hp => List.mem_append_left _ hp
    | delete => exact absurd List.mem_cons_self hdelete

/-- The row between two runs of the list. `c` is the row the mutations settled so far make, and `l`
    the mutations that may have run. -/
structure Resumed (merge : Option V → V → Option V) (y c : Option (Fields V))
    (l : List (Change V)) : Prop where
  agree : Startable y c l → reruns merge y l = runs merge c l
  created : ∀ (data : Fields V) (patches : List (Fields V)) (r : Fields V),
    l = .create data :: patches.map .update → y = some r → ∀ field : String,
      (∀ p ∈ patches, p[field]? = none) → r[field]? = data[field]?

namespace Resumed

/-- Nothing may have run. -/
theorem start (row : Option (Fields V)) : Resumed merge row row [] :=
  ⟨fun _ => rfl, by rintro data patches r ⟨⟩⟩

theorem eq_of_nil (h : Resumed merge y c []) : y = c :=
  h.agree (by rintro data rest ⟨⟩)

/-- More mutations are sent. -/
theorem grow (h : Resumed merge y c l) (hvalid : Valid merge c (l ++ q)) :
    Resumed merge y c (l ++ q) where
  agree hstart := by
    have hfirst : Startable y c l := by
      rintro data rest rfl
      exact hstart data (rest ++ q) rfl
    rw [reruns_append, runs_append, h.agree hfirst, reruns_eq_runs (valid_append.mp hvalid).2]
  created data patches r hl hr field hfield := by
    cases l with
    | nil =>
      -- the create has not run
      have hc := h.eq_of_nil
      rw [List.nil_append] at hl hvalid
      subst hl
      rw [hr, hvalid.1 data rfl] at hc
      cases hc
    | cons a rest =>
      obtain ⟨rfl, hrest⟩ := List.cons.inj hl
      obtain ⟨before, after, rfl, rfl, rfl⟩ := List.map_eq_append_iff.mp hrest.symm
      exact h.created data before r rfl hr field fun p hp => hfield p (List.mem_append_left _ hp)

/-- The first mutation has run and is settled. -/
theorem settle (h : Resumed merge y c (a :: l)) (hvalid : Valid merge c (a :: l))
    (hstart : Startable y c (a :: l)) : Resumed merge (a.rerun merge y) (a.run merge c) l where
  agree _ := h.agree hstart
  created data patches r hl hr := by
    -- before a create the record is absent, also where it is run again
    exfalso
    subst hl
    rw [hstart.rerun_none (hvalid.2.1 data rfl)] at hr
    cases hr

theorem startable_settle (hstart : Startable y c (a :: l)) :
    Startable (a.rerun merge y) (a.run merge c) l := by
  rintro data rest rfl hc
  exact hstart.rerun_none hc

/-- A part has run, and nobody knows. -/
theorem abandon (habsorbs : ∀ v, Absorbs merge v v) (h : Resumed merge y c (p ++ q))
    (hvalid : Valid merge c (p ++ q)) (hstart : Startable y c p) :
    Resumed merge (reruns merge y p) c (p ++ q) where
  agree hagain := by
    rw [reruns_again habsorbs hvalid hstart hagain]
    refine h.agree ?_
    intro data rest hl hc
    cases p with
    | nil => exact hagain data rest hl hc
    | cons a p =>
      obtain ⟨rfl, -⟩ := List.cons.inj hl
      exact hstart data p rfl hc
  created data patches r hl hr field hfield := by
    cases p with
    | nil => exact h.created data patches r hl hr field hfield
    | cons a p =>
      obtain ⟨rfl, hrest⟩ := List.cons.inj hl
      obtain ⟨before, after, rfl, rfl, rfl⟩ := List.map_eq_append_iff.mp hrest.symm
      have hmerged : r = before.foldl (mergeFields merge) (y.getD data) := by
        have hrow : reruns merge y (.create data :: before.map .update) =
            reruns merge (some (y.getD data)) (before.map .update) := rfl
        rw [hrow, reruns_updates] at hr
        exact (Option.some.inj hr).symm
      rw [hmerged, getElem?_foldl_mergeFields_of_not_mem fun p hp =>
        hfield p (List.mem_append_left _ hp)]
      cases hy : y with
      | none => rfl
      | some r' =>
        exact h.created data (before ++ after) r' (by rw [List.map_append]; rfl) hy field hfield

/-- A create that meets a row comes first, and the row is its own. -/
theorem create_first {data r : Fields V}
    (hvalid : Valid merge c (p ++ [.create data])) (hstart : Startable y c p)
    (hrun : reruns merge y p = some r) : p = [] := by
  cases p with
  | nil => rfl
  | cons a p =>
    exfalso
    have hc : runs merge (a.run merge c) p = none :=
      (valid_append.mp hvalid).2.1 data rfl
    have := reruns_eq_none hstart.rerun_none hc
    rw [show reruns merge (a.rerun merge y) p = some r from hrun] at this
    cases this

end Resumed

end Sp00ky.Core
