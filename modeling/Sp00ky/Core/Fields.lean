/-
  Rows of the client and of the server (`packages/core/src/mutation/rows.ts`).

  A row is its fields. `CREATE ... SET` writes the fields it names, `UPDATE ... MERGE` changes those
  of its patch one by one and does nothing without a row, `DELETE` removes the row. How a merge
  changes one field is the database's and stays a parameter: a value takes the place of the old
  one, and the fields of an object may be merged in turn.
-/
import Sp00ky.Lib.Absorb
import Sp00ky.Lib.Maps

namespace Sp00ky.Core

open Std Lib

/-- The fields of a row or of a patch. -/
abbrev Fields (V : Type) := ExtTreeMap String V

section

variable {V : Type} (merge : Option V → V → Option V)

/-- `MERGE`. -/
def mergeFields (row patch : Fields V) : Fields V := foldAlter (fun _ old v => merge old v) row patch

/-- What a patch makes of one field. -/
def mergeField (old : Option V) (patch : Option V) : Option V := patch.elim old (merge old)

theorem getElem?_mergeFields (row patch : Fields V) (field : String) :
    (mergeFields merge row patch)[field]? = mergeField merge row[field]? patch[field]? := by
  unfold mergeFields mergeField
  rw [getElem?_foldAlter]
  cases patch[field]? <;> rfl

/-- `{ ...data, ...more }`. -/
def spread (data more : Fields V) : Fields V := foldAlter (fun _ _ v => some v) data more

theorem getElem?_spread (data more : Fields V) (field : String) :
    (spread data more)[field]? = more[field]?.or data[field]? := by
  unfold spread
  rw [getElem?_foldAlter]
  cases more[field]? <;> rfl

/-- A mutation of one record. -/
inductive Change (V : Type) where
  | create (data : Fields V)
  | update (data : Fields V)
  | delete

/-- What a mutation makes of the row when it is accepted. -/
def Change.run (row : Option (Fields V)) : Change V → Option (Fields V)
  | .create data => some data
  | .update data => row.map fun r => mergeFields merge r data
  | .delete => none

end

/-! ## Fields that are overwritten -/

/-- A field whose new value takes the place of the old one. -/
def overwrite (_ : Option Nat) (v : Nat) : Option Nat := some v

theorem overwrite_absorbs (v v' : Nat) : Absorbs overwrite v v' := fun _ _ => rfl

/-- The fields of a row with a title. -/
def title (v : Nat) : Fields Nat := (∅ : Fields Nat).insert "title" v

end Sp00ky.Core
