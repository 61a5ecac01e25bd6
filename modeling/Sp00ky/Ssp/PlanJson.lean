/-
  Serialised plans.

  `Path::new` and the field order of a JSON map are all a plan's text forgets. The serialised form
  of a well-formed plan is itself a well-formed JSON value (`OperatorPlan.json_wf`).
-/
import Sp00ky.Ssp.MergeKey

namespace Sp00ky.Ssp

open Lib

/-! ## Plans behind a serialised form -/

/-- A path as `Path::new` builds it. -/
def Path.WF (p : Path) : Prop := Path.new p.asStr = p

mutual

def Predicate.WF : Predicate → Prop
  | .cmp _ field value => field.WF ∧ value.WF
  | .prefixed field _ => field.WF
  | .paramCmp _ _ value => value.WF
  | .and ps => WFAll ps
  | .or ps => WFAll ps
  | _ => True

def Predicate.WFAll : List Predicate → Prop
  | [] => True
  | p :: ps => p.WF ∧ WFAll ps

end

def OrderSpec.WF (o : OrderSpec) : Prop := o.field.WF

def JoinCondition.WF (on : JoinCondition) : Prop := on.leftField.WF ∧ on.rightField.WF

mutual

def OperatorPlan.WF : OperatorPlan → Prop
  | .scan _ => True
  | .filter input p => input.WF ∧ p.WF
  | .join l r on => l.WF ∧ r.WF ∧ on.WF
  | .semiJoin l r on => l.WF ∧ r.WF ∧ on.WF
  | .antiJoin l r on => l.WF ∧ r.WF ∧ on.WF
  | .union l r => l.WF ∧ r.WF
  | .distinct input => input.WF
  | .project input ps => input.WF ∧ Projection.WFAll ps
  | .limit input _ _ orderBy => input.WF ∧ ∀ o ∈ orderBy.getD [], o.WF

def Projection.WF : Projection → Prop
  | .all => True
  | .field field _ => field.WF
  | .subquery _ plan _ => plan.WF

def Projection.WFAll : List Projection → Prop
  | [] => True
  | p :: ps => p.WF ∧ Projection.WFAll ps

end

/-! ## Serialised plans are maps -/

theorem Json.wf_object (keys : List String) {fields : List (String × Json)}
    (hk : fields.map Prod.fst = keys) (hs : keys.Pairwise (compare · · = .lt))
    (hf : Json.WFFields fields) : (Json.object fields).WF :=
  ⟨hf, by rw [hk]; exact hs⟩

mutual

theorem Predicate.json_wf : ∀ p : Predicate, p.WF → p.json.WF
  | .true, _ => Json.wf_object ["type"] rfl (by decide) ⟨trivial, trivial⟩
  | .false, _ => Json.wf_object ["type"] rfl (by decide) ⟨trivial, trivial⟩
  | .cmp _ _ _, h =>
    Json.wf_object ["field", "type", "value"] rfl (by decide) ⟨trivial, trivial, h.2, trivial⟩
  | .prefixed _ _, _ =>
    Json.wf_object ["field", "prefix", "type"] rfl (by decide) ⟨trivial, trivial, trivial, trivial⟩
  | .paramCmp _ _ _, h =>
    Json.wf_object ["param", "type", "value"] rfl (by decide) ⟨trivial, trivial, h, trivial⟩
  | .and ps, h =>
    Json.wf_object ["predicates", "type"] rfl (by decide)
      ⟨Predicate.jsonAll_wf ps h, trivial, trivial⟩
  | .or ps, h =>
    Json.wf_object ["predicates", "type"] rfl (by decide)
      ⟨Predicate.jsonAll_wf ps h, trivial, trivial⟩

theorem Predicate.jsonAll_wf : ∀ ps : List Predicate, WFAll ps → Json.WFItems (jsonAll ps)
  | [], _ => trivial
  | p :: ps, h => ⟨Predicate.json_wf p h.1, Predicate.jsonAll_wf ps h.2⟩

end

theorem JoinCondition.json_wf (on : JoinCondition) : on.json.WF :=
  Json.wf_object ["left_field", "right_field"] rfl (by decide) ⟨trivial, trivial, trivial⟩

theorem OrderSpec.json_wf (o : OrderSpec) : o.json.WF :=
  Json.wf_object ["direction", "field"] rfl (by decide) ⟨trivial, trivial, trivial⟩

theorem orderBy_json_wf (orderBy : Option (List OrderSpec)) :
    (optionJson (fun os => .array (os.map OrderSpec.json)) orderBy).WF := by
  cases orderBy with
  | none => trivial
  | some l =>
    change Json.WFItems (l.map OrderSpec.json)
    induction l with
    | nil => trivial
    | cons o l ih => exact ⟨o.json_wf, ih⟩

theorem parentKey_json_wf (k : Option SubqueryParentKey) :
    (optionJson SubqueryParentKey.json k).WF := by
  cases k with
  | none => trivial
  | some k =>
    exact Json.wf_object ["child_field", "parent_field"] rfl (by decide) ⟨trivial, trivial, trivial⟩

theorem asName_json_wf (a : Option String) : (optionJson Json.str a).WF := by
  cases a <;> trivial

mutual

theorem OperatorPlan.json_wf : ∀ p : OperatorPlan, p.WF → p.json.WF
  | .scan _, _ => Json.wf_object ["op", "table"] rfl (by decide) ⟨trivial, trivial, trivial⟩
  | .filter input p, h =>
    Json.wf_object ["input", "op", "predicate"] rfl (by decide)
      ⟨OperatorPlan.json_wf input h.1, trivial, Predicate.json_wf p h.2, trivial⟩
  | .join l r on, h =>
    Json.wf_object ["left", "on", "op", "right"] rfl (by decide)
      ⟨OperatorPlan.json_wf l h.1, on.json_wf, trivial, OperatorPlan.json_wf r h.2.1, trivial⟩
  | .semiJoin l r on, h =>
    Json.wf_object ["left", "on", "op", "right"] rfl (by decide)
      ⟨OperatorPlan.json_wf l h.1, on.json_wf, trivial, OperatorPlan.json_wf r h.2.1, trivial⟩
  | .antiJoin l r on, h =>
    Json.wf_object ["left", "on", "op", "right"] rfl (by decide)
      ⟨OperatorPlan.json_wf l h.1, on.json_wf, trivial, OperatorPlan.json_wf r h.2.1, trivial⟩
  | .union l r, h =>
    Json.wf_object ["left", "op", "right"] rfl (by decide)
      ⟨OperatorPlan.json_wf l h.1, trivial, OperatorPlan.json_wf r h.2, trivial⟩
  | .distinct input, h =>
    Json.wf_object ["input", "op"] rfl (by decide) ⟨OperatorPlan.json_wf input h, trivial, trivial⟩
  | .project input ps, h =>
    Json.wf_object ["input", "op", "projections"] rfl (by decide)
      ⟨OperatorPlan.json_wf input h.1, trivial, Projection.jsonAll_wf ps h.2, trivial⟩
  | .limit input _ _ ob, h =>
    Json.wf_object ["input", "limit", "op", "order_by", "start"] rfl (by decide)
      ⟨OperatorPlan.json_wf input h.1, trivial, trivial, orderBy_json_wf ob, trivial, trivial⟩

theorem Projection.json_wf : ∀ p : Projection, p.WF → p.json.WF
  | .all, _ => Json.wf_object ["type"] rfl (by decide) ⟨trivial, trivial⟩
  | .field _ a, _ =>
    Json.wf_object ["alias", "field", "type"] rfl (by decide)
      ⟨asName_json_wf a, trivial, trivial, trivial⟩
  | .subquery _ plan k, h =>
    Json.wf_object ["alias", "parent_key", "plan", "type"] rfl (by decide)
      ⟨trivial, parentKey_json_wf k, OperatorPlan.json_wf plan h, trivial, trivial⟩

theorem Projection.jsonAll_wf : ∀ ps : List Projection, Projection.WFAll ps →
    Json.WFItems (Projection.jsonAll ps)
  | [], _ => trivial
  | p :: ps, h => ⟨Projection.json_wf p h.1, Projection.jsonAll_wf ps h.2⟩

end

end Sp00ky.Ssp
