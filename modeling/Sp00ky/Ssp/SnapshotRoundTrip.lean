/-
  What a snapshot reads back as.

  Each type reads back what it wrote, up to what it skips: a collection comes back without
  its accumulator and its write counter and with digests taken anew
  (`Collection.restored`). A value with a NaN or an infinity in it does not read back at
  all (`Sp00kyValue.ofTagged_tagged`).
-/
import Sp00ky.Ssp.SnapshotJson

namespace Sp00ky.Ssp

open Std Lib

/-! ## Containers -/

section Containers

variable {α β : Type} {f : α → Json} {g : Json → Option β} {h : α → β}

theorem mapM_map_some {l : List α} (hl : ∀ a ∈ l, g (f a) = some (h a)) :
    (l.map f).mapM g = some (l.map h) := by
  induction l with
  | nil => rfl
  | cons a l ih =>
    rw [List.forall_mem_cons] at hl
    rw [List.map_cons, List.mapM_cons, hl.1, ih hl.2]
    rfl

theorem asList_listJson {l : List α} (hl : ∀ a ∈ l, g (f a) = some (h a)) :
    Json.asList g (listJson f l) = some (l.map h) := mapM_map_some hl

theorem foldl_insert_getElem? (l : List (String × β)) (hl : (l.map Prod.fst).Nodup)
    (m : ExtTreeMap String β) (k : String) :
    (l.foldl (fun m kv => m.insert kv.1 kv.2) m)[k]? = (l.lookup k).or m[k]? := by
  induction l generalizing m with
  | nil => rfl
  | cons kv l ih =>
    obtain ⟨k', b⟩ := kv
    rw [List.map_cons, List.nodup_cons] at hl
    rw [List.foldl_cons, ih hl.2, List.lookup_cons]
    by_cases hk : k = k'
    · subst hk
      have hn : l.lookup k = none := by
        rw [List.lookup_eq_none_iff]
        intro p hp
        rw [bne_iff_ne]
        rintro rfl
        exact hl.1 (List.mem_map.mpr ⟨p, hp, rfl⟩)
      simp [hn]
    · have hne : compare k' k ≠ .eq := by simpa using Ne.symm hk
      rw [ExtTreeMap.getElem?_insert, if_neg hne, beq_false_of_ne hk]

theorem lookup_toList {m : ExtTreeMap String α} (k : String) : m.toList.lookup k = m[k]? := by
  cases hm : m[k]? with
  | some a =>
    have hmem := ExtTreeMap.mem_toList_iff_getElem?_eq_some.mpr hm
    cases hl : m.toList.lookup k with
    | none =>
      rw [List.lookup_eq_none_iff] at hl
      simpa using hl _ hmem
    | some b =>
      obtain ⟨l₁, l₂, heq, -⟩ := List.lookup_eq_some_iff.mp hl
      have hb : (k, b) ∈ m.toList := by rw [heq]; simp
      rw [ExtTreeMap.mem_toList_iff_getElem?_eq_some, hm] at hb
      exact hb.symm
  | none =>
    rw [List.lookup_eq_none_iff]
    intro p hp
    rw [bne_iff_ne]
    rintro rfl
    rw [ExtTreeMap.mem_toList_iff_getElem?_eq_some, hm] at hp
    cases hp

theorem lookup_map_snd (l : List (String × α)) (k : String) :
    (l.map fun kv => (kv.1, h kv.2)).lookup k = (l.lookup k).map h := by
  induction l with
  | nil => rfl
  | cons kv l ih =>
    rw [List.map_cons, List.lookup_cons, List.lookup_cons, ih]
    split <;> rfl

theorem asMap_mapJson {m : ExtTreeMap String α}
    (hm : ∀ (k : String) (a : α), m[k]? = some a → g (f a) = some (h a)) :
    Json.asMap g (mapJson f m) = some (m.map fun _ a => h a) := by
  have hread : ((m.toList.map fun kv => (kv.1, f kv.2)).mapM fun kv => (g kv.2).map (kv.1, ·)) =
      some (m.toList.map fun kv => (kv.1, h kv.2)) := by
    have hall : ∀ kv ∈ m.toList, g (f kv.2) = some (h kv.2) := fun kv hkv =>
      hm kv.1 kv.2 (ExtTreeMap.mem_toList_iff_getElem?_eq_some.mp hkv)
    generalize m.toList = l at hall
    induction l with
    | nil => rfl
    | cons kv l ih =>
      rw [List.forall_mem_cons] at hall
      rw [List.map_cons, List.mapM_cons, hall.1, ih hall.2]
      rfl
  rw [mapJson, Json.asMap, hread, Option.map_some, Option.some.injEq]
  refine ExtTreeMap.ext_getElem? fun k => ?_
  have hnodup : ((m.toList.map fun kv => (kv.1, h kv.2)).map Prod.fst).Nodup := by
    rw [List.map_map]
    have := nodup_keys m
    rwa [← ExtTreeMap.map_fst_toList_eq_keys] at this
  rw [foldl_insert_getElem? _ hnodup, lookup_map_snd, lookup_toList, ExtTreeMap.getElem?_map]
  simp

end Containers

theorem map_self {α : Type} (m : ExtTreeMap String α) : (m.map fun _ a => a) = m := by
  refine ExtTreeMap.ext_getElem? fun k => ?_
  rw [ExtTreeMap.getElem?_map, Option.map_id']

/-! ## Values -/

mutual

/-- No float in the value is a NaN or an infinity. -/
def Sp00kyValue.finite : Sp00kyValue → Bool
  | .float f => f.isFinite
  | .array items => finiteItems items
  | .object fields => finiteFields fields
  | _ => true

def Sp00kyValue.finiteItems : List Sp00kyValue → Bool
  | [] => true
  | v :: vs => v.finite && finiteItems vs

def Sp00kyValue.finiteFields : List (String × Sp00kyValue) → Bool
  | [] => true
  | (_, v) :: fs => v.finite && finiteFields fs

end

mutual

/-- A value reads back exactly if its floats are finite. -/
theorem Sp00kyValue.ofTagged_tagged (v : Sp00kyValue) :
    ofTagged v.tagged = if v.finite then some v else none := by
  cases v with
  | null | bool b | int i | str s => rfl
  | float f =>
    rw [tagged, finite]
    cases f.isFinite <;> rfl
  | array items =>
    have h := ofTaggedItems_tagged items
    rw [tagged, finite, ofTagged, if_pos rfl, h]
    split <;> rfl
  | object fields =>
    have h := ofTaggedFields_tagged fields
    rw [tagged, finite, ofTagged, if_pos rfl, h]
    split <;> rfl

theorem Sp00kyValue.ofTaggedItems_tagged (vs : List Sp00kyValue) :
    ofTaggedItems (taggedItems vs) = if finiteItems vs then some vs else none := by
  cases vs with
  | nil => rfl
  | cons v vs =>
    rw [taggedItems, ofTaggedItems, finiteItems, ofTagged_tagged v, ofTaggedItems_tagged vs]
    cases v.finite <;> cases finiteItems vs <;> rfl

theorem Sp00kyValue.ofTaggedFields_tagged (fs : List (String × Sp00kyValue)) :
    ofTaggedFields (taggedFields fs) = if finiteFields fs then some fs else none := by
  cases fs with
  | nil => rfl
  | cons kv fs =>
    obtain ⟨k, v⟩ := kv
    rw [taggedFields, ofTaggedFields, finiteFields, ofTagged_tagged v, ofTaggedFields_tagged fs]
    cases v.finite <;> cases finiteFields fs <;> rfl

end

/-! ## The store -/

/-- A collection read back. -/
def Collection.restored (env : Env) (c : Collection) : Collection :=
  ⟨c.name, c.rows.map fun id r => ⟨r.value, env.digest id r.value⟩, 0, none, 0⟩

/-- Every stored value is finite. -/
def Store.Finite (s : Store) : Prop :=
  ∀ (t id : String) (r : Row), s.row t id = some r → r.value.finite = true

theorem Collection.ofJson_json (env : Env) {c : Collection}
    (hf : ∀ (id : String) (r : Row), c.rows[id]? = some r → r.value.finite = true) :
    Collection.ofJson env c.json = some (c.restored env) := by
  have hrows : Json.asMap Sp00kyValue.ofTagged (mapJson (fun r : Row => r.value.tagged) c.rows) =
      some (c.rows.map fun _ r => r.value) := by
    refine asMap_mapJson fun id r hr => ?_
    rw [Sp00kyValue.ofTagged_tagged, hf id r hr, if_pos rfl]
  have hname : c.json.field "name" Json.asStr = some c.name := rfl
  have hfield : c.json.field "rows" (Json.asMap Sp00kyValue.ofTagged) =
      some (c.rows.map fun _ r => r.value) := hrows
  unfold Collection.ofJson
  rw [hname, hfield]
  simp only [Option.pure_def, Option.bind_eq_bind, Option.bind_some, Option.some.injEq]
  unfold Collection.restored
  congr 1
  refine ExtTreeMap.ext_getElem? fun id => ?_
  simp only [ExtTreeMap.getElem?_map, Option.map_map]
  rfl

/-- A store read back. -/
def Store.restored (env : Env) (s : Store) : Store where
  collections := s.collections.map fun _ c => c.restored env
  pendingDeletedRows := ∅
  named := by
    intro t c hc
    rw [ExtTreeMap.getElem?_map] at hc
    obtain ⟨c', hc', rfl⟩ := Option.map_eq_some_iff.mp hc
    exact s.named t c' hc'

theorem Store.ofJson_json (env : Env) {s : Store} (hf : s.Finite) :
    Store.ofJson env s.json = some (s.restored env) := by
  have hmap : Json.asMap (Collection.ofJson env) (mapJson Collection.json s.collections) =
      some (s.collections.map fun _ c => c.restored env) := by
    refine asMap_mapJson fun t c hc => Collection.ofJson_json env fun id r hr => hf t id r ?_
    rw [Store.row, hc]
    exact hr
  have hfield : s.json.field "collections" (Json.asMap (Collection.ofJson env)) =
      some (s.collections.map fun _ c => c.restored env) := hmap
  rw [Store.ofJson, hfield, Option.bind_some, Store.ofCollections, dif_pos]
  · rfl
  · rintro ⟨t, c⟩ htc
    exact (s.restored env).named t c (ExtTreeMap.mem_toList_iff_getElem?_eq_some.mp htc)

/-! ## Plans -/

theorem Path.ofJson_json {p : Path} (h : p.WF) : Path.ofJson p.json = some p :=
  congrArg some h

theorem CmpOp.ofTag_tag (op : CmpOp) : CmpOp.ofTag op.tag = some op := by cases op <;> decide

theorem CmpOp.ofTag_param (op : CmpOp) : CmpOp.ofTag ("param" ++ op.tag) = none := by
  cases op <;> decide

theorem CmpOp.ofParamTag_tag (op : CmpOp) : CmpOp.ofParamTag ("param" ++ op.tag) = some op := by
  cases op <;> decide

/-- A comparison is none of the other variants. -/
theorem CmpOp.tag_other (op : CmpOp) :
    (∀ s ∈ ["true", "false", "and", "or", "prefix"], op.tag ≠ s) ∧
      ∀ s ∈ ["true", "false", "and", "or", "prefix"], "param" ++ op.tag ≠ s := by
  cases op <;> decide

section Reading

variable {α β : Type} {fields : List (String × Json)} {k : String} {j : Json}

theorem field_of_lookup {f : Json → Option β} (h : fields.lookup k = some j) :
    (Json.object fields).field k f = f j := by
  rw [Json.field, Json.get, h, Option.bind_some]

theorem fieldOr_of_lookup {f : Json → Option β} {b : β} (h : fields.lookup k = some j) :
    (Json.object fields).fieldOr k b f = f j := by
  rw [Json.fieldOr, Json.get, h]

/-- An option whose values are not written as null reads back. -/
theorem asOption_optionJson {f : α → Json} {g : Json → Option α} {o : Option α}
    (h : ∀ a, o = some a → f a ≠ .null ∧ g (f a) = some a) :
    Json.asOption g (optionJson f o) = some o := by
  cases o with
  | none => rfl
  | some a =>
    obtain ⟨hn, hg⟩ := h a rfl
    rw [optionJson]
    unfold Json.asOption
    split
    next he => exact absurd he hn
    next => rw [hg]; rfl

end Reading

mutual

theorem Predicate.ofJson_json : ∀ p : Predicate, p.WF → Predicate.ofJson p.json = some p
  | .true, _ => by rw [Predicate.json, Predicate.ofJson]; rfl
  | .false, _ => by rw [Predicate.json, Predicate.ofJson]; rfl
  | .cmp op field value, h => by
    have htag : (Json.object [("field", field.json), ("type", .str op.tag), ("value", value)]).field
        "type" Json.asStr = some op.tag := rfl
    have hfield : (Json.object [("field", field.json), ("type", .str op.tag),
        ("value", value)]).field "field" Path.ofJson = some field := Path.ofJson_json h.1
    obtain ⟨hne, -⟩ := CmpOp.tag_other op
    simp only [List.forall_mem_cons] at hne
    obtain ⟨h1, h2, h3, h4, h5, -⟩ := hne
    rw [Predicate.json, Predicate.ofJson, htag]
    dsimp only
    rw [if_neg h1, if_neg h2, if_neg h3, if_neg h4, if_neg h5, CmpOp.ofTag_tag, hfield]
    rfl
  | .prefixed field pre, h => by
    have hfield : (Json.object [("field", field.json), ("prefix", .str pre),
        ("type", .str "prefix")]).field "field" Path.ofJson = some field := Path.ofJson_json h
    rw [Predicate.json, Predicate.ofJson, field_of_lookup (k := "type") rfl]
    rw [hfield]
    rfl
  | .paramCmp op param value, _ => by
    have htag : (Json.object [("param", .str param), ("type", .str ("param" ++ op.tag)),
        ("value", value)]).field "type" Json.asStr = some ("param" ++ op.tag) := rfl
    obtain ⟨-, hne⟩ := CmpOp.tag_other op
    simp only [List.forall_mem_cons] at hne
    obtain ⟨h1, h2, h3, h4, h5, -⟩ := hne
    rw [Predicate.json, Predicate.ofJson, htag]
    dsimp only
    rw [if_neg h1, if_neg h2, if_neg h3, if_neg h4, if_neg h5, CmpOp.ofTag_param,
      CmpOp.ofParamTag_tag]
    rfl
  | .and ps, h => by
    rw [Predicate.json, Predicate.ofJson, field_of_lookup (k := "type") rfl]
    have hps := Predicate.ofJsonAll_json ps h
    have hget : (Json.object [("predicates", .array (Predicate.jsonAll ps)),
        ("type", .str "and")]).get "predicates" = some (.array (Predicate.jsonAll ps)) := rfl
    simp only [Json.asStr]
    rw [if_neg (by decide), if_neg (by decide), if_pos trivial]
    split
    next ps' hg =>
      rw [hget] at hg
      cases hg
      rw [hps]
      rfl
    next hno => exact absurd hget (hno _)
  | .or ps, h => by
    rw [Predicate.json, Predicate.ofJson, field_of_lookup (k := "type") rfl]
    have hps := Predicate.ofJsonAll_json ps h
    have hget : (Json.object [("predicates", .array (Predicate.jsonAll ps)),
        ("type", .str "or")]).get "predicates" = some (.array (Predicate.jsonAll ps)) := rfl
    simp only [Json.asStr]
    rw [if_neg (by decide), if_neg (by decide), if_neg (by decide), if_pos trivial]
    split
    next ps' hg =>
      rw [hget] at hg
      cases hg
      rw [hps]
      rfl
    next hno => exact absurd hget (hno _)

theorem Predicate.ofJsonAll_json : ∀ ps : List Predicate, WFAll ps →
    Predicate.ofJsonAll (jsonAll ps) = some ps
  | [], _ => by rw [Predicate.jsonAll, Predicate.ofJsonAll]
  | p :: ps, h => by
    rw [Predicate.jsonAll, Predicate.ofJsonAll, Predicate.ofJson_json p h.1,
      Predicate.ofJsonAll_json ps h.2]

end

theorem JoinCondition.ofJson_json {on : JoinCondition} (h : on.WF) :
    JoinCondition.ofJson on.json = some on := by
  unfold JoinCondition.ofJson JoinCondition.json
  rw [field_of_lookup (k := "left_field") rfl, field_of_lookup (k := "right_field") rfl,
    Path.ofJson_json h.1, Path.ofJson_json h.2]
  rfl

theorem OrderSpec.ofJson_json {o : OrderSpec} (h : o.WF) : OrderSpec.ofJson o.json = some o := by
  unfold OrderSpec.ofJson OrderSpec.json
  rw [field_of_lookup (k := "field") rfl, field_of_lookup (k := "direction") rfl,
    Path.ofJson_json h]
  rfl

theorem SubqueryParentKey.ofJson_json (key : SubqueryParentKey) :
    SubqueryParentKey.ofJson key.json = some key := rfl

theorem orderBy_ofJson_json {orderBy : Option (List OrderSpec)} (h : ∀ o ∈ orderBy.getD [], o.WF) :
    Json.asOption (Json.asList OrderSpec.ofJson)
      (optionJson (fun os => .array (os.map OrderSpec.json)) orderBy) = some orderBy := by
  refine asOption_optionJson fun os hos => ⟨by simp, ?_⟩
  subst hos
  rw [Option.getD_some] at h
  have := mapM_map_some (g := OrderSpec.ofJson) (h := id) fun o ho => OrderSpec.ofJson_json (h o ho)
  rwa [List.map_id] at this

theorem parentKey_ofJson_json (key : Option SubqueryParentKey) :
    Json.asOption SubqueryParentKey.ofJson (optionJson SubqueryParentKey.json key) = some key :=
  asOption_optionJson fun _ _ => ⟨by simp [SubqueryParentKey.json], rfl⟩

theorem asNat_int (n : Nat) : Json.asNat (.int n) = some n := by simp [Json.asNat]

/-- Go on with a part that reads back. -/
theorem bind_ofJson {α β : Type} {o : Option α} {a : α} {f : α → Option β} {b : β} (h : o = some a)
    (hf : f a = some b) : o.bind f = some b := by
  rw [h, Option.bind_some, hf]

mutual

theorem OperatorPlan.ofJson_json : ∀ p : OperatorPlan, p.WF → OperatorPlan.ofJson p.json = some p
  | .scan t, _ => by rw [OperatorPlan.json, OperatorPlan.ofJson]; rfl
  | .filter input p, h => by
    have hi := OperatorPlan.ofJson_json input h.1
    have hp := Predicate.ofJson_json p h.2
    rw [OperatorPlan.json, OperatorPlan.ofJson, field_of_lookup (k := "op") rfl]
    dsimp only [Json.asStr]
    rw [if_neg (by decide), if_pos rfl]
    exact bind_ofJson hi (bind_ofJson hp rfl)
  | .join l r on, h | .semiJoin l r on, h | .antiJoin l r on, h => by
    have hl := OperatorPlan.ofJson_json l h.1
    have hr := OperatorPlan.ofJson_json r h.2.1
    rw [OperatorPlan.json, OperatorPlan.ofJson, field_of_lookup (k := "op") rfl]
    dsimp only [Json.asStr]
    rw [if_neg (by decide), if_neg (by decide), if_pos (by decide)]
    refine bind_ofJson hl (bind_ofJson hr (bind_ofJson (JoinCondition.ofJson_json h.2.2) ?_))
    rfl
  | .union l r, h => by
    have hl := OperatorPlan.ofJson_json l h.1
    have hr := OperatorPlan.ofJson_json r h.2
    rw [OperatorPlan.json, OperatorPlan.ofJson, field_of_lookup (k := "op") rfl]
    dsimp only [Json.asStr]
    rw [if_neg (by decide), if_neg (by decide), if_neg (by decide), if_pos rfl]
    exact bind_ofJson hl (bind_ofJson hr rfl)
  | .distinct input, h => by
    have hi := OperatorPlan.ofJson_json input h
    rw [OperatorPlan.json, OperatorPlan.ofJson, field_of_lookup (k := "op") rfl]
    dsimp only [Json.asStr]
    rw [if_neg (by decide), if_neg (by decide), if_neg (by decide), if_neg (by decide), if_pos rfl]
    exact congrArg (Option.map OperatorPlan.distinct) hi
  | .project input ps, h => by
    have hi := OperatorPlan.ofJson_json input h.1
    have hps := Projection.ofJsonAll_json ps h.2
    have hget : (Json.object [("input", input.json), ("op", .str "project"),
        ("projections", .array (Projection.jsonAll ps))]).get "projections" =
          some (.array (Projection.jsonAll ps)) := rfl
    have hin : (Json.object [("input", input.json), ("op", .str "project"),
        ("projections", .array (Projection.jsonAll ps))]).get "input" = some input.json := rfl
    rw [OperatorPlan.json, OperatorPlan.ofJson, field_of_lookup (k := "op") rfl]
    dsimp only [Json.asStr]
    rw [if_neg (by decide), if_neg (by decide), if_neg (by decide), if_neg (by decide),
      if_neg (by decide), if_pos rfl]
    split
    next i' ps' hi' hp' =>
      rw [hin] at hi'
      rw [hget] at hp'
      cases hi'
      cases hp'
      rw [hi, hps]
      rfl
    next hno => exact absurd hget (hno _ _ hin)
  | .limit input lim start ob, h => by
    have hi := OperatorPlan.ofJson_json input h.1
    rw [OperatorPlan.json, OperatorPlan.ofJson, field_of_lookup (k := "op") rfl]
    dsimp only [Json.asStr]
    rw [if_neg (by decide), if_neg (by decide), if_neg (by decide), if_neg (by decide),
      if_neg (by decide), if_neg (by decide), if_pos rfl]
    exact bind_ofJson hi (bind_ofJson (asNat_int lim) (bind_ofJson (asNat_int start)
      (bind_ofJson (orderBy_ofJson_json h.2) rfl)))

theorem Projection.ofJson_json : ∀ p : Projection, p.WF → Projection.ofJson p.json = some p
  | .all, _ => by rw [Projection.json, Projection.ofJson]; rfl
  | .field field asName, h => by
    have hn : Json.asOption Json.asStr (optionJson .str asName) = some asName :=
      asOption_optionJson fun _ _ => ⟨by simp, rfl⟩
    have hf : ((Json.object [("alias", optionJson .str asName), ("field", field.json),
        ("type", .str "field")]).get "field").or ((Json.object [("alias", optionJson .str asName),
          ("field", field.json), ("type", .str "field")]).get "name") = some field.json := rfl
    rw [Projection.json, Projection.ofJson, field_of_lookup (k := "type") rfl]
    dsimp only [Json.asStr]
    rw [if_neg (by decide), if_pos rfl, hf, fieldOr_of_lookup (k := "alias") rfl, hn,
      Option.bind_some, Path.ofJson_json h]
    rfl
  | .subquery asName plan key, h => by
    have hi := OperatorPlan.ofJson_json plan h
    have hget : (Json.object [("alias", .str asName),
        ("parent_key", optionJson SubqueryParentKey.json key), ("plan", plan.json),
        ("type", .str "subquery")]).get "plan" = some plan.json := rfl
    rw [Projection.json, Projection.ofJson, field_of_lookup (k := "type") rfl]
    dsimp only [Json.asStr]
    rw [if_neg (by decide), if_neg (by decide), if_pos rfl]
    split
    next i' hi' =>
      rw [hget] at hi'
      cases hi'
      rw [hi, field_of_lookup (k := "alias") rfl, fieldOr_of_lookup (k := "parent_key") rfl,
        parentKey_ofJson_json]
      rfl
    next hno => rw [hget] at hno; cases hno

theorem Projection.ofJsonAll_json : ∀ ps : List Projection, Projection.WFAll ps →
    Projection.ofJsonAll (Projection.jsonAll ps) = some ps
  | [], _ => by rw [Projection.jsonAll, Projection.ofJsonAll]
  | p :: ps, h => by
    rw [Projection.jsonAll, Projection.ofJsonAll, Projection.ofJson_json p h.1,
      Projection.ofJsonAll_json ps h.2]

end

/-- Serialised plans stand for one plan. -/
theorem OperatorPlan.json_inj {p q : OperatorPlan} (hp : p.WF) (hq : q.WF)
    (h : p.json = q.json) : p = q := by
  have hread := OperatorPlan.ofJson_json p hp
  rw [h, OperatorPlan.ofJson_json q hq] at hread
  exact (Option.some.inj hread).symm

/-- A well-formed plan reads back. -/
theorem QueryPlan.ofJson_json {p : QueryPlan} (h : p.root.WF) : QueryPlan.ofJson p.json = some p := by
  unfold QueryPlan.ofJson QueryPlan.json
  rw [field_of_lookup (k := "id") rfl, field_of_lookup (k := "root") rfl,
    OperatorPlan.ofJson_json p.root h]
  rfl

/-! ## Queries -/

theorem subscribers_ofJson_json (l : List Subscriber) :
    Json.asList Subscriber.ofJson (listJson Subscriber.json l) = some l := by
  have := asList_listJson (f := Subscriber.json) (g := Subscriber.ofJson) (h := id) (l := l)
    fun _ _ => rfl
  rwa [List.map_id] at this

theorem zset_ofJson_json (z : ZSet) : Json.asMap Json.asInt (mapJson Json.int z) = some z := by
  have := asMap_mapJson (f := Json.int) (g := Json.asInt) (h := id) (m := z) fun _ _ _ => rfl
  rwa [show (z.map fun _ a => id a) = z from map_self z] at this

theorem subqueryCache_ofJson_json (m : SubqueryCache) :
    Json.asMap subqueryEntryOfJson (mapJson subqueryEntryJson m) = some m := by
  have := asMap_mapJson (f := subqueryEntryJson) (g := subqueryEntryOfJson) (h := id) (m := m)
    fun _ _ _ => rfl
  rwa [show (m.map fun _ a => id a) = m from map_self m] at this

/-- A query's state reads back; `Some(null)` parameters come back as `None`. -/
theorem QueryState.ofJson_json {q : QueryState} (h : q.plan.root.WF) :
    QueryState.ofJson q.json =
      some { q with params := q.params.bind fun j => match j with
        | .null => none
        | j => some j } := by
  have hp : Json.asOption some (optionJson id q.params) = some (q.params.bind fun j => match j with
      | .null => none
      | j => some j) := by
    cases q.params with
    | none => rfl
    | some j => cases j <;> rfl
  unfold QueryState.ofJson QueryState.json
  rw [field_of_lookup (k := "plan") rfl, field_of_lookup (k := "cache") rfl,
    field_of_lookup (k := "last_hash") rfl, field_of_lookup (k := "content_generation") rfl,
    fieldOr_of_lookup (k := "params") rfl, fieldOr_of_lookup (k := "subquery_cache") rfl,
    fieldOr_of_lookup (k := "auth_id") rfl, fieldOr_of_lookup (k := "subscribers") rfl,
    fieldOr_of_lookup (k := "detached") rfl, fieldOr_of_lookup (k := "merge_key") rfl,
    QueryPlan.ofJson_json h, hp, zset_ofJson_json, subqueryCache_ofJson_json,
    subscribers_ofJson_json, asNat_int]
  rfl

end Sp00ky.Ssp
