import Firmware.Proofs.Unplaced
import Firmware.Proofs.Validation.Places
import Firmware.Proofs.Value.Unplaced
/-!
Validation without regard to locations.  A schema without supplied checks makes nodes with
the same content of nodes with the same content, wherever each of them is, or refuses both
for the same reasons.
-/

namespace Firmware

open Validation

/-- Whether a kind makes values with the same content of such values, wherever they are. -/
def Kind.IgnoresPlaces (kind : Kind) : Prop :=
  ∀ (path place : Path) (name : String) (left right : Value), left.content = right.content →
    bare Value.content (kind.convert path name left) =
      bare Value.content (kind.convert place name right)

variable {path place : Path} {name : String} {kind : Kind} {schema : Schema} {field : Field}
  {left right : Node}

theorem Kind.bare_absent (required : Bool) (default : Option Value) (path place : Path) :
    bare (Option.map Value.content) (kind.absent required default path name) =
      bare (Option.map Value.content) (kind.absent required default place name) := by
  unfold absent
  split
  · rfl
  · split <;> rfl

theorem Field.bare_result (hkind : field.kind.IgnoresPlaces) (h : left.content = right.content)
    (path place : Path) (name : String) :
    bare (Option.map Value.content) (field.result path left name) =
      bare (Option.map Value.content) (field.result place right name) := by
  have hgiven : (left.given? name).map Value.content = (right.given? name).map Value.content := by
    rw [← Node.given?_content, h, Node.given?_content]
  rw [result, result]
  cases hleft : left.given? name with
  | none =>
      rw [hleft, Option.map_none, eq_comm, Option.map_eq_none_iff] at hgiven
      rw [hgiven]
      exact Kind.bare_absent field.required field.default path place
  | some value =>
      rw [hleft, Option.map_some, eq_comm, Option.map_eq_some_iff] at hgiven
      obtain ⟨value', hright, hsame⟩ := hgiven
      rw [hright]
      exact bare_map_eq (fun _ _ => congrArg some) (hkind _ _ name _ _ hsame.symm)

namespace Schema

theorem entriesContent_results_eq (h : ∀ entry ∈ schema.fields,
      (entry.2.result path left entry.1).toOption.map (Option.map Value.content) =
        (entry.2.result place right entry.1).toOption.map (Option.map Value.content)) :
    Value.entriesContent (entriesOf (results path schema.fields left)) =
      Value.entriesContent (entriesOf (results place schema.fields right)) := by
  rw [Value.entriesContent_eq_map, Value.entriesContent_eq_map, results_eq_map, results_eq_map,
    entriesOf, entriesOf, List.filterMap_map, List.filterMap_map, List.map_filterMap,
    List.map_filterMap]
  refine List.filterMap_congr fun entry hmem => ?_
  have hresult := h entry hmem
  simp only [Function.comp_apply]
  cases hleft : entry.2.result path left entry.1 with
  | error =>
      cases hright : entry.2.result place right entry.1 with
      | error => rfl
      | ok value => simp [hleft, hright, Except.toOption] at hresult
  | ok value =>
      cases hright : entry.2.result place right entry.1 with
      | error => simp [hleft, hright, Except.toOption] at hresult
      | ok value' =>
          simp only [hleft, hright, Except.toOption, Option.map_some, Option.some.injEq] at hresult
          cases value <;> cases value' <;> simp_all

/-- Two nodes are validated alike, up to a change of problems, if their fields and keys have the
same problems up to that change, and their fields values of the same content. -/
theorem map_validate_eq (change : Problem → Problem)
    (hfaults : (schema.faults path left).map change = (schema.faults place right).map change)
    (hentries : Value.entriesContent (entriesOf (results path schema.fields left)) =
      Value.entriesContent (entriesOf (results place schema.fields right)))
    (hviolation : ∀ message, change ⟨.constraintViolation, some path, message⟩ =
      change ⟨.constraintViolation, some place, message⟩) :
    ((schema.validate path left).map Node.content).mapError (List.map change) =
      ((schema.validate place right).map Node.content).mapError (List.map change) := by
  have hnodes : Node.content ⟨path, entriesOf (results path schema.fields left)⟩ =
      Node.content ⟨place, entriesOf (results place schema.fields right)⟩ :=
    congrArg (Node.mk .root) hentries
  have hbreaches : (schema.breaches path left).map change =
      (schema.breaches place right).map change := by
    rw [breaches, breaches, List.map_filterMap, List.map_filterMap]
    refine List.filterMap_congr fun constraint _ => ?_
    rw [Constraint.problem?, Constraint.problem?, Option.map_map, Option.map_map,
      Constraint.violation?_congr (Node.contains_of_content_eq hnodes)]
    exact Option.map_congr fun message _ => hviolation message
  have hsettle : ∀ (problems : List Problem) (node : Node),
      ((Problem.settle problems node).map Node.content).mapError (List.map change) =
        Problem.settle (problems.map change) node.content := by
    intro problems node
    cases problems <;> rfl
  rw [validate_eq, validate_eq]
  by_cases hnone : schema.faults path left = []
  · have hnone' : schema.faults place right = [] :=
      List.map_eq_nil_iff.mp (hfaults.symm.trans (List.map_eq_nil_iff.mpr hnone))
    rw [if_pos hnone, if_pos hnone', hsettle, hsettle, hbreaches, hnodes]
  · have hsome : schema.faults place right ≠ [] := fun hright =>
      hnone (List.map_eq_nil_iff.mp (hfaults.trans (List.map_eq_nil_iff.mpr hright)))
    rw [if_neg hnone, if_neg hsome]
    exact congrArg Except.error hfaults

/-- Nodes with the same keys are validated alike, up to locations, if their fields are. -/
theorem bare_validate (hfields : ∀ entry ∈ schema.fields,
      bare (Option.map Value.content) (entry.2.result path left entry.1) =
        bare (Option.map Value.content) (entry.2.result place right entry.1))
    (hkeys : left.keys = right.keys) :
    bare Node.content (schema.validate path left) =
      bare Node.content (schema.validate place right) := by
  have hfaults : (schema.faults path left).map Problem.unplaced =
      (schema.faults place right).map Problem.unplaced := by
    have hunknown : (unknownKeys left schema.fields path).map Problem.unplaced =
        (unknownKeys right schema.fields place).map Problem.unplaced := by
      rw [unknownKeys, unknownKeys, hkeys, List.map_map, List.map_map]
      rfl
    rw [faults, faults, List.map_append, List.map_append, hunknown, List.map_flatMap,
      List.map_flatMap]
    refine congrArg (· ++ _) (List.flatMap_congr fun entry hmem => ?_)
    rw [← reported_bare (Option.map Value.content), ← reported_bare (Option.map Value.content),
      hfields entry hmem]
  have hvalues : ∀ entry ∈ schema.fields,
      (entry.2.result path left entry.1).toOption.map (Option.map Value.content) =
        (entry.2.result place right entry.1).toOption.map (Option.map Value.content) :=
    fun entry hmem => by rw [← toOption_bare, hfields entry hmem, toOption_bare]
  rw [bare_eq_mapError, bare_eq_mapError]
  exact map_validate_eq _ hfaults (entriesContent_results_eq hvalues) fun _ => rfl

/-- Nodes with the same content are validated alike wherever they are. -/
theorem bare_validate_of_content (hfields : ∀ entry ∈ schema.fields, entry.2.kind.IgnoresPlaces)
    (h : left.content = right.content) (path place : Path) :
    bare Node.content (schema.validate path left) =
      bare Node.content (schema.validate place right) := by
  have hkeys : left.keys = right.keys := by rw [← Node.keys_content, h, Node.keys_content]
  exact bare_validate
    (fun entry hmem => Field.bare_result (hfields entry hmem) h path place entry.1) hkeys

end Schema

namespace Kind

/-- A kind without parts takes mappings and sequences for what they are, and says so wherever
it finds them. -/
theorem ignoresPlaces_of_isSimple (hsimple : kind.isSimple = true)
    (hcustom : kind.isCustom = false) : kind.IgnoresPlaces := by
  intro path place name left right h
  have hsame : kind.convert path name left = kind.convert path name right := by
    cases left with
    | mapping | sequence =>
        cases right with
        | mapping | sequence =>
            cases kind with
            | nested | sequenceOf => simp [isSimple] at hsimple
            | custom => simp [isCustom] at hcustom
            | _ => first | rfl | simp [Value.content] at h
        | _ => simp [Value.content] at h
    | _ => rw [Value.eq_of_content_eq rfl h]
  obtain ⟨result, hresult⟩ := exists_located_of_isSimple hsimple name right
  rw [hsame, hresult, hresult]
  cases result <;> rfl

/-- A sequence kind makes the same of two values, up to locations, if the kind of its items
does of theirs. -/
theorem bare_sequenceOf {item : Kind} {left right : Value} {γ : Type} {f : Value → γ}
    (hitem : ∀ position a b, f a = f b →
      bare Value.content (item.convert (path.index position) name a) =
        bare Value.content (item.convert (place.index position) name b))
    (hitems : left.items.map f = right.items.map f) :
    bare Value.content ((Kind.sequenceOf item).convert path name left) =
      bare Value.content ((Kind.sequenceOf item).convert place name right) := by
  have hparts : bare (List.map Value.content)
        (gather (left.items.mapIdx fun position => item.convert (path.index position) name)) =
      bare (List.map Value.content)
        (gather (right.items.mapIdx fun position => item.convert (place.index position) name)) := by
    rw [bare_gather, bare_gather]
    exact congrArg gather (map_mapIdx_eq_of_imp hitem hitems)
  rw [convert, convert]
  refine bare_map_eq (fun items items' hsame => ?_) hparts
  rw [Value.content, Value.content, Value.itemsContent_eq_map, Value.itemsContent_eq_map, hsame]

/-- A nested kind makes the same of two mappings, up to locations, if its schema does. -/
theorem bare_nested (name : String) (h : bare Node.content (schema.validate path left) =
      bare Node.content (schema.validate place right)) :
    bare Value.content ((Kind.nested schema).convert path name left.toValue) =
      bare Value.content ((Kind.nested schema).convert place name right.toValue) := by
  refine bare_map_eq (fun valid valid' hvalid => ?_) h
  rw [Node.content_toValue, hvalid, Node.content_toValue]

/-- What is no mapping is refused by a nested kind for the same reason everywhere. -/
theorem bare_nested_of_no_mapping {left right : Value} (name : String) (hleft : left.node? = none)
    (hright : right.node? = none) (hdescribe : left.describe = right.describe) :
    bare Value.content ((Kind.nested schema).convert path name left) =
      bare Value.content ((Kind.nested schema).convert place name right) := by
  rw [convert_nested_of_no_mapping schema path name hleft,
    convert_nested_of_no_mapping schema place name hright, hdescribe]
  rfl

theorem IgnoresPlaces.sequenceOf {item : Kind} (h : item.IgnoresPlaces) :
    (Kind.sequenceOf item).IgnoresPlaces := by
  intro path place name left right hcontent
  have hitems : left.items.map Value.content = right.items.map Value.content := by
    rw [← Value.items_content, hcontent, Value.items_content]
  exact bare_sequenceOf (fun _ a b hsame => h _ _ name a b hsame) hitems

theorem IgnoresPlaces.nested (h : ∀ entry ∈ schema.fields, entry.2.kind.IgnoresPlaces) :
    (Kind.nested schema).IgnoresPlaces := by
  intro path place name left right hcontent
  have hnode : left.node?.map Node.content = right.node?.map Node.content := by
    rw [← Value.node?_content, hcontent, Value.node?_content]
  cases hleft : left.node? with
  | none =>
      rw [hleft, Option.map_none, eq_comm, Option.map_eq_none_iff] at hnode
      have hdescribe : left.describe = right.describe := by
        rw [← Value.describe_content, hcontent, Value.describe_content]
      exact bare_nested_of_no_mapping name hleft hnode hdescribe
  | some node =>
      rw [hleft, Option.map_some, eq_comm, Option.map_eq_some_iff] at hnode
      obtain ⟨node', hright, hsame⟩ := hnode
      obtain rfl := Value.eq_toValue_of_node? hleft
      obtain rfl := Value.eq_toValue_of_node? hright
      exact bare_nested name (Schema.bare_validate_of_content h hsame.symm path place)

end Kind

/-- Without supplied checks, it does not matter where values are. -/
theorem hereditary_ignoresPlaces :
    Kind.Hereditary (fun kind => !kind.isCustom) Kind.IgnoresPlaces where
  simple _ hsimple hpasses := Kind.ignoresPlaces_of_isSimple hsimple (by simpa using hpasses)
  sequenceOf _ := .sequenceOf
  nested _ := .nested

/-- A schema without supplied checks makes the same of nodes with the same content, wherever
they are. -/
theorem Schema.bare_validate_eq (hcustom : schema.isCustomFree = true)
    (h : left.content = right.content) (path place : Path) :
    bare Node.content (schema.validate path left) =
      bare Node.content (schema.validate place right) :=
  bare_validate_of_content (hereditary_ignoresPlaces.of_schema schema hcustom) h path place

end Firmware
