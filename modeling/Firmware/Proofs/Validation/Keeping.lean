import Firmware.Proofs.Validation.Normal
/-!
Normal forms are kept.  A normal value is converted to itself, wherever it is: each part
of it is, and nothing is added for what it lacks.
-/

namespace Firmware

open Validation

variable {path : Path} {name : String} {kind : Kind} {schema : Schema} {value : Value}
  {raw node : Node}

namespace Validation

/-- Items are gathered as what is seen of them says exactly if each is converted to what is
seen of it. -/
theorem gather_mapIdx_iff {α β : Type} {convert : Nat → α → Except (List Problem) Value}
    {seen : Value → β} {target : α → β} {items : List α} :
    (gather (items.mapIdx convert)).map (List.map seen) = .ok (items.map target) ↔
      ∀ position item, items[position]? = some item →
        (convert position item).map seen = .ok (target item) := by
  induction items generalizing convert with
  | nil => simp [gather, Except.map]
  | cons item rest ih =>
      have hcases : (∀ position other, (item :: rest)[position]? = some other →
          (convert position other).map seen = .ok (target other)) ↔
          (convert 0 item).map seen = .ok (target item) ∧
            ∀ position other, rest[position]? = some other →
              (convert (position + 1) other).map seen = .ok (target other) := by
        constructor
        · exact fun h => ⟨h 0 item rfl, fun position other => h (position + 1) other⟩
        · rintro ⟨hfirst, hrest⟩ (_ | position) other hother
          · exact Option.some.inj hother ▸ hfirst
          · exact hrest position other hother
      rw [hcases, ← @ih fun position => convert (position + 1), List.mapIdx_cons]
      cases convert 0 item with
      | error problems =>
          rw [gather]
          cases gather (rest.mapIdx fun position => convert (position + 1)) <;> simp [Except.map]
      | ok value =>
          rw [gather]
          cases gather (rest.mapIdx fun position => convert (position + 1)) <;> simp [Except.map]

/-- Items are gathered with the content they have exactly if each is converted to its own
content. -/
theorem gather_mapIdx_content_iff {convert : Nat → Value → Except (List Problem) Value}
    {items : List Value} :
    (gather (items.mapIdx convert)).map Value.itemsContent = .ok (Value.itemsContent items) ↔
      ∀ position item, items[position]? = some item →
        (convert position item).map Value.content = .ok item.content := by
  rw [Value.itemsContent_eq_map, funext Value.itemsContent_eq_map]
  exact gather_mapIdx_iff

end Validation

namespace Schema

/-- A node whose fields are converted to what another one holds becomes that, apart from
problems of other kinds. -/
theorem entriesOf_results {fields : Table String Field} {target : Node}
    (h : ∀ entry ∈ fields, ∃ outcome, entry.2.result path raw entry.1 = .ok outcome ∧
      outcome.map Value.content = target.content.get? entry.1) :
    problemsOf (results path fields raw) = [] ∧
      Value.entriesContent (entriesOf (results path fields raw)) =
        (Table.keys fields).filterMap fun key => (target.content.get? key).map (key, ·) := by
  rw [results_eq_map]
  induction fields with
  | nil => exact ⟨rfl, rfl⟩
  | cons entry rest ih =>
      obtain ⟨outcome, hresult, hsame⟩ := h entry List.mem_cons_self
      obtain ⟨hproblems, hentries⟩ := ih fun other hmem => h other (.tail _ hmem)
      simp only [problemsOf, entriesOf, Table.keys, List.map_cons, hresult, List.flatMap_cons,
        List.nil_append, List.filterMap_cons, ← hsame] at hproblems hentries ⊢
      refine ⟨hproblems, ?_⟩
      cases outcome with
      | none => exact hentries
      | some value => exact congrArg _ hentries

theorem validate_of_results (hproblems : problemsOf (results path schema.fields raw) = [])
    (hunknown : unknownKeys raw schema.fields path = [])
    (hconstraints : ∀ constraint ∈ schema.constraints,
      constraint.violation? ⟨path, entriesOf (results path schema.fields raw)⟩ = none) :
    schema.validate path raw = .ok ⟨path, entriesOf (results path schema.fields raw)⟩ := by
  obtain ⟨_, fields, constraints⟩ := schema
  have hholds : constraints.filterMap
      (·.problem? ⟨path, entriesOf (results path fields raw)⟩ path) = [] :=
    List.filterMap_eq_nil_iff.mpr fun constraint hmem =>
      Option.map_eq_none_iff.mpr (hconstraints constraint hmem)
  rw [validate, conclude]
  simp only [hproblems, hunknown, List.append_nil, hholds]
  rfl

/-- A node is validated to the content of another one whose keys the schema declares, if its
fields are converted to what that one holds, and if the constraints hold of it. -/
theorem map_content_validate {target : Node} (hnames : (Table.keys schema.fields).Nodup)
    (hkeys : target.keys.Sublist (Table.keys schema.fields))
    (hdeclared : raw.keys ⊆ Table.keys schema.fields)
    (hfields : ∀ entry ∈ schema.fields, ∃ outcome,
      entry.2.result path raw entry.1 = .ok outcome ∧
        outcome.map Value.content = target.content.get? entry.1)
    (hconstraints : ∀ constraint ∈ schema.constraints, constraint.violation? target = none) :
    (schema.validate path raw).map Node.content = .ok target.content := by
  obtain ⟨hproblems, hcontent⟩ := entriesOf_results hfields
  have hsame : (Node.mk path (entriesOf (results path schema.fields raw))).content =
      target.content := by
    have hsub : (Table.keys (Value.entriesContent target.entries)).Sublist
        (Table.keys schema.fields) := (Value.keys_entriesContent target.entries).symm ▸ hkeys
    rw [Node.content, hcontent]
    exact congrArg _ (Table.filterMap_get?_of_sublist hsub hnames)
  have hunknown : unknownKeys raw schema.fields path = [] := by
    rw [unknownKeys, List.map_eq_nil_iff, List.filter_eq_nil_iff]
    intro key hkey
    simpa using Table.contains_eq_true_iff.mpr (hdeclared hkey)
  have hvalid := validate_of_results hproblems hunknown fun constraint hmem =>
    (Constraint.violation?_congr (Node.contains_of_content_eq hsame)).trans
      (hconstraints constraint hmem)
  rw [hvalid]
  exact congrArg _ hsame

end Schema

namespace Kind

theorem keeps_sequenceOf_iff {item : Kind} {items : List Value} :
    (Kind.sequenceOf item).Keeps path name (.sequence items) ↔
      ∀ position value, items[position]? = some value →
        item.Keeps (path.index position) name value := by
  have hgather : (Kind.sequenceOf item).Keeps path name (.sequence items) ↔
      (gather (items.mapIdx fun position value =>
        item.convert (path.index position) name value)).map Value.itemsContent =
          .ok (Value.itemsContent items) := by
    rw [Keeps, convert, Value.items]
    cases gather (items.mapIdx fun position value =>
        item.convert (path.index position) name value) <;> simp [Except.map, Value.content]
  rw [hgather, gather_mapIdx_content_iff]
  rfl

/-- A mapping is kept exactly if the node it is is. -/
theorem keeps_nested_iff (name : String) :
    (Kind.nested schema).Keeps path name node.toValue ↔ schema.Keeps path node := by
  rw [Keeps, Schema.Keeps]
  change ((schema.validate path node).map Node.toValue).map Value.content = _ ↔ _
  cases schema.validate path node with
  | error problems => simp [Except.map]
  | ok again => simp [Except.map, Node.toValue, Node.content, Value.content]

theorem exists_items_of_keeps {item : Kind} (h : (Kind.sequenceOf item).Keeps path name value) :
    ∃ items, value = .sequence items := by
  rw [Keeps, convert] at h
  obtain ⟨again, hagain, hsame⟩ := Except.map_eq_ok h
  obtain ⟨items, _, rfl⟩ := Except.map_eq_ok hagain
  cases value with
  | sequence items => exact ⟨items, rfl⟩
  | _ => simp [Value.content] at hsame

theorem exists_node_of_keeps (h : (Kind.nested schema).Keeps path name value) :
    ∃ node : Node, value = node.toValue := by
  cases value with
  | mapping own entries => exact ⟨⟨own, entries⟩, rfl⟩
  | _ => simp [Keeps, convert, Value.node?, Value.expect, located, Except.map] at h

end Kind

theorem Field.result_of_given {field : Field} (h : raw.given? name = some value) :
    field.result path raw name = (field.kind.convert (path.field name) name value).map some := by
  rw [result, h]

theorem Field.result_of_lacking {field : Field} (h : raw.given? name = none) :
    field.result path raw name = field.kind.absent field.required field.default path name := by
  rw [result, h]

/-- The field of a normal mapping keeps what is there, and adds nothing. -/
theorem Field.exists_result_of_normal {field : Field} (hnormal : ∀ value,
      raw.get? name = some value → value ≠ .null ∧ field.kind.Keeps (path.field name) name value)
    (hlacks : raw.get? name = none → field.MayLack) :
    ∃ outcome, field.result path raw name = .ok outcome ∧
      outcome.map Value.content = raw.content.get? name := by
  rw [Node.get?_content]
  cases hget : raw.get? name with
  | none =>
      have hgiven : raw.given? name = none := by rw [Node.given?, hget, Option.filter_none]
      exact ⟨none, (result_of_lacking hgiven).trans
        (Kind.absent_eq_ok_none_iff.mpr (hlacks hget)), rfl⟩
  | some value =>
      obtain ⟨hpresent, hkept⟩ := hnormal value hget
      have hgiven : raw.given? name = some value := Node.given?_eq_some_iff.mpr ⟨hget, hpresent⟩
      obtain ⟨again, hagain, hsame⟩ := Except.map_eq_ok hkept
      have hresult : field.result path raw name = .ok (some again) := by
        rw [result_of_given hgiven, hagain]
        rfl
      exact ⟨some again, hresult, congrArg some hsame⟩

/-- A schema keeps a node whose keys it declares, whose values its fields keep, and of
which its constraints hold. -/
theorem Schema.Sound.keeps (hsound : schema.Sound)
    (hkeys : node.keys.Sublist (Table.keys schema.fields))
    (hpresent : ∀ entry ∈ schema.fields, ∀ value, node.get? entry.1 = some value →
      value ≠ .null ∧ entry.2.kind.Keeps (path.field entry.1) entry.1 value)
    (habsent : ∀ entry ∈ schema.fields, node.get? entry.1 = none → entry.2.MayLack)
    (hconstraints : ∀ constraint ∈ schema.constraints, constraint.violation? node = none) :
    schema.Keeps path node := by
  have hfields : ∀ entry ∈ schema.fields, ∃ outcome,
      entry.2.result path node entry.1 = .ok outcome ∧
        outcome.map Value.content = node.content.get? entry.1 := fun entry hmem =>
    Field.exists_result_of_normal (hpresent entry hmem) (habsent entry hmem)
  exact map_content_validate hsound.names hkeys hkeys.subset hfields hconstraints

/-- What is normal is converted to itself, wherever it is. -/
theorem Kind.Normal.keeps (h : kind.Normal value) (hsound : kind.Sound) :
    kind.Keeps path name value := by
  induction h generalizing path name with
  | simple _ _ hkept => exact hkept path name
  | @sequenceOf item items _ ih =>
      exact keeps_sequenceOf_iff.mpr fun position value hvalue =>
        ih value (List.mem_of_getElem? hvalue) hsound.item
  | @nested schema own entries hkeys hpresent habsent hconstraints ih =>
      have hschema : schema.Sound := hsound
      have hkeeps : schema.Keeps path ⟨own, entries⟩ := by
        refine hschema.keeps hkeys ?_ ?_ hconstraints
        · intro entry hmem value hget
          have hvalue := Table.mem_of_get?_eq hget
          exact ⟨(hpresent _ _ _ hmem hvalue).ne_null,
            ih _ _ _ hmem hvalue (hschema.kinds _ hmem)⟩
        · intro entry hmem hget
          exact habsent _ _ hmem (Table.get?_eq_none_iff.mp hget)
      exact (keeps_nested_iff name).mpr hkeeps

end Firmware
