import Firmware.Proofs.Validation.Keeping
import Firmware.Proofs.Validation.Unplaced
/-!
Defaults.  A default is converted when its field is defined, below the root of a document; a value
is converted when it is validated, where it stands.  Since a conversion makes the same of a value
everywhere, it does not matter whether a field is left out or its default is written down.
-/

namespace Firmware

open Validation

/-- Whether a kind makes the same of a value at every location, but for locations.  Unlike
`IgnoresPlaces`, this leaves the locations inside the value as they are, so that a supplied check
may look at them. -/
def Kind.IsPortable (kind : Kind) : Prop :=
  ∀ (path place : Path) (name : String) (value : Value),
    bare Value.content (kind.convert path name value) =
      bare Value.content (kind.convert place name value)

namespace Kind

variable {kind item : Kind} {schema : Schema}

theorem isPortable_of_isSimple (hsimple : kind.isSimple = true) : kind.IsPortable := by
  intro path place name value
  obtain ⟨result, hresult⟩ := exists_located_of_isSimple hsimple name value
  rw [hresult, hresult]
  cases result <;> rfl

theorem IsPortable.sequenceOf (h : item.IsPortable) : (Kind.sequenceOf item).IsPortable := by
  intro path place name value
  refine bare_sequenceOf (f := id) (fun position part _ hsame => ?_) rfl
  obtain rfl := hsame
  exact h (path.index position) (place.index position) name part

theorem IsPortable.nested (h : ∀ entry ∈ schema.fields, entry.2.kind.IsPortable) :
    (Kind.nested schema).IsPortable := by
  intro path place name value
  cases hnode : value.node? with
  | none => exact bare_nested_of_no_mapping name hnode hnode rfl
  | some raw =>
      obtain rfl := Value.eq_toValue_of_node? hnode
      refine bare_nested name (Schema.bare_validate (fun entry hmem => ?_) rfl)
      cases hgiven : raw.given? entry.1 with
      | none =>
          rw [Field.result_of_lacking hgiven, Field.result_of_lacking hgiven]
          exact bare_absent entry.2.required entry.2.default path place
      | some given =>
          rw [Field.result_of_given hgiven, Field.result_of_given hgiven]
          exact bare_map_eq (fun _ _ => congrArg some) (h entry hmem _ _ entry.1 given)

end Kind

theorem hereditary_isPortable : Kind.Hereditary (fun _ => true) Kind.IsPortable where
  simple _ hsimple _ := Kind.isPortable_of_isSimple hsimple
  sequenceOf _ := .sequenceOf
  nested _ := .nested

/-- Every kind makes the same of a value at every location. -/
theorem Kind.isPortable (kind : Kind) : kind.IsPortable :=
  hereditary_isPortable.of_kind kind kind.every_true

/-- What is converted at one location is converted to the same content at another. -/
theorem Kind.exists_convert_eq_ok {kind : Kind} {path : Path} {name : String} {given value : Value}
    (h : kind.convert path name given = .ok value) (place : Path) :
    ∃ moved, kind.convert place name given = .ok moved ∧ moved.content = value.content := by
  have hsame := kind.isPortable path place name given
  rw [h] at hsame
  cases hmoved : kind.convert place name given with
  | error problems =>
      rw [hmoved] at hsame
      contradiction
  | ok moved =>
      rw [hmoved] at hsame
      exact ⟨moved, rfl, (Except.ok.inj hsame).symm⟩

namespace Node

variable {raw : Node} {name : String} {value : Value}

theorem given?_insert_self (raw : Node) (name : String) (h : value ≠ .null) :
    (raw.insert name value).given? name = some value :=
  given?_eq_some_iff.mpr ⟨Table.get?_insert_self raw.entries name value, h⟩

theorem given?_insert_of_ne {other : String} (h : name ≠ other) (raw : Node) (value : Value) :
    (raw.insert name value).given? other = raw.given? other :=
  congrArg (Option.filter fun value : Value => !value.isNull)
    (Table.get?_insert_of_ne raw.entries value h)

theorem unknownKeys_insert {fields : Table String Field} (h : name ∈ Table.keys fields)
    (raw : Node) (value : Value) (path : Path) :
    unknownKeys (raw.insert name value) fields path = unknownKeys raw fields path := by
  have hdeclared : Table.contains fields name = true := Table.contains_eq_true_iff.mpr h
  rw [unknownKeys, unknownKeys, keys, insert, Table.keys_insert]
  split
  · rfl
  · rw [List.filter_append, List.filter_cons_of_neg (by simp [hdeclared]), List.filter_nil,
      List.append_nil]
    rfl

end Node

namespace Schema

variable {schema extended : Schema} {given fields : Table String Field} {name : String}
  {field : Field} {value : Value} {raw : Node}

/-- A schema that is defined by fields as they were given: of several fields of one name the last
counts, at the place of the first. -/
inductive DefinedBy : Schema → Table String Field → Prop
  | empty (name : String) : DefinedBy (.empty name) []
  | rename {schema : Schema} {given : Table String Field} (defined : DefinedBy schema given)
      (name : String) : DefinedBy (schema.rename name) given
  | extend {schema extended : Schema} {given fields : Table String Field}
      (defined : DefinedBy schema given) (names : (Table.keys fields).Nodup)
      (made : schema.extend fields = .ok extended) :
      DefinedBy extended (Table.insertAll given fields)
  | addConstraint {schema constrained : Schema} {given : Table String Field}
      {constraint : Constraint} (defined : DefinedBy schema given)
      (made : schema.addConstraint constraint = .ok constrained) : DefinedBy constrained given

theorem DefinedBy.ofFields (names : (Table.keys fields).Nodup)
    (made : Schema.ofFields name fields = .ok schema) : schema.DefinedBy fields := by
  have hfields : Table.insertAll [] fields = fields := Table.ofList_of_nodup names
  exact hfields ▸ .extend (.empty name) names made

theorem DefinedBy.define {catalog after : Catalog} {base : Schema} {kind : String}
    (defined : base.DefinedBy given) (names : (Table.keys fields).Nodup)
    (made : catalog.define kind fields (some base) = .ok (schema, after)) :
    schema.DefinedBy (Table.insertAll given fields) := by
  unfold Catalog.define at made
  split at made
  · simp at made
  · obtain ⟨extended, hextended, hpair⟩ := Except.map_eq_ok made
    obtain ⟨rfl, _⟩ := Prod.mk.inj hpair
    exact .extend (.rename defined kind) names hextended

/-- What a schema keeps of the fields that define it. -/
structure Stores (schema : Schema) (given : Table String Field) : Prop where
  names : (Table.keys given).Nodup
  accepted : ∀ entry ∈ given, entry.2.IsAccepted entry.1
  fields : schema.fields = Table.mapValues Field.normalized given

theorem Stores.extend (h : schema.Stores given) (names : (Table.keys fields).Nodup)
    (made : schema.extend fields = .ok extended) :
    extended.Stores (Table.insertAll given fields) := by
  obtain ⟨hadmits, rfl⟩ := (extend_eq_ok_iff names).mp made
  refine ⟨Table.nodup_keys_insertAll h.names fields, fun entry hmem => ?_, ?_⟩
  · rcases Table.mem_insertAll hmem with hnew | hold
    · exact (hadmits entry hnew).accepted
    · exact h.accepted entry hold
  · rw [extendedBy, h.fields, ← Table.mapValues_insertAll]

/-- Every field is stored as it was given last, with its default converted. -/
theorem DefinedBy.stores (h : schema.DefinedBy given) : schema.Stores given := by
  induction h with
  | empty => exact ⟨.nil, nofun, rfl⟩
  | rename _ _ ih => exact ⟨ih.names, ih.accepted, ih.fields⟩
  | extend _ names made ih => exact ih.extend names made
  | addConstraint _ made ih =>
      obtain rfl := addConstraint_eq_ok made
      exact ⟨ih.names, ih.accepted, ih.fields⟩

/-- What the fields of a schema make of a node without a value for one of them is what they make
of the node with its default. -/
theorem Stores.map_result_insert (h : schema.Stores given)
    (hfield : Table.get? given name = some field) (hoptional : field.required = false)
    (hdefault : field.default = some value) (hpresent : value ≠ .null)
    (habsent : raw.given? name = none) (path : Path) :
    ∀ entry ∈ schema.fields, (entry.2.result path raw entry.1).map (Option.map Value.content) =
      (entry.2.result path (raw.insert name value) entry.1).map (Option.map Value.content) := by
  intro entry hmem
  rw [h.fields] at hmem
  obtain ⟨⟨key, found⟩, hgiven, rfl⟩ := List.mem_map.mp hmem
  dsimp only
  by_cases hkey : key = name
  · subst hkey
    obtain rfl : found = field :=
      Option.some.inj ((Table.get?_eq_of_mem h.names hgiven).symm.trans hfield)
    -- The default has been converted below the root, and is converted again where it is given.
    obtain ⟨kept, hkept⟩ := h.accepted _ hgiven value hdefault
    obtain ⟨moved, hmoved, hsame⟩ := Kind.exists_convert_eq_ok hkept (path.field key)
    have hkind : (found.normalized key).kind = found.kind := rfl
    rw [Field.result_of_lacking habsent,
      Field.result_of_given (Node.given?_insert_self raw key hpresent), hkind, hmoved,
      Field.normalized_of_convert hdefault hkept, Kind.absent, hoptional]
    exact congrArg (fun content => Except.ok (some content)) hsame.symm
  · have hother : (raw.insert name value).given? key = raw.given? key :=
      Node.given?_insert_of_ne (Ne.symm hkey) raw value
    rw [Field.result, Field.result, hother]

/-- A field that is left out is validated like one that has its default written down, wherever the
node is: both nodes are refused for the same reasons, or both are accepted, with the same keys in
the same order and the same values but for the locations of mappings. -/
theorem validate_insert_default (h : schema.DefinedBy given)
    (hfield : Table.get? given name = some field) (hoptional : field.required = false)
    (hdefault : field.default = some value) (hpresent : value ≠ .null)
    (habsent : raw.given? name = none) (path : Path) :
    (schema.validate path raw).map Node.content =
      (schema.validate path (raw.insert name value)).map Node.content := by
  have hstores := h.stores
  have hresults :=
    hstores.map_result_insert hfield hoptional hdefault hpresent habsent path
  have hdeclared : name ∈ Table.keys schema.fields := by
    rw [hstores.fields, Table.keys_mapValues]
    exact List.mem_map.mpr ⟨_, Table.mem_of_get?_eq hfield, rfl⟩
  have hfaults : schema.faults path raw = schema.faults path (raw.insert name value) := by
    rw [faults, faults, Node.unknownKeys_insert hdeclared]
    refine congrArg (· ++ _) (List.flatMap_congr fun entry hmem => ?_)
    rw [← reported_map _ (Option.map Value.content), hresults entry hmem, reported_map]
  have hentries := entriesContent_results_eq fun entry hmem =>
    (Except.toOption_map _ _).symm.trans
      ((congrArg Except.toOption (hresults entry hmem)).trans (Except.toOption_map _ _))
  have hsame : ∀ result : Except (List Problem) Node, result.mapError (List.map id) = result := by
    intro result
    cases result <;> simp [Except.mapError]
  rw [← hsame (Except.map _ _), ← hsame (Except.map _ (schema.validate path (raw.insert _ _)))]
  exact map_validate_eq id (congrArg _ hfaults) hentries fun _ => rfl

def post (height : Int64) : Value := .mapping [] [("height", .integer height)]

/-- Posts, of which there is one of some height unless others are given. -/
def posts (height : Int64) : String × Field :=
  ("posts", .withDefault
    (.sequenceOf (.nested ⟨"post", [("height", .mandatory .anyInteger)], []⟩)) (post height))

/-- A gate, which is based on a fence but has a higher post, is the same whether the post is left
out or written down. -/
theorem validate_insert_post :
    let place := Path.root.field "gate"
    ∃ base schema after node,
      Schema.ofFields "fence" [("id", .optional (.declareId "Fence" none)), posts 2] = .ok base ∧
        Catalog.empty.define "gate" [posts 3] (some base) = .ok (schema, after) ∧
        schema.validate place ⟨place, []⟩ = .ok node ∧
        (schema.validate place ⟨place, [("posts", post 3)]⟩).map Node.content =
          .ok node.content := by
  intro place
  obtain ⟨base, schema, after, node, hbase, hschema, hnode⟩ : ∃ base schema after node,
      Schema.ofFields "fence" [("id", .optional (.declareId "Fence" none)), posts 2] = .ok base ∧
        Catalog.empty.define "gate" [posts 3] (some base) = .ok (schema, after) ∧
        schema.validate place ⟨place, []⟩ = .ok node :=
    ⟨_, _, _, _, rfl, rfl, rfl⟩
  have hdefined := (DefinedBy.ofFields (by decide) hbase).define (by decide) hschema
  have hpresent : post 3 ≠ .null := nofun
  have hinsert : (schema.validate place ⟨place, []⟩).map Node.content =
      (schema.validate place ((Node.mk place []).insert "posts" (post 3))).map Node.content :=
    validate_insert_default hdefined rfl rfl rfl hpresent rfl place
  rw [hnode] at hinsert
  exact ⟨base, schema, after, node, hbase, hschema, hnode, hinsert.symm⟩

end Schema

end Firmware
