import Firmware.Proofs.Schema.Conferred
import Firmware.Proofs.Validation.Complete
import Firmware.Proofs.Validation.Constraint
import Firmware.Proofs.Validation.Normal
import Firmware.Proofs.Validation.Slots
/-!
Conforming values.  What it takes for a value to be of a kind is said without the
conversion: of a mapping which keys it has, what each of them holds, and what the
constraints of its schema say.  Whatever a kind converts conforms to it, as long as the
values it starts from, defaults included, hold no identifier slots of their own.
-/

namespace Firmware

open Validation

/-- Whether a value holds no identifier slots, as it is with all values of JSON documents. -/
def Value.IsBare (value : Value) : Prop := value.slots .root = []

/-- Whether a name is given to an identifier and may be chosen for it. -/
def Slot.IsNamedWell (slot : Slot) : Prop :=
  ∃ name, slot.name = some name ∧ nameFault? name = none

/-- Whether a field has a value in a validated node: one is given, there is a default, or
it declares an identifier. -/
def Field.isPresent (field : Field) (given : Option Value) : Bool :=
  given.isSome || field.default.isSome || field.kind.declaredType?.isSome

/-- The names of the fields that have a value, in the order of the schema. -/
def Schema.presentKeys (schema : Schema) (raw : Node) : List String :=
  Table.keys (schema.fields.filter fun entry => entry.2.isPresent (raw.given? entry.1))

/-- The values that are of a kind, each with the value it stands for.  The value of a field
that is not given stands for something else that is of its kind; what a supplied check
returns is its own affair. -/
inductive Kind.Conforms : Kind → Value → Value → Prop
  | boolean (given : Value) (value : Bool) : Conforms .boolean given (.bool value)
  | integer (given : Value) {min max number : Int64} (lower : min ≤ number)
      (upper : number ≤ max) : Conforms (.integer min max) given (.integer number)
  | float (given : Value) (min max number : Double) :
      Conforms (.float min max) given (.float number)
  | text (given : Value) (text : String) : Conforms .text given (.text text)
  | oneOf (given : Value) {options : List String} {option : String} (listed : option ∈ options) :
      Conforms (.oneOf options) given (.text option)
  | duration (given : Value) (milliseconds : UInt64) :
      Conforms .duration given (.duration milliseconds)
  | declareId (given : Value) {type : String} {base : Option String} {slot : Slot}
      (declares : slot.declares = true) (typed : slot.type = type)
      (named : slot.IsNamedWell ∨ slot.name = none ∧ slot.base = base) :
      Conforms (.declareId type base) given (.identifier slot)
  | useId (given : Value) {type : String} {slot : Slot} (refers : slot.declares = false)
      (typed : slot.type = type) (named : slot.IsNamedWell) :
      Conforms (.useId type) given (.identifier slot)
  | nested {schema : Schema} {own path : Path} {given entries : List (String × Value)}
      (source : String → Value) (keys : Table.keys entries = schema.presentKeys ⟨own, given⟩)
      (required : ∀ name field, (name, field) ∈ schema.fields → field.required = true →
        name ∈ Table.keys entries)
      (sources : ∀ name value, (Node.mk own given).given? name = some value →
        source name = value)
      (values : ∀ name field value, (name, field) ∈ schema.fields → (name, value) ∈ entries →
        Conforms field.kind (source name) value)
      (constraints : ∀ constraint ∈ schema.constraints, constraint.Holds ⟨path, entries⟩) :
      Conforms (.nested schema) (.mapping own given) (.mapping path entries)
  | sequenceOf {item : Kind} {given : Value} {items : List Value}
      (length : items.length = given.items.length)
      (conform : ∀ (position : Nat) (old value : Value), given.items[position]? = some old →
        items[position]? = some value → Conforms item old value) :
      Conforms (.sequenceOf item) given (.sequence items)
  | custom (name : String) (check : Check) (given value : Value) :
      Conforms (.custom name check) given value

/-- The values that a kind takes: those without identifier slots, and those of its own. -/
def Kind.Takes (kind : Kind) (given : Value) : Prop :=
  given.IsBare ∨ ∃ source, kind.Conforms source given

variable {path : Path} {name : String} {kind : Kind} {schema : Schema} {field : Field}
  {given value item : Value} {raw node : Node}

namespace Value

theorem IsBare.of_slots (h : value.slots path = []) : value.IsBare := by
  have hmoved := map_slots_eq (rfl : value.content = value.content) .root path
  rw [h] at hmoved
  exact List.map_eq_nil_iff.mp hmoved

theorem IsBare.of_mem_items (h : value.IsBare) (hmem : item ∈ value.items) : item.IsBare := by
  cases value with
  | sequence items =>
      rw [IsBare, Value.slots, itemSlots_eq_flatMap, List.flatMap_eq_nil_iff] at h
      obtain ⟨position, hitem⟩ := List.mem_iff_getElem?.mp hmem
      exact .of_slots (h (item, position) (List.mem_zipIdx_iff_getElem?.mpr hitem))
  | _ => exact List.mem_singleton.mp hmem ▸ h

theorem IsBare.of_given? (h : raw.toValue.IsBare) (hgiven : raw.given? name = some given) :
    given.IsBare := by
  have hentry := Table.mem_of_get?_eq (Node.given?_eq_some_iff.mp hgiven).1
  have hslots : Value.entrySlots raw.path raw.entries = [] := h
  rw [Value.entrySlots_eq_flatMap, List.flatMap_eq_nil_iff] at hslots
  exact .of_slots (hslots _ hentry)

end Value

namespace Kind

theorem Takes.of_mem_items {kind : Kind} (h : (Kind.sequenceOf kind).Takes given)
    (hmem : item ∈ given.items) : kind.Takes item := by
  rcases h with hbare | ⟨source, hconforms⟩
  · exact .inl (hbare.of_mem_items hmem)
  · cases hconforms with
    | sequenceOf hlength hitems =>
        obtain ⟨position, hitem⟩ := List.mem_iff_getElem?.mp hmem
        have hbound : position < source.items.length :=
          hlength ▸ (List.getElem?_eq_some_iff.mp hitem).1
        exact .inr ⟨_, hitems position _ _ (List.getElem?_eq_getElem hbound) hitem⟩

theorem Takes.of_given? (h : (Kind.nested schema).Takes raw.toValue)
    (hfield : (name, field) ∈ schema.fields) (hgiven : raw.given? name = some given) :
    field.kind.Takes given := by
  obtain ⟨own, entries⟩ := raw
  rcases h with hbare | ⟨source, hconforms⟩
  · exact .inl (hbare.of_given? hgiven)
  · cases hconforms with
    | nested sourceOf _ _ _ hvalues _ =>
        have hentry := Table.mem_of_get?_eq (Node.given?_eq_some_iff.mp hgiven).1
        exact .inr ⟨_, hvalues name field given hfield hentry⟩

/-- A declaring kind makes declarations of its own type: under a name that may be chosen, or
waiting for one made of its own base. -/
theorem conforms_of_asDeclaration {type : String} {base : Option String} {slot : Slot}
    (htakes : (Kind.declareId type base).Takes given)
    (h : given.asDeclaration type base = .ok slot) :
    (Kind.declareId type base).Conforms given (.identifier slot) := by
  unfold Value.asDeclaration at h
  split at h
  · next chosen =>
      split at h
      · simp at h
      · next hfault =>
          obtain rfl := Except.ok.inj h
          exact .declareId _ rfl rfl (.inl ⟨chosen, rfl, hfault⟩)
  · next chosen own old =>
      obtain rfl := Except.ok.inj h
      refine .declareId _ rfl rfl ?_
      cases chosen with
      | none => exact .inr ⟨rfl, rfl⟩
      | some chosen =>
          rcases htakes with hbare | ⟨_, hconforms⟩
          · simp [Value.IsBare, Value.slots] at hbare
          · cases hconforms with
            | declareId _ _ _ hnamed =>
                obtain ⟨found, hfound, hfault⟩ := hnamed.resolve_right (by simp)
                exact .inl ⟨found, hfound, hfault⟩
  · simp at h

theorem conforms_of_asReference {type : String} {slot : Slot}
    (htakes : (Kind.useId type).Takes given) (h : given.asReference type = .ok slot) :
    (Kind.useId type).Conforms given (.identifier slot) := by
  unfold Value.asReference at h
  split at h
  · next chosen =>
      split at h
      · simp at h
      · next hfault =>
          obtain rfl := Except.ok.inj h
          exact .useId _ rfl rfl ⟨chosen, rfl, hfault⟩
  · obtain rfl := Except.ok.inj h
    rcases htakes with hbare | ⟨_, hconforms⟩
    · simp [Value.IsBare, Value.slots] at hbare
    · cases hconforms with
      | useId _ _ htype hnamed => exact .useId _ rfl htype hnamed
  · simp at h

/-- What a kind without parts converts conforms to it. -/
theorem conforms_of_isSimple (hsimple : kind.isSimple = true) (htakes : kind.Takes given)
    (h : kind.convert path name given = .ok value) : kind.Conforms given value := by
  cases kind with
  | nested | sequenceOf => simp [isSimple] at hsimple
  | custom tag check => exact .custom tag check given value
  | integer min max =>
      obtain ⟨number, rfl, hlower, hupper⟩ := convert_integer_eq_ok h
      exact .integer given hlower hupper
  | float min max =>
      obtain ⟨number, rfl, _⟩ := convert_float_eq_ok h
      exact .float given min max number
  | boolean =>
      rw [convert] at h
      obtain ⟨word, _, rfl⟩ := Except.map_eq_ok (located_eq_ok h)
      exact .boolean given word
  | text =>
      rw [convert] at h
      obtain ⟨text, _, rfl⟩ := Except.map_eq_ok (located_eq_ok h)
      exact .text given text
  | duration =>
      rw [convert] at h
      obtain ⟨milliseconds, _, rfl⟩ := Except.map_eq_ok (located_eq_ok h)
      exact .duration given milliseconds
  | oneOf options =>
      rw [convert] at h
      obtain ⟨text, _, hchoice⟩ := Except.bind_eq_ok (located_eq_ok h)
      unfold choose at hchoice
      split at hchoice
      · next option hfound =>
          obtain rfl := Except.ok.inj hchoice
          exact .oneOf given (List.mem_of_find?_eq_some hfound)
      · simp at hchoice
  | declareId type base =>
      rw [convert] at h
      obtain ⟨slot, hslot, rfl⟩ := Except.map_eq_ok (located_eq_ok h)
      exact conforms_of_asDeclaration htakes hslot
  | useId type =>
      rw [convert] at h
      obtain ⟨slot, hslot, rfl⟩ := Except.map_eq_ok (located_eq_ok h)
      exact conforms_of_asReference htakes hslot

end Kind

/-- A field that has an outcome has a value exactly if it is given, has a default or
declares an identifier. -/
theorem Field.isSome_of_result {outcome : Option Value}
    (h : field.result path raw name = .ok outcome) :
    outcome.isSome = field.isPresent (raw.given? name) := by
  unfold result at h
  split at h
  · next given hgiven =>
      obtain ⟨_, _, rfl⟩ := Except.map_eq_ok h
      simp [isPresent, hgiven]
  · next hgiven =>
      unfold Kind.absent at h
      split at h
      · simp at h
      · rw [isPresent, hgiven]
        split at h
        · next hdefault =>
            obtain rfl := Except.ok.inj h
            simp [hdefault]
        · next hkind =>
            obtain rfl := Except.ok.inj h
            simp [hkind, Kind.declaredType?]
        · next hdefault hkind =>
            obtain rfl := Except.ok.inj h
            have hdeclares : field.kind.declaredType? = none := by
              unfold Kind.declaredType?
              split
              · next type base heq => exact absurd heq (hkind type base)
              · rfl
            simp [hdefault, hdeclares]

theorem Field.isSome_given_of_required {outcome : Option Value} (hrequired : field.required = true)
    (h : field.result path raw name = .ok outcome) : (raw.given? name).isSome = true := by
  unfold result at h
  split at h
  · next hgiven => rw [hgiven, Option.isSome_some]
  · simp [Kind.absent, hrequired] at h

/-- The value of a field conforms to its kind, if what the kind converts does and the default
does. -/
theorem Field.exists_source_of_result
    (hconverts : ∀ given value, raw.given? name = some given →
      field.kind.convert (path.field name) name given = .ok value →
        field.kind.Conforms given value)
    (hdefault : ∀ value, field.default = some value → ∃ source, field.kind.Conforms source value)
    (h : field.result path raw name = .ok (some value)) :
    ∃ source, (∀ given, raw.given? name = some given → source = given) ∧
      field.kind.Conforms source value := by
  unfold result at h
  split at h
  · next given hgiven =>
      obtain ⟨converted, hconvert, hsome⟩ := Except.map_eq_ok h
      obtain rfl := Option.some.inj hsome
      exact ⟨given, fun other hother => Option.some.inj (hgiven.symm.trans hother),
        hconverts given converted hgiven hconvert⟩
  · next hgiven =>
      rw [hgiven]
      rcases Kind.absent_eq_ok_some h with hvalue | ⟨type, base, hkind, rfl⟩
      · obtain ⟨source, hconforms⟩ := hdefault value hvalue
        exact ⟨source, nofun, hconforms⟩
      · rw [hkind]
        exact ⟨.null, nofun, .declareId _ rfl rfl (.inr ⟨rfl, rfl⟩)⟩

namespace Schema

/-- The keys of a validated node are the fields that have a value, in the order of the
schema. -/
theorem keys_of_validate (h : schema.validate path raw = .ok node) :
    node.keys = schema.presentKeys raw := by
  obtain ⟨hproblems, _, _, rfl⟩ := validate_eq_ok h
  have houtcomes : ∀ entry ∈ schema.fields,
      ∃ outcome, entry.2.result path raw entry.1 = .ok outcome := fun entry hmem =>
    exists_result_of_problemsOf hproblems hmem
  rw [Node.keys, presentKeys, results_eq_map]
  generalize schema.fields = fields at houtcomes
  induction fields with
  | nil => rfl
  | cons entry rest ih =>
      obtain ⟨outcome, hresult⟩ := houtcomes entry List.mem_cons_self
      have hpresent := Field.isSome_of_result hresult
      have hrest := ih fun other hmem => houtcomes other (.tail _ hmem)
      simp only [entriesOf, Table.keys, List.map_cons] at hrest ⊢
      rw [List.filterMap_cons, hresult, List.filter_cons, ← hpresent]
      cases outcome with
      | none => exact hrest
      | some value => exact congrArg (entry.1 :: ·) hrest

/-- A validated node conforms to its schema, if what the fields convert conforms to their
kinds and the defaults do. -/
theorem conforms_of_converts (hnames : (Table.keys schema.fields).Nodup)
    (hconverts : ∀ entry ∈ schema.fields, ∀ given value, raw.given? entry.1 = some given →
      entry.2.kind.convert (path.field entry.1) entry.1 given = .ok value →
        entry.2.kind.Conforms given value)
    (hdefaults : ∀ entry ∈ schema.fields, ∀ value, entry.2.default = some value →
      ∃ source, entry.2.kind.Conforms source value)
    (h : schema.validate path raw = .ok node) :
    (Kind.nested schema).Conforms raw.toValue node.toValue := by
  have hfield : ∀ {name field value}, (name, field) ∈ schema.fields →
      (name, value) ∈ node.entries → field.result path raw name = .ok (some value) := by
    intro name field value hmem hentry
    obtain ⟨found, hfound, hresult⟩ := (mem_entries_of_validate h).mp hentry
    have hsame := (Table.get?_eq_of_mem hnames hfound).symm.trans (Table.get?_eq_of_mem hnames hmem)
    exact Option.some.inj hsame ▸ hresult
  have hsource : ∀ name, ∃ source, (∀ given, raw.given? name = some given → source = given) ∧
      ∀ field value, (name, field) ∈ schema.fields → (name, value) ∈ node.entries →
        field.kind.Conforms source value := by
    intro name
    by_cases hpresent : ∃ field value, (name, field) ∈ schema.fields ∧ (name, value) ∈ node.entries
    · obtain ⟨field, value, hmem, hentry⟩ := hpresent
      obtain ⟨source, hgiven, hconforms⟩ := Field.exists_source_of_result
        (hconverts _ hmem) (hdefaults _ hmem) (hfield hmem hentry)
      refine ⟨source, hgiven, fun other found hother hfound => ?_⟩
      have hsame := (Table.get?_eq_of_mem hnames hmem).symm.trans
        (Table.get?_eq_of_mem hnames hother)
      obtain rfl := Option.some.inj hsame
      have hvalue := Except.ok.inj ((hfield hmem hentry).symm.trans (hfield hmem hfound))
      exact Option.some.inj hvalue ▸ hconforms
    · refine ⟨(raw.given? name).getD .null, fun given hgiven => by rw [hgiven, Option.getD_some],
        fun field value hmem hentry => absurd ⟨field, value, hmem, hentry⟩ hpresent⟩
  obtain ⟨source, hsource⟩ := Classical.axiomOfChoice hsource
  obtain ⟨hproblems, _, hconstraints, _⟩ := validate_eq_ok h
  refine .nested source (keys_of_validate h) ?_ (fun name => (hsource name).1)
    (fun name => (hsource name).2) ?_
  · intro name field hmem hrequired
    obtain ⟨outcome, hresult⟩ := exists_result_of_problemsOf hproblems hmem
    have hgiven := Field.isSome_given_of_required hrequired hresult
    have hkey : name ∈ schema.presentKeys raw :=
      List.mem_map.mpr ⟨_, List.mem_filter.mpr ⟨hmem, by simp [Field.isPresent, hgiven]⟩, rfl⟩
    have hkeys : Table.keys node.entries = schema.presentKeys raw := keys_of_validate h
    rwa [hkeys]
  · intro constraint hmem
    have hholds := List.filterMap_eq_nil_iff.mp hconstraints constraint hmem
    exact Constraint.violation?_eq_none_iff.mp (Option.map_eq_none_iff.mp hholds)

end Schema

/-- What holds at every depth of kinds whose defaults are of the kinds of their fields. -/
inductive Kind.Fitted : Kind → Prop
  | simple {kind : Kind} (simple : kind.isSimple = true) : Fitted kind
  | sequenceOf {item : Kind} (fitted : Fitted item) : Fitted (.sequenceOf item)
  | nested {schema : Schema} (names : (Table.keys schema.fields).Nodup)
      (kinds : ∀ entry ∈ schema.fields, Fitted entry.2.kind)
      (defaults : ∀ entry ∈ schema.fields, ∀ value, entry.2.default = some value →
        ∃ source, entry.2.kind.Conforms source value) : Fitted (.nested schema)

/-- What a kind converts of a value that it takes conforms to it. -/
theorem Kind.Fitted.conforms_of_convert (hfitted : kind.Fitted) (htakes : kind.Takes given)
    (h : kind.convert path name given = .ok value) : kind.Conforms given value := by
  induction hfitted generalizing path name given value with
  | simple hsimple => exact conforms_of_isSimple hsimple htakes h
  | sequenceOf _ ih =>
      obtain ⟨items, rfl, hlength, hitems⟩ := convert_sequenceOf_eq_ok h
      refine .sequenceOf hlength fun position old item hold hitem => ?_
      obtain ⟨found, hfound, hconvert⟩ := hitems position item hitem
      obtain rfl := Option.some.inj (hfound.symm.trans hold)
      exact ih (htakes.of_mem_items (List.mem_of_getElem? hold)) hconvert
  | nested hnames _ hdefaults ih =>
      obtain ⟨raw, node, rfl, hvalid, rfl⟩ := convert_nested_eq_ok h
      refine Schema.conforms_of_converts hnames ?_ hdefaults hvalid
      intro entry hmem given value hgiven hconvert
      exact ih entry hmem (htakes.of_given? hmem hgiven) hconvert

theorem Kind.DefaultsHave.fitted
    (h : kind.DefaultsHave fun kind value => ∃ source, kind.Conforms source value) :
    kind.Fitted := by
  induction h with
  | simple hsimple => exact .simple hsimple
  | sequenceOf _ ih => exact .sequenceOf ih
  | nested hnames _ hdefaults ih => exact .nested hnames ih hdefaults

/-- Composition of fields with bare defaults makes kinds with defaults of the kinds of their
fields. -/
theorem Kind.ComposedOf.fitted (h : kind.ComposedOf Value.IsBare) : kind.Fitted := by
  have hconfers : Kind.Confers Value.IsBare fun kind value =>
      ∃ source, kind.Conforms source value :=
    fun hdefaults htakes hconvert => ⟨_, hdefaults.fitted.conforms_of_convert htakes hconvert⟩
  exact (h.defaultsHave hconfers).fitted

/-- What is read from JSON holds no identifier slots. -/
theorem Node.isBare_of_ofJson? {json : Json} (h : Node.ofJson? path json = some node) :
    node.toValue.IsBare := by
  have hread : Document.readNode path json = .ok node := by rw [Document.readNode, h]
  have hslots : Value.entrySlots node.path node.entries = [] := Document.slots_of_readNode hread
  exact hslots

/-- Whatever a composed schema accepts of a JSON document conforms to it once it is
validated, at every depth. -/
theorem Schema.conforms_of_validate {origin : Path} {json : Json}
    (hcomposed : schema.ComposedOf Value.IsBare) (hread : Node.ofJson? origin json = some raw)
    (h : schema.validate path raw = .ok node) :
    (Kind.nested schema).Conforms raw.toValue node.toValue := by
  have hconvert : (Kind.nested schema).convert path schema.name raw.toValue = .ok node.toValue := by
    change (schema.validate path raw).map Node.toValue = _
    rw [h]
    rfl
  exact hcomposed.fitted.conforms_of_convert (.inl (Node.isBare_of_ofJson? hread)) hconvert

/-- How far an awning goes out, in steps. -/
def travelSchema : Schema := ⟨"travel", [("steps", .mandatory (.integer 1 10))], []⟩

/-- The fields of an awning: it is moved by a motor, and stops at places with names. -/
def awningFields (travel : Value) : Table String Field :=
  [("id", .optional (.declareId "Awning" none)), ("motor", .mandatory (.useId "Motor")),
    ("travel", .withDefault (.nested travelSchema) travel),
    ("stops", .optional (.sequenceOf (.oneOf ["In", "Out"])))]

/-- Awnings; what stops has to have a motor. -/
def awningSchema : Schema :=
  ⟨"awning", awningFields (.mapping [.key "travel"] [("steps", .integer 5)]),
    [.requires "stops" "motor"]⟩

theorem composedOf_awning : awningSchema.ComposedOf Value.IsBare := by
  have htravel : (Kind.nested travelSchema).ComposedOf Value.IsBare := by
    refine .extend (.empty "travel") ?_ ?_
      (show (Schema.empty "travel").extend [("steps", .mandatory (.integer 1 10))] =
        .ok travelSchema from rfl)
    · rintro _ (_ | ⟨_, ⟨⟩⟩)
      exact .simple rfl
    · rintro _ (_ | ⟨_, ⟨⟩⟩) _ ⟨⟩
  have hfields : (Schema.empty "awning").extend
      (awningFields (.mapping .root [("steps", .text "5")])) =
      .ok { awningSchema with constraints := [] } := by
    with_unfolding_all rfl
  refine .addConstraint (.extend (.empty "awning") ?_ ?_ hfields)
    (show Schema.addConstraint _ (.requires "stops" "motor") = .ok awningSchema from rfl)
  · simp only [awningFields, List.mem_cons, List.not_mem_nil, or_false]
    rintro _ (rfl | rfl | rfl | rfl)
    · exact .simple rfl
    · exact .simple rfl
    · exact htravel
    · exact .sequenceOf (.simple rfl)
  · simp only [awningFields, List.mem_cons, List.not_mem_nil, or_false]
    rintro _ (rfl | rfl | rfl | rfl) value hvalue
    · simp [Field.optional] at hvalue
    · simp [Field.mandatory] at hvalue
    · obtain rfl := Option.some.inj hvalue
      rfl
    · simp [Field.optional] at hvalue

/-- An awning that is written with a motor and one stop has all that its schema says. -/
theorem awning_conforms : ∃ raw,
    Node.ofJson? .root (.object [("stops", .text "out"), ("motor", .text "north")]) = some raw ∧
    awningSchema.validate .root raw =
      .ok ⟨.root, [("id", .identifier (.automatic "Awning" none)),
        ("motor", .identifier (.reference "north" "Motor")),
        ("travel", .mapping [.key "travel"] [("steps", .integer 5)]),
        ("stops", .sequence [.text "Out"])]⟩ ∧
    (Kind.nested awningSchema).Conforms raw.toValue
      (.mapping .root [("id", .identifier (.automatic "Awning" none)),
        ("motor", .identifier (.reference "north" "Motor")),
        ("travel", .mapping [.key "travel"] [("steps", .integer 5)]),
        ("stops", .sequence [.text "Out"])]) := by
  have hread : Node.ofJson? .root
      (.object [("stops", .text "out"), ("motor", .text "north")]) =
      some ⟨.root, [("stops", .text "out"), ("motor", .text "north")]⟩ := rfl
  have hvalid : awningSchema.validate .root
      ⟨.root, [("stops", .text "out"), ("motor", .text "north")]⟩ =
      .ok ⟨.root, [("id", .identifier (.automatic "Awning" none)),
        ("motor", .identifier (.reference "north" "Motor")),
        ("travel", .mapping [.key "travel"] [("steps", .integer 5)]),
        ("stops", .sequence [.text "Out"])]⟩ := by
    with_unfolding_all rfl
  exact ⟨_, hread, hvalid, Schema.conforms_of_validate composedOf_awning hread hvalid⟩

end Firmware
