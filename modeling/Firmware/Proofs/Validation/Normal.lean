import Firmware.Proofs.Validation.Problems
import Firmware.Proofs.Validation.Spread
import Firmware.Proofs.Value.Content
/-!
Normal forms.  What a kind converts is in normal form: a value without parts that its
kind gives back, a sequence of normal forms, or a mapping with the entries its schema
asks for, in the order of the schema.  A normal form is converted to itself, wherever it
is, apart from the locations of its mappings.
-/

namespace Firmware

open Validation

/-- A check gives a value back, apart from the locations of mappings. -/
def Check.Keeps (check : Check) (value : Value) : Prop :=
  (check.run value).map Value.content = .ok value.content

/-- What a check returns is there, and is kept when it is checked again. -/
def Check.Settles (check : Check) : Prop :=
  ∀ given value, check.run given = .ok value → value ≠ .null ∧ check.Keeps value

/-- A kind gives the value at a location back, apart from the locations of mappings. -/
def Kind.Keeps (kind : Kind) (path : Path) (name : String) (value : Value) : Prop :=
  (kind.convert path name value).map Value.content = .ok value.content

/-- A schema gives a node back, apart from the locations of mappings. -/
def Schema.Keeps (schema : Schema) (path : Path) (node : Node) : Prop :=
  (schema.validate path node).map Node.content = .ok node.content

theorem Node.given?_eq_some_iff {raw : Node} {name : String} {value : Value} :
    raw.given? name = some value ↔ raw.get? name = some value ∧ value ≠ .null := by
  rw [given?, Option.filter_eq_some_iff]
  cases value <;> simp [Value.isNull]

/-- A field that stays without a value when none is given. -/
def Field.MayLack (field : Field) : Prop :=
  field.required = false ∧ field.default = none ∧ field.kind.declaredType? = none

mutual

/-- The supplied checks of a kind, at every depth. -/
def Kind.checks : Kind → List Check
  | .nested schema => schema.checks
  | .sequenceOf item => item.checks
  | .custom _ check => [check]
  | _ => []
termination_by structural kind => kind

def Schema.checks : Schema → List Check
  | ⟨_, fields, _⟩ => Schema.fieldChecks fields
termination_by structural schema => schema

def Schema.fieldChecks : List (String × Field) → List Check
  | [] => []
  | (_, ⟨kind, _, _⟩) :: rest => kind.checks ++ Schema.fieldChecks rest
termination_by structural fields => fields

end

/-- The values that a kind converts to themselves. -/
inductive Kind.Normal : Kind → Value → Prop
  | simple {kind : Kind} {value : Value} (simple : kind.isSimple = true)
      (present : value ≠ .null) (kept : ∀ path name, kind.Keeps path name value) :
      Normal kind value
  | sequenceOf {item : Kind} {items : List Value} (normal : ∀ value ∈ items, Normal item value) :
      Normal (.sequenceOf item) (.sequence items)
  | nested {schema : Schema} {path : Path} {entries : List (String × Value)}
      (keys : (Table.keys entries).Sublist (Table.keys schema.fields))
      (present : ∀ name field value, (name, field) ∈ schema.fields → (name, value) ∈ entries →
        Normal field.kind value)
      (absent : ∀ name field, (name, field) ∈ schema.fields → name ∉ Table.keys entries →
        field.MayLack)
      (constraints : ∀ constraint ∈ schema.constraints,
        constraint.violation? ⟨path, entries⟩ = none) :
      Normal (.nested schema) (.mapping path entries)

variable {path other : Path} {name label : String} {kind : Kind} {schema : Schema}
  {value given : Value} {raw node : Node}

namespace Schema

theorem mem_checks_of_mem {check : Check} {entry : String × Field} (hmem : entry ∈ schema.fields)
    (hcheck : check ∈ entry.2.kind.checks) : check ∈ schema.checks := by
  obtain ⟨name, fields, constraints⟩ := schema
  rw [checks]
  induction fields with
  | nil => simp at hmem
  | cons first rest ih =>
      obtain ⟨key, kind, required, default⟩ := first
      rw [fieldChecks, List.mem_append]
      rcases List.mem_cons.mp hmem with rfl | hrest
      · exact .inl hcheck
      · exact .inr (ih hrest)

end Schema

mutual

/-- A kind without supplied checks at any depth has none. -/
theorem Kind.checks_eq_nil : ∀ kind : Kind,
    kind.every (fun kind => !kind.isCustom) (fun _ => true) = true → kind.checks = []
  | .nested schema, h => schema.checks_eq_nil h
  | .sequenceOf item, h => item.checks_eq_nil h
  | .custom _ _, h => by simp [Kind.every, Kind.isCustom] at h
  | .boolean, _ | .integer _ _, _ | .float _ _, _ | .text, _ | .oneOf _, _ | .duration, _
  | .declareId _ _, _ | .useId _, _ => rfl

/-- A schema without supplied checks at any depth has none. -/
theorem Schema.checks_eq_nil : ∀ schema : Schema, schema.isCustomFree = true → schema.checks = []
  | ⟨_, fields, _⟩, h => Schema.fieldChecks_eq_nil fields h

theorem Schema.fieldChecks_eq_nil : ∀ fields : List (String × Field),
    Schema.everyField (fun kind => !kind.isCustom) (fun _ => true) fields = true →
      Schema.fieldChecks fields = []
  | [], _ => rfl
  | (_, ⟨kind, _, _⟩) :: rest, h => by
      simp only [Schema.everyField, Bool.and_eq_true] at h
      rw [Schema.fieldChecks, kind.checks_eq_nil h.1.2, Schema.fieldChecks_eq_nil rest h.2,
        List.nil_append]

end

namespace Kind

theorem Normal.ne_null (h : kind.Normal value) : value ≠ .null := by
  cases h with
  | simple _ hpresent => exact hpresent
  | sequenceOf | nested => nofun

/-- The option that a text names is the one that its own name chooses. -/
theorem choose_again {options : List String} {text : String}
    (h : choose options text = .ok value) :
    ∃ option, value = .text option ∧ choose options option = .ok value := by
  unfold choose at h
  split at h
  · next option hfound =>
      obtain rfl := Except.ok.inj h
      refine ⟨option, rfl, ?_⟩
      have hagain : options.find? (Text.sameLetters · option) = some option := by
        rw [List.find?_eq_some_iff_append] at hfound ⊢
        obtain ⟨hsame, passed, rest, hoptions, hpassed⟩ := hfound
        refine ⟨by simp [Text.sameLetters], passed, rest, hoptions, fun earlier hmem => ?_⟩
        have hother := hpassed earlier hmem
        simp only [Text.sameLetters, beq_iff_eq, Bool.not_eq_true', beq_eq_false_iff_ne] at *
        rwa [hsame]
      rw [choose, hagain]
  · simp at h

theorem asDeclaration_again {type : String} {base : Option String} {slot : Slot}
    (h : given.asDeclaration type base = .ok slot) :
    (Value.identifier slot).asDeclaration type base = .ok slot := by
  unfold Value.asDeclaration at h
  split at h
  · split at h
    · simp at h
    · obtain rfl := Except.ok.inj h
      rfl
  · next name _ _ =>
      obtain rfl := Except.ok.inj h
      cases name <;> rfl
  · simp at h

theorem asReference_again {type : String} {slot : Slot}
    (h : given.asReference type = .ok slot) :
    (Value.identifier slot).asReference type = .ok slot := by
  unfold Value.asReference at h
  split at h
  · split at h
    · simp at h
    · obtain rfl := Except.ok.inj h
      rfl
  · obtain rfl := Except.ok.inj h
    rfl
  · simp at h

/-- A kind without parts gives back what it has converted, unless it is a supplied
check. -/
theorem convert_again (hsimple : kind.isSimple = true) (hcustom : kind.isCustom = false)
    (h : kind.convert path name given = .ok value) :
    kind.convert other label value = .ok value := by
  cases kind with
  | nested | sequenceOf => simp [isSimple] at hsimple
  | custom => simp [isCustom] at hcustom
  | boolean | text =>
      rw [convert] at h
      obtain ⟨_, _, rfl⟩ := Except.map_eq_ok (located_eq_ok h)
      rfl
  | duration =>
      rw [convert] at h
      obtain ⟨_, _, rfl⟩ := Except.map_eq_ok (located_eq_ok h)
      rfl
  | declareId type base =>
      rw [convert] at h
      obtain ⟨slot, hslot, rfl⟩ := Except.map_eq_ok (located_eq_ok h)
      rw [convert, asDeclaration_again hslot]
      rfl
  | useId type =>
      rw [convert] at h
      obtain ⟨slot, hslot, rfl⟩ := Except.map_eq_ok (located_eq_ok h)
      rw [convert, asReference_again hslot]
      rfl
  | integer min max =>
      rw [convert] at h
      obtain ⟨number, _, hrange⟩ := Except.bind_eq_ok (located_eq_ok h)
      obtain rfl : .integer number = value := by
        unfold inRange at hrange
        split at hrange
        · simp at hrange
        · exact Except.ok.inj hrange
      exact congrArg _ hrange
  | float min max =>
      rw [convert] at h
      obtain ⟨number, _, hbounds⟩ := Except.bind_eq_ok (located_eq_ok h)
      obtain rfl : .float number = value := by
        unfold inBounds at hbounds
        split at hbounds
        · simp at hbounds
        · exact Except.ok.inj hbounds
      exact congrArg _ hbounds
  | oneOf options =>
      rw [convert] at h
      obtain ⟨text, _, hchoice⟩ := Except.bind_eq_ok (located_eq_ok h)
      obtain ⟨option, rfl, hagain⟩ := choose_again hchoice
      exact congrArg _ hagain

/-- A kind without parts converts nothing that is absent, unless it is a supplied
check. -/
theorem convert_null_ne_ok (hsimple : kind.isSimple = true) (hcustom : kind.isCustom = false) :
    kind.convert path name .null ≠ .ok value := by
  cases kind with
  | nested | sequenceOf => simp [isSimple] at hsimple
  | custom => simp [isCustom] at hcustom
  | _ => intro h; cases h

theorem keeps_custom_iff {tag : String} {check : Check} :
    (Kind.custom tag check).Keeps path name value ↔ check.Keeps value := by
  rw [Keeps, convert, Check.Keeps]
  cases check.run value with
  | ok kept =>
      exact ⟨fun h => congrArg _ (Except.ok.inj h), fun h => congrArg _ (Except.ok.inj h)⟩
  | error reason => constructor <;> intro h <;> cases h

/-- What a kind without parts converts is in normal form. -/
theorem normal_of_isSimple (hsimple : kind.isSimple = true)
    (hchecks : ∀ check ∈ kind.checks, check.Settles)
    (h : kind.convert path name given = .ok value) : kind.Normal value := by
  cases hcustom : kind.isCustom with
  | false =>
      refine .simple hsimple ?_ fun other label => ?_
      · rintro rfl
        have hagain : kind.convert path name .null = .ok .null := convert_again hsimple hcustom h
        exact convert_null_ne_ok hsimple hcustom hagain
      · exact congrArg (Except.map Value.content) (convert_again hsimple hcustom h)
  | true =>
      cases kind with
      | custom tag check =>
          rw [convert] at h
          have hrun := Except.mapError_eq_ok_iff.mp (located_eq_ok h)
          obtain ⟨hpresent, hkept⟩ := hchecks check (List.mem_singleton.mpr rfl) given value hrun
          exact .simple hsimple hpresent fun _ _ => keeps_custom_iff.mpr hkept
      | _ => simp [isCustom] at hcustom

/-- An absent field stays without a value if nothing fills it in. -/
theorem absent_eq_ok_none_iff {required : Bool} {default : Option Value} :
    kind.absent required default path name = .ok none ↔
      required = false ∧ default = none ∧ kind.declaredType? = none := by
  unfold absent
  cases required with
  | true => simp
  | false =>
      cases default with
      | some value => simp
      | none => cases kind <;> simp [declaredType?]

end Kind

namespace Field

variable {field : Field}

theorem mayLack_of_result (h : field.result path raw name = .ok none) : field.MayLack := by
  unfold result at h
  split at h
  · obtain ⟨_, _, hnone⟩ := Except.map_eq_ok h
    simp at hnone
  · exact Kind.absent_eq_ok_none_iff.mp h

theorem normal_of_result
    (hconverts : ∀ path name given value,
      field.kind.convert path name given = .ok value → field.kind.Normal value)
    (hdefault : ∀ value, field.default = some value →
      ∃ raw, field.kind.convert (Path.root.field name) name raw = .ok value)
    (h : field.result path raw name = .ok (some value)) : field.kind.Normal value := by
  rcases result_cases h with ⟨given, _, hconvert⟩ | hvalue | ⟨type, base, hkind, rfl⟩
  · exact hconverts _ _ given value hconvert
  · obtain ⟨given, hconvert⟩ := hdefault value hvalue
    exact hconverts _ _ given value hconvert
  · -- A declaration that waits is what its kind makes of itself.
    refine hconverts path name (.identifier (.automatic type base)) _ ?_
    rw [hkind]
    rfl

end Field

/-- What a constraint says of a node depends only on the keys it has. -/
theorem Constraint.violation?_congr {constraint : Constraint} {left right : Node}
    (h : left.contains = right.contains) :
    constraint.violation? left = constraint.violation? right := by
  unfold violation? present
  rw [h]

namespace Schema

theorem mayLack_of_validate {field : Field} (h : schema.validate path raw = .ok node)
    (hfield : (name, field) ∈ schema.fields) (hlacks : name ∉ Table.keys node.entries) :
    field.MayLack := by
  obtain ⟨_ | value, hresult⟩ := exists_result_of_problemsOf (validate_eq_ok h).1 hfield
  · exact Field.mayLack_of_result hresult
  · have hentry := (mem_entries_of_validate h).mpr ⟨field, hfield, hresult⟩
    exact absurd (List.mem_map.mpr ⟨_, hentry, rfl⟩) hlacks

theorem violation?_of_validate {constraint : Constraint} (h : schema.validate path raw = .ok node)
    (hmem : constraint ∈ schema.constraints) : constraint.violation? node = none :=
  Option.map_eq_none_iff.mp
    (List.filterMap_eq_nil_iff.mp (validate_eq_ok h).2.2.1 constraint hmem)

/-- A validated node is in normal form if everything its fields convert is. -/
theorem Sound.normal_of_validate (hsound : schema.Sound)
    (hconverts : ∀ entry ∈ schema.fields, ∀ path name given value,
      entry.2.kind.convert path name given = .ok value → entry.2.kind.Normal value)
    (h : schema.validate path raw = .ok node) : (Kind.nested schema).Normal node.toValue := by
  refine .nested (keys_sublist_of_validate h) ?_ (fun _ _ => mayLack_of_validate h)
    fun _ => violation?_of_validate h
  intro name field value hfield hvalue
  obtain ⟨found, hfound, hresult⟩ := (mem_entries_of_validate h).mp hvalue
  obtain rfl : found = field :=
    Option.some.inj ((hsound.field?_eq hfound).symm.trans (hsound.field?_eq hfield))
  exact Field.normal_of_result (hconverts _ hfound) (hsound.defaults _ hfound) hresult

end Schema

/-- Whatever a kind converts is in normal form, if the supplied checks settle. -/
theorem Kind.Sound.normal_of_convert (hsound : kind.Sound)
    (hchecks : ∀ check ∈ kind.checks, check.Settles)
    (h : kind.convert path name given = .ok value) : kind.Normal value := by
  induction hsound generalizing path name given value with
  | simple hsimple => exact normal_of_isSimple hsimple hchecks h
  | sequenceOf _ ih =>
      obtain ⟨items, rfl, _, hitems⟩ := convert_sequenceOf_eq_ok h
      refine .sequenceOf fun item hmem => ?_
      obtain ⟨position, hitem⟩ := List.mem_iff_getElem?.mp hmem
      obtain ⟨_, _, hconvert⟩ := hitems position item hitem
      exact ih hchecks hconvert
  | @nested schema hnames hkinds hdefaults ih =>
      have hschema : schema.Sound := .nested hnames hkinds hdefaults
      obtain ⟨_, node, _, hvalid, rfl⟩ := convert_nested_eq_ok h
      refine hschema.normal_of_validate (fun entry hmem _ _ _ _ hconvert => ?_) hvalid
      exact ih entry hmem
        (fun check hcheck => hchecks check (Schema.mem_checks_of_mem hmem hcheck)) hconvert

end Firmware
