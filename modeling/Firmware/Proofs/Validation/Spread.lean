import Firmware.Proofs.Schema.Composed
import Firmware.Proofs.Validation.Fields
import Firmware.Proofs.Value.Spread
/-!
Locations of validated identifier slots.  A conversion puts every slot below the
location of its value, and no two at the same one, as long as the slots do not come from
a check or from a mapping that was converted elsewhere.
-/

namespace Firmware

mutual

/-- Whether tests hold of every kind without parts in a kind, and of every default. -/
def Kind.every (ofKind : Kind → Bool) (ofDefault : Value → Bool) : Kind → Bool
  | .nested schema => schema.every ofKind ofDefault
  | .sequenceOf item => item.every ofKind ofDefault
  | kind => ofKind kind
termination_by structural kind => kind

def Schema.every (ofKind : Kind → Bool) (ofDefault : Value → Bool) : Schema → Bool
  | ⟨_, fields, _⟩ => Schema.everyField ofKind ofDefault fields
termination_by structural schema => schema

def Schema.everyField (ofKind : Kind → Bool) (ofDefault : Value → Bool) :
    List (String × Field) → Bool
  | [] => true
  | (_, ⟨kind, _, default⟩) :: rest =>
      default.all ofDefault && kind.every ofKind ofDefault
        && Schema.everyField ofKind ofDefault rest
termination_by structural fields => fields

end

mutual

/-- Tests that hold of everything hold in every kind. -/
theorem Kind.every_true : ∀ kind : Kind, kind.every (fun _ => true) (fun _ => true) = true
  | .nested schema => schema.every_true
  | .sequenceOf item => item.every_true
  | .boolean | .integer _ _ | .float _ _ | .text | .oneOf _ | .duration | .declareId _ _ | .useId _
  | .custom _ _ => rfl

theorem Schema.every_true : ∀ schema : Schema, schema.every (fun _ => true) (fun _ => true) = true
  | ⟨_, fields, _⟩ => Schema.everyField_true fields

theorem Schema.everyField_true : ∀ fields : List (String × Field),
    Schema.everyField (fun _ => true) (fun _ => true) fields = true
  | [] => rfl
  | (_, ⟨kind, _, default⟩) :: rest => by
      rw [Schema.everyField, kind.every_true, Schema.everyField_true rest]
      cases default <;> rfl

end

namespace Kind

/-- Whether a kind is a conversion that is supplied with the schema. -/
def isCustom : Kind → Bool
  | .custom _ _ => true
  | _ => false

end Kind

namespace Schema

/-- Whether no field at any depth is converted by a supplied check. -/
def isCustomFree (schema : Schema) : Bool :=
  schema.every (fun kind => !kind.isCustom) (fun _ => true)

/-- Whether no default at any depth holds a mapping. -/
def hasFlatDefaults (schema : Schema) : Bool := schema.every (fun _ => true) Value.isFlat

variable {ofKind : Kind → Bool} {ofDefault : Value → Bool} {schema : Schema}
  {entry : String × Field}

theorem every_of_mem (h : schema.every ofKind ofDefault = true) (hmem : entry ∈ schema.fields) :
    (∀ value, entry.2.default = some value → ofDefault value = true) ∧
      entry.2.kind.every ofKind ofDefault = true := by
  obtain ⟨name, fields, constraints⟩ := schema
  rw [every] at h
  induction fields with
  | nil => simp at hmem
  | cons first rest ih =>
      obtain ⟨key, kind, required, default⟩ := first
      simp only [everyField, Bool.and_eq_true, Option.all_eq_true] at h
      rcases List.mem_cons.mp hmem with rfl | hrest
      · exact h.1
      · exact ih h.2 hrest

end Schema

/-- Whether a statement holds of kinds without parts that pass a test, and of kinds with parts
as soon as it holds of these. -/
structure Kind.Hereditary (ofKind : Kind → Bool) (motive : Kind → Prop) : Prop where
  simple : ∀ kind, kind.isSimple = true → ofKind kind = true → motive kind
  sequenceOf : ∀ item, motive item → motive (.sequenceOf item)
  nested : ∀ schema : Schema, (∀ entry ∈ schema.fields, motive entry.2.kind) →
    motive (.nested schema)

namespace Kind.Hereditary

variable {ofKind : Kind → Bool} {ofDefault : Value → Bool} {motive : Kind → Prop}

mutual

/-- Such a statement holds of every kind in which the test holds. -/
theorem of_kind (h : Hereditary ofKind motive) :
    ∀ kind : Kind, kind.every ofKind ofDefault = true → motive kind
  | .nested schema, hevery => h.nested schema (of_schema h schema hevery)
  | .sequenceOf item, hevery => h.sequenceOf item (of_kind h item hevery)
  | .boolean, hevery | .integer _ _, hevery | .float _ _, hevery | .text, hevery
  | .oneOf _, hevery | .duration, hevery | .declareId _ _, hevery | .useId _, hevery
  | .custom _ _, hevery => h.simple _ rfl hevery

theorem of_schema (h : Hereditary ofKind motive) :
    ∀ schema : Schema, schema.every ofKind ofDefault = true →
      ∀ entry ∈ schema.fields, motive entry.2.kind
  | ⟨_, fields, _⟩, hevery => of_fields h fields hevery

theorem of_fields (h : Hereditary ofKind motive) : ∀ fields : List (String × Field),
    Schema.everyField ofKind ofDefault fields = true → ∀ entry ∈ fields, motive entry.2.kind
  | [], _ => nofun
  | (_, ⟨kind, _, _⟩) :: rest, hevery => by
      simp only [Schema.everyField, Bool.and_eq_true] at hevery
      intro entry hmem
      rcases List.mem_cons.mp hmem with rfl | hrest
      · exact of_kind h kind hevery.1.2
      · exact of_fields h rest hevery.2 entry hrest

end

end Kind.Hereditary

variable {path : Path} {name : String} {value : Value} {raw node : Node}

open Validation

namespace Kind

theorem every_of_isSimple {kind : Kind} {ofKind : Kind → Bool} {ofDefault : Value → Bool}
    (h : kind.isSimple = true) : kind.every ofKind ofDefault = ofKind kind := by
  cases kind with
  | nested | sequenceOf => simp [isSimple] at h
  | _ => rfl

/-- What a kind without parts converts has no parts, unless it is a supplied check. -/
theorem isScalar_of_convert {kind : Kind} {given : Value} (hsimple : kind.isSimple = true)
    (hcustom : kind.isCustom = false) (h : kind.convert path name given = .ok value) :
    value.isScalar = true := by
  cases kind with
  | nested | sequenceOf => simp [isSimple] at hsimple
  | custom => simp [isCustom] at hcustom
  | boolean | text | duration | declareId | useId =>
      rw [convert] at h
      obtain ⟨_, _, rfl⟩ := Except.map_eq_ok (located_eq_ok h)
      rfl
  | integer min max =>
      rw [convert] at h
      obtain ⟨_, _, hrange⟩ := Except.bind_eq_ok (located_eq_ok h)
      unfold inRange at hrange
      split at hrange
      · simp at hrange
      · exact Except.ok.inj hrange ▸ rfl
  | float min max =>
      rw [convert] at h
      obtain ⟨_, _, hbounds⟩ := Except.bind_eq_ok (located_eq_ok h)
      unfold inBounds at hbounds
      split at hbounds
      · simp at hbounds
      · exact Except.ok.inj hbounds ▸ rfl
  | oneOf options =>
      rw [convert] at h
      obtain ⟨_, _, hchoice⟩ := Except.bind_eq_ok (located_eq_ok h)
      unfold choose at hchoice
      split at hchoice
      · exact Except.ok.inj hchoice ▸ rfl
      · simp at hchoice

end Kind

/-- The slots of a validated node are spread out below its location, if those of every
converted field are and defaults hold no mapping. -/
theorem Schema.spread_of_validate {schema : Schema} (hnames : (Table.keys schema.fields).Nodup)
    (hdefaults : ∀ entry ∈ schema.fields, ∀ value, entry.2.default = some value →
      value.isFlat = true)
    (hkinds : ∀ entry ∈ schema.fields, ∀ given value,
      entry.2.kind.convert (path.field entry.1) entry.1 given = .ok value →
        Spread (path.field entry.1) (value.slots (path.field entry.1)))
    (h : schema.validate path raw = .ok node) : Spread path node.slots := by
  rw [Node.slots, path_of_validate h]
  apply Value.spread_entrySlots (hnames.sublist (keys_sublist_of_validate h))
  rintro ⟨key, value⟩ hmem
  obtain ⟨field, hfield, hresult⟩ := (mem_entries_of_validate h).mp hmem
  rcases Field.result_cases hresult with ⟨given, _, hconvert⟩ | hdefault | ⟨_, _, _, rfl⟩
  · exact hkinds (key, field) hfield given value hconvert
  · exact Value.spread_of_isFlat _ (hdefaults (key, field) hfield value hdefault)
  · exact .singleton _ _

/-- A conversion spreads slots out below the location of its value. -/
theorem Kind.Sound.spread_of_convert {kind : Kind} {given : Value} (hsound : kind.Sound)
    (hcustom : kind.every (fun kind => !kind.isCustom) (fun _ => true) = true)
    (hflat : kind.every (fun _ => true) Value.isFlat = true)
    (h : kind.convert path name given = .ok value) : Spread path (value.slots path) := by
  induction hsound generalizing path name given value with
  | simple hsimple =>
      rw [every_of_isSimple hsimple, Bool.not_eq_true'] at hcustom
      exact Value.spread_of_isFlat path
        (Value.isFlat_of_isScalar (isScalar_of_convert hsimple hcustom h))
  | sequenceOf _ ih =>
      rw [every] at hcustom hflat
      obtain ⟨items, rfl, _, hitems⟩ := convert_sequenceOf_eq_ok h
      rw [Value.slots]
      apply Value.spread_itemSlots
      rintro ⟨item, position⟩ hmem
      obtain ⟨_, _, hconvert⟩ := hitems position item (List.mem_zipIdx_iff_getElem?.mp hmem)
      exact ih hcustom hflat hconvert
  | nested hnames _ _ ih =>
      rw [every] at hcustom hflat
      obtain ⟨_, node, _, hvalid, rfl⟩ := convert_nested_eq_ok h
      refine Schema.spread_of_validate hnames ?_ ?_ hvalid
      · exact fun entry hmem => (Schema.every_of_mem hflat hmem).1
      · intro entry hmem given value hconvert
        exact ih entry hmem (Schema.every_of_mem hcustom hmem).2
          (Schema.every_of_mem hflat hmem).2 hconvert

/-- A schema without supplied checks whose defaults hold no mapping spreads the slots of
a node out below its location. -/
theorem Schema.Sound.spread_of_validate {schema : Schema} (hsound : schema.Sound)
    (hcustom : schema.isCustomFree = true) (hflat : schema.hasFlatDefaults = true)
    (h : schema.validate path raw = .ok node) : Spread path node.slots := by
  refine Schema.spread_of_validate hsound.names ?_ ?_ h
  · exact fun entry hmem => (every_of_mem hflat hmem).1
  · intro entry hmem given value hconvert
    exact (hsound.kinds entry hmem).spread_of_convert (every_of_mem hcustom hmem).2
      (every_of_mem hflat hmem).2 hconvert

end Firmware
