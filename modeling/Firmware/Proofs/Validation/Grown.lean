import Firmware.Proofs.Validation.Conforming
import Firmware.Proofs.Validation.Keeping
/-!
Grown values: those that kinds make of values without identifier slots.  A default is one of
them, and so is what a kind makes of a default, because composition converts every default as it
would convert a value that is given.
-/

namespace Firmware

open Validation

/-- Whether a value of a field declares an identifier that waits for its name, as it does where
the field is absent. -/
def Field.Waits (field : Field) (value : Value) : Prop :=
  field.required = false ∧ field.default = none ∧
    ∃ type base, field.kind = .declareId type base ∧ value = .identifier (.automatic type base)

/-- The values that kinds make of values without identifier slots; what a supplied check
returns is its own affair. -/
inductive Kind.Grown : Kind → Value → Prop
  | custom (name : String) (check : Check) (value : Value) : Grown (.custom name check) value
  | simple {kind : Kind} {path : Path} {name : String} {given value : Value}
      (simple : kind.isSimple = true) (plain : kind.isCustom = false) (bare : given.IsBare)
      (made : kind.convert path name given = .ok value) : Grown kind value
  | sequenceOf {item : Kind} {items : List Value} (grown : ∀ value ∈ items, Grown item value) :
      Grown (.sequenceOf item) (.sequence items)
  | nested {schema : Schema} {path : Path} {entries : List (String × Value)}
      (names : (Table.keys schema.fields).Nodup)
      (keys : (Table.keys entries).Sublist (Table.keys schema.fields))
      (present : ∀ name field value, (name, field) ∈ schema.fields → (name, value) ∈ entries →
        ¬ field.Waits value → Grown field.kind value)
      (absent : ∀ name field, (name, field) ∈ schema.fields → name ∉ Table.keys entries →
        field.MayLack)
      (constraints : ∀ constraint ∈ schema.constraints,
        constraint.violation? ⟨path, entries⟩ = none) :
      Grown (.nested schema) (.mapping path entries)

variable {path : Path} {name : String} {kind : Kind} {schema : Schema} {field : Field}
  {given value : Value} {raw : Node}

namespace Kind

theorem grown_of_isSimple (hsimple : kind.isSimple = true)
    (hgiven : given.IsBare ∨ kind.Grown given) (h : kind.convert path name given = .ok value) :
    kind.Grown value := by
  cases hcustom : kind.isCustom with
  | true =>
      cases kind with
      | custom tag check => exact .custom tag check value
      | _ => simp [isCustom] at hcustom
  | false =>
      rcases hgiven with hbare | hgrown
      · exact .simple hsimple hcustom hbare h
      · cases hgrown with
        | custom => simp [isCustom] at hcustom
        | sequenceOf | nested => simp [isSimple] at hsimple
        | simple _ _ hbare hmade =>
            obtain rfl := Except.ok.inj ((convert_again hsimple hcustom hmade).symm.trans h)
            exact .simple hsimple hcustom hbare hmade

theorem grown_of_mem_items {item : Kind} {part : Value}
    (hgiven : given.IsBare ∨ (Kind.sequenceOf item).Grown given) (hmem : part ∈ given.items) :
    part.IsBare ∨ item.Grown part := by
  rcases hgiven with hbare | hgrown
  · exact .inl (hbare.of_mem_items hmem)
  · cases hgrown with
    | simple h => simp [isSimple] at h
    | sequenceOf hitems => exact .inr (hitems part hmem)

theorem grown_of_given? (hraw : raw.toValue.IsBare ∨ (Kind.nested schema).Grown raw.toValue)
    (hfield : (name, field) ∈ schema.fields) (hgiven : raw.given? name = some given)
    (hwaits : ¬ field.Waits given) : given.IsBare ∨ field.kind.Grown given := by
  rcases hraw with hbare | hgrown
  · exact .inl (hbare.of_given? hgiven)
  · obtain ⟨own, entries⟩ := raw
    cases hgrown with
    | simple h => simp [isSimple] at h
    | nested _ _ hpresent =>
        have hentry := Table.mem_of_get?_eq (Node.given?_eq_some_iff.mp hgiven).1
        exact .inr (hpresent name field given hfield hentry hwaits)

end Kind

theorem Field.Waits.of_convert (h : field.Waits given)
    (hconvert : field.kind.convert path name given = .ok value) : field.Waits value := by
  obtain ⟨hoptional, hdefault, type, base, hkind, rfl⟩ := h
  rw [hkind] at hconvert
  obtain rfl : .identifier (.automatic type base) = value := Except.ok.inj hconvert
  exact ⟨hoptional, hdefault, type, base, hkind, rfl⟩

theorem Field.default_or_waits (hgiven : raw.given? name = none)
    (h : field.result path raw name = .ok (some value)) :
    field.default = some value ∨ field.Waits value := by
  rw [result_of_lacking hgiven] at h
  unfold Kind.absent at h
  split at h
  · simp at h
  · next hoptional =>
      split at h
      · next hdefault => exact .inl (hdefault.trans (Except.ok.inj h))
      · next type base hdefault hkind =>
          have hvalue := Option.some.inj (Except.ok.inj h)
          exact .inr ⟨eq_false_of_ne_true hoptional, hdefault, type, base, hkind,
            hvalue.symm⟩
      · simp at h

/-- Kinds with grown defaults make grown values of bare and grown ones. -/
theorem Kind.confers_grown : Kind.Confers Value.IsBare Kind.Grown := by
  intro kind path name given value hdefaults hgiven h
  induction hdefaults generalizing path name given value with
  | simple hsimple => exact grown_of_isSimple hsimple hgiven h
  | sequenceOf _ ih =>
      obtain ⟨items, rfl, _, hitems⟩ := convert_sequenceOf_eq_ok h
      refine .sequenceOf fun item hmem => ?_
      obtain ⟨position, hitem⟩ := List.mem_iff_getElem?.mp hmem
      obtain ⟨old, hold, hconvert⟩ := hitems position item hitem
      exact ih (grown_of_mem_items hgiven (List.mem_of_getElem? hold)) hconvert
  | @nested schema hnames _ hdefaults ih =>
      obtain ⟨raw, node, rfl, hvalid, rfl⟩ := convert_nested_eq_ok h
      refine .nested hnames (Schema.keys_sublist_of_validate hvalid) ?_
        (fun _ _ => Schema.mayLack_of_validate hvalid)
        fun _ => Schema.violation?_of_validate hvalid
      intro name field value hfield hvalue hwaits
      obtain ⟨found, hfound, hresult⟩ := (Schema.mem_entries_of_validate hvalid).mp hvalue
      obtain rfl : found = field := Option.some.inj
        ((Table.get?_eq_of_mem hnames hfound).symm.trans (Table.get?_eq_of_mem hnames hfield))
      cases hraw : raw.given? name with
      | none =>
          rcases Field.default_or_waits hraw hresult with hdefault | hwaiting
          · exact hdefaults _ hfield value hdefault
          · exact absurd hwaiting hwaits
      | some given =>
          rw [Field.result_of_given hraw] at hresult
          obtain ⟨converted, hconvert, hsome⟩ := Except.map_eq_ok hresult
          obtain rfl := Option.some.inj hsome
          refine ih _ hfield (grown_of_given? hgiven hfield hraw fun hwaiting => ?_) hconvert
          exact hwaits (hwaiting.of_convert hconvert)

end Firmware
