import Firmware.Proofs.Validation.Conforming
/-!
Where validated declarations come from.  A declaration that waits for its name has the base
of a declaring field of the schema.  One that has a name was read from a text that is
accepted as a name, or stands in a default of the schema, which may hold any name: a default
that holds declarations of its own is taken as it is.
-/

namespace Firmware

open Validation

/-- Whether a kind stands in a kind, at any depth. -/
inductive Kind.Has (inner : Kind) : Kind → Prop
  | here : Has inner inner
  | item {item : Kind} (below : Has inner item) : Has inner (.sequenceOf item)
  | field {schema : Schema} {entry : String × Field} (declared : entry ∈ schema.fields)
      (below : Has inner entry.2.kind) : Has inner (.nested schema)

/-- Whether a slot stands in a default of a kind, at any depth. -/
inductive Kind.Presets (kind : Kind) (slot : Slot) : Prop
  | intro {schema : Schema} {entry : String × Field} {default : Value}
      (has : Has (.nested schema) kind) (declared : entry ∈ schema.fields)
      (supplied : entry.2.default = some default) (holds : default.Holds slot)

variable {path : Path} {name : String} {slot : Slot} {given value : Value} {raw node : Node}
  {kind item : Kind} {schema : Schema} {entry : String × Field}

namespace Value

theorem Holds.eq_of_isScalar (h : value.Holds slot) (hscalar : value.isScalar = true) :
    value = .identifier slot := by
  cases h with
  | here => rfl
  | entry | item => simp [isScalar] at hscalar

theorem base_of_asDeclaration {type : String} {base : Option String}
    (h : given.asDeclaration type base = .ok slot) (hwaits : slot.name = none) :
    slot.base = base := by
  unfold asDeclaration at h
  split at h
  · split at h
    · simp at h
    · rw [← Except.ok.inj h] at hwaits
      simp [Slot.explicit] at hwaits
  · rw [← Except.ok.inj h] at hwaits ⊢
    simp only at hwaits
    rw [hwaits]
    rfl
  · simp at h

theorem refers_of_asReference {type : String} (h : given.asReference type = .ok slot) :
    slot.declares = false := by
  unfold asReference at h
  split at h
  · split at h
    · simp at h
    · exact Except.ok.inj h ▸ rfl
  · exact Except.ok.inj h ▸ rfl
  · simp at h

end Value

/-- A slot in a validated node stands in what a field converts or in a default, or is the
declaration of a field that is absent. -/
theorem Schema.holds_cases (h : schema.validate path raw = .ok node) (hholds : node.Holds slot) :
    ∃ entry ∈ schema.fields,
      (∃ given value, raw.given? entry.1 = some given ∧
        entry.2.kind.convert (path.field entry.1) entry.1 given = .ok value ∧
          value.Holds slot) ∨
      (∃ default, entry.2.default = some default ∧ default.Holds slot) ∨
      ∃ type base, entry.2.kind = .declareId type base ∧ slot = .automatic type base := by
  cases hholds with
  | @entry _ _ key value hpresent hbelow =>
      obtain ⟨field, hfield, hresult⟩ := (mem_entries_of_validate h).mp hpresent
      refine ⟨(key, field), hfield, ?_⟩
      rcases Field.result_cases hresult with ⟨given, hgiven, hconvert⟩ | hdefault |
        ⟨type, base, hkind, rfl⟩
      · exact .inl ⟨given, value, hgiven, hconvert, hbelow⟩
      · exact .inr (.inl ⟨value, hdefault, hbelow⟩)
      · cases hbelow
        exact .inr (.inr ⟨type, base, hkind, rfl⟩)

namespace Kind

theorem Presets.of_item (h : item.Presets slot) : (sequenceOf item).Presets slot := by
  obtain ⟨hhas, hdeclared, hsupplied, hholds⟩ := h
  exact ⟨hhas.item, hdeclared, hsupplied, hholds⟩

theorem Presets.of_field (hentry : entry ∈ schema.fields) (h : entry.2.kind.Presets slot) :
    (nested schema).Presets slot := by
  obtain ⟨hhas, hdeclared, hsupplied, hholds⟩ := h
  exact ⟨.field hentry hhas, hdeclared, hsupplied, hholds⟩

theorem exists_item_of_convert (h : (sequenceOf item).convert path name given = .ok value)
    (hholds : value.Holds slot) : ∃ old ∈ given.items, ∃ place converted,
      item.convert place name old = .ok converted ∧ converted.Holds slot := by
  obtain ⟨items, rfl, _, hitems⟩ := convert_sequenceOf_eq_ok h
  cases hholds with
  | @item _ converted hpresent hbelow =>
      obtain ⟨position, hposition⟩ := List.mem_iff_getElem?.mp hpresent
      obtain ⟨old, hold, hconvert⟩ := hitems position converted hposition
      exact ⟨old, List.mem_of_getElem? hold, _, converted, hconvert, hbelow⟩

theorem exists_asDeclaration_of_convert (hsimple : kind.isSimple = true)
    (hcustom : kind.isCustom = false) (h : kind.convert path name given = .ok value)
    (hholds : value.Holds slot) (hdeclares : slot.declares = true) :
    ∃ type base, kind = .declareId type base ∧ given.asDeclaration type base = .ok slot := by
  obtain rfl := hholds.eq_of_isScalar (isScalar_of_convert hsimple hcustom h)
  rcases declares_or_uses_of_convert hsimple hcustom h with ⟨type, base, rfl⟩ | ⟨type, rfl⟩
  · rw [convert] at h
    obtain ⟨own, hslot, heq⟩ := Except.map_eq_ok (located_eq_ok h)
    obtain rfl := Value.identifier.inj heq
    exact ⟨type, base, rfl, hslot⟩
  · rw [convert] at h
    obtain ⟨own, hslot, heq⟩ := Except.map_eq_ok (located_eq_ok h)
    obtain rfl := Value.identifier.inj heq
    rw [Value.refers_of_asReference hslot] at hdeclares
    contradiction

/-- A declaration that waits for its name has the base of a declaring kind. -/
theorem Sound.has_of_convert (hsound : kind.Sound)
    (hcustom : kind.every (fun kind => !kind.isCustom) (fun _ => true) = true)
    (h : kind.convert path name given = .ok value) (hholds : value.Holds slot)
    (hdeclares : slot.declares = true) (hwaits : slot.name = none) :
    ∃ type, Has (.declareId type slot.base) kind := by
  induction hsound generalizing path name given value with
  | simple hsimple =>
      rw [every_of_isSimple hsimple, Bool.not_eq_true'] at hcustom
      obtain ⟨type, base, rfl, hslot⟩ :=
        exists_asDeclaration_of_convert hsimple hcustom h hholds hdeclares
      exact ⟨type, Value.base_of_asDeclaration hslot hwaits ▸ .here⟩
  | sequenceOf _ ih =>
      rw [every] at hcustom
      obtain ⟨_, _, _, _, hconvert, hbelow⟩ := exists_item_of_convert h hholds
      obtain ⟨type, hhas⟩ := ih hcustom hconvert hbelow
      exact ⟨type, hhas.item⟩
  | @nested schema _ _ hdefaults ih =>
      rw [every] at hcustom
      obtain ⟨raw, node, rfl, hvalid, rfl⟩ := convert_nested_eq_ok h
      obtain ⟨entry, hentry, hcases⟩ := Schema.holds_cases hvalid hholds
      have hfree := (Schema.every_of_mem hcustom hentry).2
      rcases hcases with ⟨given, value, _, hconvert, hbelow⟩ | ⟨default, hdefault, hbelow⟩ |
        ⟨type, base, hkind, rfl⟩
      · obtain ⟨type, hhas⟩ := ih entry hentry hfree hconvert hbelow
        exact ⟨type, hhas.field hentry⟩
      · -- The default has been converted by the kind of its field.
        obtain ⟨old, hconvert⟩ := hdefaults entry hentry default hdefault
        obtain ⟨type, hhas⟩ := ih entry hentry hfree hconvert hbelow
        exact ⟨type, hhas.field hentry⟩
      · exact ⟨type, .field hentry (hkind ▸ .here)⟩

/-- A declaration with a name, converted from a value without slots, stands in a default or
has a name that may be chosen. -/
theorem Sound.accepted_or_presets_of_convert (hsound : kind.Sound)
    (hcustom : kind.every (fun kind => !kind.isCustom) (fun _ => true) = true)
    (hbare : given.IsBare) (h : kind.convert path name given = .ok value)
    (hholds : value.Holds slot) (hdeclares : slot.declares = true) {chosen : String}
    (hchosen : slot.name = some chosen) : nameFault? chosen = none ∨ kind.Presets slot := by
  induction hsound generalizing path name given value with
  | simple hsimple =>
      rw [every_of_isSimple hsimple, Bool.not_eq_true'] at hcustom
      obtain ⟨type, base, rfl, hslot⟩ :=
        exists_asDeclaration_of_convert hsimple hcustom h hholds hdeclares
      cases conforms_of_asDeclaration (.inl hbare) hslot with
      | declareId _ _ _ hnamed =>
          obtain ⟨own, hown, hfault⟩ := hnamed.resolve_right (by simp [hchosen])
          exact .inl (Option.some.inj (hchosen.symm.trans hown) ▸ hfault)
  | sequenceOf _ ih =>
      rw [every] at hcustom
      obtain ⟨old, hold, _, _, hconvert, hbelow⟩ := exists_item_of_convert h hholds
      exact (ih hcustom (hbare.of_mem_items hold) hconvert hbelow).imp_right Presets.of_item
  | @nested schema _ _ _ ih =>
      rw [every] at hcustom
      obtain ⟨raw, node, rfl, hvalid, rfl⟩ := convert_nested_eq_ok h
      obtain ⟨entry, hentry, hcases⟩ := Schema.holds_cases hvalid hholds
      have hfree := (Schema.every_of_mem hcustom hentry).2
      rcases hcases with ⟨given, value, hgiven, hconvert, hbelow⟩ | ⟨default, hdefault, hbelow⟩ |
        ⟨type, base, _, rfl⟩
      · exact (ih entry hentry hfree (hbare.of_given? hgiven) hconvert hbelow).imp_right
          (Presets.of_field hentry)
      · exact .inr ⟨.here, hentry, hdefault, hbelow⟩
      · simp [Slot.automatic] at hchosen

end Kind

end Firmware
