import Firmware.Proofs.Schema.Merged
import Firmware.Proofs.Validation.Locations
import Firmware.Proofs.Value.Equality
import Firmware.Schema.Equality
/-!
Merging of several schemas without supplied checks.  It does not matter which two of three schemas
are merged first: both orders ask for kinds that are alike, and a default that is converted once
more after it has been converted twice stays as it is, locations included.
-/

namespace Firmware

namespace Kind

variable {kind : Kind} {path front : Path} {name key : String} {given value default : Value}

/-- For a value in normal form no default is taken. -/
theorem Normal.not_supplies (h : kind.Normal given) : ¬kind.Supplies given front key default := by
  rintro ⟨hleads, hdeclared, habsent, hsupplied⟩
  cases hleads.normal h with
  | simple hsimple => simp [isSimple] at hsimple
  | nested _ hpresent hlack _ =>
      refine absurd (hlack key _ hdeclared fun hmem => ?_).2.1 (by simp [hsupplied])
      obtain ⟨value, hvalue⟩ := Option.isSome_iff_exists.mp (Table.contains_eq_true_iff.mpr hmem)
      have hnormal := hpresent key _ value hdeclared (Table.mem_of_get?_eq hvalue)
      rw [Node.given?_eq_some_iff.mpr ⟨hvalue, hnormal.ne_null⟩] at habsent
      contradiction

/-- What a value in normal form is converted to is located where it stands. -/
theorem Normal.inPlace_of_convert (h : kind.Normal given) (hsound : kind.Sound)
    (hcustom : kind.every (fun kind => !kind.isCustom) (fun _ => true) = true)
    (hconvert : kind.convert path name given = .ok value) : value.InPlace path := by
  refine Value.ReachesInPlace.inPlace fun steps own entries hreach => ?_
  have hmapping : value.reach? steps = some (Node.mk own entries).toValue := hreach
  obtain ⟨hlocates, hkeys⟩ := hsound.locates hcustom hconvert hmapping
  refine ⟨?_, hkeys⟩
  cases hlocates with
  | converted hlocated => exact hlocated
  | supplied _ hsupplies => exact (h.not_supplies hsupplies).elim

end Kind

namespace Field

variable {name : String} {field : Field}

/-- A field as it stands in a schema without supplied checks. -/
structure IsPlain (name : String) (field : Field) : Prop extends field.IsStored name where
  customFree : field.kind.every (fun kind => !kind.isCustom) (fun _ => true) = true

theorem IsPlain.settles (h : field.IsPlain name) : ∀ check ∈ field.kind.checks, check.Settles := by
  rw [field.kind.checks_eq_nil h.customFree]
  nofun

theorem IsPlain.isAccepted (h : field.IsPlain name) : field.IsAccepted name :=
  h.toIsStored.isAccepted h.settles

theorem IsPlain.normalized (h : field.IsPlain name) : (field.normalized name).IsPlain name := by
  refine ⟨⟨h.sound, fun kept hkept => ?_⟩, h.customFree⟩
  obtain ⟨given, _, hconvert⟩ := exists_convert_of_normalized hkept
  exact ⟨given, hconvert⟩

theorem IsPlain.content_normalized (h : field.IsPlain name) :
    (field.normalized name).content = field.content :=
  h.isAccepted.takenAs.content_eq_iff.mpr fun _ hdefault => h.keeps h.settles hdefault

/-- Converting a default once more changes nothing but the locations of mappings that it had
taken in, and converting it again changes nothing at all. -/
theorem IsPlain.normalized_normalized (h : field.IsPlain name) :
    (field.normalized name).normalized name = field.normalized name := by
  cases hdefault : field.default with
  | none => rw [normalized_of_default_eq_none hdefault, normalized_of_default_eq_none hdefault]
  | some value =>
      obtain ⟨kept, hkept⟩ := h.isAccepted value hdefault
      have hstored : field.normalized name = { field with default := some kept } :=
        normalized_of_convert hdefault hkept
      -- Both conversions start from a normal form, so both results are located where they stand.
      have hnormal := h.normal h.settles hdefault
      have hagain := h.normalized
      rw [hstored] at hagain ⊢
      obtain ⟨again, hconvert⟩ := hagain.isAccepted kept rfl
      have hplace : again.InPlace (Path.root.field name) :=
        (hagain.normal hagain.settles rfl).inPlace_of_convert h.sound h.customFree hconvert
      have hcontent : again.content = kept.content := by
        have hkeeps := hagain.keeps hagain.settles rfl
        rw [Kind.Keeps, hconvert] at hkeeps
        exact Except.ok.inj hkeeps
      have hsame : again = kept := hplace.eq_of_content_eq
        (hnormal.inPlace_of_convert h.sound h.customFree hkept) hcontent
      rw [normalized_of_convert rfl hconvert, hsame]

end Field

namespace Kind

def Fit (first second : Option Kind) : Prop :=
  ∀ kind kind', first = some kind → second = some kind' → kind.Alike kind'

theorem fit_some {kind kind' : Kind} : Fit (some kind) (some kind') ↔ kind.Alike kind' :=
  ⟨fun h => h _ _ rfl rfl, by rintro h _ _ ⟨⟩ ⟨⟩; exact h⟩

/-- Where each of three kinds takes the place of those before it, it does not matter which two
of them have to fit first. -/
theorem fit_or_iff (first second third : Option Kind) :
    Fit first second ∧ Fit (second.or first) third ↔
      Fit second third ∧ Fit first (third.or second) := by
  cases first with
  | none => simp [Fit]
  | some kind =>
      cases second with
      | none => simp [Fit]
      | some kind' =>
          cases third with
          | none => simp [Fit]
          | some kind'' =>
              -- Either side relates the second kind to the third, and one of them to the first.
              simp only [Option.some_or, fit_some]
              exact ⟨fun ⟨h, h'⟩ => ⟨h', h.trans h'⟩, fun ⟨h', h⟩ => ⟨h.trans h'.symm, h'⟩⟩

end Kind

namespace Schema

variable {schema other first second third merged : Schema} {name : String} {problem : Problem}

/-- A schema whose fields are all plain, under different names. -/
structure IsPlain (schema : Schema) : Prop where
  names : (Table.keys schema.fields).Nodup
  fields : ∀ entry ∈ schema.fields, entry.2.IsPlain entry.1

theorem Composed.isPlain (h : schema.Composed) (hcustom : schema.isCustomFree = true) :
    schema.IsPlain where
  names := h.sound.names
  fields _ hmem := ⟨h.sound.isStored hmem, (every_of_mem hcustom hmem).2⟩

theorem IsPlain.mergedWith (h : schema.IsPlain) (hother : other.IsPlain) :
    (schema.mergedWith other).IsPlain where
  names := Table.nodup_keys_insertAll h.names _
  fields entry hmem := by
    rcases Table.mem_insertAll hmem with htaken | hold
    · obtain ⟨⟨name, field⟩, hfield, rfl⟩ := List.mem_map.mp htaken
      exact (hother.fields _ hfield).normalized
    · exact h.fields entry hold

/-- Plain schemas are merged exactly if they agree. -/
theorem IsPlain.merge_eq_ok_iff (h : other.IsPlain) :
    schema.merge other = .ok merged ↔ schema.Agrees other ∧ merged = schema.mergedWith other := by
  rw [Schema.merge_eq_ok_iff h.names]
  exact and_iff_right fun entry hmem => (h.fields entry hmem).isAccepted

def kind? (schema : Schema) (name : String) : Option Kind := (schema.field? name).map Field.kind

theorem agrees_iff :
    schema.Agrees other ↔ ∀ name, Kind.Fit (schema.kind? name) (other.kind? name) := by
  simp only [Agrees, Kind.Fit, kind?, Option.map_eq_some_iff]
  constructor
  · rintro h name _ _ ⟨field, hfield, rfl⟩ ⟨field', hfield', rfl⟩
    exact h name field field' hfield hfield'
  · intro h name field field' hfield hfield'
    exact h name _ _ ⟨field, hfield, rfl⟩ ⟨field', hfield', rfl⟩

theorem kind?_mergedWith (h : (Table.keys other.fields).Nodup) (schema : Schema) (name : String) :
    (schema.mergedWith other).kind? name = (other.kind? name).or (schema.kind? name) := by
  have hfield : (schema.mergedWith other).field? name =
      ((other.field? name).map (Field.normalized name)).or (schema.field? name) :=
    field?_extendedBy h schema name
  rw [kind?, hfield, Option.map_or, Option.map_map]
  rfl

/-- It does not matter which two of three schemas have to agree first. -/
theorem agrees_mergedWith_iff (hsecond : (Table.keys second.fields).Nodup)
    (hthird : (Table.keys third.fields).Nodup) (first : Schema) :
    first.Agrees second ∧ (first.mergedWith second).Agrees third ↔
      second.Agrees third ∧ first.Agrees (second.mergedWith third) := by
  simp only [agrees_iff, kind?_mergedWith hsecond, kind?_mergedWith hthird, ← forall_and]
  exact forall_congr' fun name => Kind.fit_or_iff _ _ _

/-- The same holds of the schemas that result. -/
theorem mergedWith_assoc (hsecond : (Table.keys second.fields).Nodup) (hthird : third.IsPlain) :
    (first.mergedWith second).mergedWith third = first.mergedWith (second.mergedWith third) := by
  -- On the right, the fields of the third schema are taken in twice.
  have hagain : Table.mapValues Field.normalized (Table.mapValues Field.normalized third.fields) =
      Table.mapValues Field.normalized third.fields := by
    rw [Table.mapValues, Table.mapValues, List.map_map]
    refine List.map_congr_left fun entry hmem => ?_
    exact congrArg _ (hthird.fields entry hmem).normalized_normalized
  have hfields : ((first.mergedWith second).mergedWith third).fields =
      (first.mergedWith (second.mergedWith third)).fields := by
    change Table.insertAll (Table.insertAll first.fields _) _ =
      Table.insertAll first.fields (Table.mapValues _ (Table.insertAll second.fields _))
    rw [Table.mapValues_insertAll, hagain, Table.insertAll_assoc (by simpa using hsecond)]
  have hconstraints : ((first.mergedWith second).mergedWith third).constraints =
      (first.mergedWith (second.mergedWith third)).constraints :=
    OrderedSet.foldl_add_assoc first.constraints second.constraints third.constraints
  exact congrArg₂ (Schema.mk first.name) hfields hconstraints

/-- A plain schema agrees with itself, and stays as it is, apart from the locations of mappings,
when it is merged with itself. -/
theorem IsPlain.content_mergedWith_self (h : schema.IsPlain) :
    (schema.mergedWith schema).content = schema.content := by
  have hkeys : Table.keys schema.fields =
      Table.keys (Table.mapValues Field.normalized schema.fields) := by simp
  have hfields : (schema.mergedWith schema).fields =
      Table.mapValues Field.normalized schema.fields :=
    Table.insertAll_eq_self (hkeys ▸ h.names) hkeys
  have hcontents : (schema.mergedWith schema).content.fields = schema.content.fields := by
    rw [content, content, hfields]
    dsimp only
    rw [Table.mapValues, Table.mapValues, Table.mapValues, List.map_map]
    exact List.map_congr_left fun entry hmem =>
      congrArg (entry.1, ·) (h.fields entry hmem).content_normalized
  have hconstraints : (schema.mergedWith schema).constraints = schema.constraints :=
    OrderedSet.foldl_add_self fun _ hmem => hmem
  exact congrArg₂ (Schema.mk schema.name) hcontents hconstraints

theorem agrees_self (schema : Schema) : schema.Agrees schema := by
  intro name field field' hfield hfield'
  obtain rfl := Option.some.inj (hfield.symm.trans hfield')
  exact .refl field.kind

theorem fieldsWithin_content (fields table : Table String Field) :
    Kind.fieldsWithin (Table.mapValues (fun _ field => field.content) fields) table =
      Kind.fieldsWithin fields table := by
  induction fields with
  | nil => rfl
  | cons entry rest ih =>
      obtain ⟨name, kind, required, default⟩ := entry
      have hdefault : ∀ other : Option Value,
          (default.map Value.content == other) = (default == other) := by
        intro other
        cases default with
        | none => rfl
        | some value =>
            cases other with
            | none => rfl
            | some other => exact Value.eqv_content value other
      have hcons : Table.mapValues (fun _ field => field.content)
          ((name, ⟨kind, required, default⟩) :: rest) =
        (name, ⟨kind, required, default.map Value.content⟩) ::
          Table.mapValues (fun _ field => field.content) rest := rfl
      rw [hcons, Kind.fieldsWithin, Kind.fieldsWithin, ih]
      simp only [hdefault]

theorem eqv_content (schema other : Schema) : schema.content.eqv other = schema.eqv other := by
  obtain ⟨name, fields, constraints⟩ := schema
  have hlength : (Table.mapValues (fun _ field => field.content) fields).length = fields.length :=
    List.length_map ..
  change (name == other.name && (Table.mapValues _ fields).length == other.fields.length &&
    Kind.fieldsWithin (Table.mapValues _ fields) other.fields &&
      constraints == other.constraints) = _
  rw [hlength, fieldsWithin_content]
  rfl

theorem kind_of_bind_eq_error {result : Except Problem Schema}
    {next : Schema → Except Problem Schema}
    (hresult : ∀ problem, result = .error problem → problem.kind = .schemaConflict)
    (hnext : ∀ schema problem, next schema = .error problem → problem.kind = .schemaConflict)
    (h : result.bind next = .error problem) : problem.kind = .schemaConflict := by
  cases result with
  | error => exact hresult problem h
  | ok schema => exact hnext schema problem h

/-- Two merges are made exactly if the schemas agree in both of them. -/
theorem merge_left_eq_ok_iff (hsecond : second.IsPlain) (hthird : third.IsPlain) :
    (first.merge second).bind (·.merge third) = .ok merged ↔
      (first.Agrees second ∧ (first.mergedWith second).Agrees third) ∧
        merged = (first.mergedWith second).mergedWith third := by
  constructor
  · intro h
    obtain ⟨made, hmade, hmerged⟩ := Except.bind_eq_ok h
    obtain ⟨hagrees, rfl⟩ := hsecond.merge_eq_ok_iff.mp hmade
    obtain ⟨hagrees', rfl⟩ := hthird.merge_eq_ok_iff.mp hmerged
    exact ⟨⟨hagrees, hagrees'⟩, rfl⟩
  · rintro ⟨⟨hagrees, hagrees'⟩, rfl⟩
    rw [hsecond.merge_eq_ok_iff.mpr ⟨hagrees, rfl⟩]
    exact hthird.merge_eq_ok_iff.mpr ⟨hagrees', rfl⟩

theorem merge_right_eq_ok_iff (hsecond : second.IsPlain) (hthird : third.IsPlain) :
    (second.merge third).bind first.merge = .ok merged ↔
      (second.Agrees third ∧ first.Agrees (second.mergedWith third)) ∧
        merged = first.mergedWith (second.mergedWith third) := by
  have hmade := hsecond.mergedWith hthird
  constructor
  · intro h
    obtain ⟨made, hmerged, hmerge⟩ := Except.bind_eq_ok h
    obtain ⟨hagrees, rfl⟩ := hthird.merge_eq_ok_iff.mp hmerged
    obtain ⟨hagrees', rfl⟩ := hmade.merge_eq_ok_iff.mp hmerge
    exact ⟨⟨hagrees, hagrees'⟩, rfl⟩
  · rintro ⟨⟨hagrees, hagrees'⟩, rfl⟩
    rw [hthird.merge_eq_ok_iff.mpr ⟨hagrees, rfl⟩]
    exact hmade.merge_eq_ok_iff.mpr ⟨hagrees', rfl⟩

/-- Without supplied checks it does not matter which two of three schemas are merged first: in
both orders a merge fails with a conflict, or both make the same schema.  A schema that is merged
with itself stays equal to itself; only the locations of mappings in its defaults can change. -/
theorem merge_associative (hfirst : first.Composed) (hsecond : second.Composed)
    (hthird : third.Composed) (hfree : first.isCustomFree = true)
    (hfree' : second.isCustomFree = true) (hfree'' : third.isCustomFree = true) :
    ((∃ problem problem', (first.merge second).bind (·.merge third) = .error problem ∧
          (second.merge third).bind first.merge = .error problem' ∧
          problem.kind = .schemaConflict ∧ problem'.kind = .schemaConflict) ∨
        ∃ merged, (first.merge second).bind (·.merge third) = .ok merged ∧
          (second.merge third).bind first.merge = .ok merged) ∧
      ∃ same, first.merge first = .ok same ∧ same.content = first.content ∧
        ∀ other, same.eqv other = first.eqv other := by
  have hplain := hfirst.isPlain hfree
  have hplain' := hsecond.isPlain hfree'
  have hplain'' := hthird.isPlain hfree''
  have hagree := agrees_mergedWith_iff hplain'.names hplain''.names first
  constructor
  · by_cases hall : first.Agrees second ∧ (first.mergedWith second).Agrees third
    · refine .inr ⟨_, (merge_left_eq_ok_iff hplain' hplain'').mpr ⟨hall, rfl⟩, ?_⟩
      rw [mergedWith_assoc hplain'.names hplain'']
      exact (merge_right_eq_ok_iff hplain' hplain'').mpr ⟨hagree.mp hall, rfl⟩
    · left
      cases hleft : (first.merge second).bind (·.merge third) with
      | ok => exact (hall ((merge_left_eq_ok_iff hplain' hplain'').mp hleft).1).elim
      | error problem =>
          cases hright : (second.merge third).bind first.merge with
          | ok =>
              have hall' := ((merge_right_eq_ok_iff hplain' hplain'').mp hright).1
              exact (hall (hagree.mpr hall')).elim
          | error problem' =>
              have hconflict : ∀ (schema other : Schema) (problem : Problem),
                  schema.merge other = .error problem → problem.kind = .schemaConflict :=
                fun _ _ _ => kind_of_merge_eq_error
              exact ⟨problem, problem', rfl, rfl,
                kind_of_bind_eq_error (hconflict first second) (hconflict · third) hleft,
                kind_of_bind_eq_error (hconflict second third) (hconflict first) hright⟩
  · have hsame := hplain.content_mergedWith_self
    refine ⟨_, hplain.merge_eq_ok_iff.mpr ⟨agrees_self first, rfl⟩, hsame, fun other => ?_⟩
    rw [← eqv_content, hsame, eqv_content]

/-- A rack gets its default from another rack, whether the fields of a shelf are merged into that
before or afterwards. -/
theorem merge_of_racks : shelf.Composed ∧ ∃ merged,
    ((rack none).merge (rack (some defaultShelf.toValue))).bind (·.merge shelf) = .ok merged ∧
      ((rack (some defaultShelf.toValue)).merge shelf).bind (rack none).merge = .ok merged ∧
      ∃ same, (rack none).merge (rack none) = .ok same ∧ same.content = (rack none).content := by
  have hshelf : shelf.Composed :=
    composed_of_extend [("id", .optional (.declareId "Shelf" none))] rfl rfl
  have hracks := composed_rack (some (.mapping [] [])) (some defaultShelf.toValue) rfl
  obtain ⟨hmerges, same, hsame, hcontent, _⟩ :=
    merge_associative (composed_rack none none rfl) hracks hshelf rfl rfl rfl
  refine ⟨hshelf, ?_⟩
  rcases hmerges with ⟨_, _, hfails, _⟩ | ⟨merged, hleft, hright⟩
  · cases hfails
  · exact ⟨merged, hleft, hright, same, hsame, hcontent⟩

end Schema

end Firmware
