import Firmware.Proofs.Validation.Idempotence
/-!
Merging of schemas.  The fields of another schema are taken in like any others, so defaults that
their kinds have converted are converted once more.  A kind gives back what it has converted, but
for the locations of mappings, unless a supplied check does not.
-/

namespace Firmware

def Field.content (field : Field) : Field :=
  { field with default := field.default.map Value.content }

def Schema.content (schema : Schema) : Schema :=
  { schema with fields := Table.mapValues (fun _ field => field.content) schema.fields }

namespace Field

variable {name : String} {field taken : Field} {value : Value}

/-- A field as it stands in a schema: its default is one that its kind has converted. -/
structure IsStored (name : String) (field : Field) : Prop where
  sound : field.kind.Sound
  converted : ∀ value, field.default = some value →
    ∃ raw, field.kind.convert (Path.root.field name) name raw = .ok value

/-- A stored default is in normal form, if the supplied checks settle. -/
theorem IsStored.normal (h : field.IsStored name)
    (hchecks : ∀ check ∈ field.kind.checks, check.Settles) (hdefault : field.default = some value) :
    field.kind.Normal value := by
  obtain ⟨_, hconvert⟩ := h.converted value hdefault
  exact h.sound.normal_of_convert hchecks hconvert

theorem IsStored.keeps (h : field.IsStored name)
    (hchecks : ∀ check ∈ field.kind.checks, check.Settles) (hdefault : field.default = some value) :
    field.kind.Keeps (Path.root.field name) name value :=
  (h.normal hchecks hdefault).keeps h.sound

/-- A stored default is accepted again, if the supplied checks settle. -/
theorem IsStored.isAccepted (h : field.IsStored name)
    (hchecks : ∀ check ∈ field.kind.checks, check.Settles) : field.IsAccepted name := by
  intro value hdefault
  obtain ⟨kept, hkept, _⟩ := Except.map_eq_ok (h.keeps hchecks hdefault)
  exact ⟨kept, hkept⟩

/-- A field is stored with the content it had exactly if its kind keeps its default. -/
theorem TakenAs.content_eq_iff (h : field.TakenAs name taken) : taken.content = field.content ↔
    ∀ value, field.default = some value →
      field.kind.Keeps (Path.root.field name) name value := by
  obtain ⟨kind, required, default⟩ := field
  obtain ⟨kind', required', default'⟩ := taken
  obtain ⟨hkind, hrequired, habsent, hdefault⟩ := h
  dsimp only at *
  subst hkind hrequired
  cases default with
  | none => simp [content, habsent rfl]
  | some value =>
      obtain ⟨kept, hkept, hstored⟩ := hdefault value rfl
      simp [content, hstored, Kind.Keeps, hkept, Except.map]

end Field

namespace Schema

variable {schema other merged : Schema} {name : String} {field : Field}

theorem Sound.isStored (h : schema.Sound) (hmem : (name, field) ∈ schema.fields) :
    field.IsStored name :=
  ⟨h.kinds _ hmem, h.defaults _ hmem⟩

/-- Whether the fields that two schemas share are of kinds that are alike. -/
def Agrees (schema other : Schema) : Prop :=
  ∀ name field field', schema.field? name = some field → other.field? name = some field' →
    field.kind.Alike field'.kind

/-- The fields of another schema are admitted if their defaults are accepted and the schemas
agree. -/
theorem forall_admits_iff (h : (Table.keys other.fields).Nodup) :
    (∀ entry ∈ other.fields, schema.Admits entry.1 entry.2) ↔
      (∀ entry ∈ other.fields, entry.2.IsAccepted entry.1) ∧ schema.Agrees other := by
  constructor
  · refine fun hall => ⟨fun entry hmem => (hall entry hmem).accepted, ?_⟩
    intro name field field' hfield hfield'
    exact (hall _ (Table.mem_of_get?_eq hfield')).alike field hfield
  · rintro ⟨haccepted, hagrees⟩ ⟨name, field⟩ hmem
    exact ⟨haccepted _ hmem, fun previous hprevious =>
      hagrees name previous field hprevious (Table.get?_eq_of_mem h hmem)⟩

/-- The schema with the fields and constraints of another one, whether they agree or not. -/
def mergedWith (schema other : Schema) : Schema :=
  { schema.extendedBy other.fields with
    constraints := other.constraints.foldl OrderedSet.add schema.constraints }

/-- Schemas are merged exactly if they agree and the defaults of the second are accepted once
more. -/
theorem merge_eq_ok_iff (h : (Table.keys other.fields).Nodup) :
    schema.merge other = .ok merged ↔
      (∀ entry ∈ other.fields, entry.2.IsAccepted entry.1) ∧ schema.Agrees other ∧
        merged = schema.mergedWith other := by
  have hextend : ∀ extended, schema.extend other.fields = .ok extended ↔
      ((∀ entry ∈ other.fields, entry.2.IsAccepted entry.1) ∧ schema.Agrees other) ∧
        extended = schema.extendedBy other.fields := fun extended => by
    rw [extend_eq_ok_iff h, forall_admits_iff h]
  rw [← and_assoc]
  constructor
  · intro hmerge
    obtain ⟨extended, hextended, rfl⟩ := Except.map_eq_ok hmerge
    obtain ⟨hall, rfl⟩ := (hextend extended).mp hextended
    exact ⟨hall, rfl⟩
  · rintro ⟨hall, rfl⟩
    rw [merge, (hextend _).mpr ⟨hall, rfl⟩]
    rfl

theorem kind_of_merge_eq_error {problem : Problem} (h : schema.merge other = .error problem) :
    problem.kind = .schemaConflict :=
  kind_of_extend_eq_error (Except.map_eq_error_iff.mp h)

/-- Another schema is merged in exactly if the schemas agree and each of its defaults is accepted
when it is converted once more.  Its fields replace those of their names, in place, and its new
ones follow; its constraints follow unless they are there.  A field is taken in as it was exactly
if its kind keeps its default, and that is so for every field if all checks settle. -/
theorem merge_of_composed (h : other.Composed) (schema : Schema) :
    ((∃ merged, schema.merge other = .ok merged) ↔
        schema.Agrees other ∧ ∀ entry ∈ other.fields, entry.2.IsAccepted entry.1) ∧
      (∀ merged, schema.merge other = .ok merged →
        schema.Extends other.fields merged ∧
        merged.constraints = schema.constraints ++
          (other.constraints.filter fun constraint =>
            constraint ∉ schema.constraints).eraseDups ∧
        ∀ name field, (name, field) ∈ other.fields →
          ((merged.field? name).map Field.content = some field.content ↔
            ∀ value, field.default = some value →
              field.kind.Keeps (Path.root.field name) name value)) ∧
      ((∀ check ∈ other.checks, check.Settles) → ∀ name field, (name, field) ∈ other.fields →
        field.IsAccepted name ∧ ∀ value, field.default = some value →
          field.kind.Keeps (Path.root.field name) name value) := by
  have hsound := h.sound
  refine ⟨?_, ?_, ?_⟩
  · simp only [merge_eq_ok_iff hsound.names, exists_and_left, exists_eq, and_true]
    exact and_comm
  · intro merged hmerge
    obtain ⟨haccepted, _, rfl⟩ := (merge_eq_ok_iff hsound.names).mp hmerge
    have hextends := extends_extendedBy hsound.names haccepted schema
    refine ⟨⟨hextends.name, hextends.keys, hextends.taken, hextends.others⟩,
      OrderedSet.foldl_add_eq _ _, fun name field hmem => ?_⟩
    obtain ⟨taken, hfound, htaken⟩ := hextends.taken name field hmem
    have hmerged : (schema.mergedWith other).field? name = some taken := hfound
    rw [hmerged, Option.map_some, Option.some.injEq, htaken.content_eq_iff]
  · intro hsettle name field hmem
    have hstored := hsound.isStored hmem
    have hchecks : ∀ check ∈ field.kind.checks, check.Settles := fun check hcheck =>
      hsettle check (mem_checks_of_mem hmem hcheck)
    exact ⟨hstored.isAccepted hchecks, fun _ hdefault => hstored.keeps hchecks hdefault⟩

/-- A pump is merged into an empty schema, and its limit stays the same. -/
theorem merge_of_pump : pumpSchema.Composed ∧
    ∃ merged, (Schema.empty "station").merge pumpSchema = .ok merged ∧
      merged.name = "station" ∧ Table.keys merged.fields = Table.keys pumpSchema.fields ∧
      (merged.field? "limit").map Field.content =
        (pumpSchema.field? "limit").map Field.content := by
  obtain ⟨hmerges, hresult, hsettled⟩ := merge_of_composed composed_pump (.empty "station")
  have hkept := hsettled fun check hmem => by
    obtain rfl := List.mem_singleton.mp hmem
    exact settles_pin
  obtain ⟨merged, hmerge⟩ := hmerges.mpr ⟨nofun, fun entry hmem => (hkept _ _ hmem).1⟩
  obtain ⟨hextends, _, hfields⟩ := hresult merged hmerge
  obtain ⟨limit, hlimit⟩ : ∃ limit, pumpSchema.field? "limit" = some limit := ⟨_, rfl⟩
  have hmem := Table.mem_of_get?_eq hlimit
  refine ⟨composed_pump, merged, hmerge, hextends.name, hextends.keys, ?_⟩
  rw [hlimit]
  exact (hfields "limit" limit hmem).mpr (hkept _ _ hmem).2

end Schema

/-- A check that wraps whatever it is given. -/
def wrap : Check := ⟨"wrap", fun value => .ok (.mapping [.key "wrapped"] [("value", value)])⟩

/-- A check that returns a word for a number, and refuses words. -/
def spell : Check where
  tag := "spell"
  run
    | .integer _ => .ok (.text "number")
    | _ => .error "not a number"

def parcelFields (check : Check) (item : Value) : Table String Field :=
  [("item", .withDefault (.custom check.tag check) item)]

/-- The schema of parcels with what the check of their item has returned for it. -/
def parcel (check : Check) (item : Value) : Schema := ⟨"parcel", parcelFields check item, []⟩

/-- A check that wraps again what it has wrapped changes a default that is merged in; and one
that refuses what it has returned lets schemas without a common field fail to be merged. -/
theorem merge_converts_again :
    (∃ wrapped, (parcel wrap wrapped).Composed ∧
      ∃ merged, (Schema.empty "shelf").merge (parcel wrap wrapped) = .ok merged ∧
        (merged.field? "item").map Field.content ≠
          ((parcel wrap wrapped).field? "item").map Field.content) ∧
      ∃ word, (parcel spell word).Composed ∧ (Schema.empty "shelf").Agrees (parcel spell word) ∧
        ∃ problem, (Schema.empty "shelf").merge (parcel spell word) = .error problem := by
  refine ⟨⟨.mapping [.key "wrapped"] [("value", .integer 1)], ?_, _, rfl, ?_⟩,
    .text "number", ?_, nofun, _, rfl⟩
  · exact Schema.composed_of_extend (parcelFields wrap (.integer 1)) rfl rfl
  · exact fun h => nomatch congrArg (fun field => field.bind Field.default) h
  · exact Schema.composed_of_extend (parcelFields spell (.integer 1)) rfl rfl

end Firmware
