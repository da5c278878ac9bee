import Firmware.Proofs.Generator.References
import Firmware.Proofs.NameTable.Made
import Firmware.Proofs.Validation.Origins
/-!
Names that are given out in a run.  None is reserved.  A name may be chosen by the rules for
names unless the schema of a component puts it there: names in defaults are taken as they
are, and so are the bases that a schema gives for names that are made.
-/

namespace Firmware

open NameTable

/-- Whether a kind puts a name into configurations without a check: a default declares it, or
it is made of a base that is no word. -/
inductive Kind.Imposes (kind : Kind) (name : String) : Prop
  | preset {slot : Slot} (preset : kind.Presets slot) (chosen : slot.chosen? = some name)
  | based {type base : String} (has : Has (.declareId type (some base)) kind)
      (odd : isWord base = false) (attempt : Nat) (made : name = candidate base attempt)

/-- What a declaration of a validated node may be called can be chosen as a name, or is imposed
by its schema. -/
theorem Schema.accepted_or_imposes {schema : Schema} {path : Path} {raw node : Node} {slot : Slot}
    {name : String} (hsound : schema.Sound) (hcustom : schema.isCustomFree = true)
    (hbare : raw.toValue.IsBare) (h : schema.validate path raw = .ok node)
    (hholds : node.Holds slot) (hyields : slot.Yields name) (hfree : name ∉ reservedNames) :
    nameFault? name = none ∨ (Kind.nested schema).Imposes name := by
  have hconvert := Kind.convert_nested_of_validate h schema.name
  rcases hyields.nameFault?_cases hfree with haccepted | hchosen |
    ⟨base, attempt, hwaits, hbase, hodd, hname⟩
  · exact .inl haccepted
  · obtain ⟨hdeclares, hsome⟩ := Slot.chosen?_eq_some_iff.mp hchosen
    exact (Kind.Sound.accepted_or_presets_of_convert hsound hcustom hbare hconvert hholds hdeclares
      hsome).imp_right fun hpresets => .preset hpresets hchosen
  · obtain ⟨hdeclares, hnone⟩ := Slot.waits_eq_true_iff.mp hwaits
    obtain ⟨type, hhas⟩ :=
      Kind.Sound.has_of_convert hsound hcustom hconvert hholds hdeclares hnone
    exact .inr (.based (hbase ▸ hhas) hodd attempt hname)

namespace Generator

variable {generator : Generator} {json : Json} {document : Document} {valid : List Candidate}
  {name : String}

/-- Of a document that is validated and resolved, no name in the table is reserved, and every
one may be chosen by the rules for names, unless the schema of a component imposes it. -/
theorem resolved_names_accepted (hregistered : generator.components.Registered)
    (hcustom : generator.components.EverySchema Schema.isCustomFree)
    (hdocument : Document.ofJson json = .ok document)
    (hvalid : Validation.gather (candidates generator.components 0 document.kinds) = .ok valid)
    (hresolved :
      (generator.initialNames.resolveDeclarations (valid.map (·.config))).problems = [])
    (hname : name ∈ Table.keys
      (generator.initialNames.resolveDeclarations (valid.map (·.config))).table.byName) :
    generator.initialNames.isReserved name = false ∧
      (nameFault? name = none ∨ ∃ kind component, generator.components.find kind = .ok component ∧
        (Kind.nested component.declaration.schema).Imposes name) := by
  obtain ⟨id, hlookup⟩ := Option.isSome_iff_exists.mp (Table.contains_eq_true_iff.mpr hname)
  have hfree : generator.initialNames.isReserved name = false :=
    isReserved_of_lookup?_resolveDeclarations (byName_foldl_reserve ..) hlookup
  refine ⟨hfree, ?_⟩
  obtain ⟨⟨place, slot⟩, hfound, hyields⟩ :=
    exists_yields_of_lookup? generator.lookup?_initialNames hresolved hlookup
  obtain ⟨_, hconfig, hslot⟩ := List.mem_flatMap.mp hfound
  obtain ⟨candidate, hcandidate, rfl⟩ := List.mem_map.mp hconfig
  obtain ⟨kind, nodes, raw, component, hvalidates⟩ := exists_validates hvalid hcandidate
  have hfound := hvalidates.found
  have hbare : raw.toValue.IsBare :=
    Document.slots_of_ofJson hdocument hvalidates.listed hvalidates.among
  have hvalue : (place, slot) ∈ candidate.config.toValue.slots .root := hslot
  have hholds : candidate.config.Holds slot := Value.holds_of_mem_slots hvalue
  have hreserved : name ∉ reservedNames := by
    rw [isReserved, Bool.or_eq_false_iff] at hfree
    simpa using hfree.1
  exact (Schema.accepted_or_imposes (hregistered.composed hfound).sound (hcustom hfound) hbare
    hvalidates.valid hholds hyields hreserved).imp_right fun himposes =>
      ⟨kind, component, hfound, himposes⟩

/-- The fields of a hub: its identifier, with a base for its names, and a port. -/
def hubFields (base : Option String) (port : Option Value) : Table String Field :=
  [("id", .optional (.declareId "ext::Hub" base)), ("port", ⟨.declareId "Port" none, false, port⟩)]

/-- A component that emits nothing. -/
def hub (base : Option String) (port : Option Value) : Component where
  declaration := .ofSchema "hub" ⟨"hub", hubFields base port, []⟩
  routine := fun _ _ => []
  observed := true

def hubs (base : Option String) (port : Option Value) : Generator where
  components := ⟨[("hub", hub base port)]⟩
  form := .standard
  reserved := []

theorem registered_hubs {base : Option String} {port : Option Value}
    (hmade : (Schema.empty "hub").extend (hubFields base port) =
      .ok ⟨"hub", hubFields base port, []⟩) : (hubs base port).components.Registered := by
  have hcomposed : (hub base port).declaration.schema.Composed :=
    Schema.composed_of_extend (hubFields base port) rfl hmade
  exact .add .empty hcomposed rfl

/-- A document of two hubs, one of which has a port with a name. -/
def hubJson : Json :=
  .object [("hub", .array [.object [], .object [("port", .text "front")]])]

/-- The second of two hubs gets a name with an ending, which may be chosen. -/
theorem hubs_name_accepted :
    ∃ document valid, Document.ofJson hubJson = .ok document ∧
      Validation.gather (candidates (hubs none none).components 0 document.kinds) = .ok valid ∧
      Table.keys ((hubs none none).initialNames.resolveDeclarations
        (valid.map (·.config))).table.byName = ["front", "hub", "port", "hub_2"] ∧
      (hubs none none).initialNames.isReserved "hub_2" = false ∧
      (nameFault? "hub_2" = none ∨ ∃ kind component,
        (hubs none none).components.find kind = .ok component ∧
          (Kind.nested component.declaration.schema).Imposes "hub_2") := by
  have hstages : ∃ document valid, Document.ofJson hubJson = .ok document ∧
      Validation.gather (candidates (hubs none none).components 0 document.kinds) = .ok valid ∧
      ((hubs none none).initialNames.resolveDeclarations (valid.map (·.config))).problems = [] ∧
      Table.keys ((hubs none none).initialNames.resolveDeclarations
        (valid.map (·.config))).table.byName = ["front", "hub", "port", "hub_2"] :=
    ⟨_, _, rfl, rfl, rfl, rfl⟩
  obtain ⟨document, valid, hdocument, hvalid, hresolved, hkeys⟩ := hstages
  refine ⟨document, valid, hdocument, hvalid, hkeys, ?_⟩
  refine resolved_names_accepted (registered_hubs rfl) (Components.everySchema_of_all rfl)
    hdocument hvalid hresolved ?_
  rw [hkeys]
  decide

/-- A base with a hyphen ends up in a name, and so does the name of a default. -/
theorem hubs_impose_names :
    let port : Value := .identifier (.explicit "2nd" "Port")
    (hubs (some "my-hub") (some port)).components.Registered ∧
      (hubs (some "my-hub") (some port)).components.EverySchema Schema.isCustomFree ∧
      ∃ document valid, Document.ofJson (.object [("hub", .null)]) = .ok document ∧
        Validation.gather (candidates (hubs (some "my-hub") (some port)).components 0
          document.kinds) = .ok valid ∧
        ((hubs (some "my-hub") (some port)).initialNames.resolveDeclarations
          (valid.map (·.config))).problems = [] ∧
        Table.keys ((hubs (some "my-hub") (some port)).initialNames.resolveDeclarations
          (valid.map (·.config))).table.byName = ["2nd", "my-hub"] ∧
        nameFault? "2nd" = some .badStart ∧ nameFault? "my-hub" = some (.badChar '-') :=
  ⟨registered_hubs rfl, Components.everySchema_of_all rfl, _, _, rfl, rfl, rfl, rfl, rfl, rfl⟩

end Generator

end Firmware
