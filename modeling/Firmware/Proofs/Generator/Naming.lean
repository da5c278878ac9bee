import Firmware.Proofs.Document
import Firmware.Proofs.Generator.Plan
import Firmware.Proofs.Validation.Spread
/-!
The names of declared identifiers.  Of a document that is validated and resolved, every
declaration is named, and two declarations share a name only if they share a location.
No location is shared unless some default holds a mapping: such a mapping keeps the
location at which it was converted, wherever it stands in for an absent value.
-/

namespace Firmware

def Components.EverySchema (components : Components) (test : Schema → Bool) : Prop :=
  ∀ {kind : String} {component : Component}, components.find kind = .ok component →
    test component.declaration.schema = true

/-- A test that holds of all schemas as they are listed holds of those that are found. -/
theorem Components.everySchema_of_all {components : Components} {test : Schema → Bool}
    (h : (components.byKind.all fun entry => test entry.2.declaration.schema) = true) :
    components.EverySchema test := fun hfound =>
  List.all_eq_true.mp h _ (Table.mem_of_get?_eq (Components.find_eq_ok_iff.mp hfound))

namespace NameTable

theorem byName_foldl_reserve (names : List String) (table : NameTable) :
    (names.foldl reserve table).byName = table.byName := by
  induction names generalizing table with
  | nil => rfl
  | cons name rest ih => rw [List.foldl_cons, ih, reserve]

theorem byPath_foldl_reserve (names : List String) (table : NameTable) :
    (names.foldl reserve table).byPath = table.byPath := by
  induction names generalizing table with
  | nil => rfl
  | cons name rest ih => rw [List.foldl_cons, ih, reserve]

theorem sound_of_byPath_eq_nil {table : NameTable} (hname : table.byName = [])
    (hpath : table.byPath = []) : table.Sound := by
  constructor <;> simp [lookup?, at?, hname, hpath]

end NameTable

namespace Generator

open NameTable

variable {generator : Generator} {json : Json} {document : Document} {valid : List Candidate}
  {candidate : Candidate}

theorem sound_initialNames (generator : Generator) : generator.initialNames.Sound :=
  sound_of_byPath_eq_nil (byName_foldl_reserve ..) (byPath_foldl_reserve ..)

/-- Resolution without problems names the declarations of all nodes. -/
theorem resolved_resolveDeclarations {nodes : List Node}
    (h : (generator.initialNames.resolveDeclarations nodes).problems = []) :
    Resolved (nodes.flatMap Node.slots)
      (generator.initialNames.resolveDeclarations nodes).table :=
  resolved_of_ok generator.sound_initialNames h

/-- Where schemas have no supplied checks and defaults without mappings, the slots of a
validated instance are spread out below its location. -/
theorem spread_of_mem_valid (hregistered : generator.components.Registered)
    (hcustom : generator.components.EverySchema Schema.isCustomFree)
    (hflat : generator.components.EverySchema Schema.hasFlatDefaults)
    (hvalid : Validation.gather (candidates generator.components 0 document.kinds) = .ok valid)
    (hmem : candidate ∈ valid) : Spread candidate.config.path candidate.config.slots := by
  obtain ⟨kind, _, raw, component, hvalidates⟩ := exists_validates hvalid hmem
  have hfound := hvalidates.found
  have hsound := (hregistered.composed hfound).sound
  rw [Schema.path_of_validate hvalidates.valid]
  exact hsound.spread_of_validate (hcustom hfound) (hflat hfound) hvalidates.valid

/-- In such a document, all slots are at different locations. -/
theorem nodup_locations (hregistered : generator.components.Registered)
    (hcustom : generator.components.EverySchema Schema.isCustomFree)
    (hflat : generator.components.EverySchema Schema.hasFlatDefaults)
    (hdocument : Document.ofJson json = .ok document)
    (hvalid : Validation.gather (candidates generator.components 0 document.kinds) = .ok valid) :
    (((valid.map (·.config)).flatMap Node.slots).map (·.1)).Nodup := by
  have hparts := List.pairwise_map.mpr (Document.pairwise_parts_of_ofJson hdocument)
  rw [← paths_of_candidates (Validation.gather_eq_ok_iff.mp hvalid), List.pairwise_map] at hparts
  rw [List.flatMap_map]
  have hspread : ∀ candidate ∈ valid, Spread candidate.config.path candidate.config.slots :=
    fun candidate => spread_of_mem_valid hregistered hcustom hflat hvalid
  exact nodup_flatMap_of_parts hspread hparts

/-- Of a document that is validated and resolved, every declaration has a name, and those
with the same name are at the same location.  The names are all different exactly if
declarations that share a location have chosen different names, and they are if no default
holds a mapping. -/
theorem resolved_names_nodup_iff (hregistered : generator.components.Registered)
    (hcustom : generator.components.EverySchema Schema.isCustomFree)
    (hdocument : Document.ofJson json = .ok document)
    (hvalid : Validation.gather (candidates generator.components 0 document.kinds) = .ok valid)
    (hresolved :
      (generator.initialNames.resolveDeclarations (valid.map (·.config))).problems = []) :
    let nodes := (generator.initialNames.resolveDeclarations (valid.map (·.config))).nodes
    (∀ found ∈ nodes.flatMap Node.slots, found.2.declares = true → found.2.name.isSome = true) ∧
      (∀ a ∈ nodes.flatMap Node.slots, ∀ b ∈ nodes.flatMap Node.slots,
        a.2.declares = true → b.2.declares = true → a.2.name = b.2.name → a.1 = b.1) ∧
      ((nodes.flatMap Node.declarations).Nodup ↔
        (((valid.map (·.config)).flatMap Node.slots).filter (·.2.declares)).Pairwise
          KeptApart) ∧
      (generator.components.EverySchema Schema.hasFlatDefaults →
        (nodes.flatMap Node.declarations).Nodup) := by
  have hnames := resolved_resolveDeclarations hresolved
  have hslots := slots_resolveDeclarations generator.initialNames (valid.map (·.config))
  have hiff := hnames.nodup_declarations_iff
  refine ⟨?_, ?_, hiff, fun hflat => ?_⟩
  · rw [hslots]
    rintro _ hfound hdeclares
    obtain ⟨⟨path, slot⟩, hmem, rfl⟩ := List.mem_map.mp hfound
    rw [declares_fillSlot] at hdeclares
    obtain ⟨name, hname⟩ := hnames.exists_name hmem hdeclares
    rw [hname]
    rfl
  · rw [hslots]
    rintro _ ha _ hb hdeclares hdeclares' hname
    obtain ⟨⟨path, slot⟩, hmem, rfl⟩ := List.mem_map.mp ha
    obtain ⟨⟨other, slot'⟩, hmem', rfl⟩ := List.mem_map.mp hb
    rw [declares_fillSlot] at hdeclares hdeclares'
    exact hnames.eq_of_name_eq hmem hmem' hdeclares hdeclares' hname
  · have hlocations := nodup_locations hregistered hcustom hflat hdocument hvalid
    exact hiff.mpr (((List.pairwise_map.mp hlocations).filter _).imp fun hne heq => absurd heq hne)

/-- The fields of a panel: its identifier, and a lamp, which may be there by default. -/
def panelFields (lamp : Option Value) : Table String Field :=
  [("id", .optional (.declareId "Panel" none)),
    ("lamp", ⟨.nested ⟨"lamp", [("id", .optional (.declareId "Lamp" none))], []⟩, false, lamp⟩)]

/-- A component that emits nothing. -/
def panel (lamp : Option Value) : Component where
  declaration := .ofSchema "panel" ⟨"panel", panelFields lamp, []⟩
  routine := fun _ _ => []
  observed := true

def panels (lamp : Option Value) : Generator where
  components := ⟨[("panel", panel lamp)]⟩
  form := .standard
  reserved := []

theorem composed_panel (lamp converted : Option Value)
    (hmade : (Schema.empty "panel").extend (panelFields lamp) =
      .ok ⟨"panel", panelFields converted, []⟩) :
    (panel converted).declaration.schema.Composed := by
  have hlamp : Kind.Composed
      (.nested ⟨"lamp", [("id", .optional (.declareId "Lamp" none))], []⟩) := by
    have hkinds : ∀ entry ∈ [("id", Field.optional (.declareId "Lamp" none))],
        entry.2.kind.Composed := by
      simp only [List.mem_singleton]
      rintro _ rfl
      exact .simple rfl
    exact .extend (.empty "lamp") hkinds rfl
  refine .extend (.empty "panel") ?_ hmade
  simp only [panelFields, List.mem_cons, List.not_mem_nil, or_false]
  rintro _ (rfl | rfl)
  · exact .simple rfl
  · exact hlamp

theorem registered_panels {lamp : Option Value}
    (h : (panel lamp).declaration.schema.Composed) : (panels lamp).components.Registered :=
  .add .empty h rfl

theorem everySchema_panels {lamp : Option Value} {test : Schema → Bool}
    (h : test (panel lamp).declaration.schema = true) :
    (panels lamp).components.EverySchema test :=
  Components.everySchema_of_all (by simp [panels, h])

/-- The lamp of a panel for which an empty mapping is the default. -/
def defaultLamp : Value :=
  .mapping (Path.root.field "lamp") [("id", .identifier (.automatic "Lamp" none))]

/-- A document of two panels that are configured alike. -/
def panelJson (config : Json) : Json := .object [("panel", .array [config, config])]

/-- Panels with lamps of their own: all names differ. -/
theorem panels_name_lamps :
    ∃ document valid, Document.ofJson (panelJson (.object [("lamp", .object [])])) = .ok document ∧
      Validation.gather (candidates (panels none).components 0 document.kinds) = .ok valid ∧
      ((panels none).initialNames.resolveDeclarations (valid.map (·.config))).problems = [] ∧
      (((panels none).initialNames.resolveDeclarations (valid.map (·.config))).nodes.flatMap
        Node.declarations).Nodup := by
  have hregistered := registered_panels (composed_panel none none rfl)
  have hcustom : (panels none).components.EverySchema Schema.isCustomFree :=
    everySchema_panels rfl
  have hflat : (panels none).components.EverySchema Schema.hasFlatDefaults :=
    everySchema_panels rfl
  have hstages : ∃ document valid,
      Document.ofJson (panelJson (.object [("lamp", .object [])])) = .ok document ∧
      Validation.gather (candidates (panels none).components 0 document.kinds) = .ok valid ∧
      ((panels none).initialNames.resolveDeclarations (valid.map (·.config))).problems = [] :=
    ⟨_, _, rfl, rfl, rfl⟩
  obtain ⟨document, valid, hdocument, hvalid, hresolved⟩ := hstages
  exact ⟨document, valid, hdocument, hvalid, hresolved,
    (resolved_names_nodup_iff hregistered hcustom hdocument hvalid hresolved).2.2.2 hflat⟩

/-- Panels without lamps get the default, and declare the same name for it. -/
theorem panels_share_lamp :
    (panels (some defaultLamp)).components.Registered ∧
      (panels (some defaultLamp)).components.EverySchema Schema.isCustomFree ∧
      ∃ document valid, Document.ofJson (panelJson .null) = .ok document ∧
        Validation.gather (candidates (panels (some defaultLamp)).components 0 document.kinds)
          = .ok valid ∧
        ((panels (some defaultLamp)).initialNames.resolveDeclarations
          (valid.map (·.config))).problems = [] ∧
        ¬ (((panels (some defaultLamp)).initialNames.resolveDeclarations
          (valid.map (·.config))).nodes.flatMap Node.declarations).Nodup := by
  have hcomposed := composed_panel (some (.mapping [] [])) (some defaultLamp) rfl
  exact ⟨registered_panels hcomposed, everySchema_panels rfl, _, _, rfl, rfl, rfl, by decide⟩

end Generator

end Firmware
