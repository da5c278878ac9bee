import Firmware.Proofs.Generator.Listing
import Firmware.Proofs.Validation.Complete
/-!
Providers of identifiers.  The table of a run knows identifiers by their names, and the graph
knows names by the instances that declare them; the two are made apart from each other.  In a
document whose slots are all at different locations they agree: every instance is in the
table under its own name, and what a reference finds there is declared by one instance only,
which comes before.
-/

namespace Firmware

namespace Graph

variable {graph : Graph} {instances : List Instance} {inst : Instance} {name : String}
  {source target : Nat}

def DeclaresAt (instances : List Instance) (name : String) (position : Nat) : Prop :=
  ∃ inst, instances[position]? = some inst ∧ name ∈ inst.config.declarations

/-- A name that is declared at all is declared at one position, as long as no two instances
declare it. -/
theorem DeclareApart.existsUnique (h : DeclareApart instances) (hmem : inst ∈ instances)
    (hname : name ∈ inst.config.declarations) :
    ∃! position, DeclaresAt instances name position := by
  obtain ⟨position, hpresent⟩ := List.mem_iff_getElem?.mp hmem
  refine ⟨position, ⟨inst, hpresent, hname⟩, ?_⟩
  rintro other ⟨found, hother, hfound⟩
  exact h.eq hother hpresent hfound hname

/-- Of instances in document order, the one that declares a name comes before those that
refer to it. -/
theorem hasEdge_of_declaresAt (h : ofInstances instances = .ok graph)
    (hsorted : sortByIndex instances = instances) (hapart : DeclareApart instances)
    (hnamed : ∀ inst ∈ instances, inst.id.name ∈ inst.config.declarations)
    (hsource : DeclaresAt instances name source) (htarget : instances[target]? = some inst)
    (hname : name ∈ inst.config.references) (hne : source ≠ target) :
    graph.instances = instances ∧ graph.hasEdge source target = true := by
  have hinstances := (ofInstances_eq_ok h).1.trans hsorted
  obtain ⟨provider, hprovider, hdeclared⟩ := hsource
  refine ⟨hinstances, ?_⟩
  rw [← hinstances] at hapart hnamed hprovider htarget
  rw [hasEdge, List.contains_iff_mem]
  exact mem_before h hapart hnamed hprovider htarget hne (.inr ⟨name, hname, hdeclared⟩)

end Graph

namespace Generator

open NameTable

variable {generator : Generator} {json : Json} {document : Document} {table : NameTable}
  {valid : List Candidate} {candidate : Candidate} {instances : List Instance} {inst : Instance}
  {found : Path × Slot}

theorem instanceOf_eq_ok_iff : instanceOf candidate = .ok inst ↔
    Instance.configure candidate.index candidate.declaration candidate.config =
      .ok (some inst) := by
  unfold instanceOf
  split <;> simp_all

section Valid

variable (hregistered : generator.components.Registered)
  (hcustom : generator.components.EverySchema Schema.isCustomFree)
  (hdocument : Document.ofJson json = .ok document)
  (hvalid : Validation.gather (candidates generator.components 0 document.kinds) = .ok valid)

include hregistered hcustom hdocument hvalid

/-- Every candidate has an instance, which the table knows under its name. -/
theorem exists_instance (hflat : generator.components.EverySchema Schema.hasFlatDefaults)
    (hresolved :
      (generator.initialNames.resolveDeclarations (valid.map (·.config))).problems = [])
    (htable : table = (generator.initialNames.resolveDeclarations (valid.map (·.config))).table)
    (hmem : candidate ∈ valid) :
    ∃ inst, instanceOf (Candidate.named table candidate) = .ok inst ∧
      table.lookup? inst.id.name = some inst.id := by
  obtain ⟨_, _, raw, component, hvalidates⟩ := exists_validates hvalid hmem
  have hsound := (hregistered.composed hvalidates.found).sound
  obtain ⟨⟨key, type⟩, hid⟩ := hregistered.exists_idField hvalidates.found
  obtain ⟨field, base, hfield, hkind⟩ := Schema.idField?_spec hid
  obtain ⟨value, hentry⟩ := Schema.exists_entry_of_declareId hvalidates.valid hfield hkind
  obtain ⟨slot, rfl, hdeclares, rfl⟩ :=
    hsound.declares_of_validate hvalidates.valid hfield hkind hentry
  -- The slot of the identifier field is one of those that were named.
  have hkeys := hsound.names.sublist (Schema.keys_sublist_of_validate hvalidates.valid)
  have hget : candidate.config.get? key = some (.identifier slot) :=
    Table.get?_eq_of_mem hkeys hentry
  have hslot : (candidate.config.path.field key, slot) ∈
      (valid.map (·.config)).flatMap Node.slots :=
    List.mem_flatMap.mpr ⟨_, List.mem_map_of_mem hmem, Node.mem_slots_of_get? hget⟩
  obtain ⟨name, hname, hlookup⟩ := lookup?_of_declaration generator.sound_initialNames
    generator.lookup?_initialNames hresolved
    (nodup_locations hregistered hcustom hflat hdocument hvalid) hslot hdeclares
  rw [← htable] at hname hlookup
  refine ⟨⟨candidate.index, candidate.declaration, candidate.config.mapSlots table.fillSlot,
    ⟨name, slot.type, true⟩⟩, ?_, hlookup⟩
  have hslotname : (candidate.config.mapSlots table.fillSlot).slotName? key = some name := by
    rw [Node.slotName?, Node.get?_mapSlots, hget]
    exact hname
  rw [← hvalidates.declaration] at hid
  simp only [instanceOf, Candidate.named, Instance.configure, hid, hslotname]

theorem exists_instances (hflat : generator.components.EverySchema Schema.hasFlatDefaults)
    (hresolved :
      (generator.initialNames.resolveDeclarations (valid.map (·.config))).problems = [])
    (htable : table = (generator.initialNames.resolveDeclarations (valid.map (·.config))).table) :
    ∃ instances : List Instance,
      (valid.map (Candidate.named table)).map instanceOf = instances.map .ok ∧
        ∀ inst ∈ instances, table.lookup? inst.id.name = some inst.id := by
  have hall : ∀ named ∈ valid.map (Candidate.named table), ∃ inst,
      instanceOf named = .ok inst ∧ table.lookup? inst.id.name = some inst.id := by
    intro named hnamed
    obtain ⟨candidate, hmem, rfl⟩ := List.mem_map.mp hnamed
    exact exists_instance hregistered hcustom hdocument hvalid hflat hresolved htable hmem
  obtain ⟨instances, hinstances⟩ := exists_mapM_eq_ok fun named hnamed =>
    (hall named hnamed).imp fun _ hfound => hfound.1
  rw [mapM_eq_ok_iff] at hinstances
  refine ⟨instances, hinstances, ?_⟩
  intro inst hmem
  have hok := List.mem_map_of_mem (f := Except.ok (ε := List Problem)) hmem
  rw [← hinstances] at hok
  obtain ⟨named, hnamed, heq⟩ := List.mem_map.mp hok
  obtain ⟨own, hown, hlookup⟩ := hall named hnamed
  obtain rfl := Except.ok.inj (heq.symm.trans hown)
  exact hlookup

/-- Every reference of an instance has a name, if those in defaults have. -/
theorem exists_name_of_reference
    (hcomplete : generator.components.EverySchema Schema.hasCompleteDefaults)
    (hresolve : resolve generator.initialNames valid = .ok (table, instances))
    (hmem : inst ∈ instances) (hslot : found ∈ inst.config.slots)
    (hrefers : found.2.declares = false) : ∃ name, found.2.name = some name := by
  obtain ⟨candidate, _, _, raw, component, _, _, _, hvalidates, _, _, rfl⟩ :=
    exists_candidate_of_resolve hvalid hresolve hmem
  rw [Node.slots_mapSlots] at hslot
  obtain ⟨⟨path, slot⟩, horigin, rfl⟩ := List.mem_map.mp hslot
  rw [declares_fillSlot] at hrefers
  have hraw := Document.slots_of_ofJson hdocument hvalidates.listed hvalidates.among
  have hslots := (hregistered.composed hvalidates.found).sound.isComplete_of_validate
    (hcustom hvalidates.found) (hcomplete hvalidates.found) hraw hvalidates.valid
  have hready : slot.waits = false := by rw [Slot.waits, hrefers, Bool.false_and]
  rw [fillSlot_eq_self hready]
  exact Slot.exists_name_of_isComplete (hslots _ horigin) hrefers

/-- Of a document whose declarations are resolved, every candidate has an instance, which the
table knows under its name, so only references can still be refused.  If none is, every
reference names what exactly one instance declares; if that is another instance, it comes
before in the graph. -/
theorem references_provided (hflat : generator.components.EverySchema Schema.hasFlatDefaults)
    (hcomplete : generator.components.EverySchema Schema.hasCompleteDefaults)
    (hresolved :
      (generator.initialNames.resolveDeclarations (valid.map (·.config))).problems = []) :
    let resolution := generator.initialNames.resolveDeclarations (valid.map (·.config))
    ∃ instances : List Instance,
      List.zipWith (fun candidate => Instance.configure candidate.index candidate.declaration)
          valid resolution.nodes = instances.map (fun inst => .ok (some inst)) ∧
      (∀ inst ∈ instances, resolution.table.lookup? inst.id.name = some inst.id) ∧
      resolve generator.initialNames valid =
        Problem.settle
          (instances.flatMap fun inst => resolution.table.referenceProblems inst.config)
          (resolution.table, instances) ∧
      ((∀ inst ∈ instances, resolution.table.referenceProblems inst.config = []) →
        ∀ target inst, instances[target]? = some inst → ∀ found ∈ inst.config.slots,
          found.2.declares = false → ∃ name, found.2.name = some name ∧
            (∃! source, Graph.DeclaresAt instances name source) ∧
            ∀ source graph, Graph.DeclaresAt instances name source → source ≠ target →
              Graph.ofInstances instances = .ok graph →
                graph.instances = instances ∧ graph.hasEdge source target = true) := by
  intro resolution
  obtain ⟨instances, hinstances, hlookup⟩ :=
    exists_instances hregistered hcustom hdocument hvalid hflat hresolved rfl
  have hsettle := resolve_eq_settle hresolved rfl hinstances
  refine ⟨instances, ?_, hlookup, hsettle, ?_⟩
  · have hmapped := map_eq_map_of_imp (fun _ _ => instanceOf_eq_ok_iff.mp) hinstances
    rw [← hmapped, ← zipWith_resolveDeclarations, List.map_zipWith]
  · intro haccepted target inst htarget found hslot hrefers
    have hresolve : resolve generator.initialNames valid = .ok (resolution.table, instances) := by
      rw [hsettle, List.flatMap_eq_nil_iff.mpr haccepted]
      rfl
    have hmem := List.mem_of_getElem? htarget
    obtain ⟨name, hname⟩ := exists_name_of_reference hregistered hcustom hdocument hvalid
      hcomplete hresolve hmem hslot hrefers
    obtain ⟨provider, hprovider, declared, hdeclared, hdeclares, hsame, _⟩ :=
      exists_declaration_of_resolve hresolve hmem hslot hrefers hname
    have hapart :=
      declareApart_of_resolve hregistered hcustom hflat hdocument hvalid hresolve
    have hnames := name_mem_declarations_of_resolve hregistered hvalid hresolve
    refine ⟨name, hname, ?_, ?_⟩
    · apply hapart.existsUnique hprovider
      exact Node.mem_declarations.mpr ⟨declared, hdeclared, hdeclares, hsame⟩
    · intro source graph hsource hne hgraph
      have hreferred := Node.mem_references.mpr ⟨found, hslot, hrefers, hname⟩
      exact Graph.hasEdge_of_declaresAt hgraph (sortByIndex_of_resolve hvalid hresolve) hapart
        hnames hsource htarget hreferred hne

end Valid

/-- The fields of a switch: its identifier, and the lamps it refers to. -/
def switchFields : Table String Field :=
  [("id", .optional (.declareId "Switch" none)),
    ("lamps", .optional (.sequenceOf (.useId "Lamp")))]

def lampSwitch : Component where
  declaration := .ofSchema "switch" ⟨"switch", switchFields, []⟩
  routine := fun _ _ => []
  observed := true

def switchedPanels : Generator where
  components := ⟨[("switch", lampSwitch), ("panel", panel none)]⟩
  form := .standard
  reserved := []

theorem composed_lampSwitch : lampSwitch.declaration.schema.Composed := by
  have hmade : (Schema.empty "switch").extend switchFields =
      .ok ⟨"switch", switchFields, []⟩ := rfl
  refine .extend (.empty "switch") ?_ hmade
  simp only [switchFields, List.mem_cons, List.not_mem_nil, or_false]
  rintro _ (rfl | rfl)
  · exact .simple rfl
  · exact .sequenceOf (.simple rfl)

theorem registered_switchedPanels : switchedPanels.components.Registered :=
  .add (.add .empty composed_lampSwitch rfl) (composed_panel none none rfl) rfl

theorem everySchema_switchedPanels {test : Schema → Bool}
    (hswitch : test lampSwitch.declaration.schema = true)
    (hpanel : test (panel none).declaration.schema = true) :
    switchedPanels.components.EverySchema test :=
  Components.everySchema_of_all (by simp [switchedPanels, hswitch, hpanel])

/-- A switch for the lamp of a panel that comes later in the document. -/
def switchJson : Json :=
  .object [("switch", .object [("lamps", .array [.text "lamp"])]),
    ("panel", .object [("lamp", .object [])])]

/-- The panel comes before the switch that refers to its lamp. -/
theorem switch_follows_panel :
    ∃ document valid names instances graph, Document.ofJson switchJson = .ok document ∧
      Validation.gather (candidates switchedPanels.components 0 document.kinds) = .ok valid ∧
      resolve switchedPanels.initialNames valid = .ok (names, instances) ∧
      Graph.ofInstances instances = .ok graph ∧ graph.hasEdge 1 0 = true := by
  have hcustom : switchedPanels.components.EverySchema Schema.isCustomFree :=
    everySchema_switchedPanels rfl rfl
  have hflat : switchedPanels.components.EverySchema Schema.hasFlatDefaults :=
    everySchema_switchedPanels rfl rfl
  have hcomplete : switchedPanels.components.EverySchema Schema.hasCompleteDefaults :=
    everySchema_switchedPanels rfl rfl
  have hstages : ∃ document valid names first second graph place,
      Document.ofJson switchJson = .ok document ∧
      Validation.gather (candidates switchedPanels.components 0 document.kinds) = .ok valid ∧
      (switchedPanels.initialNames.resolveDeclarations (valid.map (·.config))).problems = [] ∧
      resolve switchedPanels.initialNames valid = .ok (names, [first, second]) ∧
      Graph.ofInstances [first, second] = .ok graph ∧
      (place, Slot.reference "lamp" "Lamp") ∈ first.config.slots ∧
      second.config.declarations = ["panel", "lamp"] :=
    ⟨_, _, _, _, _, _, _, rfl, rfl, rfl, rfl, rfl, .tail _ (.head _), rfl⟩
  obtain ⟨document, valid, names, first, second, graph, place, hdocument, hvalid, hresolved,
    hresolve, hgraph, hslot, hdeclared⟩ := hstages
  obtain ⟨instances, _, _, hsettle, hprovided⟩ := references_provided registered_switchedPanels
    hcustom hdocument hvalid hflat hcomplete hresolved
  obtain ⟨haccepted, hpair⟩ := Problem.settle_eq_ok_iff.mp (hsettle.symm.trans hresolve)
  obtain ⟨rfl, rfl⟩ := Prod.mk.inj hpair
  obtain ⟨name, hname, _, hedge⟩ :=
    hprovided (List.flatMap_eq_nil_iff.mp haccepted) 0 first rfl _ hslot rfl
  obtain rfl := Option.some.inj hname
  have hprovider : Graph.DeclaresAt [first, second] "lamp" 1 :=
    ⟨second, rfl, by rw [hdeclared]; decide⟩
  exact ⟨document, valid, _, _, graph, hdocument, hvalid, hresolve, hgraph,
    (hedge 1 graph hprovider (by decide) hgraph).2⟩

end Generator

end Firmware
