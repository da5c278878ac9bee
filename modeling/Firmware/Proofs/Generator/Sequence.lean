import Firmware.Proofs.Generator.Plan
import Firmware.Proofs.Schedule.Completion
import Firmware.Proofs.Schedule.Sequence
/-!
The order in which the instances of a document are emitted.  Every instance is started
once and ends once, and it starts only after the instances that its kind depends on
and those whose variables it refers to have ended, however the routines wait for each
other in between.
-/

namespace Firmware

namespace Generator

variable {generator : Generator} {json : Json} {document : Document} {names : NameTable}
  {ordered : Ordered} {code : Code}

theorem generateJson_eq_emit (hdocument : Document.ofJson json = .ok document)
    (hplan : generator.plan document = .ok (names, ordered)) :
    generator.generateJson json = Schedule.emit generator.components names ordered := by
  simp only [generateJson, hdocument, generate, hplan]

/-- Where every instance declares its own variable and no name is declared twice, the
variables of the instances differ. -/
theorem distinctNames_of_apart {tasks : List Task} (hassigns : Schedule.Assigns ordered tasks)
    (hnamed : ∀ inst ∈ ordered.instances, inst.id.name ∈ inst.config.declarations)
    (hapart : Graph.DeclareApart ordered.instances) : Schedule.DistinctNames tasks := by
  have hnames := hapart.nodup_names hnamed
  rwa [← hassigns.instances, List.map_map] at hnames

/-- Of a document whose declared names differ between instances, every instance starts
once and ends once, and no instance starts before those that it depends on have
ended. -/
theorem generateJson_emits_in_order (hregistered : generator.components.Registered)
    (hdocument : Document.ofJson json = .ok document)
    (hplan : generator.plan document = .ok (names, ordered))
    (hcode : (generator.generateJson json).result = .ok code)
    (hapart : Graph.DeclareApart ordered.instances) :
    (∀ inst ∈ ordered.instances,
      (generator.generateJson json).trace.countP (Entry.isStartOf inst.id.name) = 1 ∧
        (generator.generateJson json).trace.countP (Entry.isEndOf inst.id.name) = 1) ∧
    ∀ (first second : Nat) (a b : Instance), first ≠ second →
      ordered.instances[first]? = some a → ordered.instances[second]? = some b →
      (a.kind ∈ b.declaration.dependencies ∧ a.kind ≠ b.kind ∨
        ∃ name ∈ b.config.references, name ∈ a.config.declarations) →
      (generator.generateJson json).trace.findIdx (Entry.isEndOf a.id.name) <
        (generator.generateJson json).trace.findIdx (Entry.isStartOf b.id.name) := by
  obtain ⟨_, _, _, _, hordered⟩ := plan_eq_ok hplan
  have hnamed := name_mem_declarations hregistered hplan
  rw [generateJson_eq_emit hdocument hplan] at hcode ⊢
  obtain ⟨tasks, deeds, final, hassigns, hruns, _, hended, _, htrace⟩ :=
    Schedule.emit_eq_ok hordered hcode
  have hreaches := hruns.reaches
  rw [htrace]
  have hdistinct := distinctNames_of_apart hassigns hnamed hapart
  have haccounted := hreaches.accounted hassigns.fresh
  constructor
  · intro inst hmem
    obtain ⟨position, hinst⟩ := List.mem_iff_getElem?.mp hmem
    obtain ⟨task, hpresent, rfl, _⟩ := hassigns.exists_task haccounted hinst
    have hprogress := hended task (List.mem_of_getElem? hpresent)
    exact ⟨hreaches.countP_isStartOf hassigns.fresh hdistinct hpresent hprogress,
      hreaches.countP_isEndOf hassigns.fresh hdistinct hpresent hprogress⟩
  · intro first second a b hne hfirst hsecond hedge
    obtain ⟨task, hfirst', rfl, _⟩ := hassigns.exists_task haccounted hfirst
    have hprogress := hended task (List.mem_of_getElem? hfirst')
    obtain ⟨_, hsecond', rfl, hdependencies⟩ := hassigns.exists_task haccounted hsecond
    refine hreaches.findIdx_isEndOf_lt hassigns.fresh hdistinct hfirst' hsecond' ?_ hprogress
    rw [hdependencies]
    apply Ordered.mem_dependenciesOf hordered hapart hnamed hfirst hsecond hne
    apply hedge.imp_left
    rintro ⟨hlisted, hkinds⟩
    simp [Graph.dependsOnKind, hkinds, hlisted]

/-- A component that may refer to a hub, and whose routine is always the same. -/
def relay (kind type : String) (script : List Step) : Component where
  declaration := .ofSchema kind ⟨kind,
    [("id", .optional (.declareId type none)), ("hub", .optional (.useId "Hub"))], []⟩
  routine := fun _ _ => script
  observed := true

theorem composed_relay (kind type : String) (script : List Step) :
    (relay kind type script).declaration.schema.Composed :=
  Schema.composed_of_extend (relay kind type script).declaration.schema.fields rfl rfl

/-- A hub whose routine waits for an instance that comes later in the document, and a
node that refers to the hub. -/
def relays : Generator where
  components := ⟨[("hub", relay "hub" "Hub" [.await "late" none]),
    ("late", relay "late" "Late" []), ("node", relay "node" "Node" [])]⟩
  form := .standard
  reserved := []

theorem registered_relays : relays.components.Registered :=
  .add (.add (.add .empty (composed_relay "hub" "Hub" _) rfl)
    (composed_relay "late" "Late" _) rfl) (composed_relay "node" "Node" _) rfl

def relayJson : Json :=
  .object [("node", .object [("hub", .text "hub")]), ("hub", .null), ("late", .null)]

def relayDocument : Document where
  kinds := [("node", [⟨Path.root.field "node", [("hub", .text "hub")]⟩]),
    ("hub", [.empty (Path.root.field "hub")]), ("late", [.empty (Path.root.field "late")])]

theorem relays_emit_in_order :
    (relays.generateJson relayJson).result.isOk = true ∧
      (relays.generateJson relayJson).trace.findIdx (Entry.isEndOf "hub") <
        (relays.generateJson relayJson).trace.findIdx (Entry.isStartOf "node") := by
  have hok : (relays.generateJson relayJson).result.isOk = true := by decide +kernel
  have hview : (relays.plan relayDocument).toOption.map (fun planned =>
      planned.2.instances.map fun inst =>
        (inst.id.name, inst.config.declarations, inst.config.references)) =
      some [("hub", ["hub"], []), ("node", ["node"], ["hub"]), ("late", ["late"], [])] := by
    decide +kernel
  obtain ⟨⟨names, ordered⟩, hplan, hinstances⟩ := Option.map_eq_some_iff.mp hview
  replace hplan : relays.plan relayDocument = .ok (names, ordered) := by
    cases hplanned : relays.plan relayDocument <;> simp_all [Except.toOption]
  obtain ⟨code, hcode⟩ : ∃ code, (relays.generateJson relayJson).result = .ok code := by
    cases hresult : (relays.generateJson relayJson).result <;> simp_all [Except.isOk, Except.toBool]
  obtain ⟨hub, _, hlist, hhub, hrest⟩ := List.map_eq_cons_iff.mp hinstances
  obtain ⟨node, _, rfl, hnode, hlast⟩ := List.map_eq_cons_iff.mp hrest
  obtain ⟨late, rfl, hlate⟩ := List.map_eq_singleton_iff.mp hlast
  simp only [Prod.mk.injEq] at hhub hnode hlate
  replace hlist : ordered.instances = [hub, node, late] := hlist
  have hapart : Graph.DeclareApart ordered.instances := by
    simp [Graph.DeclareApart, hlist, hhub, hnode, hlate]
  refine ⟨hok, ?_⟩
  rw [← hhub.1, ← hnode.1]
  refine (generateJson_emits_in_order registered_relays rfl hplan hcode hapart).2 0 1 hub node
    (by decide) (by simp [hlist]) (by simp [hlist]) (.inr ⟨"hub", ?_, ?_⟩)
  · simp [hnode]
  · simp [hhub]

end Generator

end Firmware
