import Firmware.Proofs.Builtin.Emission
/-!
Code of the hub and the sensors.  Whatever a document holds, generation does not fail at
emission, and the code it comes to declares one variable for each instance, registers the
hub and then the sensors, and creates every object before anything else mentions it.
-/

namespace Firmware

namespace Builtin

variable {generator : Generator} {json : Json} {document : Document} {names : NameTable}
  {ordered : Ordered} {inst : Instance}

/-- The code of planned instances creates the object of each before anything else mentions
its variable. -/
theorem isCreatedFirst_of_mem (hcomponents : generator.components = registry)
    (hdocument : Document.ofJson json = .ok document)
    (hplan : generator.plan document = .ok (names, ordered)) (hmem : inst ∈ ordered.instances) :
    inst.id.IsCreatedFirst (Code.ofPieces (ordered.instances.flatMap pieces)).statements := by
  obtain ⟨done, rest, hsplit⟩ := List.append_of_mem hmem
  have hnames := nodup_names hcomponents hdocument hplan
  rw [hsplit, List.map_append, List.map_cons, List.nodup_middle, List.nodup_cons] at hnames
  have hother : ∀ other, other ∈ done ∨ other ∈ rest → other.id.name ≠ inst.id.name := by
    intro other hlisted hname
    apply hnames.1
    rw [← List.map_append, ← hname]
    exact List.mem_map_of_mem (List.mem_append.mpr hlisted)
  have hstatements : (Code.ofPieces (ordered.instances.flatMap pieces)).statements =
      done.flatMap statementsOf ++ .assignment inst.id.name (.new inst.id.type []) ::
        (laterStatements inst ++ rest.flatMap statementsOf) := by
    rw [statements_ofPieces, hsplit, List.flatMap_append, List.flatMap_cons]
    rfl
  refine ⟨_, _, hstatements, fun statement hbefore hmention => ?_, fun statement hafter => ?_⟩
  · obtain ⟨other, hlisted, hadded⟩ := List.mem_flatMap.mp hbefore
    have hne := hother other (.inl hlisted)
    rcases List.mem_cons.mp hadded with rfl | hlater
    · exact hne (List.mem_singleton.mp hmention).symm
    · rcases List.mem_cons.mp ((uses_of_mem_laterStatements hlater).mentions hmention) with
        hown | hparent
      · exact hne hown.symm
      · -- A parent comes before its sensor, so it is not the instance either.
        obtain ⟨earlier, later, rfl⟩ := List.append_of_mem hlisted
        have hsplit' : ordered.instances = earlier ++ other :: (later ++ inst :: rest) := by
          simpa using hsplit
        obtain ⟨hub, hhub, _, hname⟩ := exists_parent hcomponents hdocument hplan hsplit'
          (Option.mem_toList.mp hparent)
        exact hother hub (.inl (List.mem_append_left _ hhub)) hname
  · rcases List.mem_append.mp hafter with hlater | hrest
    · simp [(uses_of_mem_laterStatements hlater).target]
    · obtain ⟨other, hlisted, hadded⟩ := List.mem_flatMap.mp hrest
      rcases List.mem_cons.mp hadded with rfl | hlater
      · exact fun htarget => hother other (.inr hlisted) (Option.some.inj htarget)
      · simp [(uses_of_mem_laterStatements hlater).target]

/-- Generation with the hub and the sensors does not fail at emission: it succeeds as soon
as there is a plan.  The code it comes to has one global variable for each instance, with
names that differ, registers the hub and then the sensors in document order, and creates
every object once, before any other statement mentions it. -/
theorem generates_hub_then_sensors {components : Components}
    (hcomponents : Builtin.components = .ok components) (form : SourceForm)
    (reserved : List String) (json : Json) :
    let generator : Generator := ⟨components, form, reserved⟩
    (∀ failure, (generator.generateJson json).result = .error failure →
      failure.stage ≠ .emission) ∧
    (∀ document planned, Document.ofJson json = .ok document →
      generator.plan document = .ok planned →
        ∃ code, (generator.generateJson json).result = .ok code) ∧
    ∀ code, (generator.generateJson json).result = .ok code →
      ∃ document names ordered hubs sensors, Document.ofJson json = .ok document ∧
        generator.plan document = .ok (names, ordered) ∧
        ordered.instances = hubs ++ sensors ∧ Arranged document hubs sensors ∧
        code.globals = ordered.instances.map (Global.ofIdentifier ·.id) ∧
        (code.globals.map (·.name)).Nodup ∧
        code.runtimeObjects = ordered.instances.map (·.id.name) ∧
        ∀ inst ∈ ordered.instances, inst.id.IsCreatedFirst code.statements := by
  obtain rfl := Except.ok.inj (hcomponents.symm.trans components_eq)
  intro generator
  have hemits : ∀ {document names ordered}, Document.ofJson json = .ok document →
      generator.plan document = .ok (names, ordered) →
      (generator.generateJson json).result =
        .ok (Code.ofPieces (ordered.instances.flatMap pieces)) := by
    intro document names ordered hdocument hplan
    obtain ⟨final, hemitted, hresult⟩ := exists_emitted rfl hdocument hplan
    rwa [hemitted.code] at hresult
  have hcases := generator.fails_or_plans json
  refine ⟨fun failure hfailed => ?_, fun document planned hdocument hplan => ?_,
    fun code hcode => ?_⟩
  · rcases hcases with ⟨found, hfound, hstage⟩ | ⟨document, names, ordered, hdocument, hplan⟩
    · exact Except.error.inj (hfound.symm.trans hfailed) ▸ hstage
    · simp [hemits hdocument hplan] at hfailed
  · exact ⟨_, hemits hdocument hplan⟩
  · rcases hcases with ⟨found, hfound, _⟩ | ⟨document, names, ordered, hdocument, hplan⟩
    · simp [hfound] at hcode
    · obtain rfl := Except.ok.inj ((hemits hdocument hplan).symm.trans hcode)
      obtain ⟨hubs, sensors, hsplit, harranged⟩ := exists_arranged rfl hdocument hplan
      have hnames := nodup_names rfl hdocument hplan
      obtain ⟨hglobals, hobjects⟩ := globals_objects_of_pieces
        (fun inst hmem => isHub_or_isSensor rfl hplan hmem) hnames
      refine ⟨document, names, ordered, hubs, sensors, hdocument, hplan, hsplit, harranged,
        hglobals, ?_, hobjects, fun inst hmem => isCreatedFirst_of_mem rfl hdocument hplan hmem⟩
      rw [hglobals, List.map_map]
      exact hnames

/-- A document that lists sensors before their hub, two of them with chosen names. -/
def stationJson : Json :=
  .object [("sensor", .array [
      .object [("id", .text "outdoor"), ("example_component_id", .text "station")],
      .object [("name", .text "Indoor")]]),
    ("example_component", .object [("id", .text "station")])]

/-- The generator of the hub and the sensors, with a name that no document may use. -/
def station : Generator := ⟨registry, .standard, ["sensor"]⟩

/-- The sensors of the station are registered after it, and each is created first. -/
theorem station_generated :
    Builtin.components = .ok registry ∧
      ∃ code, (station.generateJson stationJson).result = .ok code ∧
      code.runtimeObjects = ["station", "outdoor", "sensor_2"] ∧
      ∃ inst : Instance, inst.id.name = "outdoor" ∧ inst.id.IsCreatedFirst code.statements := by
  have hview : (station.generateJson stationJson).result.toOption.map (·.runtimeObjects) =
      some ["station", "outdoor", "sensor_2"] := by decide +kernel
  obtain ⟨code, hcode, hobjects⟩ := Option.map_eq_some_iff.mp hview
  replace hcode := Except.toOption_eq_some_iff.mp hcode
  obtain ⟨_, _, ordered, _, _, _, _, _, _, _, _, hregistered, hcreated⟩ :=
    (generates_hub_then_sensors components_eq .standard ["sensor"] stationJson).2.2 code hcode
  have hlisted : "outdoor" ∈ ordered.instances.map (·.id.name) := by
    rw [← hregistered, hobjects]
    decide
  obtain ⟨inst, hmem, hname⟩ := List.mem_map.mp hlisted
  exact ⟨components_eq, code, hcode, hobjects, inst, hname, hcreated inst hmem⟩

end Builtin

end Firmware
