import Firmware.Proofs.Builtin.Generation
import Firmware.Proofs.Generator.Unplaced
/-!
Kinds with one instance.  An instance on its own is read like the only element of a list, one
step further up, so both documents have the same outcome: only the problems that have a
location tell them apart.
-/

namespace Firmware

open Validation

namespace Document

/-- The result of reading an instance, moved to the root of the document. -/
def unplacedRead (result : Except Problem Node) : Except Problem Node :=
  (result.map Node.content).mapError Problem.unplaced

theorem unplacedRead_readNode (path place : Path) (json : Json) :
    unplacedRead (readNode path json) = unplacedRead (readNode place json) := by
  have hcontent := Node.content_ofJson? path place json
  rw [readNode, readNode]
  cases hread : Node.ofJson? path json <;> cases hread' : Node.ofJson? place json <;>
    simp only [hread, hread', Option.map_some, Option.map_none, reduceCtorEq] at hcontent
  · rfl
  · exact congrArg Except.ok (Option.some.inj hcontent)

theorem map_problemsOf (results : List (Except Problem Node)) :
    (problemsOf results).map Problem.unplaced = problemsOf (results.map unplacedRead) := by
  rw [problemsOf, problemsOf, List.map_filterMap, List.filterMap_map]
  refine List.filterMap_congr fun result _ => ?_
  cases result <;> rfl

theorem map_nodesOf (results : List (Except Problem Node)) :
    (nodesOf results).map Node.content = nodesOf (results.map unplacedRead) := by
  rw [nodesOf, nodesOf, List.map_filterMap, List.filterMap_map]
  refine List.filterMap_congr fun result _ => ?_
  cases result <;> rfl

/-- Documents whose kinds are read alike are read as documents with the same content. -/
theorem bare_ofJson_eq {left right : Table String Json}
    (h : (readKinds left).map (fun kind => (kind.1, kind.2.map unplacedRead)) =
      (readKinds right).map fun kind => (kind.1, kind.2.map unplacedRead)) :
    bare content (ofJson (.object left)) = bare content (ofJson (.object right)) := by
  have hproblems : ((readKinds left).flatMap fun kind => problemsOf kind.2).map Problem.unplaced =
      ((readKinds right).flatMap fun kind => problemsOf kind.2).map Problem.unplaced := by
    rw [List.map_flatMap, List.map_flatMap, List.flatMap_def, List.flatMap_def]
    refine congrArg List.flatten (map_eq_map_of_imp (fun a b hsame => ?_) h)
    rw [map_problemsOf, map_problemsOf, (Prod.mk.inj hsame).2]
  have hnodes : Table.Related (fun a b => a.map Node.content = b.map Node.content)
      ((readKinds left).map fun kind => (kind.1, nodesOf kind.2))
      ((readKinds right).map fun kind => (kind.1, nodesOf kind.2)) := by
    refine List.forall₂_map_left_iff.mpr (List.forall₂_map_right_iff.mpr
      ((Table.related_iff_map_eq.mpr h).imp ?_))
    rintro a b ⟨hkey, hresults⟩
    refine ⟨hkey, ?_⟩
    dsimp only
    rw [map_nodesOf, map_nodesOf, hresults]
  rw [ofJson_object, ofJson_object, bare_settle, bare_settle, hproblems]
  exact congrArg (fun kinds => Problem.settle _ (Document.mk kinds))
    (Table.related_iff_map_eq.mp hnodes.ofList)

theorem map_readInstances_single {config : Json} (hconfig : ∀ items, config ≠ .array items)
    (kind : String) :
    (readInstances kind (.array [config])).map unplacedRead =
      (readInstances kind config).map unplacedRead := by
  have hread : readInstances kind config = [readNode (Path.root.field kind) config] := by
    unfold readInstances
    split
    · exact absurd rfl (hconfig _)
    · rfl
  rw [hread]
  exact congrArg ([·]) (unplacedRead_readNode ..)

/-- A list of one instance and the instance on its own are read as documents with the same
content. -/
theorem bare_ofJson_single {config : Json} (hconfig : ∀ items, config ≠ .array items)
    (before after : List (String × Json)) (kind : String) :
    bare content (ofJson (.object (before ++ (kind, .array [config]) :: after))) =
      bare content (ofJson (.object (before ++ (kind, config) :: after))) := by
  apply bare_ofJson_eq
  simp only [readKinds, List.map_append, List.map_cons, map_readInstances_single hconfig]

end Document

/-- The steps of the hub are always the same, and a sensor only asks for the name of its hub. -/
theorem Builtin.ignorePlaces_registry : registry.IgnorePlaces := by
  intro kind component hfound id left right hcontent
  rcases find_registry_cases hfound with rfl | rfl
  · rfl
  · have hparent : left.slotName? parentField = right.slotName? parentField := by
      rw [← Node.slotName?_content, hcontent, Node.slotName?_content]
    simp only [sensorComponent, sensorRoutine, hparent]

namespace Generator

/-- A kind with one instance may be written with and without a list.  For components whose
schemas have no supplied checks and defaults without mappings, and whose routines do not look at
locations, the code is the same, or the failure is, up to the locations of its causes. -/
theorem generateJson_single {generator : Generator}
    (hregistered : generator.components.Registered)
    (hcustom : generator.components.EverySchema Schema.isCustomFree)
    (hflat : generator.components.EverySchema Schema.hasFlatDefaults)
    (hroutines : generator.components.IgnorePlaces)
    {config : Json} (hconfig : ∀ items, config ≠ .array items)
    (before after : List (String × Json)) (kind : String) :
    (generator.generateJson (.object (before ++ (kind, .array [config]) :: after))).unplaced =
      (generator.generateJson (.object (before ++ (kind, config) :: after))).unplaced :=
  generateJson_unplaced hregistered hcustom hflat hroutines
    (Document.bare_ofJson_single hconfig before after kind)

def listedStationJson : Json :=
  .object [("sensor", .array [
      .object [("id", .text "outdoor"), ("example_component_id", .text "station")],
      .object [("name", .text "Indoor")]]),
    ("example_component", .array [.object [("id", .text "station")]])]

/-- The hub of the station, to which a sensor refers, may be the only element of a list. -/
theorem station_single :
    (Builtin.station.generateJson Builtin.stationJson).result.isOk = true ∧
      (Builtin.station.generateJson listedStationJson).unplaced =
        (Builtin.station.generateJson Builtin.stationJson).unplaced :=
  ⟨by decide +kernel,
    generateJson_single Builtin.registered_registry (Builtin.everySchema_registry rfl rfl)
      (Builtin.everySchema_registry rfl rfl) Builtin.ignorePlaces_registry (by simp)
      [("sensor", .array [
        .object [("id", .text "outdoor"), ("example_component_id", .text "station")],
        .object [("name", .text "Indoor")]])] [] "example_component"⟩

end Generator

end Firmware
