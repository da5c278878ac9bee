import Firmware.Proofs.Generator.Naming
import Firmware.Proofs.Schedule.Unplaced
import Firmware.Proofs.Validation.Unplaced
/-!
Generation without regard to locations.  Two documents whose nodes have the same content go
through the same stages to the same code, or fail at the same stage for the same reasons, if
no routine looks at locations and none of the slots of either document share one.
-/

namespace Firmware

open Validation NameTable

def Document.content (document : Document) : Document :=
  ⟨document.kinds.map fun entry => (entry.1, entry.2.map Node.content)⟩

def Candidate.content (candidate : Candidate) : Candidate :=
  { candidate with config := candidate.config.content }

namespace Generator

variable {generator : Generator} {components : Components}

theorem candidatesOf_unplaced (hcustom : components.EverySchema Schema.isCustomFree) (start : Nat)
    (kind : String) {left right : List Node} (h : left.map Node.content = right.map Node.content) :
    (candidatesOf components start kind left).map (bare Candidate.content) =
      (candidatesOf components start kind right).map (bare Candidate.content) := by
  unfold candidatesOf
  split
  · rfl
  · next component hfound =>
      refine map_mapIdx_eq_of_imp (fun position a b hsame => ?_) h
      refine bare_map_eq (fun valid valid' hvalid => ?_)
        (Schema.bare_validate_eq (hcustom hfound) hsame a.path b.path)
      exact congrArg (Candidate.mk (start + position) component.declaration) hvalid

theorem candidates_unplaced (hcustom : components.EverySchema Schema.isCustomFree) (start : Nat)
    {left right : Table String (List Node)}
    (h : Table.Related (fun a b => a.map Node.content = b.map Node.content) left right) :
    (candidates components start left).map (bare Candidate.content) =
      (candidates components start right).map (bare Candidate.content) := by
  induction h generalizing start with
  | nil => rfl
  | @cons first first' _ _ hfirst _ ih =>
      obtain ⟨kind, nodes⟩ := first
      obtain ⟨_, nodes'⟩ := first'
      obtain ⟨rfl, hnodes⟩ := hfirst
      have hlength : nodes.length = nodes'.length := by
        simpa using congrArg List.length hnodes
      rw [candidates, candidates, List.map_append, List.map_append, hlength,
        candidatesOf_unplaced hcustom start kind hnodes, ih]

theorem instanceOf_content (candidate : Candidate) :
    instanceOf candidate.content = bare Instance.content (instanceOf candidate) := by
  rw [instanceOf, instanceOf, Instance.configure, Instance.configure, Candidate.content]
  cases candidate.declaration.schema.idField? with
  | none => rfl
  | some found =>
      simp only [Node.slotName?_content]
      cases candidate.config.slotName? found.1 <;> rfl

/-- The instances of candidates are made alike with and without locations. -/
theorem bare_gather_instanceOf (named : List Candidate) :
    bare (List.map Instance.content) (gather (named.map instanceOf)) =
      gather ((named.map Candidate.content).map instanceOf) := by
  rw [bare_gather, List.map_map, List.map_map]
  exact congrArg gather (List.map_congr_left fun candidate _ => (instanceOf_content candidate).symm)

theorem map_content_zipWith (candidates : List Candidate) (nodes : List Node) :
    (List.zipWith (fun candidate config => { candidate with config }) candidates nodes).map
        Candidate.content =
      List.zipWith (fun candidate config => { candidate with config })
        (candidates.map Candidate.content) (nodes.map Node.content) := by
  rw [List.map_zipWith, List.zipWith_map]
  rfl

/-- Candidates that only differ in locations are resolved alike, as long as none of their slots
share one. -/
theorem resolve_unplaced {table : NameTable} {left right : List Candidate}
    (hnew : table.byPath = []) (h : left.map Candidate.content = right.map Candidate.content)
    (hleft : (((left.map (·.config)).flatMap Node.slots).map (·.1)).Nodup)
    (hright : (((right.map (·.config)).flatMap Node.slots).map (·.1)).Nodup) :
    bare (Prod.map NameTable.unplaced (List.map Instance.content)) (resolve table left) =
      bare (Prod.map NameTable.unplaced (List.map Instance.content)) (resolve table right) := by
  have hconfigs : (left.map (·.config)).map Node.content =
      (right.map (·.config)).map Node.content := by
    rw [List.map_map, List.map_map]
    exact map_eq_map_of_imp (fun _ _ hsame => congrArg Candidate.config hsame) h
  obtain ⟨hnodes, htable, hproblems⟩ :=
    resolveDeclarations_unplaced hnew hconfigs.symm hright hleft
  simp only [resolve]
  generalize table.resolveDeclarations (left.map (·.config)) = done at hnodes htable hproblems ⊢
  generalize table.resolveDeclarations (right.map (·.config)) = done' at hnodes htable hproblems ⊢
  have hempty : done.problems.isEmpty = done'.problems.isEmpty := by
    rw [← List.isEmpty_map, hproblems, List.isEmpty_map]
  rw [hempty]
  split
  · exact congrArg Except.error hproblems
  · have hdangling : (done.nodes.flatMap done.table.referenceProblems).map Problem.unplaced =
        (done'.nodes.flatMap done'.table.referenceProblems).map Problem.unplaced := by
      rw [List.map_flatMap, List.map_flatMap, List.flatMap_def, List.flatMap_def]
      exact congrArg List.flatten
        (map_eq_map_of_imp (fun _ _ => map_referenceProblems_eq htable) hnodes)
    let named (candidates : List Candidate) (nodes : List Node) : List Candidate :=
      List.zipWith (fun candidate config => { candidate with config }) candidates nodes
    have hgather : bare (List.map Instance.content)
          (gather ((named left done.nodes).map instanceOf)) =
        bare (List.map Instance.content) (gather ((named right done'.nodes).map instanceOf)) := by
      rw [bare_gather_instanceOf, bare_gather_instanceOf, map_content_zipWith, map_content_zipWith,
        h, hnodes]
    rcases bare_eq_cases hgather with ⟨problems, problems', hleft, hright, hsame⟩ |
      ⟨instances, instances', hleft, hright, hsame⟩
    · rw [hleft, hright]
      refine congrArg Except.error ?_
      rw [List.map_append, List.map_append, hdangling, hsame]
    · rw [hleft, hright]
      dsimp only
      rw [bare_settle, bare_settle, hdangling, Prod.map, Prod.map, htable, hsame]

/-- Documents that only differ in locations are planned alike, as long as none of their slots
share one once they are validated. -/
theorem plan_unplaced (hcustom : generator.components.EverySchema Schema.isCustomFree)
    {left right : Document} (h : left.content = right.content)
    (hleft : ∀ valid, gather (candidates generator.components 0 left.kinds) = .ok valid →
      (((valid.map (·.config)).flatMap Node.slots).map (·.1)).Nodup)
    (hright : ∀ valid, gather (candidates generator.components 0 right.kinds) = .ok valid →
      (((valid.map (·.config)).flatMap Node.slots).map (·.1)).Nodup) :
    ((generator.plan left).map (Prod.map NameTable.unplaced Ordered.content)).mapError
        Failure.unplaced =
      ((generator.plan right).map (Prod.map NameTable.unplaced Ordered.content)).mapError
        Failure.unplaced := by
  have hkinds := Table.related_iff_map_eq.mpr (Document.mk.inj h)
  have hvalid : bare (List.map Candidate.content)
        (gather (candidates generator.components 0 left.kinds)) =
      bare (List.map Candidate.content)
        (gather (candidates generator.components 0 right.kinds)) := by
    rw [bare_gather, bare_gather, candidates_unplaced hcustom 0 hkinds]
  rw [plan, plan]
  rcases bare_eq_cases hvalid with ⟨problems, problems', hfound, hfound', hsame⟩ |
    ⟨valid, valid', hfound, hfound', hsame⟩
  · rw [hfound, hfound']
    exact congrArg Except.error (Failure.unplaced_ofProblems_eq .validation hsame)
  rw [hfound, hfound']
  have hresolved := resolve_unplaced (byPath_foldl_reserve generator.reserved .empty) hsame
    (hleft valid hfound) (hright valid' hfound')
  simp only [Except.mapError, bind, Except.bind]
  rcases bare_eq_cases hresolved with ⟨problems, problems', hnamed, hnamed', hsame⟩ |
    ⟨⟨names, instances⟩, ⟨names', instances'⟩, hnamed, hnamed', hsame⟩
  · rw [initialNames, hnamed, hnamed']
    exact congrArg Except.error (Failure.unplaced_ofProblems_eq .identifiers hsame)
  rw [initialNames, hnamed, hnamed']
  obtain ⟨hnames, hinstances⟩ := Prod.mk.inj hsame
  have hordered : bare Ordered.content (Ordered.ofInstances instances) =
      bare Ordered.content (Ordered.ofInstances instances') := by
    rw [← Ordered.ofInstances_map, ← Ordered.ofInstances_map, hinstances]
  dsimp only
  rcases bare_eq_cases hordered with ⟨problems, problems', hfailed, hfailed', hsame⟩ |
    ⟨ordered, ordered', hmade, hmade', hsame⟩
  · rw [hfailed, hfailed']
    exact congrArg Except.error (Failure.unplaced_ofProblems_eq .ordering hsame)
  · rw [hmade, hmade']
    exact congrArg Except.ok (Prod.ext hnames hsame)

/-- Documents in JSON that are read as documents with the same content have the same outcome, up
to the locations of problems. -/
theorem generateJson_unplaced {left right : Json}
    (hregistered : generator.components.Registered)
    (hcustom : generator.components.EverySchema Schema.isCustomFree)
    (hflat : generator.components.EverySchema Schema.hasFlatDefaults)
    (hroutines : generator.components.IgnorePlaces)
    (h : bare Document.content (Document.ofJson left) =
      bare Document.content (Document.ofJson right)) :
    (generator.generateJson left).unplaced = (generator.generateJson right).unplaced := by
  rcases bare_eq_cases h with ⟨problems, problems', hread, hread', hsame⟩ |
    ⟨document, document', hread, hread', hsame⟩
  · simp only [generateJson, hread, hread']
    exact congrArg (Outcome.mk · [])
      (congrArg Except.error (Failure.unplaced_ofProblems_eq .parse hsame))
  · have hplan := plan_unplaced hcustom hsame
      (fun _ => nodup_locations hregistered hcustom hflat hread)
      (fun _ => nodup_locations hregistered hcustom hflat hread')
    simp only [generateJson, hread, hread', generate]
    rcases Except.map_mapError_eq_cases hplan with ⟨failure, failure', hleft, hright, hfailure⟩ |
      ⟨⟨names, ordered⟩, ⟨names', ordered'⟩, hleft, hright, hplanned⟩
    · rw [hleft, hright]
      exact congrArg (Outcome.mk · []) (congrArg Except.error hfailure)
    · obtain ⟨hnames, hordered⟩ := Prod.mk.inj hplanned
      rw [hleft, hright]
      dsimp only
      rw [← Schedule.emit_content hroutines, ← Schedule.emit_content hroutines, hnames, hordered]

end Generator

end Firmware
