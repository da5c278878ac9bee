import Firmware.Document
import Firmware.Proofs.Results
import Firmware.Proofs.Value.Spread
/-!
Locations of the instances of a document.  Every instance is read at a place of its own
in the JSON value, so the locations of any two part.
-/

namespace Firmware

namespace Document

variable {path : Path} {json : Json} {node : Node} {kind : String} {document : Document}

def readKinds (entries : Table String Json) : Table String (List (Except Problem Node)) :=
  entries.map fun entry => (entry.1, readInstances entry.1 entry.2)

theorem ofJson_object (entries : Table String Json) :
    ofJson (.object entries) =
      Problem.settle ((readKinds entries).flatMap fun kind => problemsOf kind.2)
        ⟨Table.ofList ((readKinds entries).map fun kind => (kind.1, nodesOf kind.2))⟩ := rfl

theorem path_of_readNode (h : readNode path json = .ok node) : node.path = path := by
  unfold readNode Node.ofJson? at h
  cases json <;> simp at h <;> exact h ▸ rfl

theorem mem_nodesOf {results : List (Except Problem Node)} (h : node ∈ nodesOf results) :
    .ok node ∈ results := by
  obtain ⟨result, hmem, hok⟩ := List.mem_filterMap.mp h
  exact Except.toOption_eq_some_iff.mp hok ▸ hmem

theorem below_of_mem_readInstances (h : .ok node ∈ readInstances kind json) :
    Path.root.field kind <+: node.path := by
  unfold readInstances at h
  split at h
  · obtain ⟨position, _, hread⟩ := List.mem_mapIdx.mp h
    rw [path_of_readNode hread]
    exact List.prefix_append ..
  · have hpath := path_of_readNode (List.mem_singleton.mp h).symm
    exact hpath ▸ List.prefix_refl _

theorem pairwise_parts_readInstances (kind : String) (json : Json) :
    (nodesOf (readInstances kind json)).Pairwise fun a b => a.path.Parts b.path := by
  unfold readInstances
  split
  · next items =>
      rw [nodesOf, List.pairwise_filterMap, List.mapIdx_eq_zipIdx_map, List.pairwise_map]
      apply (pairwise_zipIdx items 0).imp
      intro a b hne left hleft right hright
      rw [path_of_readNode (Except.toOption_eq_some_iff.mp hleft),
        path_of_readNode (Except.toOption_eq_some_iff.mp hright)]
      exact Path.parts_of_step_ne _ fun heq => hne (Segment.index.inj heq)
  · exact List.pairwise_filterMap.mpr (List.pairwise_singleton ..)

theorem pairwise_parts_of_ofJson (h : ofJson json = .ok document) :
    (document.kinds.flatMap (·.2)).Pairwise fun a b => a.path.Parts b.path := by
  unfold ofJson at h
  split at h
  · next entries =>
      obtain ⟨_, rfl⟩ := Problem.settle_eq_ok_iff.mp h
      have hread : ∀ listed ∈ Table.ofList ((entries.map fun entry =>
          (entry.1, readInstances entry.1 entry.2)).map fun entry => (entry.1, nodesOf entry.2)),
          ∃ json, listed.2 = nodesOf (readInstances listed.1 json) := by
        intro listed hmem
        have hlisted := Table.mem_of_mem_ofList hmem
        rw [List.map_map] at hlisted
        obtain ⟨entry, _, rfl⟩ := List.mem_map.mp hlisted
        exact ⟨entry.2, rfl⟩
      refine List.pairwise_flatMap.mpr ⟨fun listed hmem => ?_, ?_⟩
      · obtain ⟨json, hnodes⟩ := hread listed hmem
        exact hnodes ▸ pairwise_parts_readInstances listed.1 json
      · have hkeys := List.pairwise_map.mp (Table.nodup_keys_ofList
          ((entries.map fun entry => (entry.1, readInstances entry.1 entry.2)).map
            fun entry => (entry.1, nodesOf entry.2)))
        apply hkeys.imp_of_mem
        intro a b ha hb hne left hleft right hright
        obtain ⟨json, hnodes⟩ := hread a ha
        obtain ⟨json', hnodes'⟩ := hread b hb
        rw [hnodes] at hleft
        rw [hnodes'] at hright
        have hparts : (Path.root.field a.1).Parts (Path.root.field b.1) :=
          Path.parts_of_step_ne _ fun heq => hne (Segment.key.inj heq)
        exact hparts.below (below_of_mem_readInstances (mem_nodesOf hleft))
          (below_of_mem_readInstances (mem_nodesOf hright))
  · simp at h

end Document

end Firmware
