import Firmware.Proofs.Generator.References
import Firmware.Proofs.Graph.Layers
/-!
Plans in document order.  Candidates are numbered as the document lists their nodes, so
the graph of a plan has its instances in document order, and those of one kind stand for
the nodes of that kind, one by one.
-/

namespace Firmware

namespace Generator

variable {components : Components} {generator : Generator} {document : Document} {start : Nat}
  {kinds : Table String (List Node)} {valid : List Candidate} {names : NameTable}
  {ordered : Ordered}

theorem indices_of_candidatesOf {kind : String} {nodes : List Node}
    (h : candidatesOf components start kind nodes = valid.map .ok) :
    valid.length = nodes.length ∧ valid.map (·.index) = List.range' start nodes.length := by
  obtain ⟨component, _, hlength, hvalid⟩ := candidatesOf_eq_ok h
  refine ⟨hlength, List.ext_getElem (by simpa using hlength) fun position hbound _ => ?_⟩
  rw [List.length_map] at hbound
  obtain ⟨raw, config, _, _, hcandidate⟩ := hvalid position _ (List.getElem?_eq_getElem hbound)
  rw [List.getElem_map, hcandidate, List.getElem_range', Nat.one_mul]

/-- Candidates are numbered in document order. -/
theorem indices_of_candidates (h : candidates components start kinds = valid.map .ok) :
    valid.map (·.index) = List.range' start valid.length := by
  induction kinds generalizing start valid with
  | nil =>
      obtain rfl := List.map_eq_nil_iff.mp h.symm
      rfl
  | cons entry rest ih =>
      rw [candidates] at h
      obtain ⟨first, others, rfl, hfirst, hothers⟩ := List.map_eq_append_iff.mp h.symm
      obtain ⟨hlength, hindices⟩ := indices_of_candidatesOf hfirst.symm
      rw [List.map_append, hindices, ih hothers.symm, List.length_append, hlength,
        List.range'_append_1]

/-- The candidates of a kind are located where its nodes are, in order. -/
theorem paths_of_kind (hregistered : components.Registered) (hkeys : (Table.keys kinds).Nodup)
    (h : candidates components start kinds = valid.map .ok) (kind : String) :
    (valid.filter (·.declaration.kind == kind)).map (·.config.path) =
      ((Table.get? kinds kind).getD []).map (·.path) := by
  induction kinds generalizing start valid with
  | nil =>
      obtain rfl := List.map_eq_nil_iff.mp h.symm
      rfl
  | cons entry rest ih =>
      obtain ⟨listed, nodes⟩ := entry
      rw [candidates] at h
      obtain ⟨first, others, rfl, hfirst, hothers⟩ := List.map_eq_append_iff.mp h.symm
      obtain ⟨hnew, hrest⟩ := List.nodup_cons.mp hkeys
      obtain ⟨component, hfound, _, hvalid⟩ := candidatesOf_eq_ok hfirst.symm
      have hkind : ∀ candidate ∈ first, candidate.declaration.kind = listed := by
        intro candidate hmem
        obtain ⟨position, hposition⟩ := List.mem_iff_getElem?.mp hmem
        obtain ⟨_, _, _, _, rfl⟩ := hvalid position candidate hposition
        exact hregistered.kind_eq hfound
      rw [List.filter_append, List.map_append, ih hrest hothers.symm, Table.get?_cons]
      by_cases heq : listed = kind
      · subst heq
        have hall : first.filter (·.declaration.kind == listed) = first :=
          List.filter_eq_self.mpr fun candidate hmem => beq_iff_eq.mpr (hkind candidate hmem)
        rw [hall, Table.get?_eq_none_iff.mpr hnew, if_pos rfl, paths_of_candidatesOf hfirst.symm]
        simp
      · have hnone : first.filter (·.declaration.kind == kind) = [] :=
          List.filter_eq_nil_iff.mpr fun candidate hmem hsame =>
            heq ((hkind candidate hmem).symm.trans (beq_iff_eq.mp hsame))
        rw [hnone, if_neg heq]
        rfl

theorem sortByIndex_of_resolve {before : NameTable} {instances : List Instance}
    (hvalid : Validation.gather (candidates components 0 kinds) = .ok valid)
    (h : resolve before valid = .ok (names, instances)) :
    Graph.sortByIndex instances = instances := by
  have hmapped := congrArg (List.map Candidate.index)
    (candidates_of_instances (resolve_eq_ok h).2.2)
  rw [List.map_map, List.map_map] at hmapped
  have hindices : instances.map (·.index) = List.range' 0 valid.length :=
    hmapped.trans (indices_of_candidates (Validation.gather_eq_ok_iff.mp hvalid))
  apply Graph.sortByIndex_eq_self
  apply List.pairwise_map.mp
  rw [hindices]
  exact List.pairwise_le_range'

/-- A plan orders a graph of instances in document order, in which those of a kind are
located where its nodes are. -/
theorem exists_graph_of_plan (hregistered : generator.components.Registered)
    (hkeys : (Table.keys document.kinds).Nodup)
    (hplan : generator.plan document = .ok (names, ordered)) :
    ∃ graph, Graph.ofInstances graph.instances = .ok graph ∧ graph.order = .ok ordered ∧
      ∀ kind, (graph.instances.filter (·.kind == kind)).map (·.path) =
        (document.instances kind).map (·.path) := by
  obtain ⟨valid, instances, hvalid, hresolve, hordered⟩ := plan_eq_ok hplan
  have hcandidates := Validation.gather_eq_ok_iff.mp hvalid
  have hsame := candidates_of_instances (resolve_eq_ok hresolve).2.2
  have hsorted := sortByIndex_of_resolve hvalid hresolve
  unfold Ordered.ofInstances at hordered
  split at hordered
  · simp at hordered
  · next graph hgraph =>
      have hinstances := (Graph.ofInstances_eq_ok hgraph).1.trans hsorted
      refine ⟨graph, hinstances ▸ hgraph, Except.mapError_eq_ok_iff.mp hordered, fun kind => ?_⟩
      have hpaths := paths_of_kind hregistered hkeys hcandidates kind
      have hfiltered := congrArg (fun listed : List Candidate =>
        (listed.filter (·.declaration.kind == kind)).map (·.config.path)) hsame
      simp only [List.filter_map, List.map_map] at hfiltered
      rw [hinstances]
      exact hfiltered.trans hpaths

end Generator

end Firmware
