import Firmware.Proofs.Generator.Naming
import Firmware.Proofs.NameTable.Origin
import Firmware.Proofs.Validation.Slots
/-!
References of a plan.  The instances of a plan hold the nodes whose identifiers were
named, so a name is declared by one of them only, and every reference finds a declaration
of its type among them.
-/

namespace Firmware

namespace Generator

open NameTable

variable {generator : Generator} {json : Json} {document : Document} {names table : NameTable}
  {ordered : Ordered} {valid : List Candidate} {instances : List Instance} {name : String}

/-- Instances of named candidates keep their positions, kinds and nodes. -/
theorem candidates_of_instances
    (hinstances : (valid.map (Candidate.named table)).map instanceOf = instances.map .ok) :
    (instances.map fun inst => (⟨inst.index, inst.declaration, inst.config⟩ : Candidate)) =
      valid.map (Candidate.named table) := by
  rw [← List.map_id (valid.map (Candidate.named table))]
  apply map_eq_map_of_imp ?_ hinstances.symm
  intro inst candidate hok
  obtain ⟨_, _, _, _, _, rfl⟩ := instanceOf_eq_ok hok.symm
  rfl

/-- The instances hold the nodes whose identifiers were named. -/
theorem configs_of_instances (hinstances : (valid.map (Candidate.named
      (names.resolveDeclarations (valid.map (·.config))).table)).map instanceOf =
        instances.map .ok) :
    instances.map (·.config) = (names.resolveDeclarations (valid.map (·.config))).nodes := by
  have hconfigs := congrArg (List.map Candidate.config) (candidates_of_instances hinstances)
  simpa [resolveDeclarations, Candidate.named, Function.comp_def] using hconfigs

theorem configs_of_resolve (h : resolve names valid = .ok (table, instances)) :
    instances.map (·.config) = (names.resolveDeclarations (valid.map (·.config))).nodes := by
  obtain ⟨_, rfl, hinstances⟩ := resolve_eq_ok h
  exact configs_of_instances hinstances

/-- Where every candidate has an instance, only references can still fail. -/
theorem resolve_eq_settle (hproblems : (names.resolveDeclarations (valid.map (·.config))).problems
      = [])
    (htable : table = (names.resolveDeclarations (valid.map (·.config))).table)
    (hinstances : (valid.map (Candidate.named table)).map instanceOf = instances.map .ok) :
    resolve names valid =
      Problem.settle (instances.flatMap fun inst => table.referenceProblems inst.config)
        (table, instances) := by
  subst htable
  have hconfigs := configs_of_instances hinstances
  have hgathered := Validation.gather_eq_ok_iff.mpr hinstances
  rw [← zipWith_resolveDeclarations, ← hconfigs] at hgathered
  simp only [resolve, hproblems, ← hconfigs, hgathered, List.flatMap_map]
  rfl

theorem referenceProblems_of_resolve (h : resolve names valid = .ok (table, instances)) :
    ∀ inst ∈ instances, table.referenceProblems inst.config = [] := by
  have hnodes : (names.resolveDeclarations (valid.map (·.config))).nodes.flatMap
      table.referenceProblems = [] := by
    unfold resolve at h
    simp only at h
    split at h
    · simp at h
    · split at h
      · obtain ⟨hdangling, hpair⟩ := Problem.settle_eq_ok_iff.mp h
        exact (Prod.mk.inj hpair).1 ▸ hdangling
      · simp at h
  intro inst hmem
  refine List.flatMap_eq_nil_iff.mp hnodes inst.config ?_
  rw [← configs_of_resolve h]
  exact List.mem_map_of_mem hmem

theorem lookup?_initialNames (generator : Generator) (name : String) :
    generator.initialNames.lookup? name = none := by
  rw [lookup?, initialNames, byName_foldl_reserve]
  rfl

/-- Every reference of an instance names a declaration of its type, be it in the same
instance or in another. -/
theorem exists_declaration_of_resolve {inst : Instance} {found : Path × Slot}
    (h : resolve generator.initialNames valid = .ok (table, instances)) (hmem : inst ∈ instances)
    (hslot : found ∈ inst.config.slots) (hrefers : found.2.declares = false)
    (hname : found.2.name = some name) :
    ∃ other ∈ instances, ∃ declared ∈ other.config.slots,
      declared.2.declares = true ∧ declared.2.name = some name ∧
        typesMatch declared.2.type found.2.type = true := by
  obtain ⟨hproblems, rfl, _⟩ := resolve_eq_ok h
  have hfine := referenceProblems_of_resolve h inst hmem
  obtain ⟨id, hlookup, hmatch⟩ := exists_lookup?_of_reference hfine hslot hrefers hname
  obtain ⟨origin, horigin, hdeclares, rfl, hfilled⟩ := exists_declaration_of_lookup?
    generator.lookup?_initialNames hproblems hlookup
  -- The declaration is among the named slots, and these are the slots of the instances.
  have hnamed := List.mem_map_of_mem (f := fun found : Path × Slot => (found.1,
    (generator.initialNames.resolveDeclarations (valid.map (·.config))).table.fillSlot
      found.1 found.2)) horigin
  rw [← slots_resolveDeclarations, ← configs_of_resolve h] at hnamed
  obtain ⟨config, hconfig, hdeclared⟩ := List.mem_flatMap.mp hnamed
  obtain ⟨other, hother, rfl⟩ := List.mem_map.mp hconfig
  refine ⟨other, hother, _, hdeclared, ?_, hfilled, ?_⟩
  · rwa [declares_fillSlot]
  · rwa [type_fillSlot]

theorem exists_declaration_of_reference {inst : Instance} {found : Path × Slot}
    (hplan : generator.plan document = .ok (names, ordered)) (hmem : inst ∈ ordered.instances)
    (hslot : found ∈ inst.config.slots) (hrefers : found.2.declares = false)
    (hname : found.2.name = some name) :
    ∃ other ∈ ordered.instances, ∃ declared ∈ other.config.slots,
      declared.2.declares = true ∧ declared.2.name = some name ∧
        typesMatch declared.2.type found.2.type = true := by
  obtain ⟨valid, instances, _, hresolve, hordered⟩ := plan_eq_ok hplan
  have hperm := Ordered.instances_perm hordered
  obtain ⟨other, hother, hdeclared⟩ :=
    exists_declaration_of_resolve hresolve (hperm.mem_iff.mp hmem) hslot hrefers hname
  exact ⟨other, hperm.mem_iff.mpr hother, hdeclared⟩

/-- In a document whose slots are all at different locations, no name is declared by two
instances. -/
theorem declareApart_of_resolve (hregistered : generator.components.Registered)
    (hcustom : generator.components.EverySchema Schema.isCustomFree)
    (hflat : generator.components.EverySchema Schema.hasFlatDefaults)
    (hdocument : Document.ofJson json = .ok document)
    (hvalid : Validation.gather (candidates generator.components 0 document.kinds) = .ok valid)
    (h : resolve generator.initialNames valid = .ok (table, instances)) :
    Graph.DeclareApart instances := by
  obtain ⟨hproblems, _, _⟩ := resolve_eq_ok h
  have hlocations := nodup_locations hregistered hcustom hflat hdocument hvalid
  have hnodup := (resolved_resolveDeclarations hproblems).nodup_declarations_iff.mpr
    (((List.pairwise_map.mp hlocations).filter _).imp fun hne heq => absurd heq hne)
  have hnodes : (valid.map (·.config)).map (Node.mapSlots
      (generator.initialNames.resolveDeclarations (valid.map (·.config))).table.fillSlot) =
        instances.map (·.config) := (configs_of_resolve h).symm
  rw [hnodes, List.flatMap_map, List.nodup_flatMap] at hnodup
  exact hnodup.2

theorem declareApart_of_plan (hregistered : generator.components.Registered)
    (hcustom : generator.components.EverySchema Schema.isCustomFree)
    (hflat : generator.components.EverySchema Schema.hasFlatDefaults)
    (hdocument : Document.ofJson json = .ok document)
    (hplan : generator.plan document = .ok (names, ordered)) :
    Graph.DeclareApart ordered.instances := by
  obtain ⟨valid, instances, hvalid, hresolve, hordered⟩ := plan_eq_ok hplan
  have hapart :=
    declareApart_of_resolve hregistered hcustom hflat hdocument hvalid hresolve
  exact hapart.perm (Ordered.instances_perm hordered).symm

section Plain

variable {inst : Instance}
  (hplain : generator.components.EverySchema Schema.isPlain)
  (hdocument : Document.ofJson json = .ok document)
  (hplan : generator.plan document = .ok (names, ordered)) (hmem : inst ∈ ordered.instances)

include hplain hdocument hplan hmem

/-- Where all fields are plain, the slots of an instance are values of its fields. -/
theorem exists_entry_of_mem_slots (hregistered : generator.components.Registered)
    {found : Path × Slot} (hslot : found ∈ inst.config.slots) :
    ∃ key, inst.config.get? key = some (.identifier found.2) := by
  obtain ⟨candidate, _, _, _, component, _, _, _, hvalidates, _, _, rfl⟩ :=
    exists_candidate_of_plan hplan hmem
  have hraw := Node.isRaw_of_slots
    (Document.slots_of_ofJson hdocument hvalidates.listed hvalidates.among)
  exact Schema.exists_entry_of_mem_slots (hregistered.composed hvalidates.found).sound
    (hplain hvalidates.found) hraw hvalidates.valid hslot

/-- Where all fields are plain, the value of a field is a slot only if the schema says so,
of the sort and type it says. -/
theorem slotKind_of_get? {key : String} {slot : Slot}
    (hget : inst.config.get? key = some (.identifier slot)) :
    (key, slot.declares, slot.type) ∈ inst.declaration.schema.slotKinds := by
  obtain ⟨candidate, _, _, _, component, _, _, _, hvalidates, _, _, rfl⟩ :=
    exists_candidate_of_plan hplan hmem
  have hraw := Node.isRaw_of_slots
    (Document.slots_of_ofJson hdocument hvalidates.listed hvalidates.among)
  exact Schema.slotKind_of_get? (hplain hvalidates.found) hraw hvalidates.valid
    (fun path slot => ⟨declares_fillSlot names path slot, type_fillSlot names path slot⟩) hget

end Plain

end Generator

end Firmware
