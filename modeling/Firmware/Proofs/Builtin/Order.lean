import Firmware.Proofs.Builtin.Registry
/-!
The order of the hub and the sensors.  Every sensor comes after the hub and after nothing
else, so the hub is emitted first, wherever the document lists it, and the sensors follow
in document order.
-/

namespace Firmware

namespace Builtin

variable {generator : Generator} {json : Json} {document : Document} {names : NameTable}
  {ordered : Ordered} {graph : Graph} {inst : Instance}

def hasHubKind (inst : Instance) : Bool := inst.kind == hubKind

theorem kind_of_isHub (h : IsHub inst) : inst.kind = hubKind :=
  congrArg Declaration.kind h.declaration

theorem kind_of_isSensor (h : IsSensor inst) : inst.kind = sensorKind :=
  congrArg Declaration.kind h.declaration

theorem hasHubKind_of_isHub (h : IsHub inst) : hasHubKind inst = true := by
  rw [hasHubKind, kind_of_isHub h, beq_self_eq_true]

theorem hasHubKind_of_isSensor (h : IsSensor inst) : hasHubKind inst = false := by
  rw [hasHubKind, kind_of_isSensor h]
  rfl

theorem isHub_of_hasHubKind (h : IsHub inst ∨ IsSensor inst) (hkind : hasHubKind inst = true) :
    IsHub inst :=
  h.resolve_right fun hsensor => by simp [hasHubKind_of_isSensor hsensor] at hkind

theorem isSensor_of_hasHubKind (h : IsHub inst ∨ IsSensor inst) (hkind : hasHubKind inst = false) :
    IsSensor inst :=
  h.resolve_left fun hhub => by simp [hasHubKind_of_isHub hhub] at hkind

theorem hubs_ne_nil {instances : List Instance} (h : Graph.unsatisfied instances = [])
    (hmem : inst ∈ instances) (hsensor : IsSensor inst) : instances.filter hasHubKind ≠ [] := by
  have hdependency : hubKind ∈ inst.declaration.dependencies := by
    rw [hsensor.declaration]
    exact List.mem_singleton.mpr rfl
  have hconfigured := Graph.isConfigured_of_unsatisfied h hmem hdependency
    (by rw [kind_of_isSensor hsensor]; decide)
  obtain ⟨hub, hhub, hkind⟩ := List.any_eq_true.mp hconfigured
  exact List.ne_nil_of_mem (List.mem_filter.mpr ⟨hhub, hkind⟩)

section Kinds

variable {instances : List Instance} (hcases : ∀ inst ∈ instances, IsHub inst ∨ IsSensor inst)

include hcases

theorem filter_not_hasHubKind :
    instances.filter (fun inst => !hasHubKind inst) =
      instances.filter (·.kind == sensorKind) := by
  refine List.filter_congr fun inst hmem => ?_
  rcases hcases inst hmem with hhub | hsensor
  · rw [hasHubKind_of_isHub hhub, kind_of_isHub hhub]
    rfl
  · rw [hasHubKind_of_isSensor hsensor, kind_of_isSensor hsensor]
    rfl

theorem length_hubs_le_one (h : Graph.repetitions [] instances = []) :
    (instances.filter hasHubKind).length ≤ 1 := by
  have hsingle : ∀ inst ∈ instances, inst.kind = hubKind →
      inst.declaration.isMulti = false := by
    intro inst hmem hkind
    have hhub := isHub_of_hasHubKind (hcases inst hmem) (by simp [hasHubKind, hkind])
    rw [hhub.declaration]
    rfl
  exact (Graph.length_of_repetitions h hsingle).1

end Kinds

/-- Instances in the order of emission: the hub, which is there if any instance is, and the
sensors as the document lists them. -/
structure Arranged (document : Document) (hubs sensors : List Instance) : Prop where
  hub : ∀ inst ∈ hubs, IsHub inst
  sensor : ∀ inst ∈ sensors, IsSensor inst
  single : hubs.length ≤ 1
  present : sensors ≠ [] → hubs ≠ []
  hubPaths : hubs.map (·.path) = (document.instances hubKind).map (·.path)
  sensorPaths : sensors.map (·.path) = (document.instances sensorKind).map (·.path)

section Plan

variable (hcomponents : generator.components = registry)
  (hdocument : Document.ofJson json = .ok document)
  (hplan : generator.plan document = .ok (names, ordered))

include hcomponents hdocument hplan

/-- No name is declared by two of the planned instances. -/
theorem declareApart : Graph.DeclareApart ordered.instances :=
  Generator.declareApart_of_plan (hcomponents ▸ registered_registry)
    (hcomponents ▸ everySchema_registry rfl rfl) (hcomponents ▸ everySchema_registry rfl rfl)
    hdocument hplan

/-- The planned instances have different variables. -/
theorem nodup_names : (ordered.instances.map (·.id.name)).Nodup :=
  (declareApart hcomponents hdocument hplan).nodup_names
    (Generator.name_mem_declarations (hcomponents ▸ registered_registry) hplan)

/-- What provides a variable that an instance of the plan refers to is the hub. -/
theorem isHub_of_provides {instances : List Instance} {other : Nat} {a b : Instance}
    {name : String} (hperm : ordered.instances.Perm instances) (ha : a ∈ instances)
    (hb : instances[other]? = some b) (hname : name ∈ a.config.references)
    (hprovides : Graph.provider? instances name = some other) : IsHub b := by
  have hapart := (declareApart hcomponents hdocument hplan).perm hperm
  have hnamed : ∀ inst ∈ instances, inst.id.name ∈ inst.config.declarations := fun inst hinst =>
    Generator.name_mem_declarations (hcomponents ▸ registered_registry) hplan inst
      (hperm.mem_iff.mpr hinst)
  obtain ⟨hub, hhub, hisHub, rfl⟩ :=
    exists_isHub_of_reference hcomponents hdocument hplan (hperm.mem_iff.mpr ha) hname
  have hpresent := hperm.mem_iff.mp hhub
  obtain ⟨position, hposition⟩ := List.mem_iff_getElem?.mp hpresent
  have hprovider := Graph.provider?_eq_some hapart hnamed hposition (hnamed hub hpresent)
  obtain rfl := Option.some.inj (hprovides.symm.trans hprovider)
  obtain rfl := Option.some.inj (hb.symm.trans hposition)
  exact hisHub

/-- In the graph of a plan, the hub comes before the sensors, and there are no other
edges. -/
theorem mem_before_iff {position other : Nat} {a b : Instance}
    (hgraph : Graph.ofInstances graph.instances = .ok graph) (horder : graph.order = .ok ordered)
    (ha : graph.instances[position]? = some a) (hb : graph.instances[other]? = some b) :
    other ∈ graph.before position ↔ hasHubKind b = true ∧ hasHubKind a = false := by
  have hperm : ordered.instances.Perm graph.instances := by
    obtain ⟨order, horders, rfl⟩ := Graph.order_eq_ok horder
    exact horders.instances_perm
  have hpresent := List.mem_of_getElem? ha
  have hmem := hperm.mem_iff.mpr hpresent
  rw [Graph.before_eq hgraph ha, Graph.mem_predecessorsAt]
  constructor
  · rintro ⟨hne, found, hfound, hedge⟩
    obtain rfl := Option.some.inj (hb.symm.trans hfound)
    rcases isHub_or_isSensor hcomponents hplan hmem with hhub | hsensor
    · rcases hedge with hkind | ⟨name, hname, _⟩
      · simp [Graph.dependsOnKind, hhub.declaration, hubComponent, Declaration.ofSchema] at hkind
      · simp [references_of_isHub hcomponents hdocument hplan hmem hhub] at hname
    · refine ⟨?_, hasHubKind_of_isSensor hsensor⟩
      rcases hedge with hkind | ⟨name, hname, hprovides⟩
      · have hdependencies : a.declaration.dependencies = [hubKind] := by
          rw [hsensor.declaration]
          rfl
        simp only [Graph.dependsOnKind, hdependencies, Bool.and_eq_true, List.contains_iff_mem,
          List.mem_singleton] at hkind
        rw [hasHubKind, hkind.2, beq_self_eq_true]
      · exact hasHubKind_of_isHub
          (isHub_of_provides hcomponents hdocument hplan hperm hpresent hb hname hprovides)
  · rintro ⟨hhub, hother⟩
    refine ⟨?_, b, hb, .inl ?_⟩
    · rintro rfl
      obtain rfl := Option.some.inj (ha.symm.trans hb)
      simp [hhub] at hother
    · have hsensor := isSensor_of_hasHubKind (isHub_or_isSensor hcomponents hplan hmem) hother
      have hkind : b.kind = hubKind := by simpa [hasHubKind] using hhub
      rw [Graph.dependsOnKind, hkind, kind_of_isSensor hsensor, hsensor.declaration]
      rfl

/-- The hub is emitted first, and then the sensors in document order. -/
theorem exists_arranged :
    ∃ hubs sensors, ordered.instances = hubs ++ sensors ∧ Arranged document hubs sensors := by
  obtain ⟨graph, hgraph, horder, hpaths⟩ := Generator.exists_graph_of_plan
    (hcomponents ▸ registered_registry) (Document.nodup_kinds_of_ofJson hdocument) hplan
  have hlayers := Graph.order_eq_layers hasHubKind
    (fun ha hb => mem_before_iff hcomponents hdocument hplan hgraph horder ha hb) horder
  have hmem : ∀ {inst}, inst ∈ graph.instances → inst ∈ ordered.instances := by
    obtain ⟨order, horders, rfl⟩ := Graph.order_eq_ok horder
    exact horders.instances_perm.mem_iff.mpr
  have hcases : ∀ inst ∈ graph.instances, IsHub inst ∨ IsSensor inst := fun inst hinst =>
    isHub_or_isSensor hcomponents hplan (hmem hinst)
  have hproblems : Graph.problems graph.instances = [] := by
    have hsettled := (Problem.settle_eq_ok_iff.mp hgraph).1
    rwa [← (Graph.ofInstances_eq_ok hgraph).1] at hsettled
  obtain ⟨hfirst, hunsatisfied⟩ := List.append_eq_nil_iff.mp hproblems
  have hhubs : ∀ inst ∈ graph.instances.filter hasHubKind, IsHub inst := by
    intro inst hinst
    obtain ⟨hpresent, hkind⟩ := List.mem_filter.mp hinst
    exact isHub_of_hasHubKind (hcases inst hpresent) hkind
  have hsensors : ∀ inst ∈ graph.instances.filter (fun inst => !hasHubKind inst),
      inst ∈ graph.instances ∧ IsSensor inst := by
    intro inst hinst
    obtain ⟨hpresent, hkind⟩ := List.mem_filter.mp hinst
    exact ⟨hpresent, isSensor_of_hasHubKind (hcases inst hpresent) (by simpa using hkind)⟩
  refine ⟨_, _, hlayers, ?_⟩
  exact
    { hub := hhubs
      sensor := fun inst hinst => (hsensors inst hinst).2
      single := length_hubs_le_one hcases (List.append_eq_nil_iff.mp hfirst).1
      present := fun hpresent =>
        have ⟨inst, hinst⟩ := List.exists_mem_of_ne_nil _ hpresent
        have ⟨hlisted, hsensor⟩ := hsensors inst hinst
        hubs_ne_nil hunsatisfied hlisted hsensor
      hubPaths := hpaths hubKind
      sensorPaths := filter_not_hasHubKind hcases ▸ hpaths sensorKind }

end Plan

end Builtin

end Firmware
