import Firmware.Proofs.Graph.Ranks
import Firmware.Proofs.Results
/-!
Edges between instances.  An instance comes after those of the kinds that its own
depends on, and after those that provide the names it refers to.  Where no name is
declared by two instances, the one that declares a name is the one that provides it.
-/

namespace Firmware

namespace Graph

variable {graph : Graph} {instances : List Instance} {inst : Instance} {position other : Nat}
  {name : String}

theorem insertByIndex_perm (inst : Instance) (instances : List Instance) :
    (insertByIndex inst instances).Perm (inst :: instances) := by
  induction instances with
  | nil => exact .refl _
  | cons other rest ih =>
      rw [insertByIndex]
      split
      · exact .refl _
      · exact (ih.cons other).trans (.swap inst other rest)

theorem sortByIndex_perm (instances : List Instance) :
    (sortByIndex instances).Perm instances := by
  induction instances with
  | nil => exact .refl _
  | cons inst rest ih => exact (insertByIndex_perm inst _).trans (ih.cons inst)

theorem ofInstances_eq_ok (h : ofInstances instances = .ok graph) :
    graph.instances = sortByIndex instances ∧
      graph.predecessors = graph.instances.mapIdx (predecessorsAt graph.instances) := by
  obtain ⟨_, rfl⟩ := Problem.settle_eq_ok_iff.mp h
  exact ⟨rfl, rfl⟩

theorem mem_predecessorsAt :
    other ∈ predecessorsAt instances position inst ↔
      other ≠ position ∧ ∃ found, instances[other]? = some found ∧
        (dependsOnKind inst found.kind = true ∨
          ∃ name ∈ inst.config.references, provider? instances name = some other) := by
  simp only [predecessorsAt, List.mem_filterMap, Prod.exists, List.mem_zipIdx_iff_getElem?,
    Option.ite_none_right_eq_some, Option.some.injEq]
  constructor
  · rintro ⟨found, _, hfound, ⟨hne, hcase⟩, rfl⟩
    exact ⟨hne, found, hfound, hcase⟩
  · rintro ⟨hne, found, hfound, hcase⟩
    exact ⟨found, other, hfound, ⟨hne, hcase⟩, rfl⟩

theorem before_eq (h : ofInstances instances = .ok graph)
    (hpresent : graph.instances[position]? = some inst) :
    graph.before position = predecessorsAt graph.instances position inst := by
  rw [before, (ofInstances_eq_ok h).2, List.getElem?_mapIdx, hpresent]
  rfl

/-- No name is declared by two of the instances. -/
def DeclareApart (instances : List Instance) : Prop :=
  instances.Pairwise fun left right => left.config.declarations.Disjoint right.config.declarations

theorem DeclareApart.perm {others : List Instance} (h : DeclareApart instances)
    (hperm : instances.Perm others) : DeclareApart others :=
  (hperm.pairwise_iff fun hdisjoint => List.disjoint_symm hdisjoint).mp h

theorem DeclareApart.eq {found : Instance} (h : DeclareApart instances)
    (hpresent : instances[position]? = some inst) (hother : instances[other]? = some found)
    (hname : name ∈ inst.config.declarations) (hfound : name ∈ found.config.declarations) :
    position = other := by
  obtain ⟨hbound, rfl⟩ := List.getElem?_eq_some_iff.mp hpresent
  obtain ⟨hbound', rfl⟩ := List.getElem?_eq_some_iff.mp hother
  have hdisjoint := List.pairwise_iff_getElem.mp h
  rcases Nat.lt_trichotomy position other with hlt | heq | hgt
  · exact absurd hfound (hdisjoint position other hbound hbound' hlt hname)
  · exact heq
  · exact absurd hname (hdisjoint other position hbound' hbound hgt hfound)

theorem DeclareApart.nodup_names (h : DeclareApart instances)
    (hnamed : ∀ inst ∈ instances, inst.id.name ∈ inst.config.declarations) :
    (instances.map (·.id.name)).Nodup := by
  refine List.pairwise_map.mpr (h.imp_of_mem fun {a b} ha hb hdisjoint hname => ?_)
  exact hdisjoint (hnamed a ha) (hname ▸ hnamed b hb)

theorem provider?_eq_some (hapart : DeclareApart instances)
    (hnamed : ∀ inst ∈ instances, inst.id.name ∈ inst.config.declarations)
    (hpresent : instances[position]? = some inst) (hname : name ∈ inst.config.declarations) :
    provider? instances name = some position := by
  have hunique : ∀ {other : Nat} {found : Instance}, instances[other]? = some found →
      name ∈ found.config.declarations → other = position := fun hother hfound =>
    hapart.eq hother hpresent hfound hname
  unfold provider?
  simp only
  split
  · next other hlast =>
      have htest := List.find?_some hlast
      simp only [Option.any_eq_true, beq_iff_eq] at htest
      obtain ⟨found, hfound, hid⟩ := htest
      have hdeclared := hnamed found (List.mem_of_getElem? hfound)
      rw [hunique hfound (hid ▸ hdeclared)]
  · have hsome : ((List.range instances.length).find? fun other =>
        instances[other]?.any (·.config.declarations.contains name)).isSome = true := by
      rw [List.find?_isSome]
      refine ⟨position, List.mem_range.mpr (List.getElem?_eq_some_iff.mp hpresent).1, ?_⟩
      simpa [hpresent] using hname
    obtain ⟨other, hother⟩ := Option.isSome_iff_exists.mp hsome
    have htest := List.find?_some hother
    simp only [Option.any_eq_true, List.contains_iff_mem] at htest
    obtain ⟨found, hfound, hdeclared⟩ := htest
    rw [hother, hunique hfound hdeclared]

/-- An instance comes after those of the kinds that its own depends on, and after those
that declare a name it refers to. -/
theorem mem_before {a b : Instance} {source target : Nat} (h : ofInstances instances = .ok graph)
    (hapart : DeclareApart graph.instances)
    (hnamed : ∀ inst ∈ graph.instances, inst.id.name ∈ inst.config.declarations)
    (hsource : graph.instances[source]? = some a) (htarget : graph.instances[target]? = some b)
    (hne : source ≠ target)
    (hedge : dependsOnKind b a.kind = true ∨
      ∃ name ∈ b.config.references, name ∈ a.config.declarations) :
    source ∈ graph.before target := by
  rw [before_eq h htarget, mem_predecessorsAt]
  refine ⟨hne, a, hsource, hedge.imp_right ?_⟩
  rintro ⟨name, href, hdeclared⟩
  exact ⟨name, href, provider?_eq_some hapart hnamed hsource hdeclared⟩

end Graph

namespace Ordered

variable {instances : List Instance} {ordered : Ordered} {rank later : Nat} {a b : Instance}

theorem ofInstances_eq_ok (h : ofInstances instances = .ok ordered) :
    ∃ graph order, Graph.ofInstances instances = .ok graph ∧ graph.Orders order ∧
      ordered = graph.along order := by
  unfold ofInstances at h
  split at h
  · simp at h
  · next graph hgraph =>
      obtain ⟨order, horders, rfl⟩ := Graph.order_eq_ok (Except.mapError_eq_ok_iff.mp h)
      exact ⟨graph, order, hgraph, horders, rfl⟩

/-- Ordering changes no instance and leaves none out. -/
theorem instances_perm (h : ofInstances instances = .ok ordered) :
    ordered.instances.Perm instances := by
  obtain ⟨graph, order, hgraph, horders, rfl⟩ := ofInstances_eq_ok h
  have hperm := horders.instances_perm
  rw [(Graph.ofInstances_eq_ok hgraph).1] at hperm
  exact hperm.trans (Graph.sortByIndex_perm instances)

/-- Every instance depends on earlier ones only. -/
theorem lt_of_mem_dependenciesOf (h : ofInstances instances = .ok ordered)
    (hmem : rank ∈ ordered.dependenciesOf later) : rank < later := by
  obtain ⟨graph, order, _, horders, rfl⟩ := ofInstances_eq_ok h
  exact horders.lt_of_mem_dependenciesOf hmem

theorem mem_dependenciesOf (h : ofInstances instances = .ok ordered)
    (hapart : Graph.DeclareApart ordered.instances)
    (hnamed : ∀ inst ∈ ordered.instances, inst.id.name ∈ inst.config.declarations)
    (hfirst : ordered.instances[rank]? = some a) (hsecond : ordered.instances[later]? = some b)
    (hne : rank ≠ later)
    (hedge : Graph.dependsOnKind b a.kind = true ∨
      ∃ name ∈ b.config.references, name ∈ a.config.declarations) :
    rank ∈ ordered.dependenciesOf later := by
  obtain ⟨graph, order, hgraph, horders, rfl⟩ := ofInstances_eq_ok h
  obtain ⟨source, hsource, ha⟩ := horders.exists_position hfirst
  obtain ⟨target, htarget, hb⟩ := horders.exists_position hsecond
  refine Graph.mem_dependenciesOf_along.mpr ⟨target, source, htarget, hsource, ?_⟩
  have hperm := horders.instances_perm
  apply Graph.mem_before hgraph (hapart.perm hperm) ?_ ha hb ?_ hedge
  · exact fun inst hinst => hnamed inst (hperm.mem_iff.mpr hinst)
  · rintro rfl
    exact hne ((horders.idxOf_eq hsource).symm.trans (horders.idxOf_eq htarget))

end Ordered

end Firmware
