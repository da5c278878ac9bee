import Firmware.Proofs.Graph.Providers
/-!
Both ends of edges.  What is entered as coming after one position is entered as coming before
the other, so that the two never drift apart, and what is entered is exactly what the kinds and
the references of instances ask for.  The positions before each that a graph is ordered by are
the same.
-/

namespace Firmware

section Positions

variable {position other : Nat} {positions : List Nat}

theorem mem_insertPosition :
    other ∈ insertPosition position positions ↔ other = position ∨ other ∈ positions := by
  induction positions with
  | nil => simp [insertPosition]
  | cons first rest ih =>
      rw [insertPosition]
      split
      · exact List.mem_cons
      · split
        · next heq => simp [heq]
        · simp only [List.mem_cons, ih, or_left_comm]

theorem pairwise_insertPosition (position : Nat) (h : positions.Pairwise (· < ·)) :
    (insertPosition position positions).Pairwise (· < ·) := by
  induction positions with
  | nil => exact List.pairwise_singleton _ _
  | cons first rest ih =>
      obtain ⟨hfirst, hrest⟩ := List.pairwise_cons.mp h
      rw [insertPosition]
      split
      · next hlt =>
          refine List.pairwise_cons.mpr ⟨fun later hlater => ?_, h⟩
          rcases List.mem_cons.mp hlater with rfl | hafter
          · exact hlt
          · exact Nat.lt_trans hlt (hfirst later hafter)
      · next hge =>
          split
          · exact h
          · next hne =>
              refine List.pairwise_cons.mpr ⟨fun later hlater => ?_, ih hrest⟩
              rcases mem_insertPosition.mp hlater with rfl | hafter
              · omega
              · exact hfirst later hafter

/-- Increasing lists of the same positions are the same. -/
theorem eq_of_pairwise_of_mem_iff {left right : List Nat} (hleft : left.Pairwise (· < ·))
    (hright : right.Pairwise (· < ·)) (hmem : ∀ position, position ∈ left ↔ position ∈ right) :
    left = right := by
  have hperm := (List.perm_ext_iff_of_nodup hleft.nodup hright.nodup).mpr hmem
  exact hperm.eq_of_pairwise (fun a b _ _ hab hba => absurd hab (Nat.lt_asymm hba)) hleft hright

end Positions

namespace Links

variable {links : Links} {count source target position : Nat} {entered more : List (Nat × Nat)}
  {instances : List Instance} {inst : Instance} {kind : String}

/-- Links that keep the edges that were entered, at both ends and in increasing order. -/
structure Keeps (links : Links) (count : Nat) (entered : List (Nat × Nat)) : Prop where
  successors : links.successors.length = count
  predecessors : links.predecessors.length = count
  ascending : ∀ position, (links.after position).Pairwise (· < ·) ∧
    (links.before position).Pairwise (· < ·)
  mem_after : ∀ {source target}, target ∈ links.after source ↔
    source ≠ target ∧ (source, target) ∈ entered
  mem_before : ∀ {source target}, source ∈ links.before target ↔
    source ≠ target ∧ (source, target) ∈ entered

theorem keeps_empty (count : Nat) : (empty count).Keeps count [] := by
  have hnone : ∀ position : Nat,
      ((List.replicate count ([] : List Nat))[position]?).getD [] = [] := by
    intro position
    rw [List.getElem?_replicate]
    split <;> rfl
  refine ⟨List.length_replicate, List.length_replicate, fun position => ?_, ?_, ?_⟩
  · rw [after, before, empty, hnone]
    exact ⟨.nil, .nil⟩
  · simp [after, empty, hnone]
  · simp [before, empty, hnone]

/-- A position that is entered for another is kept there, and nothing else changes. -/
theorem mem_getD_modify {lists : List (List Nat)} {other : Nat} (hbound : source < lists.length) :
    other ∈ ((lists.modify source (insertPosition target))[position]?).getD [] ↔
      position = source ∧ other = target ∨ other ∈ (lists[position]?).getD [] := by
  rw [List.getElem?_modify]
  by_cases heq : source = position
  · subst heq
    simp [hbound, mem_insertPosition]
  · simp [heq, Ne.symm heq]

theorem pairwise_getD_modify {lists : List (List Nat)} (source target : Nat)
    (h : ((lists[position]?).getD []).Pairwise (· < ·)) :
    (((lists.modify source (insertPosition target))[position]?).getD []).Pairwise (· < ·) := by
  rw [List.getElem?_modify]
  cases hlist : lists[position]? with
  | none => simp
  | some list =>
      rw [hlist, Option.getD_some] at h
      simp only [Option.map_eq_map, Option.map_some, Option.getD_some]
      split
      · exact pairwise_insertPosition target h
      · exact h

theorem Keeps.add (h : links.Keeps count entered) (hsource : source < count)
    (htarget : target < count) :
    (links.add source target).Keeps count (entered ++ [(source, target)]) := by
  unfold Links.add
  split
  · next heq =>
      have hloop : ∀ {a b}, a ≠ b →
          ((a, b) ∈ entered ++ [(source, target)] ↔ (a, b) ∈ entered) := by
        intro a b hne
        simp only [List.mem_append, List.mem_singleton, Prod.mk.injEq, or_iff_left_iff_imp]
        rintro ⟨rfl, rfl⟩
        exact absurd heq hne
      exact ⟨h.successors, h.predecessors, h.ascending,
        h.mem_after.trans (and_congr_right fun hne => (hloop hne).symm),
        h.mem_before.trans (and_congr_right fun hne => (hloop hne).symm)⟩
  · next hne =>
      have hentered : ∀ {a b}, (a, b) ∈ entered ++ [(source, target)] ↔
          a = source ∧ b = target ∨ (a, b) ∈ entered := by
        simp [or_comm]
      have hboth : ∀ {a b}, (a = source ∧ b = target ∨ a ≠ b ∧ (a, b) ∈ entered) ↔
          a ≠ b ∧ (a, b) ∈ entered ++ [(source, target)] := by
        intro a b
        rw [hentered, and_or_left, or_congr_left]
        exact ⟨fun h => ⟨h.1 ▸ h.2 ▸ hne, h⟩, And.right⟩
      refine ⟨(List.length_modify ..).trans h.successors,
        (List.length_modify ..).trans h.predecessors, fun position =>
        ⟨pairwise_getD_modify source target (h.ascending position).1,
          pairwise_getD_modify target source (h.ascending position).2⟩, ?_, ?_⟩
      · intro a b
        rw [← hboth, ← h.mem_after]
        exact mem_getD_modify (h.successors ▸ hsource)
      · intro a b
        rw [← hboth, ← h.mem_before, and_comm]
        exact mem_getD_modify (h.predecessors ▸ htarget)

theorem Keeps.foldl (h : links.Keeps count entered)
    (hbound : ∀ edge ∈ more, edge.1 < count ∧ edge.2 < count) :
    (more.foldl (fun links edge => links.add edge.1 edge.2) links).Keeps count
      (entered ++ more) := by
  induction more generalizing links entered with
  | nil => simpa using h
  | cons edge rest ih =>
      obtain ⟨hsource, htarget⟩ := hbound edge List.mem_cons_self
      have hassoc : entered ++ edge :: rest = entered ++ [edge] ++ rest := by simp
      rw [List.foldl_cons, hassoc]
      exact ih (h.add hsource htarget) fun edge hmem => hbound edge (.tail _ hmem)

theorem mem_kinds :
    position ∈ (Table.get? (kinds instances) kind).getD [] ↔
      ∃ inst, instances[position]? = some inst ∧ inst.kind = kind := by
  have hfold : ∀ (entries : List (Instance × Nat)) (table : Table String (List Nat)),
      (Table.get? (entries.foldl (fun table entry =>
        Table.insert table entry.1.kind
          ((Table.get? table entry.1.kind).getD [] ++ [entry.2])) table) kind).getD [] =
        (Table.get? table kind).getD [] ++ (entries.filter (·.1.kind = kind)).map (·.2) := by
    intro entries
    induction entries with
    | nil => simp
    | cons entry rest ih =>
        intro table
        rw [List.foldl_cons, ih, List.filter_cons]
        by_cases hkind : entry.1.kind = kind
        · simp [hkind]
        · simp [hkind, Table.get?_insert_of_ne]
  rw [kinds, hfold]
  simp only [Table.get?_nil, Option.getD_none, List.nil_append, List.mem_map, List.mem_filter,
    decide_eq_true_eq, Prod.exists, List.mem_zipIdx_iff_getElem?, exists_eq_right]

end Links

namespace Graph

variable {graph : Graph} {instances : List Instance} {inst : Instance} {source target : Nat}

/-- Whether the instance at one position has to come before that at another: the other one
depends on its kind, which is not its own, or refers to a name that it provides. -/
def Precedes (instances : List Instance) (source target : Nat) : Prop :=
  source ≠ target ∧ ∃ a b, instances[source]? = some a ∧ instances[target]? = some b ∧
    (a.kind ≠ b.kind ∧ a.kind ∈ b.declaration.dependencies ∨
      ∃ name, b.config.RefersTo name ∧ Provides instances name source)

theorem Provides.exists_getElem? {name : String} (h : Provides instances name source) :
    ∃ inst, instances[source]? = some inst := by
  rcases h with ⟨inst, hlast⟩ | ⟨_, inst, hfirst⟩
  · exact ⟨inst, hlast.present⟩
  · exact ⟨inst, hfirst.present⟩

theorem mem_sources : source ∈ Links.sources instances inst ↔
    ∃ a, instances[source]? = some a ∧
      (a.kind ≠ inst.kind ∧ a.kind ∈ inst.declaration.dependencies ∨
        ∃ name, inst.config.RefersTo name ∧ Provides instances name source) := by
  simp only [Links.sources, List.mem_append, List.mem_flatMap, List.mem_filter, bne_iff_ne,
    Links.mem_kinds, List.mem_filterMap, Node.mem_references_iff_refersTo, get?_names_eq_some_iff]
  constructor
  · rintro (⟨_, ⟨hdependency, hne⟩, a, hpresent, rfl⟩ | hprovided)
    · exact ⟨a, hpresent, .inl ⟨hne, hdependency⟩⟩
    · obtain ⟨a, hpresent⟩ : ∃ a, instances[source]? = some a := by
        obtain ⟨_, _, hprovides⟩ := hprovided
        exact hprovides.exists_getElem?
      exact ⟨a, hpresent, .inr hprovided⟩
  · rintro ⟨a, hpresent, ⟨hne, hdependency⟩ | hprovided⟩
    · exact .inl ⟨a.kind, ⟨hdependency, hne⟩, a, hpresent, rfl⟩
    · exact .inr hprovided

theorem mem_edges : (source, target) ∈ Links.edges instances ↔
    ∃ inst, instances[target]? = some inst ∧ source ∈ Links.sources instances inst := by
  simp [Links.edges, List.mem_zipIdx_iff_getElem?]

theorem precedes_iff : Precedes instances source target ↔
    source ≠ target ∧ (source, target) ∈ Links.edges instances := by
  simp only [Precedes, mem_edges, mem_sources]
  grind

/-- The edges between instances are kept at both of their ends. -/
theorem keeps_ofInstances (instances : List Instance) :
    (Links.ofInstances instances).Keeps instances.length (Links.edges instances) := by
  have hbound : ∀ edge ∈ Links.edges instances,
      edge.1 < instances.length ∧ edge.2 < instances.length := by
    rintro ⟨source, target⟩ hmem
    obtain ⟨inst, htarget, hsource⟩ := mem_edges.mp hmem
    obtain ⟨a, hpresent, _⟩ := mem_sources.mp hsource
    exact ⟨(List.getElem?_eq_some_iff.mp hpresent).1, (List.getElem?_eq_some_iff.mp htarget).1⟩
  exact (Links.keeps_empty instances.length).foldl hbound

theorem mem_after_iff : target ∈ (Links.ofInstances instances).after source ↔
    Precedes instances source target := by
  rw [precedes_iff]
  exact (keeps_ofInstances instances).mem_after

theorem mem_before_iff : source ∈ (Links.ofInstances instances).before target ↔
    Precedes instances source target := by
  rw [precedes_iff]
  exact (keeps_ofInstances instances).mem_before

/-- What has to come before an instance is found in the document. -/
theorem mem_predecessorsAt_iff_precedes (hpresent : instances[target]? = some inst) :
    source ∈ predecessorsAt instances target inst ↔ Precedes instances source target := by
  simp only [mem_predecessorsAt, Precedes, hpresent, dependsOnKind, provider?_eq_some_iff,
    Node.mem_references_iff_refersTo, Bool.and_eq_true, bne_iff_ne, List.contains_iff_mem]
  grind

theorem pairwise_predecessorsAt (instances : List Instance) (position : Nat) (inst : Instance) :
    (predecessorsAt instances position inst).Pairwise (· < ·) := by
  rw [predecessorsAt, List.pairwise_filterMap]
  refine (pairwise_lt_zipIdx instances).imp fun {a b} hlt first hfirst second hsecond => ?_
  obtain ⟨_, ⟨⟩⟩ := Option.ite_none_right_eq_some.mp hfirst
  obtain ⟨_, ⟨⟩⟩ := Option.ite_none_right_eq_some.mp hsecond
  exact hlt

/-- A graph holds the same predecessors as the edges entered one at a time. -/
theorem predecessors_eq (h : ofInstances instances = .ok graph) :
    graph.predecessors = (Links.ofInstances graph.instances).predecessors := by
  have hkeeps := keeps_ofInstances graph.instances
  rw [(ofInstances_eq_ok h).2]
  refine List.ext_getElem (by rw [List.length_mapIdx, hkeeps.predecessors]) ?_
  intro position hbound hbound'
  have hpresent := List.getElem?_eq_getElem (List.length_mapIdx ▸ hbound)
  have hbefore : (Links.ofInstances graph.instances).before position =
      (Links.ofInstances graph.instances).predecessors[position] := by
    simp [Links.before, hbound']
  rw [List.getElem_mapIdx, ← hbefore]
  refine eq_of_pairwise_of_mem_iff (pairwise_predecessorsAt ..) (hkeeps.ascending position).2 ?_
  exact fun source => (mem_predecessorsAt_iff_precedes hpresent).trans mem_before_iff.symm

theorem hasEdge_iff_precedes (h : ofInstances instances = .ok graph) :
    graph.hasEdge source target = true ↔ Precedes graph.instances source target := by
  rw [hasEdge, List.contains_iff_mem, ← mem_before_iff, Links.before, ← predecessors_eq h, before]

end Graph

end Firmware
