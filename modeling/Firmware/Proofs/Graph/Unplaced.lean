import Firmware.Graph.Order
import Firmware.Proofs.Unplaced
import Firmware.Proofs.Value.Unplaced
/-!
Order without regard to locations.  Instances are ordered by their kinds, their variables and
the names that their configurations declare and refer to; where a configuration is only
decides where a problem is reported.
-/

namespace Firmware

def Instance.content (inst : Instance) : Instance := { inst with config := inst.config.content }

/-- Ordered instances with their configurations moved to the root of the document. -/
def Ordered.content (ordered : Ordered) : Ordered :=
  { ordered with instances := ordered.instances.map Instance.content }

/-- The first elements of classes are found before or after a change that keeps keys. -/
theorem firstByKey_map {α β κ : Type} [DecidableEq κ] (key : α → κ) {key' : β → κ} {change : α → β}
    (h : ∀ element, key' (change element) = key element) (seen : List κ) (list : List α) :
    firstByKey key' seen (list.map change) = (firstByKey key seen list).map change := by
  induction list generalizing seen with
  | nil => rfl
  | cons element rest ih =>
      rw [List.map_cons, firstByKey, firstByKey, h, ih, ih]
      split <;> rfl

namespace Graph

variable {graph : Graph}

theorem insertByIndex_map (inst : Instance) (instances : List Instance) :
    insertByIndex inst.content (instances.map Instance.content) =
      (insertByIndex inst instances).map Instance.content := by
  induction instances with
  | nil => rfl
  | cons other rest ih =>
      rw [List.map_cons, insertByIndex, insertByIndex, ih, apply_ite (List.map Instance.content)]
      rfl

theorem sortByIndex_map (instances : List Instance) :
    sortByIndex (instances.map Instance.content) =
      (sortByIndex instances).map Instance.content := by
  induction instances with
  | nil => rfl
  | cons inst rest ih =>
      rw [List.map_cons, sortByIndex, List.foldr_cons, sortByIndex, List.foldr_cons]
      exact (congrArg _ ih).trans (insertByIndex_map inst _)

theorem isConfigured_map (instances : List Instance) :
    isConfigured (instances.map Instance.content) = isConfigured instances := by
  funext kind
  exact List.any_map

theorem repetitions_map (seen : List String) (instances : List Instance) :
    repetitions seen (instances.map Instance.content) =
      (repetitions seen instances).map Problem.unplaced := by
  induction instances generalizing seen with
  | nil => rfl
  | cons inst rest ih =>
      rw [List.map_cons, repetitions, repetitions]
      simp only [ih]
      rw [apply_ite (List.map Problem.unplaced)]
      rfl

theorem conflicts_map (instances : List Instance) :
    conflicts (instances.map Instance.content) =
      (conflicts instances).map Problem.unplaced := by
  have hclashes : ((instances.map Instance.content).flatMap fun inst =>
        (inst.declaration.conflicts.filter
          (isConfigured (instances.map Instance.content))).map (inst, ·)) =
      (instances.flatMap fun inst =>
        (inst.declaration.conflicts.filter (isConfigured instances)).map (inst, ·)).map
          (Prod.map Instance.content id) := by
    rw [isConfigured_map, List.flatMap_map, List.map_flatMap]
    refine List.flatMap_congr fun inst _ => ?_
    rw [List.map_map]
    rfl
  simp only [conflicts]
  rw [hclashes, firstByKey_map (fun clash => unorderedPair clash.1.kind clash.2)
    (fun _ => rfl), List.map_map, List.map_map]
  rfl

theorem unsatisfied_map (instances : List Instance) :
    unsatisfied (instances.map Instance.content) =
      (unsatisfied instances).map Problem.unplaced := by
  have hgaps : ((instances.map Instance.content).flatMap fun inst =>
        (inst.declaration.dependencies.filter fun dependency =>
          dependency != inst.kind &&
            !isConfigured (instances.map Instance.content) dependency).map (inst, ·)) =
      (instances.flatMap fun inst =>
        (inst.declaration.dependencies.filter fun dependency =>
          dependency != inst.kind && !isConfigured instances dependency).map (inst, ·)).map
          (Prod.map Instance.content id) := by
    rw [isConfigured_map, List.flatMap_map, List.map_flatMap]
    refine List.flatMap_congr fun inst _ => ?_
    rw [List.map_map]
    rfl
  simp only [unsatisfied]
  rw [hgaps, firstByKey_map (fun gap => (gap.1.kind, gap.2)) (fun _ => rfl),
    List.map_map, List.map_map]
  rfl

theorem problems_map (instances : List Instance) :
    problems (instances.map Instance.content) = (problems instances).map Problem.unplaced := by
  rw [problems, repetitions_map, conflicts_map, unsatisfied_map, problems, List.map_append,
    List.map_append]

theorem provider?_map (instances : List Instance) :
    provider? (instances.map Instance.content) = provider? instances := by
  funext name
  have hholds : ∀ (test : Instance → Bool) (position : Nat),
      (instances.map Instance.content)[position]?.any test =
        instances[position]?.any fun inst => test inst.content := by
    intro test position
    rw [List.getElem?_map, Option.any_map]
  simp only [provider?, hholds, List.length_map]
  simp only [Instance.content, Node.declarations_content]

theorem predecessorsAt_map (instances : List Instance) (position : Nat) (inst : Instance) :
    predecessorsAt (instances.map Instance.content) position inst.content =
      predecessorsAt instances position inst := by
  simp only [predecessorsAt, provider?_map]
  rw [List.zipIdx_map, List.filterMap_map]
  simp only [Instance.content, Node.references_content]
  rfl

/-- The graph with the configurations of its instances moved to the root of the document. -/
def content (graph : Graph) : Graph :=
  { graph with instances := graph.instances.map Instance.content }

theorem ofInstances_map (instances : List Instance) :
    ofInstances (instances.map Instance.content) =
      Validation.bare content (ofInstances instances) := by
  simp only [ofInstances]
  rw [Validation.bare_settle, sortByIndex_map, problems_map]
  refine congrArg (Problem.settle _) (congrArg (Graph.mk _) (List.ext_getElem? fun position => ?_))
  rw [List.getElem?_mapIdx, List.getElem?_mapIdx, List.getElem?_map, Option.map_map]
  exact congrArg (Option.map · _) (funext fun inst => predecessorsAt_map _ position inst)

theorem before_content (graph : Graph) : graph.content.before = graph.before := rfl

theorem filterMap_getElem?_map (instances : List Instance) (positions : List Nat) :
    positions.filterMap ((instances.map Instance.content)[·]?) =
      (positions.filterMap (instances[·]?)).map Instance.content := by
  rw [List.map_filterMap]
  exact List.filterMap_congr fun position _ => List.getElem?_map

theorem cycleProblem_map (instances : List Instance) (cycle : List Nat) :
    cycleProblem (instances.map Instance.content) cycle =
      (cycleProblem instances cycle).unplaced := by
  rw [cycleProblem, cycleProblem, filterMap_getElem?_map]
  cases cycle.filterMap (instances[·]?) with
  | nil => rfl
  | cons first rest =>
      have hnames : ((first :: rest).map Instance.content ++ [first.content]).map (·.id.name) =
          ((first :: rest) ++ [first]).map (·.id.name) := by
        rw [List.map_append, List.map_append, List.map_map]
        rfl
      exact congrArg (fun names => Problem.mk .dependencyCycle (some .root) (" -> ".intercalate names))
        hnames

/-- Either graph has the same order, or a cycle through the same instances. -/
theorem order_content (graph : Graph) :
    graph.content.order = (graph.order.map Ordered.content).mapError Problem.unplaced := by
  have hlength : graph.content.instances.length = graph.instances.length := List.length_map _
  rw [order, order, hlength, before_content]
  obtain ⟨order, stuck⟩ := arrange graph.before (List.range graph.instances.length)
  cases stuck with
  | nil =>
      exact congrArg (fun instances => Except.ok (Ordered.mk instances _))
        (filterMap_getElem?_map graph.instances order)
  | cons first rest => exact congrArg Except.error (cycleProblem_map graph.instances _)

end Graph

/-- Instances are ordered alike with and without locations. -/
theorem Ordered.ofInstances_map (instances : List Instance) :
    ofInstances (instances.map Instance.content) =
      Validation.bare Ordered.content (ofInstances instances) := by
  rw [ofInstances, ofInstances, Graph.ofInstances_map]
  cases Graph.ofInstances instances with
  | error problems => rfl
  | ok graph =>
      simp only [Validation.bare]
      rw [Graph.order_content]
      cases graph.order <;> rfl

end Firmware
