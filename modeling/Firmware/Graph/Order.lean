import Firmware.Graph.Basic
/-!
The order in which instances are emitted.  An instance comes after those that come
before it in the graph; where that leaves a choice, the earliest instance of the
document comes first.  If there is no such order, a cycle is the reason.
-/

namespace Firmware

namespace Graph

/-- The earliest of some positions that waits for none of them. -/
def ready? (before : Nat → List Nat) (remaining : List Nat) : Option Nat :=
  remaining.find? fun position => (before position).all fun other => other ∉ remaining

/-- Taking out a position that is there leaves fewer. -/
theorem length_erase_lt {remaining : List Nat} {position : Nat}
    (member : position ∈ remaining) :
    (remaining.erase position).length < remaining.length := by
  have positive := List.length_pos_of_mem member
  rw [List.length_erase_of_mem member]
  omega

/-- Takes the earliest ready position again and again.  The second list holds the
positions that never become ready. -/
def arrange (before : Nat → List Nat) (remaining : List Nat) : List Nat × List Nat :=
  match found : ready? before remaining with
  | some position =>
      have : (remaining.erase position).length < remaining.length :=
        length_erase_lt (List.mem_of_find?_eq_some found)
      let (order, stuck) := arrange before (remaining.erase position)
      (position :: order, stuck)
  | none => ([], remaining)
termination_by remaining.length

/-- Walks backwards from a position until one repeats, and returns the part of the
walk from that one on. -/
def closedWalk (previous? : Nat → Option Nat) (unvisited walk : List Nat)
    (current : Nat) : List Nat :=
  match previous? current with
  | none => walk
  | some previous =>
      if previous ∈ walk then walk.dropWhile (· ≠ previous)
      else if fresh : previous ∈ unvisited then
        have : (unvisited.erase previous).length < unvisited.length :=
          length_erase_lt fresh
        closedWalk previous? (unvisited.erase previous) (walk ++ [previous]) previous
      else walk
termination_by unvisited.length

/-- A list turned round until its least element comes first. -/
def fromLeast (cycle : List Nat) : List Nat :=
  match cycle.min? with
  | some least => cycle.dropWhile (· ≠ least) ++ cycle.takeWhile (· ≠ least)
  | none => []

/-- A cycle among positions that never become ready, in the order of its edges and
from its least position on. -/
def cycle (before : Nat → List Nat) (stuck : List Nat) : List Nat :=
  match stuck with
  | [] => []
  | start :: others =>
      let previous? (position : Nat) : Option Nat := (before position).find? (· ∈ stuck)
      fromLeast (closedWalk previous? others [start] start).reverse

/-- The problem of a cycle, which is written closed on its first instance. -/
def cycleProblem (instances : List Instance) (cycle : List Nat) : Problem :=
  match cycle.filterMap (instances[·]?) with
  | [] => ⟨.dependencyCycle, none, ""⟩
  | first :: rest =>
      let names := ((first :: rest) ++ [first]).map (·.id.name)
      ⟨.dependencyCycle, some first.path, " -> ".intercalate names⟩

end Graph

/-- Instances in emission order, and for the position of each the positions of
those it depends on, in increasing order. -/
structure Ordered where
  instances : List Instance
  dependencies : List (List Nat)

namespace Ordered

/-- The positions that the instance at a position depends on. -/
def dependenciesOf (ordered : Ordered) (position : Nat) : List Nat :=
  (ordered.dependencies[position]?).getD []

/-- The positions in an order of those that come before its members. -/
def ranksOf (order : List Nat) (before : List Nat) : List Nat :=
  order.zipIdx.filterMap fun (position, rank) =>
    if position ∈ before then some rank else none

end Ordered

namespace Graph

/-- The instances in emission order, or the problem of a cycle. -/
def order (graph : Graph) : Except Problem Ordered :=
  match arrange graph.before (List.range graph.instances.length) with
  | (order, []) =>
      .ok ⟨order.filterMap (graph.instances[·]?),
        order.map fun position => Ordered.ranksOf order (graph.before position)⟩
  | (_, stuck) => .error (cycleProblem graph.instances (cycle graph.before stuck))

end Graph

def Ordered.ofInstances (instances : List Instance) : Except (List Problem) Ordered :=
  match Graph.ofInstances instances with
  | .error problems => .error problems
  | .ok graph => graph.order.mapError ([·])

end Firmware
