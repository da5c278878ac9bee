import Firmware.Graph.Basic
/-!
Edges entered one at a time.  The kinds and the names of instances are listed in tables, what
comes before an instance is looked up in them, and each edge is kept at both of its ends.
-/

namespace Firmware

/-- Puts a position into an increasing list of positions, unless it is there. -/
def insertPosition (position : Nat) : List Nat → List Nat
  | [] => [position]
  | other :: rest =>
      if position < other then position :: other :: rest
      else if position = other then other :: rest
      else other :: insertPosition position rest

/-- For each position the positions that come after it, and those that come before it, in
increasing order. -/
structure Links where
  successors : List (List Nat)
  predecessors : List (List Nat)

namespace Links

/-- The positions of the instances of each kind. -/
def kinds (instances : List Instance) : Table String (List Nat) :=
  instances.zipIdx.foldl (fun table entry =>
    Table.insert table entry.1.kind
      ((Table.get? table entry.1.kind).getD [] ++ [entry.2])) []

/-- The position that each name leads to.  Of several instances with one name the last counts,
and of several that declare a name inside the first, if no instance has it. -/
def names (instances : List Instance) : Table String Nat :=
  let declared := instances.zipIdx.flatMap fun (inst, position) =>
    inst.config.declarations.map (·, position)
  declared.foldl (fun table entry =>
      if Table.contains table entry.1 then table else Table.insert table entry.1 entry.2)
    (Table.ofList (instances.zipIdx.map fun (inst, position) => (inst.id.name, position)))

/-- The positions that have to come before an instance, one for each reason. -/
def sources (instances : List Instance) (inst : Instance) : List Nat :=
  (inst.declaration.dependencies.filter (· != inst.kind)).flatMap
      (fun kind => (Table.get? (kinds instances) kind).getD []) ++
    inst.config.references.filterMap (Table.get? (names instances))

def empty (count : Nat) : Links := ⟨List.replicate count [], List.replicate count []⟩

/-- Enters an edge at both of its ends.  No position comes before itself. -/
def add (links : Links) (source target : Nat) : Links :=
  if source = target then links
  else
    ⟨links.successors.modify source (insertPosition target),
      links.predecessors.modify target (insertPosition source)⟩

/-- The edges between some instances, in the order in which they are found. -/
def edges (instances : List Instance) : List (Nat × Nat) :=
  instances.zipIdx.flatMap fun (inst, position) => (sources instances inst).map (·, position)

/-- The edges between some instances, kept at both of their ends. -/
def ofInstances (instances : List Instance) : Links :=
  (edges instances).foldl (fun links edge => links.add edge.1 edge.2) (empty instances.length)

def after (links : Links) (position : Nat) : List Nat := (links.successors[position]?).getD []

def before (links : Links) (position : Nat) : List Nat := (links.predecessors[position]?).getD []

end Links

end Firmware
