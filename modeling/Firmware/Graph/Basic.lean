import Firmware.Instance
import Firmware.Value.Slots
/-!
Which instances come before which: those that a kind depends on, and those whose
identifiers an instance refers to.  Instances that exclude each other, that are
configured too often or that lack what they depend on are reported together.
-/

namespace Firmware

/-- The first element of each class of elements that share a key. -/
def firstByKey {α κ : Type} [DecidableEq κ] (key : α → κ) (seen : List κ) : List α → List α
  | [] => []
  | element :: rest =>
      if key element ∈ seen then firstByKey key seen rest
      else element :: firstByKey key (key element :: seen) rest

/-- Instances in document order, and for the position of each the positions of
those that come before it, in increasing order. -/
structure Graph where
  instances : List Instance
  predecessors : List (List Nat)

namespace Graph

def isConfigured (instances : List Instance) (kind : String) : Bool :=
  instances.any (·.kind == kind)

/-- The problem of a second instance of a kind that allows one. -/
def repeated (inst : Instance) : Problem :=
  ⟨.invalidValue, some inst.path, "`" ++ inst.kind ++ "` can only be configured once"⟩

/-- The problems of instances whose kind was seen before and allows one. -/
def repetitions (seen : List String) : List Instance → List Problem
  | [] => []
  | inst :: rest =>
      let later := repetitions (inst.kind :: seen) rest
      if inst.kind ∈ seen ∧ !inst.declaration.isMulti then repeated inst :: later else later

def unorderedPair (a b : String) : String × String := if a < b then (a, b) else (b, a)

/-- The problems of configured kinds that exclude each other, one for each pair. -/
def conflicts (instances : List Instance) : List Problem :=
  let clashes := instances.flatMap fun inst =>
    (inst.declaration.conflicts.filter (isConfigured instances)).map (inst, ·)
  (firstByKey (fun clash => unorderedPair clash.1.kind clash.2) [] clashes).map
    fun (inst, other) =>
      ⟨.conflictingComponents, some inst.path,
        "`" ++ inst.kind ++ "` cannot be used together with `" ++ other ++ "`"⟩

/-- The problems of kinds whose dependencies are not configured, one for each kind
and dependency. -/
def unsatisfied (instances : List Instance) : List Problem :=
  let gaps := instances.flatMap fun inst =>
    (inst.declaration.dependencies.filter fun dependency =>
      dependency != inst.kind && !isConfigured instances dependency).map (inst, ·)
  (firstByKey (fun gap => (gap.1.kind, gap.2)) [] gaps).map fun (inst, dependency) =>
    ⟨.unsatisfiedDependency, some inst.path,
      "`" ++ inst.kind ++ "` requires the component `" ++ dependency ++ "`"⟩

/-- The position of the instance that provides a name: the last one identified by
it, or else the first one whose configuration declares it. -/
def provider? (instances : List Instance) (name : String) : Option Nat :=
  let positions := List.range instances.length
  let holds (test : Instance → Bool) (position : Nat) : Bool := instances[position]?.any test
  match positions.reverse.find? (holds (·.id.name == name)) with
  | some position => some position
  | none => positions.find? (holds (·.config.declarations.contains name))

def dependsOnKind (inst : Instance) (kind : String) : Bool :=
  kind != inst.kind && inst.declaration.dependencies.contains kind

/-- The positions of the instances that come before the one at a position. -/
def predecessorsAt (instances : List Instance) (position : Nat) (inst : Instance) :
    List Nat :=
  let providers := inst.config.references.filterMap (provider? instances)
  instances.zipIdx.filterMap fun (other, at') =>
    if at' ≠ position ∧ (dependsOnKind inst other.kind ∨ at' ∈ providers) then some at'
    else none

def problems (instances : List Instance) : List Problem :=
  repetitions [] instances ++ conflicts instances ++ unsatisfied instances

/-- Puts an instance before the first one that does not precede it in the document. -/
def insertByIndex (inst : Instance) : List Instance → List Instance
  | [] => [inst]
  | other :: rest =>
      if inst.index ≤ other.index then inst :: other :: rest
      else other :: insertByIndex inst rest

/-- Instances in document order; those with the same index keep their order. -/
def sortByIndex (instances : List Instance) : List Instance :=
  instances.foldr insertByIndex []

def ofInstances (instances : List Instance) : Except (List Problem) Graph :=
  let sorted := sortByIndex instances
  Problem.settle (problems sorted)
    ⟨sorted, sorted.mapIdx (predecessorsAt sorted)⟩

def before (graph : Graph) (position : Nat) : List Nat :=
  (graph.predecessors[position]?).getD []

/-- Whether the instance at one position has to come before that at another. -/
def hasEdge (graph : Graph) (source target : Nat) : Bool :=
  (graph.before target).contains source

end Graph

end Firmware
