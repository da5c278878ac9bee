import Firmware.Code.Source
import Firmware.Document
import Firmware.Json.Reader
import Firmware.NameTable.Resolution
import Firmware.Schedule.Run
import Firmware.Validation.Basic
/-!
Generation of code from configuration documents.  A run validates every instance,
names its identifiers, orders the instances and emits their code.  It stops after
the first stage that finds problems, with all the problems of that stage, and no
run leaves anything behind for another.
-/

namespace Firmware

/-- The registered components, the form of the generated files, and the names that
no document may use. -/
structure Generator where
  components : Components
  form : SourceForm
  reserved : List String

/-- An instance that has been validated: its position in the document, its kind and
its normalized configuration. -/
structure Candidate where
  index : Nat
  declaration : Declaration
  config : Node

namespace Generator

/-- Validates the nodes of one kind, the first of which is at position `start` of
the document. -/
def candidatesOf (components : Components) (start : Nat) (kind : String)
    (nodes : List Node) : List (Except (List Problem) Candidate) :=
  match components.find kind with
  | .error problem => [.error [problem.located (Path.root.field kind)]]
  | .ok component =>
      nodes.mapIdx fun offset node =>
        (component.declaration.schema.validate node.path node).map fun config =>
          ⟨start + offset, component.declaration, config⟩

/-- Validates all instances of a document, counting positions from `start`. -/
def candidates (components : Components) (start : Nat) :
    Table String (List Node) → List (Except (List Problem) Candidate)
  | [] => []
  | (kind, nodes) :: rest =>
      candidatesOf components start kind nodes
        ++ candidates components (start + nodes.length) rest

/-- The instance of a candidate whose identifiers have names. -/
def instanceOf (candidate : Candidate) : Except (List Problem) Instance :=
  match Instance.configure candidate.index candidate.declaration candidate.config with
  | .ok (some inst) => .ok inst
  | .ok none =>
      .error [⟨.schemaConflict, some candidate.config.path,
        "`" ++ candidate.declaration.kind ++ "` declares no identifier field"⟩]
  | .error problem => .error [problem]

/-- The table of a run before any identifier has been given out. -/
def initialNames (generator : Generator) : NameTable :=
  generator.reserved.foldl NameTable.reserve .empty

/-- Names the identifiers of candidates and checks their references. -/
def resolve (names : NameTable) (candidates : List Candidate) :
    Except (List Problem) (NameTable × List Instance) :=
  let resolution := names.resolveDeclarations (candidates.map (·.config))
  if !resolution.problems.isEmpty then .error resolution.problems
  else
    let named := List.zipWith (fun candidate config => { candidate with config })
      candidates resolution.nodes
    let dangling := resolution.nodes.flatMap resolution.table.referenceProblems
    match Validation.gather (named.map instanceOf) with
    | .ok instances => Problem.settle dangling (resolution.table, instances)
    | .error problems => .error (dangling ++ problems)

/-- The ordered instances of a document, and the table with their identifiers. -/
def plan (generator : Generator) (document : Document) :
    Except Failure (NameTable × Ordered) := do
  let valid ← (Validation.gather (candidates generator.components 0 document.kinds)).mapError
    (Failure.ofProblems .validation)
  let (names, instances) ← (resolve generator.initialNames valid).mapError
    (Failure.ofProblems .identifiers)
  let ordered ← (Ordered.ofInstances instances).mapError (Failure.ofProblems .ordering)
  .ok (names, ordered)

def generate (generator : Generator) (document : Document) : Outcome :=
  match generator.plan document with
  | .ok (names, ordered) => Schedule.emit generator.components names ordered
  | .error failure => ⟨.error failure, []⟩

def generateJson (generator : Generator) (json : Json) : Outcome :=
  match Document.ofJson json with
  | .ok document => generator.generate document
  | .error problems => ⟨.error (.ofProblems .parse problems), []⟩

/-- Generates the code of a document written as JSON text; none if the text is no
JSON. -/
def generateText? (generator : Generator) (text : String) : Option Outcome :=
  (Json.read? text).map generator.generateJson

end Generator

end Firmware
