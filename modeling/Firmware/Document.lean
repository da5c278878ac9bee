import Firmware.Json.Writer
import Firmware.Problem
import Firmware.Value.Json
/-!
Configuration documents: for every component kind, the nodes of its instances.
-/

namespace Firmware

/-- The raw nodes of every configured kind, in document order. -/
structure Document where
  kinds : Table String (List Node)

namespace Document

def empty : Document := ⟨[]⟩

/-- The problem of a JSON value where a mapping is expected. -/
def notMapping (path : Path) (json : Json) : Problem where
  kind := .malformed
  path := some path
  message := "expected a mapping, found `" ++ json.compact ++ "`"

def readNode (path : Path) (json : Json) : Except Problem Node :=
  match Node.ofJson? path json with
  | some node => .ok node
  | none => .error (notMapping path json)

/-- The instances of a kind: one for each element of a list, otherwise a single
one. -/
def readInstances (kind : String) : Json → List (Except Problem Node)
  | .array items =>
      items.mapIdx fun position item => readNode ((Path.root.field kind).index position) item
  | json => [readNode (Path.root.field kind) json]

/-- The nodes that could be read. -/
def nodesOf (results : List (Except Problem Node)) : List Node :=
  results.filterMap Except.toOption

/-- The problems of those that could not be read. -/
def problemsOf (results : List (Except Problem Node)) : List Problem :=
  results.filterMap fun
    | .ok _ => none
    | .error problem => some problem

/-- Reads a document from a JSON value; all problems of its shape are reported
together. -/
def ofJson : Json → Except (List Problem) Document
  | .object entries =>
      let kinds := entries.map fun (kind, json) => (kind, readInstances kind json)
      Problem.settle (kinds.flatMap fun (_, results) => problemsOf results)
        ⟨Table.ofList (kinds.map fun (kind, results) => (kind, nodesOf results))⟩
  | _ =>
      .error [⟨.malformed, none,
        "a configuration document must be a mapping of component kinds"⟩]

/-- Adds an instance of a kind, after the others of that kind. -/
def add (document : Document) (kind : String) (node : Node) : Document :=
  ⟨Table.insert document.kinds kind ((Table.get? document.kinds kind).getD [] ++ [node])⟩

def instances (document : Document) (kind : String) : List Node :=
  (Table.get? document.kinds kind).getD []

end Document

end Firmware
