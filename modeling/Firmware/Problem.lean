import Firmware.Path
/-!
Problems found in a configuration.
-/

namespace Firmware

/-- What kind of rule a problem breaks. -/
inductive ProblemKind
  | schemaConflict
  | unknownKind
  | malformed
  | missingField
  | invalidValue
  | unknownField
  | constraintViolation
  | duplicateId
  | unresolvedId
  | unsatisfiedDependency
  | dependencyCycle
  | conflictingComponents
  | emission
deriving DecidableEq, Repr

def ProblemKind.label : ProblemKind → String
  | .schemaConflict => "Schema Conflict"
  | .unknownKind => "Unknown Kind"
  | .malformed => "Syntax"
  | .missingField => "Missing Field"
  | .invalidValue => "Invalid Value"
  | .unknownField => "Unknown Field"
  | .constraintViolation => "Constraint Violation"
  | .duplicateId => "Duplicate Id"
  | .unresolvedId => "Unresolved Id"
  | .unsatisfiedDependency => "Unsatisfied Dependency"
  | .dependencyCycle => "Dependency Cycle"
  | .conflictingComponents => "Conflicting Components"
  | .emission => "Emission"

/-- A problem, with the location of the value that causes it where one is
known. -/
structure Problem where
  kind : ProblemKind
  path : Option Path
  message : String
deriving DecidableEq, Repr

namespace Problem

def located (problem : Problem) (path : Path) : Problem := { problem with path := some path }

def render (problem : Problem) : String :=
  match problem.path with
  | some path => problem.kind.label ++ " at `" ++ path.render ++ "`: " ++ problem.message
  | none => problem.kind.label ++ ": " ++ problem.message

/-- Problems in the order in which they were found, one below the other. -/
def renderAll (problems : List Problem) : String :=
  "\n".intercalate (problems.map render)

def anyOf (problems : List Problem) (kind : ProblemKind) : Bool :=
  problems.any (·.kind == kind)

/-- The value if there are no problems, and otherwise all of them. -/
def settle {α : Type} (problems : List Problem) (value : α) : Except (List Problem) α :=
  if problems.isEmpty then .ok value else .error problems

end Problem

end Firmware
