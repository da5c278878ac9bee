import Firmware.Code.Basic
import Firmware.Failure
import Firmware.NameTable.Basic
import Firmware.Routine.Basic
import Firmware.Routine.Fault
import Firmware.Routine.Trace
/-!
The state of a run: what all routines share, and what belongs to each of them.
-/

namespace Firmware

/-- What all routines of a run share: the code, the identifiers, the variables that
are visible to every routine, and the events so far, the latest first. -/
structure Shared where
  code : Code
  names : NameTable
  published : Table String Identifier
  events : List Entry

namespace Shared

/-- Makes a variable visible, unless one of its name is. -/
def publish (shared : Shared) (id : Identifier) : Shared :=
  if Table.contains shared.published id.name then shared
  else { shared with published := Table.insert shared.published id.name id }

/-- The events in the order in which they happened. -/
def trace (shared : Shared) : List Entry := shared.events.reverse

end Shared

/-- What belongs to one routine: the place of its instance, its local variables,
the variables it has declared so far, and the name that it was last found waiting
for. -/
structure Local where
  task : Nat
  id : Identifier
  config : Node
  observed : Bool
  bindings : Table String Identifier
  declared : List Identifier
  mark : Option String

namespace Local

def failure (own : Local) (fault : RoutineFault) : Failure :=
  .ofProblem .emission ⟨.emission, some own.config.path, fault.message⟩

def record (own : Local) (event : Event) (shared : Shared) : Shared :=
  { shared with events := ⟨own.task, own.id.name, own.observed, event⟩ :: shared.events }

/-- Binds an identifier to a local name, if there is one. -/
def bindTo (own : Local) (name : Option String) (id : Identifier) : Local :=
  match name with
  | some name => { own with bindings := Table.insert own.bindings name id }
  | none => own

/-- The identifier of a subject; a local name has to be bound. -/
def identifier (own : Local) : Subject → Except RoutineFault Identifier
  | .own => .ok own.id
  | .given id => .ok id
  | .bound name =>
      match Table.get? own.bindings name with
      | some id => .ok id
      | none => .error (.noLocal name)

def literal (own : Local) (field : String) : Except RoutineFault Expression :=
  match (own.config.get? field).bind Expression.literal? with
  | some expression => .ok expression
  | none => .error (.noLiteral field)

end Local

mutual

def Term.expression (own : Local) : Term → Except RoutineFault Expression
  | .code expression => .ok expression
  | .self => .ok (.ofIdentifier own.id)
  | .bound name => (own.identifier (.bound name)).map .ofIdentifier
  | .literal field => own.literal field
  | .new type args => (Term.expressions own args).map (.new type)
  | .call function args => (Term.expressions own args).map (.call function)
  | .method target name args => do
      let target ← target.expression own
      (Term.expressions own args).map (.method target name)
termination_by structural term => term

def Term.expressions (own : Local) : List Term → Except RoutineFault (List Expression)
  | [] => .ok []
  | term :: rest => do
      let expression ← term.expression own
      (Term.expressions own rest).map (expression :: ·)
termination_by structural terms => terms

end

end Firmware
