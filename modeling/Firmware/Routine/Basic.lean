import Firmware.Code.Expression
/-!
Emission routines: lists of steps that write code, and that may wait for variables
which other routines declare.
-/

namespace Firmware

/-- An expression of a routine: code with places for the routine's own variable,
for its local variables and for values of its configuration. -/
inductive Term
  | code (expression : Expression)
  | self
  | bound (name : String)
  | literal (field : String)
  | new (type : String) (args : List Term)
  | call (function : String) (args : List Term)
  | method (target : Term) (name : String) (args : List Term)
deriving Repr, Inhabited

/-- The variable that an action is about: the routine's own, the one bound to a
local name, or a given one. -/
inductive Subject
  | own
  | bound (name : String)
  | given (id : Identifier)
deriving DecidableEq, Repr, Inhabited

/-- What a routine does without waiting.  An action that yields an identifier may
bind it to a local name. -/
inductive Action
  | comment (text : String)
  | header (name : String)
  | allocate (base type : String) (bind : Option String)
  | declare (subject : Subject) (args : List Term)
  | peek (name : String)
  | add (term : Term)
  | assign (target : String) (term : Term)
  | global (type name : String) (isPointer : Bool)
  | register (subject : Subject)
  | fail (text : String)
deriving Repr, Inhabited

/-- A step of a routine: an action, the wait for a variable, or a suspension that
waits for nothing in particular. -/
inductive Step
  | act (action : Action)
  | await (name : String) (bind : Option String)
  | suspend
deriving Repr, Inhabited

/-- The steps for an instance, given its variable and its configuration. -/
abbrev Routine := Identifier → Node → List Step

end Firmware
