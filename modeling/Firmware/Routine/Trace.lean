import Firmware.Identifier.Basic
/-!
What happens during a run, and how it is reported.
-/

namespace Firmware

/-- What happened during a run. -/
inductive Event
  | started
  | ended
  | waits (name : String)
  | got (id : Identifier)
  | peeked (name : String) (found : Bool)
  | resumed
  | registered (name : String) (fresh : Bool)
deriving DecidableEq, Repr

/-- An event with the position and the variable of the instance it belongs to.
Events of routines that are not observed do not appear in reports. -/
structure Entry where
  task : Nat
  id : String
  observed : Bool
  event : Event
deriving DecidableEq, Repr

namespace Entry

def render (entry : Entry) : String :=
  match entry.event with
  | .started => "start " ++ entry.id
  | .ended => "end " ++ entry.id
  | .waits name => "wait " ++ entry.id ++ " " ++ name
  | .got id =>
      "got " ++ entry.id ++ " " ++ id.name ++ ": " ++ id.type ++ " " ++ toString id.isPointer
  | .peeked name found => "peek " ++ entry.id ++ " " ++ name ++ " " ++ toString found
  | .resumed => "resumed " ++ entry.id
  | .registered name fresh => "register " ++ name ++ " " ++ toString fresh

def report (trace : List Entry) : List String := (trace.filter (·.observed)).map render

end Entry

end Firmware
