import Firmware.Code.Statement
import Firmware.Json.Basic
import Firmware.OrderedSet
/-!
The code that a run generates, piece by piece.
-/

namespace Firmware

/-- The code of a run.  Headers and runtime objects are kept once each. -/
structure Code where
  headers : OrderedSet String
  globals : List Global
  statements : List Statement
  runtimeObjects : OrderedSet String
deriving Repr

namespace Code

def empty : Code := ⟨[], [], [], []⟩

/-- Adds a header, once. -/
def addHeader (code : Code) (header : String) : Code :=
  { code with headers := OrderedSet.add code.headers header }

def addGlobal (code : Code) (global : Global) : Code :=
  { code with globals := code.globals ++ [global] }

def add (code : Code) (statement : Statement) : Code :=
  { code with statements := code.statements ++ [statement] }

/-- Whether an object receives the setup and loop calls. -/
def isRegistered (code : Code) (name : String) : Bool := code.runtimeObjects.contains name

/-- Lets an object receive the setup and loop calls. -/
def register (code : Code) (id : Identifier) : Code :=
  { code with runtimeObjects := OrderedSet.add code.runtimeObjects id.name }

/-- Declares a global variable and creates its object. -/
def declare (code : Code) (id : Identifier) (args : List Expression) : Code :=
  (code.addGlobal (.ofIdentifier id)).add (.assignment id.name (.new id.type args))

def toJson (code : Code) : Json :=
  .object [("includes", .ofTexts code.headers),
    ("globals", .ofTexts (code.globals.map Global.render)),
    ("statements", .ofTexts (code.statements.map Statement.render)),
    ("runtime_objects", .ofTexts code.runtimeObjects)]

end Code

end Firmware
