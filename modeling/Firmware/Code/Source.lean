import Firmware.Code.Basic
/-!
The source file that generated code is written into.
-/

namespace Firmware

structure SourceForm where
  /-- The namespace that is made visible, or nothing. -/
  usedNamespace : String
  indent : String
  /-- The comment at the top of the file, if there is one. -/
  header : Option String

/-- The form of a file unless something else is asked for. -/
def SourceForm.standard : SourceForm where
  usedNamespace := "esphome"
  indent := "  "
  header := some "Auto generated code. Do not edit."

namespace Code

/-- The header that every generated file includes first. -/
def mainHeader : String := "esphome.h"

/-- A call of a method of the application object. -/
def appCall (method : String) (args : List Expression) : Statement :=
  .expression (.method (.raw "App") method args)

/-- The statements of the setup function: those of the run, the registrations, and
the call that sets the application up. -/
def setupStatements (code : Code) : List Statement :=
  code.statements
    ++ code.runtimeObjects.map (fun name =>
      appCall "register_component" [.variable name true])
    ++ [appCall "setup" []]

/-- Lines, each ended by a line feed. -/
def unlines (lines : List String) : String := String.join (lines.map (· ++ "\n"))

/-- Lines that an empty line follows. -/
def block (lines : List String) : String := unlines lines ++ "\n"

def source (code : Code) (form : SourceForm) : String :=
  let headers := mainHeader :: code.headers.filter (· != mainHeader)
  let line (statement : Statement) : String := form.indent ++ statement.render
  (match form.header with
    | some text => block ((Text.lines text).map ("// " ++ ·))
    | none => "")
    ++ block (headers.map fun header => "#include \"" ++ header ++ "\"")
    ++ (if form.usedNamespace.isEmpty then ""
      else block ["using namespace " ++ form.usedNamespace ++ ";"])
    ++ (if code.globals.isEmpty then "" else block (code.globals.map Global.render))
    ++ block (["void setup() \x7b"] ++ code.setupStatements.map line ++ ["\x7d"])
    ++ unlines ["void loop() \x7b", line (appCall "loop" []), "\x7d"]

end Code

end Firmware
