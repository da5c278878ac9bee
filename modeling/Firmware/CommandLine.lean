import Firmware.Builtin.Component
import Firmware.Generator
/-!
The arguments of the command, and what it prints for a configuration: the source
file, the generated code as JSON, or a description of the available components.
-/

namespace Firmware

structure Options where
  /-- The file with the configuration, if one is named. -/
  config : Option String
  usedNamespace : String
  /-- Describe the components instead of generating code. -/
  describe : Bool
  /-- Write the generated code as JSON. -/
  json : Bool
  /-- Report the events of every routine. -/
  verbose : Bool
deriving DecidableEq, Repr

inductive UsageFault
  | unknownOption (argument : String)
  | missingValue (option : String)
  | surplus (argument : String)
deriving DecidableEq, Repr

def UsageFault.message : UsageFault → String
  | .unknownOption argument => "unexpected option `" ++ argument ++ "`"
  | .missingValue option => "a value is required for `" ++ option ++ "`"
  | .surplus argument => "unexpected argument `" ++ argument ++ "`"

namespace Options

/-- What is asked of the command when it has no arguments. -/
def standard : Options := ⟨none, SourceForm.standard.usedNamespace, false, false, false⟩

/-- The file that is read unless one is named. -/
def standardConfig : String := "config.json"

def withConfig (options : Options) (path : String) : Except UsageFault Options :=
  match options.config with
  | none => .ok { options with config := some path }
  | some _ => .error (.surplus path)

/-- Reads the arguments one after the other; those after `--` are no options. -/
def read (options : Options) : List String → Except UsageFault Options
  | [] => .ok options
  | "--" :: paths => paths.foldlM withConfig options
  | "--describe" :: rest => read { options with describe := true } rest
  | "--json" :: rest => read { options with json := true } rest
  | "--verbose" :: rest => read { options with verbose := true } rest
  | "-v" :: rest => read { options with verbose := true } rest
  | ["--namespace"] => .error (.missingValue "--namespace")
  | "--namespace" :: name :: rest => read { options with usedNamespace := name } rest
  | argument :: rest =>
      if argument.startsWith "-" then .error (.unknownOption argument)
      else
        match options.withConfig argument with
        | .ok options => read options rest
        | .error fault => .error fault

def form (options : Options) : SourceForm :=
  { SourceForm.standard with usedNamespace := options.usedNamespace }

/-- Lets all routines appear in reports. -/
def observing (components : Components) : Components :=
  ⟨components.byKind.map fun (kind, component) => (kind, { component with observed := true })⟩

def generator (options : Options) : Except Failure Generator :=
  Builtin.components.map fun components =>
    ⟨if options.verbose then observing components else components, options.form, []⟩

def notJson : Failure := .ofProblem .parse ⟨.malformed, none, "the text is not JSON"⟩

/-- What the command prints for a configuration, and the events of the run. -/
def output (options : Options) (generator : Generator) (text : String) :
    Except Failure String × List String :=
  match generator.generateText? text with
  | none => (.error notJson, [])
  | some outcome =>
      (outcome.result.map fun code =>
          if options.json then code.toJson.pretty "" else code.source options.form,
        Entry.report outcome.trace)

end Options

end Firmware
