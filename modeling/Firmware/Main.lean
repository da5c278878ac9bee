import Firmware.CommandLine
/-!
The command: reads a configuration file and prints the code generated from it.
-/

namespace Firmware

/-- Runs the command for some options.  Failures go to the error output. -/
def Options.execute (options : Options) : IO UInt32 := do
  match options.generator with
  | .error failure =>
      IO.eprintln failure.render
      return 1
  | .ok generator =>
      if options.describe then
        IO.print (generator.components.describe.pretty "")
        return 0
      let text ← IO.FS.readFile (options.config.getD Options.standardConfig)
      let (result, events) := options.output generator text
      events.forM fun event => IO.eprintln event
      match result with
      | .ok written =>
          IO.print written
          return 0
      | .error failure =>
          IO.eprintln failure.render
          return 1

end Firmware

def main (args : List String) : IO UInt32 := do
  match Firmware.Options.standard.read args with
  | .ok options =>
      try options.execute
      catch fault =>
        IO.eprintln fault
        return 1
  | .error fault =>
      IO.eprintln fault.message
      return 2
