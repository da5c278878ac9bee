import Firmware.Problem
/-!
The failure of a stage of a run, which a batch of problems causes.
-/

namespace Firmware

/-- The stages of a run, and the registration of components before it. -/
inductive Stage
  | parse
  | registry
  | validation
  | identifiers
  | ordering
  | emission
deriving DecidableEq, Repr

def Stage.label : Stage → String
  | .parse => "Parse"
  | .registry => "Registry"
  | .validation => "Validation"
  | .identifiers => "Identifiers"
  | .ordering => "Ordering"
  | .emission => "Emission"

/-- A stage that could not be completed, and the problems that stopped it. -/
structure Failure where
  stage : Stage
  message : String
  causes : List Problem
deriving DecidableEq, Repr

namespace Failure

def ofProblems (stage : Stage) (causes : List Problem) : Failure where
  stage := stage
  message :=
    if causes.length = 1 then "1 configuration error"
    else toString causes.length ++ " configuration errors"
  causes := causes

def ofProblem (stage : Stage) (cause : Problem) : Failure := ofProblems stage [cause]

/-- The failure as one text, each cause on an indented line. -/
def render (failure : Failure) : String :=
  failure.stage.label ++ ": " ++ failure.message
    ++ String.join (failure.causes.map fun cause => "\n  " ++ cause.render)

end Failure

end Firmware
