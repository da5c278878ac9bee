import Firmware.Validation.Constraint
import Firmware.Validation.Scalar
/-!
Validation of raw nodes against schemas.  Every field of every nested mapping is
looked at, and all problems are reported together, each at the location of the
value that causes it.
-/

namespace Firmware

def Problem.missingField (path : Path) (name : String) : Problem :=
  ⟨.missingField, some path, "required field `" ++ name ++ "` is missing"⟩

/-- The problem of a value that cannot be converted, at its own location. -/
def Problem.invalidValue (path : Path) (name : String) (refusal : Refusal) : Problem :=
  ⟨.invalidValue, some path, "invalid value for `" ++ name ++ "`: " ++ refusal.message⟩

/-- The problem of a key that a schema does not declare. -/
def Problem.unknownField (path : Path) (key : String) : Problem :=
  ⟨.unknownField, some path, "unknown field `" ++ key ++ "`"⟩

/-- The value of a field in a raw node; `null` counts as absent. -/
def Node.given? (raw : Node) (name : String) : Option Value :=
  (raw.get? name).filter fun value => !value.isNull

/-- The value of a field that is absent: its default, or an identifier that waits
for its name. -/
def Kind.absent (kind : Kind) (required : Bool) (default : Option Value) (path : Path)
    (name : String) : Except (List Problem) (Option Value) :=
  if required then .error [.missingField path name]
  else
    match default, kind with
    | some value, _ => .ok (some value)
    | none, .declareId type base => .ok (some (.identifier (.automatic type base)))
    | none, _ => .ok none

def Kind.inRange (min max value : Int64) : Except Refusal Value :=
  if value < min ∨ max < value then .error (.integerOutside min max value)
  else .ok (.integer value)

/-- A number within limits.  Only a comparison that holds refuses it. -/
def Kind.inBounds (min max value : Double) : Except Refusal Value :=
  if value.lt min || max.lt value then .error (.numberOutside min max value)
  else .ok (.float value)

/-- The option that a text names, as it is listed. -/
def Kind.choose (options : List String) (text : String) : Except Refusal Value :=
  match options.find? (Text.sameLetters · text) with
  | some option => .ok (.text option)
  | none => .error (.noOption options text)

namespace Validation

/-- All values if every result is one, and otherwise the problems of all
results. -/
def gather {α : Type} : List (Except (List Problem) α) → Except (List Problem) (List α)
  | [] => .ok []
  | .ok value :: rest => (gather rest).map (value :: ·)
  | .error problems :: rest =>
      match gather rest with
      | .ok _ => .error problems
      | .error more => .error (problems ++ more)

/-- The normalized entries: one for every field that has a value. -/
def entriesOf (results : List (String × Except (List Problem) (Option Value))) :
    List (String × Value) :=
  results.filterMap fun
    | (name, .ok (some value)) => some (name, value)
    | _ => none

/-- The problems of all fields, in the order of the schema. -/
def problemsOf (results : List (String × Except (List Problem) (Option Value))) :
    List Problem :=
  results.flatMap fun
    | (_, .error problems) => problems
    | _ => []

/-- The problems of the keys that a schema does not declare, in document order. -/
def unknownKeys (raw : Node) (fields : Table String Field) (path : Path) : List Problem :=
  (raw.keys.filter fun key => !Table.contains fields key).map (Problem.unknownField path)

/-- What follows once every field has been looked at: the constraints are checked
only on a node without other problems. -/
def conclude (raw : Node) (fields : Table String Field) (constraints : List Constraint)
    (path : Path) (results : List (String × Except (List Problem) (Option Value))) :
    Except (List Problem) Node :=
  let node : Node := ⟨path, entriesOf results⟩
  match problemsOf results ++ unknownKeys raw fields path with
  | [] => Problem.settle (constraints.filterMap (·.problem? node path)) node
  | problems => .error problems

/-- A conversion of the value at a location, whose refusal is a problem there. -/
def located {α : Type} (path : Path) (name : String) :
    Except Refusal α → Except (List Problem) α
  | .ok value => .ok value
  | .error refusal => .error [.invalidValue path name refusal]

end Validation

open Validation

mutual

/-- The normalized form of a value of a kind.  `path` is the location of the value
and `name` the field it belongs to. -/
def Kind.convert (path : Path) (name : String) : Kind → Value → Except (List Problem) Value
  | .boolean, value =>
      located path name ((value.expect "a boolean" value.asBool?).map .bool)
  | .integer min max, value =>
      located path name ((value.expect "an integer" value.asInteger?).bind
        (Kind.inRange min max))
  | .float min max, value =>
      located path name ((value.expect "a number" value.asNumber?).bind
        (Kind.inBounds min max))
  | .text, value => located path name ((value.expect "a string" value.asText?).map .text)
  | .oneOf options, value =>
      located path name
        ((value.expect ("one of " ++ Text.quotedList options) value.asChoice?).bind
          (Kind.choose options))
  | .duration, value => located path name (value.asDuration.map .duration)
  | .declareId type base, value =>
      located path name ((value.asDeclaration type base).map .identifier)
  | .useId type, value => located path name ((value.asReference type).map .identifier)
  | .nested schema, value =>
      match located path name (value.expect "a mapping" value.node?) with
      | .ok node => (Schema.validate path schema node).map Node.toValue
      | .error problems => .error problems
  | .sequenceOf item, value =>
      (gather (value.items.mapIdx fun position value =>
        item.convert (path.index position) name value)).map .sequence
  | .custom _ check, value => located path name ((check.run value).mapError .byCheck)
termination_by structural kind => kind

/-- Validates a raw node against a schema; the result is located at `path`. -/
def Schema.validate (path : Path) : Schema → Node → Except (List Problem) Node
  | ⟨_, fields, constraints⟩, raw =>
      conclude raw fields constraints path (Schema.results path fields raw)
termination_by structural schema => schema

def Schema.results (path : Path) :
    List (String × Field) → Node → List (String × Except (List Problem) (Option Value))
  | [], _ => []
  | (name, ⟨kind, required, default⟩) :: rest, raw =>
      let result :=
        match raw.given? name with
        | some value => (kind.convert (path.field name) name value).map some
        | none => kind.absent required default path name
      (name, result) :: Schema.results path rest raw
termination_by structural fields => fields

end

end Firmware
