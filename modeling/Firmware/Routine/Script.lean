import Firmware.Routine.Basic
/-!
Scripts: routines written down once for all instances of a kind.  Texts of a script
may hold `{id}` and `{path}`, which stand for the variable and the location of the
instance.
-/

namespace Firmware

/-- A line of a script: a step, or the wait for a variable whose name begins with
the value of a field. -/
inductive Line
  | step (step : Step)
  | awaitField (field suffix : String) (bind : Option String)
deriving Repr, Inhabited

def Action.fill (fill : String → String) : Action → Action
  | .comment text => .comment (fill text)
  | .header name => .header (fill name)
  | .allocate base type bind => .allocate (fill base) (fill type) bind
  | .peek name => .peek (fill name)
  | .assign target term => .assign (fill target) term
  | .global type name isPointer => .global (fill type) (fill name) isPointer
  | .fail text => .fail (fill text)
  | .declare subject args => .declare subject args
  | .add term => .add term
  | .register subject => .register subject

def Step.fill (fill : String → String) : Step → Step
  | .act action => .act (action.fill fill)
  | .await name bind => .await (fill name) bind
  | .suspend => .suspend

/-- A text with the variable and the location of an instance filled in. -/
def fillText (id : Identifier) (config : Node) (text : String) : String :=
  Text.replace (Text.replace text "\x7bid\x7d" id.name) "\x7bpath\x7d" config.path.render

/-- The name that an entry of a configuration holds, as text or as an identifier. -/
def Node.nameOf? (config : Node) (field : String) : Option String :=
  match (config.get? field).bind Value.text? with
  | some text => some text
  | none => config.slotName? field

namespace Line

/-- The steps of a line for an instance.  There is nothing to wait for where the
field has no name. -/
def steps (id : Identifier) (config : Node) : Line → List Step
  | .step single => [single.fill (fillText id config)]
  | .awaitField field suffix bind =>
      (config.nameOf? field).toList.map fun name => .await (name ++ suffix) bind

def routine (script : List Line) : Routine := fun id config => script.flatMap (steps id config)

end Line

end Firmware
