import Firmware.Proofs.Code.Pieces
/-!
Variables in generated code: which of them a statement mentions, and which one it assigns.
The statements that roles add mention the variable of their instance only.
-/

namespace Firmware

namespace Expression

mutual

/-- The variables of an expression: those whose methods it calls, and those among its
arguments. -/
def mentions : Expression → List String
  | .variable name _ => [name]
  | .new _ args => argMentions args
  | .call _ args => argMentions args
  | .method target _ args => target.mentions ++ argMentions args
  | .raw _ | .bool _ | .integer _ | .float _ | .text _ => []
termination_by structural expression => expression

def argMentions : List Expression → List String
  | [] => []
  | arg :: rest => arg.mentions ++ argMentions rest
termination_by structural args => args

end

end Expression

namespace Statement

def target? : Statement → Option String
  | .assignment target _ => some target
  | .expression _ | .comment _ => none

def mentions : Statement → List String
  | .expression value => value.mentions
  | .assignment target value => target :: value.mentions
  | .comment _ => []

/-- A statement that assigns nothing and mentions some variables at most. -/
structure Uses (names : List String) (statement : Statement) : Prop where
  target : statement.target? = none
  mentions : statement.mentions ⊆ names

theorem Uses.mono {names others : List String} {statement : Statement}
    (h : statement.Uses names) (hsubset : names ⊆ others) : statement.Uses others :=
  ⟨h.target, fun _ hmem => hsubset (h.mentions hmem)⟩

end Statement

/-- A variable of some statements that is created once, before anything else mentions
it. -/
def Identifier.IsCreatedFirst (id : Identifier) (statements : List Statement) : Prop :=
  ∃ before after, statements = before ++ .assignment id.name (.new id.type []) :: after ∧
    (∀ statement ∈ before, id.name ∉ statement.mentions) ∧
    ∀ statement ∈ after, statement.target? ≠ some id.name

namespace Role

variable {inst : Instance} {method field : String} {statement : Statement}

theorem uses_call (inst : Instance) (method : String) (args : List Expression) :
    (call inst method args).Uses (inst.id.name :: Expression.argMentions args) :=
  ⟨rfl, List.Subset.refl _⟩

theorem uses_of_mem_setter {α : Type} {value : Option α} {constant : α → Expression}
    (hconstant : ∀ content, (constant content).mentions = [])
    (hmem : statement ∈ setter inst method (value.map constant)) :
    statement.Uses [inst.id.name] := by
  cases value with
  | none => simp [setter] at hmem
  | some content =>
      obtain rfl := List.mem_singleton.mp hmem
      have huses := uses_call inst method [constant content]
      rwa [Expression.argMentions, Expression.argMentions, hconstant] at huses

theorem uses_of_mem_flag (hmem : statement ∈ flag inst method field) :
    statement.Uses [inst.id.name] := by
  rw [flag] at hmem
  cases hon : (inst.config.get? field).bind Value.bool? with
  | none => simp [hon, setter] at hmem
  | some on =>
      cases on with
      | false => simp [hon, setter] at hmem
      | true =>
          have hset : statement ∈ setter inst method ((some true).map Expression.bool) := by
            simpa [hon] using hmem
          exact uses_of_mem_setter (fun _ => rfl) hset

/-- The setup of a sensor mentions its own variable only. -/
theorem uses_of_mem_sensorStatements (hmem : statement ∈ sensorStatements inst) :
    statement.Uses [inst.id.name] := by
  simp only [sensorStatements, List.mem_append, List.mem_singleton] at hmem
  rcases hmem with ((((((((hname | hinternal) | hunit) | hicon) | hclass) | hdecimals) | hstate) |
    hforce) | hexpire) | rfl
  · exact uses_of_mem_setter (fun _ => rfl) hname
  · exact uses_of_mem_flag hinternal
  · exact uses_of_mem_setter (fun _ => rfl) hunit
  · exact uses_of_mem_setter (fun _ => rfl) hicon
  · exact uses_of_mem_setter (fun _ => rfl) hclass
  · exact uses_of_mem_setter (fun _ => rfl) hdecimals
  · exact uses_of_mem_setter (fun _ => rfl) hstate
  · exact uses_of_mem_flag hforce
  · exact uses_of_mem_setter (fun _ => rfl) hexpire
  · exact ⟨rfl, List.Subset.refl _⟩

end Role

/-- The statements of a role mention the variable of its instance only. -/
theorem Capability.uses_of_mem_pieces {inst : Instance} {capability : Capability}
    {statement : Statement} (hmem : .statement statement ∈ capability.pieces inst) :
    statement.Uses [inst.id.name] := by
  cases capability with
  | measurable =>
      obtain ⟨_, hadded, ⟨⟩⟩ := List.mem_map.mp hmem
      exact Role.uses_of_mem_sensorStatements hadded
  | schedulable =>
      rcases List.mem_append.mp hmem with hpriority | hobject
      · obtain ⟨_, _, ⟨⟩⟩ := List.mem_map.mp hpriority
        exact Role.uses_call inst "set_setup_priority" [.float _]
      · simp at hobject

end Firmware
