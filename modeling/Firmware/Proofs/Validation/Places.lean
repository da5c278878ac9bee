import Firmware.Proofs.Validation.Normal
/-!
Places in a value.  A place is reached step by step: under a key of a mapping, or at a
position of a sequence, where a value that is no sequence is the only item of itself.  A
kind leads to the values that it converts the parts of its own value by, and a normal value
is normal at every place to which its kind leads.
-/

namespace Firmware

def Value.follow? : Value → Path → Option Value
  | value, [] => some value
  | value, .key name :: rest =>
      ((value.node?.bind (·.get? name)).bind fun part => part.follow? rest)
  | value, .index position :: rest => (value.items[position]?).bind fun part => part.follow? rest
termination_by structural _ steps => steps

theorem Value.eq_toValue_of_node? {value : Value} {node : Node} (h : value.node? = some node) :
    value = node.toValue := by
  cases value with
  | mapping path entries =>
      obtain rfl := Option.some.inj h
      rfl
  | _ => contradiction

/-- The places to which a kind leads from a value of its own, with the kinds of the values
there: the given fields of nested mappings and the items of sequences. -/
inductive Kind.Leads : Kind → Value → Path → Kind → Value → Prop
  | here (kind : Kind) (value : Value) : Leads kind value [] kind value
  | item {item inner : Kind} {value part found : Value} {position : Nat} {steps : Path}
      (listed : value.items[position]? = some part) (onward : Leads item part steps inner found) :
      Leads (.sequenceOf item) value (.index position :: steps) inner found
  | field {schema : Schema} {inner : Kind} {own : Path} {entries : List (String × Value)}
      {name : String} {field : Field} {part found : Value} {steps : Path}
      (declared : (name, field) ∈ schema.fields)
      (given : (Node.mk own entries).given? name = some part)
      (onward : Leads field.kind part steps inner found) :
      Leads (.nested schema) (.mapping own entries) (.key name :: steps) inner found

namespace Kind

variable {kind inner : Kind} {value found : Value} {steps : Path}

/-- The value to which a kind leads is the one that its steps reach. -/
theorem Leads.follow?_eq (h : kind.Leads value steps inner found) :
    value.follow? steps = some found := by
  induction h with
  | here => rfl
  | item hlisted _ ih => rw [Value.follow?, hlisted, Option.bind_some, ih]
  | field _ hgiven _ ih =>
      rw [Value.follow?, Value.node?, Option.bind_some, (Node.given?_eq_some_iff.mp hgiven).1,
        Option.bind_some, ih]

theorem Leads.normal (h : kind.Leads value steps inner found) (hnormal : kind.Normal value) :
    inner.Normal found := by
  induction h with
  | here => exact hnormal
  | item hlisted _ ih =>
      cases hnormal with
      | simple hsimple => simp [isSimple] at hsimple
      | sequenceOf hitems => exact ih (hitems _ (List.mem_of_getElem? hlisted))
  | field hdeclared hgiven _ ih =>
      cases hnormal with
      | simple hsimple => simp [isSimple] at hsimple
      | nested _ hpresent _ _ =>
          have hentry := Table.mem_of_get?_eq (Node.given?_eq_some_iff.mp hgiven).1
          exact ih (hpresent _ _ _ hdeclared hentry)

end Kind

end Firmware
