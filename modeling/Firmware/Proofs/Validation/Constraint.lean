import Firmware.Proofs.Table
import Firmware.Validation.Constraint
/-!
What constraints say of the keys of a node.  A constraint is violated exactly if what it
says does not hold.
-/

namespace Firmware

namespace Constraint

/-- What a constraint says of a node: with a field another one has to be there, at most, at
least or exactly one of some fields is there, or all of them are or none. -/
def Holds (constraint : Constraint) (node : Node) : Prop :=
  match constraint with
  | .requires field required => field ∈ node.keys → required ∈ node.keys
  | .exclusive fields => (fields.filter (· ∈ node.keys)).length ≤ 1
  | .atLeastOne fields => ∃ field ∈ fields, field ∈ node.keys
  | .exactlyOne fields => (fields.filter (· ∈ node.keys)).length = 1
  | .inclusive fields =>
      (∀ field ∈ fields, field ∈ node.keys) ∨ ∀ field ∈ fields, field ∉ node.keys

variable {node : Node}

theorem contains_eq_decide (key : String) : node.contains key = decide (key ∈ node.keys) := by
  rw [Bool.eq_iff_iff, decide_eq_true_iff]
  exact Table.contains_eq_true_iff

theorem present_eq_length (fields : List String) :
    present fields node = (fields.filter (· ∈ node.keys)).length := by
  rw [present, List.countP_eq_length_filter]
  congr 2
  funext key
  exact contains_eq_decide key

theorem violation?_eq_none_iff {constraint : Constraint} :
    constraint.violation? node = none ↔ constraint.Holds node := by
  cases constraint with
  | requires field required =>
      simp [violation?, Holds, contains_eq_decide]
  | exclusive fields | exactlyOne fields =>
      simp [violation?, Holds, present_eq_length]
  | atLeastOne fields =>
      simp [violation?, Holds, present_eq_length]
  | inclusive fields =>
      have hall : present fields node = fields.length ↔ ∀ field ∈ fields, field ∈ node.keys := by
        rw [present_eq_length, List.length_filter_eq_length_iff]
        simp
      have hnone : present fields node = 0 ↔ ∀ field ∈ fields, field ∉ node.keys := by
        rw [present_eq_length, List.length_eq_zero_iff, List.filter_eq_nil_iff]
        simp
      rw [violation?, Holds, ← hall, ← hnone]
      by_cases h : present fields node = 0 <;> simp [h]

end Constraint

end Firmware
