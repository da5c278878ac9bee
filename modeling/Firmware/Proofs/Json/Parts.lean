import Firmware.Proofs.Table
import Firmware.Text
import Firmware.Value.Json
/-!
Parts of a JSON value, and the values reached by following a location key by key and index by
index.  A test of every part decides what holds of a value at all depths.
-/

namespace Firmware

namespace Json

/-- The part of a JSON value at a step: under a key of an object, or at a position of an
array. -/
def part? : Json → Segment → Option Json
  | .object entries, .key name => Table.get? entries name
  | .array items, .index position => items[position]?
  | _, _ => none

def follow? : Json → Path → Option Json
  | json, [] => some json
  | json, step :: rest => (json.part? step).bind fun part => part.follow? rest
termination_by structural _ steps => steps

mutual

/-- Whether a test succeeds for a JSON value and for every value in it, at any depth. -/
def every (test : Json → Bool) : Json → Bool
  | .array items => test (.array items) && everyItem test items
  | .object entries => test (.object entries) && everyEntry test entries
  | json => test json
termination_by structural json => json

def everyItem (test : Json → Bool) : List Json → Bool
  | [] => true
  | item :: rest => item.every test && everyItem test rest
termination_by structural items => items

def everyEntry (test : Json → Bool) : List (String × Json) → Bool
  | [] => true
  | (_, value) :: rest => value.every test && everyEntry test rest
termination_by structural entries => entries

end

/-- Whether no object in a JSON value has a key twice. -/
def hasUniqueKeys : Json → Bool :=
  every fun
    | .object entries => decide (Table.keys entries).Nodup
    | _ => true

/-- Whether every number in a JSON value is a signed 64-bit word or a finite floating-point
number. -/
def hasOwnNumbers : Json → Bool :=
  every fun
    | .integer value => (Text.word? value).isSome
    | .float value => value.isFinite
    | _ => true

mutual

/-- The JSON value that a document holds where a value was written: there are no numbers in
JSON that are not finite, and `null` is written for them. -/
def written : Json → Json
  | .float value => if value.isFinite then .float value else .null
  | .array items => .array (itemsWritten items)
  | .object entries => .object (entriesWritten entries)
  | .null => .null
  | .bool value => .bool value
  | .integer value => .integer value
  | .text value => .text value
termination_by structural json => json

def itemsWritten : List Json → List Json
  | [] => []
  | item :: rest => item.written :: itemsWritten rest
termination_by structural items => items

def entriesWritten : List (String × Json) → List (String × Json)
  | [] => []
  | (key, value) :: rest => (key, value.written) :: entriesWritten rest
termination_by structural entries => entries

end

variable {json part : Json} {test : Json → Bool} {items : List Json}
  {entries : List (String × Json)} {step : Segment} {steps : Path}

theorem everyItem_eq_true_iff :
    everyItem test items = true ↔ ∀ item ∈ items, item.every test = true := by
  induction items with
  | nil => simp [everyItem]
  | cons item rest ih => simp [everyItem, ih]

theorem everyEntry_eq_true_iff :
    everyEntry test entries = true ↔ ∀ entry ∈ entries, entry.2.every test = true := by
  induction entries with
  | nil => simp [everyEntry]
  | cons entry rest ih => simp [everyEntry, ih]

theorem every_array : (array items).every test = true ↔
    test (.array items) = true ∧ ∀ item ∈ items, item.every test = true := by
  rw [every, Bool.and_eq_true, everyItem_eq_true_iff]

theorem every_object : (object entries).every test = true ↔
    test (.object entries) = true ∧ ∀ entry ∈ entries, entry.2.every test = true := by
  rw [every, Bool.and_eq_true, everyEntry_eq_true_iff]

/-- What holds at all depths of a value holds at all depths of its parts. -/
theorem every_of_part? (h : json.every test = true) (hpart : json.part? step = some part) :
    part.every test = true := by
  unfold part? at hpart
  split at hpart
  · exact (every_object.mp h).2 _ (Table.mem_of_get?_eq hpart)
  · exact (every_array.mp h).2 _ (List.mem_of_getElem? hpart)
  · simp at hpart

theorem nodup_keys_of_hasUniqueKeys (h : (object entries).hasUniqueKeys = true) :
    (Table.keys entries).Nodup :=
  of_decide_eq_true (every_object.mp h).1

@[simp] theorem follow?_nil (json : Json) : json.follow? [] = some json := rfl

theorem follow?_cons (json : Json) (step : Segment) (steps : Path) :
    json.follow? (step :: steps) = (json.part? step).bind (·.follow? steps) := by
  rw [follow?]

mutual

/-- A value whose numbers are words or finite is written as it is. -/
theorem written_eq_self : ∀ json : Json, json.hasOwnNumbers = true → json.written = json
  | .float value, hnumber => if_pos hnumber
  | .array items, hnumbers => by
      rw [written, itemsWritten_eq_self items (every_array.mp hnumbers).2]
  | .object entries, hnumbers => by
      rw [written, entriesWritten_eq_self entries (every_object.mp hnumbers).2]
  | .null, _ | .bool _, _ | .integer _, _ | .text _, _ => rfl

theorem itemsWritten_eq_self : ∀ items : List Json,
    (∀ item ∈ items, item.hasOwnNumbers = true) → itemsWritten items = items
  | [], _ => rfl
  | item :: rest, hnumbers => by
      rw [List.forall_mem_cons] at hnumbers
      rw [itemsWritten, written_eq_self item hnumbers.1, itemsWritten_eq_self rest hnumbers.2]

theorem entriesWritten_eq_self : ∀ entries : List (String × Json),
    (∀ entry ∈ entries, entry.2.hasOwnNumbers = true) → entriesWritten entries = entries
  | [], _ => rfl
  | (_, value) :: rest, hnumbers => by
      rw [List.forall_mem_cons] at hnumbers
      rw [entriesWritten, written_eq_self value hnumbers.1,
        entriesWritten_eq_self rest hnumbers.2]

end

end Json

end Firmware
