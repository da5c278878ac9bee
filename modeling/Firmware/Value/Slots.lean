import Firmware.Value.Basic
/-!
The identifier slots of a configuration: finding them with their locations, replacing
them, and showing them to a visitor that remembers what it likes.
-/

namespace Firmware

namespace Value

mutual

/-- The identifier slots inside a value with their locations, in document order.
A mapping is where it says it is; items of a sequence are below `path`. -/
def slots (path : Path) : Value → List (Path × Slot)
  | .identifier slot => [(path, slot)]
  | .mapping own entries => entrySlots own entries
  | .sequence items => itemSlots path 0 items
  | _ => []
termination_by structural value => value

def itemSlots (path : Path) (position : Nat) : List Value → List (Path × Slot)
  | [] => []
  | item :: rest => item.slots (path.index position) ++ itemSlots path (position + 1) rest
termination_by structural items => items

def entrySlots (path : Path) : List (String × Value) → List (Path × Slot)
  | [] => []
  | (key, value) :: rest => value.slots (path.field key) ++ entrySlots path rest
termination_by structural entries => entries

end

mutual

/-- Replaces every identifier slot; the function is told its location. -/
def mapSlots (f : Path → Slot → Slot) (path : Path) : Value → Value
  | .identifier slot => .identifier (f path slot)
  | .mapping own entries => .mapping own (mapEntrySlots f own entries)
  | .sequence items => .sequence (mapItemSlots f path 0 items)
  | .null => .null
  | .bool value => .bool value
  | .integer value => .integer value
  | .float value => .float value
  | .text value => .text value
  | .duration milliseconds => .duration milliseconds
termination_by structural value => value

def mapItemSlots (f : Path → Slot → Slot) (path : Path) (position : Nat) :
    List Value → List Value
  | [] => []
  | item :: rest =>
      item.mapSlots f (path.index position) :: mapItemSlots f path (position + 1) rest
termination_by structural items => items

def mapEntrySlots (f : Path → Slot → Slot) (path : Path) :
    List (String × Value) → List (String × Value)
  | [] => []
  | (key, value) :: rest =>
      (key, value.mapSlots f (path.field key)) :: mapEntrySlots f path rest
termination_by structural entries => entries

end

mutual

/-- Shows a visitor every identifier slot inside a value, with its location. -/
def visitSlots {σ : Type} (visitor : Path → Slot → σ → σ) (path : Path) : Value → σ → σ
  | .identifier slot, state => visitor path slot state
  | .mapping own entries, state => visitEntrySlots visitor own entries state
  | .sequence items, state => visitItemSlots visitor path 0 items state
  | _, state => state
termination_by structural value => value

def visitItemSlots {σ : Type} (visitor : Path → Slot → σ → σ) (path : Path) (position : Nat) :
    List Value → σ → σ
  | [], state => state
  | item :: rest, state =>
      visitItemSlots visitor path (position + 1) rest
        (item.visitSlots visitor (path.index position) state)
termination_by structural items => items

def visitEntrySlots {σ : Type} (visitor : Path → Slot → σ → σ) (path : Path) :
    List (String × Value) → σ → σ
  | [], state => state
  | (key, value) :: rest, state =>
      visitEntrySlots visitor path rest (value.visitSlots visitor (path.field key) state)
termination_by structural entries => entries

end

mutual

/-- Shows a visitor every identifier slot inside a value, with its location, and puts what it
answers in the place of the slot. -/
def replaceSlots {σ : Type} (visitor : Path → Slot → σ → Slot × σ) (path : Path) :
    Value → σ → Value × σ
  | .identifier slot, state =>
      let (slot, state) := visitor path slot state
      (.identifier slot, state)
  | .mapping own entries, state =>
      let (entries, state) := replaceEntrySlots visitor own entries state
      (.mapping own entries, state)
  | .sequence items, state =>
      let (items, state) := replaceItemSlots visitor path 0 items state
      (.sequence items, state)
  | .null, state => (.null, state)
  | .bool value, state => (.bool value, state)
  | .integer value, state => (.integer value, state)
  | .float value, state => (.float value, state)
  | .text value, state => (.text value, state)
  | .duration milliseconds, state => (.duration milliseconds, state)
termination_by structural value => value

def replaceItemSlots {σ : Type} (visitor : Path → Slot → σ → Slot × σ) (path : Path)
    (position : Nat) : List Value → σ → List Value × σ
  | [], state => ([], state)
  | item :: rest, state =>
      let (item, state) := item.replaceSlots visitor (path.index position) state
      let (rest, state) := replaceItemSlots visitor path (position + 1) rest state
      (item :: rest, state)
termination_by structural items => items

def replaceEntrySlots {σ : Type} (visitor : Path → Slot → σ → Slot × σ) (path : Path) :
    List (String × Value) → σ → List (String × Value) × σ
  | [], state => ([], state)
  | (key, value) :: rest, state =>
      let (value, state) := value.replaceSlots visitor (path.field key) state
      let (rest, state) := replaceEntrySlots visitor path rest state
      ((key, value) :: rest, state)
termination_by structural entries => entries

end

end Value

namespace Node

/-- The identifier slots of a node with their locations, in document order. -/
def slots (node : Node) : List (Path × Slot) := Value.entrySlots node.path node.entries

/-- Replaces every identifier slot; the function is told its location. -/
def mapSlots (f : Path → Slot → Slot) (node : Node) : Node :=
  { node with entries := Value.mapEntrySlots f node.path node.entries }

/-- Shows a visitor every identifier slot of a node, with its location. -/
def visitSlots {σ : Type} (visitor : Path → Slot → σ → σ) (node : Node) (state : σ) : σ :=
  Value.visitEntrySlots visitor node.path node.entries state

/-- Shows a visitor every identifier slot of a node, with its location, and puts what it answers in
the place of the slot. -/
def replaceSlots {σ : Type} (visitor : Path → Slot → σ → Slot × σ) (node : Node) (state : σ) :
    Node × σ :=
  let (entries, state) := Value.replaceEntrySlots visitor node.path node.entries state
  ({ node with entries }, state)

/-- The names that a node refers to without declaring them. -/
def references (node : Node) : List String :=
  node.slots.filterMap fun (_, slot) => if slot.declares then none else slot.name

/-- The names that a node declares; a declaration that waits for its name is left
out. -/
def declarations (node : Node) : List String :=
  node.slots.filterMap fun (_, slot) => if slot.declares then slot.name else none

end Node

end Firmware
