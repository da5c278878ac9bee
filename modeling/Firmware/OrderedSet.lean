/-!
Sets that keep the order in which their elements were added.
-/

namespace Firmware

/-- The elements of a set, in the order of their addition. -/
abbrev OrderedSet (α : Type) := List α

namespace OrderedSet

variable {α : Type} [DecidableEq α]

/-- Adds an element at the end unless it is present. -/
def add (set : OrderedSet α) (element : α) : OrderedSet α :=
  if element ∈ set then set else set ++ [element]

/-- The set of the elements of a list, in the order of their first occurrence. -/
def ofList (elements : List α) : OrderedSet α := elements.foldl add []

/-- Equality of sets, which disregards the order of their elements. -/
def eqv (left right : OrderedSet α) : Bool :=
  left.length == right.length && left.all fun element => decide (element ∈ right)

theorem mem_add {set : OrderedSet α} {element other : α} :
    other ∈ add set element ↔ other ∈ set ∨ other = element := by
  by_cases h : element ∈ set
  · have absorbed : other = element → other ∈ set := fun e => e ▸ h
    simpa [add, h] using absorbed
  · simp [add, h]

theorem foldl_add_of_nodup {set : OrderedSet α} {elements : List α}
    (h : (set ++ elements).Nodup) : elements.foldl add set = set ++ elements := by
  induction elements generalizing set with
  | nil => simp
  | cons element rest ih =>
      have hfresh : element ∉ set := by
        intro hmem
        have happart := (List.nodup_append.mp h).2.2
        exact happart element hmem element List.mem_cons_self rfl
      have hadded : add set element = set ++ [element] := if_neg hfresh
      rw [List.foldl_cons, hadded, ih (by simpa using h)]
      simp

theorem ofList_eq_self {elements : List α} (h : elements.Nodup) : ofList elements = elements :=
  foldl_add_of_nodup h

end OrderedSet

end Firmware
