/-!
Tables that keep the order in which their keys were first inserted.  Inserting
under a present key replaces its value in place.
-/

namespace Firmware

/-- Keys with their values, in insertion order. -/
abbrev Table (κ α : Type) := List (κ × α)

namespace Table

variable {κ α : Type} [DecidableEq κ]

def get? (table : Table κ α) (key : κ) : Option α :=
  (List.find? (fun entry => entry.1 = key) table).map (·.2)

def contains (table : Table κ α) (key : κ) : Bool := (get? table key).isSome

/-- The keys, in insertion order. -/
def keys (table : Table κ α) : List κ := List.map (·.1) table

def values (table : Table κ α) : List α := List.map (·.2) table

/-- Stores a value: in place under a present key, at the end under a new one. -/
def insert : Table κ α → κ → α → Table κ α
  | [], key, value => [(key, value)]
  | (k, v) :: rest, key, value =>
      if k = key then (key, value) :: rest else (k, v) :: insert rest key value

/-- The table that results from inserting entries one after another. -/
def ofList (entries : List (κ × α)) : Table κ α :=
  entries.foldl (fun table entry => insert table entry.1 entry.2) []

@[simp] theorem get?_nil (key : κ) : get? ([] : Table κ α) key = none := rfl

theorem get?_cons (k key : κ) (v : α) (rest : Table κ α) :
    get? ((k, v) :: rest) key = if k = key then some v else get? rest key := by
  by_cases h : k = key <;> simp [get?, h]

@[simp] theorem get?_insert_self (table : Table κ α) (key : κ) (value : α) :
    get? (insert table key value) key = some value := by
  induction table with
  | nil => simp [insert, get?_cons]
  | cons entry rest ih =>
      obtain ⟨k, v⟩ := entry
      by_cases hk : k = key
      · simp [insert, get?_cons, hk]
      · simp [insert, get?_cons, hk, ih]

theorem get?_insert_of_ne (table : Table κ α) {key other : κ} (value : α)
    (h : key ≠ other) : get? (insert table key value) other = get? table other := by
  induction table with
  | nil => simp [insert, get?_cons, h]
  | cons entry rest ih =>
      obtain ⟨k, v⟩ := entry
      by_cases hk : k = key
      · subst hk
        simp [insert, get?_cons, h]
      · simp [insert, get?_cons, hk, ih]

/-- Insertion keeps the keys and their order; only a new key is added, at the
end. -/
theorem keys_insert (table : Table κ α) (key : κ) (value : α) :
    keys (insert table key value)
      = if key ∈ keys table then keys table else keys table ++ [key] := by
  induction table with
  | nil => simp [insert, keys]
  | cons entry rest ih =>
      by_cases h : entry.1 = key
      · simp [insert, keys, h]
      · have hne : ¬ key = entry.1 := fun e => h e.symm
        simp only [keys] at ih
        by_cases hm : key ∈ List.map (·.1) rest <;>
          simp [insert, keys, h, hne, ih, hm]

end Table

end Firmware
