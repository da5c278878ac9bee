import Firmware.Identifier.Basic
import Firmware.Identifier.Name
import Firmware.OrderedSet
import Firmware.Problem
import Firmware.Table
/-!
The identifiers of a run.  Every name is given out once; a name that is taken gets
a numbered ending.  Identifiers are remembered by the location that asked for
them, so that asking again gives the same one.
-/

namespace Firmware

/-- The identifiers by name and by location, and the names kept back. -/
structure NameTable where
  byName : Table String Identifier
  byPath : Table Path Identifier
  kept : OrderedSet String
deriving Repr

namespace NameTable

def empty : NameTable := ⟨[], [], []⟩

/-- Keeps a name from being given out. -/
def reserve (table : NameTable) (name : String) : NameTable :=
  { table with kept := OrderedSet.add table.kept name }

/-- Whether a name is kept back, for this run or always. -/
def isReserved (table : NameTable) (name : String) : Bool :=
  reservedNames.contains name || table.kept.contains name

/-- Whether a name cannot be given out any more. -/
def isTaken (table : NameTable) (name : String) : Bool :=
  Table.contains table.byName name || table.isReserved name

/-- The base itself, then the base with the endings `_2`, `_3` and so on. -/
def candidate (base : String) (attempt : Nat) : String :=
  if attempt = 0 then base else base ++ "_" ++ toString (attempt + 1)

/-- How many names cannot be given out: no more candidates than this are taken. -/
def takenCount (table : NameTable) : Nat :=
  table.byName.length + reservedNames.length + table.kept.length

/-- The first candidate that is free. -/
def freeName (table : NameTable) (base : String) : String :=
  let attempts := List.range (table.takenCount + 1)
  candidate base ((attempts.find? fun k => !table.isTaken (candidate base k)).getD 0)

def numbered {γ : Type} [ToString γ] (base : String) (number : γ) : String :=
  base ++ "_" ++ toString number

/-- Where the search for a free name stands: before its first look, or behind the candidate of a
number, all of them taken so far, or at the name that it has found. -/
inductive Search (γ : Type)
  | begun
  | passed (counter : γ)
  | found (name : String)

/-- One look of the search: at the base, or at the candidate of the next number.  Nothing but a
free name ends it; `freeName` is the name that it ends with. -/
def Search.look {γ : Type} [Add γ] [OfNat γ 1] [ToString γ] (table : NameTable) (base : String) :
    Search γ → Search γ
  | .begun => if table.isTaken base then .passed 1 else .found base
  | .passed counter =>
      let name := numbered base (counter + 1)
      if table.isTaken name then .passed (counter + 1) else .found name
  | .found name => .found name

/-- Gives out an identifier under the first free name made from a base. -/
def allocate (table : NameTable) (base type : String) (isPointer : Bool) :
    Identifier × NameTable :=
  let name := table.freeName base
  let identifier : Identifier := ⟨name, type, isPointer⟩
  (identifier, { table with byName := Table.insert table.byName name identifier })

/-- The identifier of a location: the one it has, or a new one. -/
def allocateFor (table : NameTable) (path : Path) (base type : String)
    (isPointer : Bool) : Identifier × NameTable :=
  match Table.get? table.byPath path with
  | some identifier => (identifier, table)
  | none =>
      let (identifier, table) := table.allocate base type isPointer
      (identifier, { table with byPath := Table.insert table.byPath path identifier })

/-- The problem of a name that is declared although it is taken. -/
def duplicate (path : Path) (name : String) : Problem where
  kind := .duplicateId
  path := some path
  message := "the id `" ++ name ++ "` is declared more than once"

/-- Gives a location an identifier of a chosen name.  A location may declare its
own name again; otherwise the name has to be free. -/
def declare (table : NameTable) (path : Path) (name type : String) (isPointer : Bool) :
    Except Problem (Identifier × NameTable) :=
  let own := (Table.get? table.byPath path).filter (·.name == name)
  match own with
  | some identifier => .ok (identifier, table)
  | none =>
      if table.isTaken name then .error (duplicate path name)
      else
        let identifier : Identifier := ⟨name, type, isPointer⟩
        .ok (identifier,
          { table with
            byName := Table.insert table.byName name identifier
            byPath := Table.insert table.byPath path identifier })

def lookup? (table : NameTable) (name : String) : Option Identifier :=
  Table.get? table.byName name

def at? (table : NameTable) (path : Path) : Option Identifier :=
  Table.get? table.byPath path

end NameTable

end Firmware
