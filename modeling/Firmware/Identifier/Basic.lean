import Firmware.Identifier.BaseName
/-!
Variables of generated code, and the places of a configuration that hold their
names.
-/

namespace Firmware

/-- A variable of the generated code. -/
structure Identifier where
  name : String
  type : String
  isPointer : Bool
deriving DecidableEq, Repr

/-- Whether a declared type is the expected one.  A bare type name stands for any
qualified name that ends in it. -/
def typesMatch (declared expected : String) : Bool :=
  declared == expected
    || (Text.lastSegment declared.toList == Text.lastSegment expected.toList
      && (!Text.isQualified declared.toList || !Text.isQualified expected.toList))

/-- A place in a normalized configuration that holds the name of a variable.  A
declaration introduces the variable and may still wait for its name; a reference
uses a variable that is declared elsewhere. -/
structure Slot where
  name : Option String
  type : String
  base : Option String
  declares : Bool
deriving DecidableEq, Repr

namespace Slot

/-- A declaration that waits for a name. -/
def automatic (type : String) (base : Option String) : Slot := ⟨none, type, base, true⟩

/-- A declaration of a chosen name. -/
def explicit (name type : String) : Slot := ⟨some name, type, none, true⟩

/-- A reference to a variable declared elsewhere. -/
def reference (name type : String) : Slot := ⟨some name, type, none, false⟩

/-- The name from which an automatic name is made. -/
def suggestion (slot : Slot) : String := slot.base.getD (baseName slot.type)

end Slot

end Firmware
