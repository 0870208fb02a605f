/-
What can go wrong while property values are stored, loaded or saved.
-/
import ObjectPackage.Property.TypeTag
import ObjectPackage.Stream.Error

namespace ObjectPackage

inductive PropertyError where
  | typeMismatch (property : String) (expected found : TypeTag)
  | structMismatch (property expected found : String)
  | indexOutOfRange (property : String) (index dimension : Nat)
  | sizeMismatch (property : String) (declared consumed : Nat)
  | unsupportedBoolArray (property : String)
  | foreignProperty (property layout : String)
  | valueMismatch (expected found : String)
  | layoutMismatch (expected found : String)
  | outOfBounds (offset length size : Nat)
  | danglingHandle (slot : Nat)
  | invalidCount (count : Int) (remaining : Nat)
  | payload (property : String) (cause : StreamError)
  | stream (cause : StreamError)
deriving DecidableEq, Repr, Inhabited

namespace PropertyError

def message : PropertyError → String
  | typeMismatch property expected found =>
      s!"property {property}: stream tag " ++ found.display ++
        " does not match declared " ++ expected.display
  | structMismatch property expected found =>
      s!"property {property}: stream struct {found} does not match declared {expected}"
  | indexOutOfRange property index dimension =>
      s!"property {property}: array index {index} outside dimension {dimension}"
  | sizeMismatch property declared consumed =>
      s!"property {property}: header declared {declared} payload bytes but {consumed} were read"
  | unsupportedBoolArray property =>
      s!"property {property}: bool arrays cannot be written as tagged entries"
  | foreignProperty property layout =>
      s!"property {property} does not belong to layout {layout}"
  | valueMismatch expected found =>
      s!"value of kind {found} cannot be stored in a {expected} property"
  | layoutMismatch expected found =>
      s!"default block of {found} cannot seed a block of {expected}"
  | outOfBounds offset length size =>
      s!"access of {length} bytes at offset {offset} exceeds region size {size}"
  | danglingHandle slot => s!"heap handle {slot} does not refer to a live value"
  | invalidCount count remaining =>
      s!"container count {count} is invalid with {remaining} bytes left"
  | payload property cause => s!"property {property}: " ++ cause.message
  | stream cause => cause.message

/-- A bare stream error is reported with the property it was met in. -/
def inProperty (property : String) : PropertyError → PropertyError
  | stream cause => payload property cause
  | error => error

end PropertyError

end ObjectPackage
