/-
Typed writes.  A value is put behind what an output holds already; a value that has no
byte form is refused, and then the output stays as it was.
-/
import ObjectPackage.Stream.Encode

namespace ObjectPackage

/-- Actions that append to an output. -/
abbrev Write := ExceptT StreamError (StateM (List UInt8))

/-- Put a value behind what is there. -/
def Item.write (item : Item) : Write Unit := do
  match item.encode with
  | .ok added => modify fun output => output ++ added
  | .error error => throw error

end ObjectPackage
