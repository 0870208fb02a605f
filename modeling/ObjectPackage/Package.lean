/-
A package: its format version and the two tables that names and object
references in its streams index into.
-/
import ObjectPackage.ObjectTable

namespace ObjectPackage

structure Package where
  version : UInt32
  names : NameTable
  objects : ObjectTable
deriving DecidableEq, Repr, Inhabited

end ObjectPackage
