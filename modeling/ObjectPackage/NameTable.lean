/-
The name table of a package.  Names keep the slot they were given and are
looked up without regard to ASCII case, so a spelling that is stored twice
is found at its first slot only.
-/
import ObjectPackage.Text

namespace ObjectPackage

/-- Position of a name in the table of its package. -/
structure NameId where
  val : UInt32
deriving DecidableEq, Repr, Inhabited

def NameId.index (id : NameId) : Nat :=
  id.val.toNat

def NameId.ofIndex (index : Nat) : NameId :=
  ⟨UInt32.ofNat index⟩

/-- The spelling that ends property lists and label tables. -/
def noneName : String := "None"

structure NameTable where
  names : List String
deriving DecidableEq, Repr, Inhabited

namespace NameTable

/-- A new table already holds the terminator at slot zero. -/
def initial : NameTable := ⟨[noneName]⟩

def size (table : NameTable) : Nat :=
  table.names.length

def get? (table : NameTable) (id : NameId) : Option String :=
  table.names[id.index]?

/-- First slot whose text is the given name. -/
def find? (table : NameTable) (name : String) : Option NameId :=
  (table.names.findIdx? (sameName name)).map NameId.ofIndex

/-- The slot of a name, appended at the end unless some spelling is there already. -/
def intern (table : NameTable) (name : String) : NameId × NameTable :=
  match table.find? name with
  | some id => (id, table)
  | none => (NameId.ofIndex table.size, ⟨table.names ++ [name]⟩)

def internAll (table : NameTable) (names : List String) : NameTable :=
  names.foldl (fun table name => (table.intern name).2) table

/-- Slots spelled as the terminator, in any case. -/
def isNone (table : NameTable) (id : NameId) : Bool :=
  match table.get? id with
  | some name => sameName name noneName
  | none => false

def toList (table : NameTable) : List (NameId × String) :=
  table.names.zipIdx.map fun (name, index) => (NameId.ofIndex index, name)

theorem intern_of_find?_eq_some {table : NameTable} {name : String} {id : NameId}
    (h : table.find? name = some id) : table.intern name = (id, table) := by
  simp [intern, h]

theorem intern_of_find?_eq_none {table : NameTable} {name : String}
    (h : table.find? name = none) :
    table.intern name = (NameId.ofIndex table.size, ⟨table.names ++ [name]⟩) := by
  simp [intern, h]

end NameTable

end ObjectPackage
