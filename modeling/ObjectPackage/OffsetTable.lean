/-
Offsets of properties, looked up by struct and property name.
-/
import ObjectPackage.Registry

namespace ObjectPackage

structure PropertyOffset where
  offset : Nat
  mask : UInt32
deriving DecidableEq, Repr, Inhabited

/-- At most one place for each pair of folded names. -/
structure OffsetTable where
  entries : List ((String × String) × PropertyOffset)
deriving DecidableEq, Repr, Inhabited

namespace OffsetTable

def empty : OffsetTable := ⟨[]⟩

/-- Record a place; a later one for the same names replaces it. -/
def insert (table : OffsetTable) (key : String × String) (place : PropertyOffset) :
    OffsetTable :=
  ⟨table.entries.filter (fun entry => entry.1 != key) ++ [(key, place)]⟩

def addLayout (table : OffsetTable) (layout : StructLayout) : OffsetTable :=
  layout.properties.foldl
    (fun table property =>
      table.insert (foldCase layout.name, foldCase property.name)
        ⟨property.offset, property.mask⟩)
    table

def ofLayouts (layouts : List StructLayout) : OffsetTable :=
  layouts.foldl addLayout empty

def ofRegistry (registry : Registry) : OffsetTable :=
  ofLayouts registry.layouts

def find? (table : OffsetTable) (structName property : String) : Option PropertyOffset :=
  table.entries.lookup (foldCase structName, foldCase property)

def size (table : OffsetTable) : Nat :=
  table.entries.length

def isEmpty (table : OffsetTable) : Bool :=
  table.entries.isEmpty

end OffsetTable

end ObjectPackage
