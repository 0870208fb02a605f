/-
Property types and struct layouts: what a struct holds and where.  A layout
lists the properties of its bases first and its own after them, each with the
place it has in a block.
-/
import ObjectPackage.Bytes
import ObjectPackage.Property.TypeTag

namespace ObjectPackage

mutual

inductive PropertyType where
  | byte
  | int
  | bool
  | float
  | name
  | str
  | object (className : String)
  | classRef (metaClass : String)
  | struct (layout : StructLayout)
  | fixedArray (element : PropertyType) (count : Nat)
  | array (element : PropertyType)
  | map (key value : PropertyType)

/-- A placed property.  The realm tells declarations of different registries apart
that have the same owner and name. -/
structure Property where
  realm : Nat
  owner : String
  name : String
  type : PropertyType
  dimension : Nat
  flags : PropertyFlags
  offset : Nat
  mask : UInt32

structure StructLayout where
  name : String
  base : Option StructLayout
  properties : List Property
  ownStart : Nat
  nested : List StructLayout
  size : Nat
  alignment : Nat

end

instance : Inhabited PropertyType := ⟨.byte⟩

instance : Inhabited Property := ⟨⟨0, "", "", .byte, 1, .empty, 0, 0⟩⟩

instance : Inhabited StructLayout := ⟨⟨"", none, [], 0, [], 0, 1⟩⟩

/-- The mask of a bool that has a word of its own. -/
def elementMask : UInt32 := 1

namespace PropertyType

def tag : PropertyType → TypeTag
  | byte => .byte
  | int => .int
  | bool => .bool
  | float => .float
  | name => .name
  | str => .str
  | object _ => .object
  | classRef _ => .classRef
  | struct _ => .struct
  | fixedArray _ _ => .fixedArray
  | array _ => .array
  | map _ _ => .map

def kind : PropertyType → String
  | byte => "byte"
  | int => "int"
  | bool => "bool"
  | float => "float"
  | name => "name"
  | str => "str"
  | object _ => "object"
  | classRef _ => "class"
  | struct _ => "struct"
  | fixedArray _ _ => "fixed array"
  | array _ => "array"
  | map _ _ => "map"

def display : PropertyType → String
  | byte => "Byte"
  | int => "Int"
  | bool => "Bool"
  | float => "Float"
  | name => "Name"
  | str => "Str"
  | object className => s!"Object<{className}>"
  | classRef metaClass => s!"Class<{metaClass}>"
  | struct layout => "Struct<" ++ layout.name ++ ">"
  | fixedArray element count => element.display ++ s!"[{count}]"
  | array element => "Array<" ++ element.display ++ ">"
  | map key value => "Map<" ++ key.display ++ ", " ++ value.display ++ ">"

def isBool : PropertyType → Bool
  | bool => true
  | _ => false

def struct? : PropertyType → Option StructLayout
  | struct layout => some layout
  | _ => none

def isStruct (type : PropertyType) : Bool :=
  type.struct?.isSome

def alignment : PropertyType → Nat
  | byte => 1
  | int | bool | float | name => 4
  | str | object _ | classRef _ | array _ | map _ _ => handleSize
  | struct layout => layout.alignment
  | fixedArray element _ => element.alignment

def size : PropertyType → Nat
  | byte => 1
  | int | bool | float | name => 4
  | str | object _ | classRef _ | array _ | map _ _ => handleSize
  | struct layout => layout.size
  | fixedArray element count => alignUp element.size element.alignment * count

/-- Distance between neighbouring elements of this type. -/
def pitch (type : PropertyType) : Nat :=
  alignUp type.size type.alignment

/-- Place of the value in an entry of a map. -/
def entryValueOffset (key value : PropertyType) : Nat :=
  alignUp key.size value.alignment

/-- Distance between neighbouring entries of a map. -/
def entryPitch (key value : PropertyType) : Nat :=
  alignUp (entryValueOffset key value + value.size) (max key.alignment value.alignment)

/-- Tags under which a value of this type may be stored.  Text may also have the
old string tag, and the two geometry structs have tags of their own. -/
def accepts (type : PropertyType) (tag : TypeTag) : Bool :=
  match type, tag with
  | str, .string => true
  | struct layout, .vector => sameName layout.name "Vector"
  | struct layout, .rotator => sameName layout.name "Rotator"
  | type, tag => type.tag == tag

end PropertyType

namespace Property

/-- Bytes that all elements of a property take. -/
def size (property : Property) : Nat :=
  property.type.pitch * property.dimension

def elementOffset (property : Property) (index : Nat) : Nat :=
  property.offset + index * property.type.pitch

/-- Two properties are the same declaration, whatever layouts they were found in. -/
def sameDeclaration (left right : Property) : Bool :=
  left.realm == right.realm && left.owner == right.owner && left.name == right.name

end Property

namespace StructLayout

def ownProperties (layout : StructLayout) : List Property :=
  layout.properties.drop layout.ownStart

/-- The last declared property of a name. -/
def findProperty? (layout : StructLayout) (name : String) : Option Property :=
  layout.properties.reverse.find? fun property => sameName property.name name

/-- The last declared property of a name that is a struct or not, as wanted; the
last one of that name where there is none. -/
def findTagged? (layout : StructLayout) (name : String) (wantsStruct : Bool) :
    Option Property :=
  let candidates := layout.properties.reverse.filter fun property =>
    sameName property.name name
  (candidates.find? fun property => property.type.isStruct == wantsStruct).or
    candidates.head?

mutual

/-- A layout is a struct if it or one of its bases has that name. -/
def isA (name : String) : StructLayout → Bool
  | ⟨own, base, _, _, _, _, _⟩ => sameName own name || baseIsA name base

def baseIsA (name : String) : Option StructLayout → Bool
  | none => false
  | some base => base.isA name

end

/-- A layout contains the very declaration of a property. -/
def contains (layout : StructLayout) (property : Property) : Bool :=
  layout.properties.any fun candidate => candidate.sameDeclaration property

end StructLayout

end ObjectPackage
