/-
Declarations of structs before their layout is known.
-/
import ObjectPackage.Property.TypeTag

namespace ObjectPackage

/-- A property type as it is declared; structs are named, not yet resolved. -/
inductive TypeExpr where
  | byte
  | int
  | bool
  | float
  | name
  | str
  | object (className : String)
  | classRef (metaClass : String)
  | struct (name : String)
  | fixedArray (element : TypeExpr) (count : Nat)
  | array (element : TypeExpr)
  | map (key value : TypeExpr)
deriving DecidableEq, Repr, Inhabited

structure PropertyDecl where
  name : String
  type : TypeExpr
  dimension : Nat
  flags : PropertyFlags
deriving DecidableEq, Repr, Inhabited

/-- A single element without flags. -/
def PropertyDecl.plain (name : String) (type : TypeExpr) : PropertyDecl :=
  ⟨name, type, 1, .empty⟩

mutual

inductive FieldDecl where
  | property (decl : PropertyDecl)
  | struct (decl : StructDecl)

structure StructDecl where
  name : String
  base : Option String
  fields : List FieldDecl

end

instance : Inhabited StructDecl := ⟨⟨"", none, []⟩⟩

instance : Inhabited FieldDecl := ⟨.property default⟩

structure Schema where
  structs : List StructDecl
deriving Inhabited

/-- A struct without a base that holds plain properties only. -/
def StructDecl.plain (name : String) (properties : List (String × TypeExpr)) : StructDecl :=
  ⟨name, none, properties.map fun (name, type) => .property (.plain name type)⟩

/-- Structs that every program knows. -/
def builtinStructs : List StructDecl :=
  [.plain "Vector" [("X", .float), ("Y", .float), ("Z", .float)],
    .plain "Rotator" [("Pitch", .int), ("Yaw", .int), ("Roll", .int)],
    .plain "Color" [("R", .byte), ("G", .byte), ("B", .byte), ("A", .byte)]]

end ObjectPackage
