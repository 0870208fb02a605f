/-
Schemas as JSON documents.  A record is an object, or an array of its fields in
order; a variant also has a tag, which comes first in an array.  Fields that
a record does not know are ignored, and none that it knows may be repeated.
-/
import ObjectPackage.Json.Parse
import ObjectPackage.Schema.Basic

namespace ObjectPackage

namespace JsonValue

/-- The values of named fields. -/
def fields? (names : List String) : JsonValue → Option (List (Option JsonValue))
  | .object members =>
      names.mapM fun name =>
        match members.filter fun member => member.key == name with
        | [] => some none
        | [member] => some (some member.value)
        | _ => none
  | .array items =>
      if items.length ≤ names.length then
        some (items.map some ++ List.replicate (names.length - items.length) none)
      else none
  | _ => none

/-- The tag of a variant and the record beside it. -/
def tagged? (key : String) : JsonValue → Option (JsonValue × JsonValue)
  | .object members =>
      match members.filter fun member => member.key == key with
      | [member] => some (member.value, .object (members.filter fun member => member.key != key))
      | _ => none
  | .array (tag :: items) => some (tag, .array items)
  | _ => none

/-- The variant that a tag names; inside another variant its number will do, too. -/
def variant? (inside : Bool) (names : List String) : JsonValue → Option String
  | .string text => if names.contains text then some text else none
  | tag => if inside then (tag.natural?).bind fun number => names[number]? else none

/-- A count has to fit 64 bits. -/
def count? (value : JsonValue) : Option Nat := do
  let number ← value.natural?
  if number < UInt64.size then some number else none

/-- A text field that may be left out. -/
def textOr? (default : String) : Option JsonValue → Option String
  | none => some default
  | some value => value.string?

end JsonValue

/-- Type kinds in the order of their numbers. -/
def typeKinds : List String :=
  ["byte", "int", "bool", "float", "name", "str", "object", "class", "struct", "fixed_array",
    "array", "map"]

def fieldKinds : List String := ["property", "struct"]

def defaultClass : String := "Object"

/-- Containers that a document may nest. -/
def maxNesting : Nat := 127

namespace TypeExpr

/-- A type nested at most `levels` deep. -/
def ofJson? : Nat → JsonValue → Option TypeExpr
  | 0, _ => none
  | levels + 1, json => do
      let (tag, record) ← json.tagged? "kind"
      let kind ← tag.variant? true typeKinds
      let plain (type : TypeExpr) : Option TypeExpr :=
        match record with
        | .array (_ :: _) => none
        | _ => some type
      match kind with
      | "byte" => plain .byte
      | "int" => plain .int
      | "bool" => plain .bool
      | "float" => plain .float
      | "name" => plain .name
      | "str" => plain .str
      | "object" =>
          match ← record.fields? ["class"] with
          | [className] => return .object (← JsonValue.textOr? defaultClass className)
          | _ => none
      | "class" =>
          match ← record.fields? ["meta_class"] with
          | [metaClass] => return .classRef (← JsonValue.textOr? defaultClass metaClass)
          | _ => none
      | "struct" =>
          match ← record.fields? ["name"] with
          | [some structName] => return .struct (← structName.string?)
          | _ => none
      | "fixed_array" =>
          match ← record.fields? ["inner", "count"] with
          | [some inner, some count] =>
              return .fixedArray (← ofJson? levels inner) (← count.count?)
          | _ => none
      | "array" =>
          match ← record.fields? ["inner"] with
          | [some inner] => return .array (← ofJson? levels inner)
          | _ => none
      | "map" =>
          match ← record.fields? ["key", "value"] with
          | [some key, some value] =>
              return .map (← ofJson? levels key) (← ofJson? levels value)
          | _ => none
      | _ => none

/-- A variant with its fields. -/
def variantJson (kind : String) (members : List JsonMember) : JsonValue :=
  .object (⟨"kind", .string kind⟩ :: members)

def toJson : TypeExpr → JsonValue
  | byte => variantJson "byte" []
  | int => variantJson "int" []
  | bool => variantJson "bool" []
  | float => variantJson "float" []
  | name => variantJson "name" []
  | str => variantJson "str" []
  | object className => variantJson "object" [⟨"class", .string className⟩]
  | classRef metaClass => variantJson "class" [⟨"meta_class", .string metaClass⟩]
  | struct structName => variantJson "struct" [⟨"name", .string structName⟩]
  | fixedArray element count =>
      variantJson "fixed_array" [⟨"inner", element.toJson⟩, ⟨"count", .ofNat count⟩]
  | array element => variantJson "array" [⟨"inner", element.toJson⟩]
  | map key value => variantJson "map" [⟨"key", key.toJson⟩, ⟨"value", value.toJson⟩]

end TypeExpr

namespace PropertyDecl

def ofJson? (json : JsonValue) : Option PropertyDecl := do
  match ← json.fields? ["name", "type", "array_dim", "flags"] with
  | [some name, some type, dimension, flags] =>
      let name ← name.string?
      let type ← TypeExpr.ofJson? maxNesting type
      let dimension ← match dimension with
        | none => some 1
        | some value => value.count?
      let flags ← match flags with
        | none => some PropertyFlags.empty
        | some value => value.string?.bind PropertyFlags.ofText?
      return ⟨name, type, dimension, flags⟩
  | _ => none

def members (decl : PropertyDecl) : List JsonMember :=
  [⟨"name", .string decl.name⟩, ⟨"type", decl.type.toJson⟩,
    ⟨"array_dim", .ofNat decl.dimension⟩, ⟨"flags", .string decl.flags.text⟩]

end PropertyDecl

mutual

/-- A struct with structs nested at most `levels` deep.  `inside` tells whether it is
itself nested in another. -/
def StructDecl.ofJson? (inside : Bool) : Nat → JsonValue → Option StructDecl
  | 0, _ => none
  | levels + 1, json => do
      match ← json.fields? ["name", "base", "fields"] with
      | [some name, base, fields] =>
          let name ← name.string?
          let base ← match base with
            | none => some none
            | some .null => some none
            | some value => value.string?.map some
          let fields ← match fields with
            | none => some []
            | some value => do (← value.array?).mapM (FieldDecl.ofJson? inside levels)
          return ⟨name, base, fields⟩
      | _ => none

/-- A field with structs nested at most `levels` deep. -/
def FieldDecl.ofJson? (inside : Bool) : Nat → JsonValue → Option FieldDecl
  | 0, _ => none
  | levels + 1, json => do
      let (tag, record) ← json.tagged? "field"
      match ← tag.variant? inside fieldKinds with
      | "property" => return .property (← PropertyDecl.ofJson? record)
      | "struct" => return .struct (← StructDecl.ofJson? true levels record)
      | _ => none

end

mutual

def StructDecl.members : StructDecl → List JsonMember
  | ⟨name, base, fields⟩ =>
      ⟨"name", .string name⟩ ::
        (match base with
        | none => []
        | some base => [⟨"base", .string base⟩]) ++
        [⟨"fields", .array (fieldsJson fields)⟩]

def fieldsJson : List FieldDecl → List JsonValue
  | [] => []
  | .property decl :: rest =>
      .object (⟨"field", .string "property"⟩ :: decl.members) :: fieldsJson rest
  | .struct decl :: rest =>
      .object (⟨"field", .string "struct"⟩ :: decl.members) :: fieldsJson rest

end

namespace Schema

/-- Whether the fields of a struct are usable as far down as they go.  What else the
struct holds beside its own fields does not matter. -/
def usableFields (json : JsonValue) : Bool :=
  match json.fields? ["name", "base", "fields"] with
  | some [_, _, some (.array fields)] => fields.all (JsonValue.usable (maxNesting - 4))
  | _ => true

def ofJson? (json : JsonValue) : Option Schema := do
  match ← json.fields? ["structs"] with
  | [some structs] =>
      let structs ← structs.array?
      if structs.all usableFields then
        return ⟨← structs.mapM (StructDecl.ofJson? false (2 * maxNesting))⟩
      else none
  | _ => none

def ofText? (text : String) : Option Schema := do
  ofJson? (← JsonValue.ofText? text)

def ofBytes? (bytes : List UInt8) : Option Schema := do
  ofJson? (← JsonValue.ofBytes? bytes)

/-- A document with every field written out, except a base that there is not. -/
def toJson (schema : Schema) : JsonValue :=
  .object [⟨"structs", .array (schema.structs.map fun decl => .object decl.members)⟩]

end Schema

end ObjectPackage
