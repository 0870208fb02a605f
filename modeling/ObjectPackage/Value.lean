/-
Property values apart from any storage, and their text.
-/
import ObjectPackage.FixedPoint
import ObjectPackage.Package

namespace ObjectPackage

mutual

inductive Value where
  | byte (value : UInt8)
  | int (value : Int32)
  | bool (value : Bool)
  | float (bits : UInt32)
  | name (id : NameId)
  | object (handle : ObjectHandle)
  | str (text : String)
  | struct (members : List MemberValue)
  | array (items : List Value)
  | map (entries : List EntryValue)

/-- The elements of one member of a struct. -/
structure MemberValue where
  name : String
  values : List Value

structure EntryValue where
  key : Value
  value : Value

end

instance : Inhabited Value := ⟨.byte 0⟩

namespace Value

def kind : Value → String
  | byte _ => "byte"
  | int _ => "int"
  | bool _ => "bool"
  | float _ => "float"
  | name _ => "name"
  | object _ => "object"
  | str _ => "str"
  | struct _ => "struct"
  | array _ => "array"
  | map _ => "map"

/-- Parts in parentheses, separated by commas. -/
def listText (parts : List String) : String :=
  "(" ++ ",".intercalate parts ++ ")"

/-- A member that has one element is written without an index. -/
def memberTexts (name : String) : List String → List String
  | [single] => [name ++ "=" ++ single]
  | texts => texts.zipIdx.map fun (text, index) => s!"{name}[{index}]=" ++ text

mutual

def render (package : Package) : Value → String
  | byte value => toString value.toNat
  | int value => toString value.toInt
  | bool true => "True"
  | bool false => "False"
  | float bits => floatText bits
  | name id => (package.names.get? id).getD "None"
  | object handle => package.objects.describe handle package.names
  | str text => "\"" ++ text ++ "\""
  | struct members => listText (renderMembers package members)
  | array items => listText (renderAll package items)
  | map entries => listText (renderEntries package entries)

def renderAll (package : Package) : List Value → List String
  | [] => []
  | value :: rest => value.render package :: renderAll package rest

def renderMembers (package : Package) : List MemberValue → List String
  | [] => []
  | ⟨member, values⟩ :: rest =>
      memberTexts member (renderAll package values) ++ renderMembers package rest

def renderEntries (package : Package) : List EntryValue → List String
  | [] => []
  | ⟨key, value⟩ :: rest =>
      (key.render package ++ "=" ++ value.render package) :: renderEntries package rest

end

end Value

end ObjectPackage
