/-
The parts of a value.  A struct and a fixed array are made of parts that lie
inside them; an array and a map own a buffer that is made of parts.  Everything
else is a leaf.  Statements about types are proved by induction on parts, so that
the twelve kinds of types come down to five ways of storing a value.
-/
import Mathlib
import ObjectPackage.Layout.Basic

namespace ObjectPackage

/-- A value inside a larger one. -/
structure Part where
  type : PropertyType
  offset : Nat
  mask : UInt32

def Property.parts (property : Property) : List Part :=
  (List.range property.dimension).map fun index =>
    ⟨property.type, property.elementOffset index, property.mask⟩

def memberParts (members : List Property) : List Part :=
  members.flatMap Property.parts

def elementParts (element : PropertyType) (count : Nat) : List Part :=
  (List.range count).map fun index => ⟨element, index * element.pitch, elementMask⟩

def entryPair (key value : PropertyType) (index : Nat) : List Part :=
  [⟨key, index * key.entryPitch value, elementMask⟩,
    ⟨value, index * key.entryPitch value + key.entryValueOffset value, elementMask⟩]

def entryParts (key value : PropertyType) (count : Nat) : List Part :=
  (List.range count).flatMap (entryPair key value)

@[simp]
theorem memberParts_nil : memberParts [] = [] := rfl

@[simp]
theorem memberParts_cons (member : Property) (rest : List Property) :
    memberParts (member :: rest) = member.parts ++ memberParts rest := rfl

theorem mem_parts {property : Property} {part : Part} :
    part ∈ property.parts ↔ ∃ index < property.dimension,
      part = ⟨property.type, property.elementOffset index, property.mask⟩ := by
  simp [Property.parts, eq_comm]

theorem mem_memberParts {members : List Property} {part : Part} :
    part ∈ memberParts members ↔ ∃ member ∈ members, part ∈ member.parts := by
  simp [memberParts]

theorem mem_elementParts {element : PropertyType} {count : Nat} {part : Part} :
    part ∈ elementParts element count ↔
      ∃ index < count, part = ⟨element, index * element.pitch, elementMask⟩ := by
  simp [elementParts, eq_comm]

theorem mem_entryParts {key value : PropertyType} {count : Nat} {part : Part} :
    part ∈ entryParts key value count ↔ ∃ index < count, part ∈ entryPair key value index := by
  simp [entryParts]

/-- How a value is stored.  Scalars are bytes that mean nothing to the store, a bool
is bits of a word, a text and a container are reached through a handle, and an
inline value is nothing but its parts. -/
inductive Storage where
  | scalar
  | bits
  | text
  | inline
  | container
deriving DecidableEq, Repr, Inhabited

namespace PropertyType

def storage : PropertyType → Storage
  | byte | int | float | name | object _ | classRef _ => .scalar
  | bool => .bits
  | str => .text
  | struct _ | fixedArray _ _ => .inline
  | array _ | map _ _ => .container

/-- The parts that lie inside a value. -/
def parts : PropertyType → List Part
  | struct layout => memberParts layout.properties
  | fixedArray element count => elementParts element count
  | _ => []

/-- The parts of the buffer that a container of `count` units owns. -/
def unitParts (count : Nat) : PropertyType → List Part
  | array element => elementParts element count
  | map key value => entryParts key value count
  | _ => []

/-- Bytes of one unit of the buffer of a container. -/
def unitPitch : PropertyType → Nat
  | array element => element.pitch
  | map key value => key.entryPitch value
  | _ => 0

theorem size_of_container {type : PropertyType} (h : type.storage = .container) :
    type.size = handleSize := by
  cases type <;> first | rfl | cases h

theorem ne_bool {type : PropertyType} (h : type.storage ≠ .bits) : type ≠ .bool := by
  rintro rfl
  exact h rfl

/-- A property of types that every type inherits from the types it is made of. -/
private structure Hereditary (motive : PropertyType → Prop) : Prop where
  leaf : ∀ type : PropertyType, type.storage ≠ .inline → type.storage ≠ .container → motive type
  struct : ∀ layout : StructLayout, (∀ member ∈ layout.properties, motive member.type) →
    motive (.struct layout)
  fixedArray : ∀ (element : PropertyType) (count : Nat), motive element →
    motive (.fixedArray element count)
  array : ∀ element : PropertyType, motive element → motive (.array element)
  map : ∀ key value : PropertyType, motive key → motive value → motive (.map key value)

mutual

private theorem Hereditary.type {motive : PropertyType → Prop} (h : Hereditary motive) :
    ∀ type : PropertyType, motive type
  | .byte => h.leaf _ nofun nofun
  | .int => h.leaf _ nofun nofun
  | .bool => h.leaf _ nofun nofun
  | .float => h.leaf _ nofun nofun
  | .name => h.leaf _ nofun nofun
  | .str => h.leaf _ nofun nofun
  | .object _ => h.leaf _ nofun nofun
  | .classRef _ => h.leaf _ nofun nofun
  | .struct ⟨_, _, properties, _, _, _, _⟩ => h.struct _ (h.members properties)
  | .fixedArray element _ => h.fixedArray _ _ (h.type element)
  | .array element => h.array _ (h.type element)
  | .map key value => h.map _ _ (h.type key) (h.type value)

private theorem Hereditary.members {motive : PropertyType → Prop} (h : Hereditary motive) :
    ∀ (members : List Property), ∀ member ∈ members, motive member.type
  | [], _, hmember => by cases hmember
  | ⟨_, _, _, type, _, _, _, _⟩ :: rest, member, hmember => by
      have htype := h.type type
      rcases List.mem_cons.mp hmember with rfl | hmember
      · exact htype
      · exact h.members rest member hmember

end

/-- Induction on the types that a type is made of. -/
theorem induction_on_types {motive : PropertyType → Prop}
    (leaf : ∀ type : PropertyType, type.storage ≠ .inline → type.storage ≠ .container →
      motive type)
    (struct : ∀ layout : StructLayout, (∀ member ∈ layout.properties, motive member.type) →
      motive (.struct layout))
    (fixedArray : ∀ (element : PropertyType) (count : Nat), motive element →
      motive (.fixedArray element count))
    (array : ∀ element : PropertyType, motive element → motive (.array element))
    (map : ∀ key value : PropertyType, motive key → motive value → motive (.map key value))
    (type : PropertyType) : motive type :=
  Hereditary.type ⟨leaf, struct, fixedArray, array, map⟩ type

/-- Induction on the parts of a type. -/
theorem induction_on {motive : PropertyType → Prop}
    (scalar : ∀ type : PropertyType, type.storage = .scalar → motive type)
    (bits : motive .bool) (text : motive .str)
    (inline : ∀ type : PropertyType, type.storage = .inline →
      (∀ part ∈ type.parts, motive part.type) → motive type)
    (container : ∀ type : PropertyType, type.storage = .container →
      (∀ count, ∀ part ∈ type.unitParts count, motive part.type) → motive type)
    (type : PropertyType) : motive type := by
  induction type using PropertyType.induction_on_types with
  | leaf type hinline hcontainer =>
      cases type with
      | bool => exact bits
      | str => exact text
      | struct _ | fixedArray _ _ => exact absurd rfl hinline
      | array _ | map _ _ => exact absurd rfl hcontainer
      | _ => exact scalar _ rfl
  | struct layout ih =>
      refine inline _ rfl fun part hpart => ?_
      obtain ⟨member, hmember, hpart⟩ := mem_memberParts.mp hpart
      obtain ⟨_, _, rfl⟩ := mem_parts.mp hpart
      exact ih member hmember
  | fixedArray element count ih =>
      refine inline _ rfl fun part hpart => ?_
      obtain ⟨_, _, rfl⟩ := mem_elementParts.mp hpart
      exact ih
  | array element ih =>
      refine container _ rfl fun count part hpart => ?_
      obtain ⟨_, _, rfl⟩ := mem_elementParts.mp hpart
      exact ih
  | map key value hkey hvalue =>
      refine container _ rfl fun count part hpart => ?_
      obtain ⟨_, _, hpart⟩ := mem_entryParts.mp hpart
      simp only [entryPair, List.mem_cons, List.not_mem_nil, or_false] at hpart
      rcases hpart with rfl | rfl
      · exact hkey
      · exact hvalue

/-- Induction on the parts that lie inside a value. -/
theorem induction_on_inline {motive : PropertyType → Prop}
    (leaf : ∀ type : PropertyType, type.storage ≠ .inline → motive type)
    (inline : ∀ type : PropertyType, type.storage = .inline →
      (∀ part ∈ type.parts, motive part.type) → motive type)
    (type : PropertyType) : motive type := by
  induction type using PropertyType.induction_on with
  | scalar type h => exact leaf type (by simp [h])
  | bits => exact leaf .bool (by decide)
  | text => exact leaf .str (by decide)
  | inline type h ih => exact inline type h ih
  | container type h _ => exact leaf type (by simp [h])

end PropertyType

end ObjectPackage
