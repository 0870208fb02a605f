/-
Placing the fields of a struct.  Base properties keep their places, own ones
follow in order of declaration, and neighbouring bools share words of 32 bits.
-/
import ObjectPackage.Layout.Basic

namespace ObjectPackage

inductive LayoutError where
  | malformedName (name : String)
  | duplicateStruct (name : String)
  | duplicateProperty (structName property : String)
  | invalidDimension (structName property : String)
  | unknownStruct (name : String)
  | recursiveStruct (name : String)
  | depthExceeded (structName : String) (depth : Nat)
  | propertyOverflow (structName property : String) (last size : Nat)
deriving DecidableEq, Repr, Inhabited

def LayoutError.message : LayoutError → String
  | malformedName name => s!"malformed declared name '{name}'"
  | duplicateStruct name => s!"struct {name} is registered twice"
  | duplicateProperty structName property => s!"struct {structName} declares {property} twice"
  | invalidDimension structName property => s!"{structName}.{property} has array dimension 0"
  | unknownStruct name => s!"unknown struct {name}"
  | recursiveStruct name => s!"struct {name} refers to itself while being resolved"
  | depthExceeded structName depth =>
      s!"resolving {structName} nests deeper than {depth} structs"
  | propertyOverflow structName property last size =>
      s!"{structName}.{property} ends at byte {last}, past the struct size {size}"

/-- A field with its types resolved. -/
inductive LayoutField where
  | property (name : String) (type : PropertyType) (dimension : Nat) (flags : PropertyFlags)
  | nested (layout : StructLayout)

def boolWord : Nat := 4

def wordBits : Nat := 32

/-- Struct sizes are multiples of this many bytes. -/
def blockGrain : Nat := 8

/-- The geometry structs are not padded to a whole grain. -/
def sizeGrain (name : String) : Nat :=
  if sameName name "Vector" || sameName name "Rotator" then 4 else blockGrain

/-- A bool word with free bits: where it is and the first free bit. -/
structure OpenWord where
  offset : Nat
  bit : Nat
deriving DecidableEq, Repr, Inhabited

/-- A layout under construction. -/
structure LayoutDraft where
  properties : List Property
  nested : List StructLayout
  names : List String
  offset : Nat
  alignment : Nat
  word : Option OpenWord

namespace LayoutDraft

def start (base : Option StructLayout) : LayoutDraft :=
  match base with
  | none => ⟨[], [], [], 0, 1, none⟩
  | some base => ⟨base.properties, [], [], base.size, base.alignment, none⟩

/-- Give a bool the next free bit of the open word, or the first bit of a new one. -/
def placeBool (draft : LayoutDraft) : Nat × UInt32 × LayoutDraft :=
  match draft.word with
  | some ⟨offset, bit⟩ =>
      let word := if bit + 1 < wordBits then some ⟨offset, bit + 1⟩ else none
      (offset, UInt32.ofNat (1 <<< bit), { draft with word := word })
  | none =>
      let offset := alignUp draft.offset boolWord
      (offset, elementMask,
        { draft with offset := offset + boolWord, word := some ⟨offset, 1⟩ })

/-- Put the elements of a property behind everything placed so far. -/
def placeElements (draft : LayoutDraft) (type : PropertyType) (dimension : Nat) :
    Nat × UInt32 × LayoutDraft :=
  let offset := alignUp draft.offset type.alignment
  (offset, if type.isBool then elementMask else 0,
    { draft with offset := offset + type.pitch * dimension, word := none })

def place (draft : LayoutDraft) (type : PropertyType) (dimension : Nat) :
    Nat × UInt32 × LayoutDraft :=
  if type.isBool && dimension == 1 then draft.placeBool
  else draft.placeElements type dimension

def add (realm : Nat) (owner : String) (draft : LayoutDraft) :
    LayoutField → Except LayoutError LayoutDraft
  | .nested layout => .ok { draft with nested := draft.nested ++ [layout], word := none }
  | .property name type dimension flags =>
      if !isIdentifier name then .error (.malformedName name)
      else if draft.names.contains (foldCase name) then
        .error (.duplicateProperty owner name)
      else if dimension = 0 then .error (.invalidDimension owner name)
      else
        let (offset, mask, placed) := draft.place type dimension
        .ok { placed with
          properties :=
            draft.properties ++ [⟨realm, owner, name, type, dimension, flags, offset, mask⟩]
          names := draft.names ++ [foldCase name]
          alignment := max draft.alignment type.alignment }

end LayoutDraft

/-- Lay a struct out.  The realm marks its own properties. -/
def buildLayout (realm : Nat) (name : String) (base : Option StructLayout)
    (fields : List LayoutField) : Except LayoutError StructLayout :=
  if !isIdentifier name then .error (.malformedName name)
  else do
    let draft ← fields.foldlM (LayoutDraft.add realm name) (LayoutDraft.start base)
    let size := alignUp draft.offset (sizeGrain name)
    match draft.properties.find? fun property => size < property.offset + property.size with
    | some property =>
        .error (.propertyOverflow name property.name (property.offset + property.size) size)
    | none =>
        .ok {
          name := name
          base := base
          properties := draft.properties
          ownStart := (LayoutDraft.start base).properties.length
          nested := draft.nested
          size := size
          alignment := draft.alignment }

end ObjectPackage
