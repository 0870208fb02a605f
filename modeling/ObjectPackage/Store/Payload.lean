/-
The stream form of stored values: loading a value into its place, and the
bytes that a value is saved as.
-/
import ObjectPackage.Store.Typed
import ObjectPackage.Stream.Encode
import ObjectPackage.Stream.Read

namespace ObjectPackage

/-- A store that is filled from a stream. -/
structure Filling where
  store : Store
  cursor : Cursor
deriving DecidableEq, Repr, Inhabited

/-- Loading from a stream.  What was loaded before a failure stays. -/
abbrev Load := ExceptT PropertyError (StateM Filling)

def Filling.run {α : Type} (state : Filling) (action : Load α) :
    Except PropertyError α × Filling :=
  (ExceptT.run action).run state

namespace Load

def read {α : Type} (action : Read α) : Load α := do
  let state ← get
  let (result, cursor) := state.cursor.read action
  set { state with cursor := cursor }
  match result with
  | .ok value => return value
  | .error error => throw (.stream error)

def update {α : Type} (action : Update α) : Load α := do
  let state ← get
  let (result, store) := state.store.update action
  set { state with store := store }
  match result with
  | .ok value => return value
  | .error error => throw error

/-- Number of elements of a container.  An element may take no bytes at all, yet no
count above the number of bytes left is accepted. -/
def count : Load Nat := do
  let count := (← read Read.index).toInt
  let rest := (← get).cursor.rest
  if count < 0 ∨ (rest.take count.toNat).length < count.toNat then
    throw (.invalidCount count rest.length)
  return count.toNat

end Load

namespace PropertyType

mutual

/-- Load a value.  Containers are released once their new count is known. -/
def load (package : Package) (location : Location) (mask : UInt32) :
    PropertyType → Load Unit
  | .byte => do
      let value ← Load.read Read.u8
      Load.update (Update.write location [value])
  | .int => do
      let value ← Load.read Read.u32
      Load.update (Update.writeWord location 4 value.toNat)
  | .bool => do
      let value ← Load.read Read.u8
      Load.update (Update.setBool location mask (value != 0))
  | .float => do
      let value ← Load.read Read.u32
      Load.update (Update.writeWord location 4 value.toNat)
  | .name => do
      let id ← Load.read (Read.name package.names)
      Load.update (Update.writeWord location 4 id.val.toNat)
  | .object _ => do
      let handle ← Load.read (Read.handle package.objects)
      Load.update (Update.writeWord location 8 handle.bits.toNat)
  | .classRef _ => do
      let handle ← Load.read (Read.handle package.objects)
      Load.update (Update.writeWord location 8 handle.bits.toNat)
  | .str => do
      let text ← Load.read Read.string
      Load.update (release location mask .str)
      Load.update (Update.ownText location text)
  | .struct ⟨_, _, properties, _, _, _, _⟩ => loadMembers package location properties
  | .fixedArray element count =>
      forIndices count fun index =>
        element.load package (location.shift (index * element.pitch)) elementMask
  | .array element => do
      let count ← Load.count
      Load.update (release location mask (.array element))
      let slot ← Load.update (Update.ownElements location count element.pitch)
      forIndices count fun index =>
        element.load package (.element slot (index * element.pitch)) elementMask
  | .map key value => do
      let count ← Load.count
      Load.update (release location mask (.map key value))
      let slot ← Load.update (Update.ownElements location count (entryPitch key value))
      forIndices count fun index => do
        let offset := index * entryPitch key value
        key.load package (.element slot offset) elementMask
        value.load package (.element slot (offset + entryValueOffset key value)) elementMask

def loadMembers (package : Package) (location : Location) : List Property → Load Unit
  | [] => pure ()
  | member@⟨_, _, _, type, dimension, _, _, mask⟩ :: rest => do
      forIndices dimension fun index =>
        type.load package (location.shift (member.elementOffset index)) mask
      loadMembers package location rest

end

mutual

/-- The bytes a value of this type is saved as.  Only dynamic containers carry a
count; struct members are saved in layout order. -/
def encode : PropertyType → Value → List UInt8
  | _, .byte value => Encode.u8 value
  | _, .int value => Encode.i32 value
  | _, .bool value => Encode.u8 (if value then 1 else 0)
  | _, .float bits => Encode.u32 bits
  | _, .name id => Encode.name id
  | _, .object handle => Encode.object handle.toRef
  | _, .str text => Encode.string text
  | .struct ⟨_, _, properties, _, _, _, _⟩, .struct members =>
      encodeMembers properties members
  | .fixedArray element _, .array items => items.flatMap element.encode
  | .array element, .array items =>
      Encode.index (Int32.ofNat items.length) ++ items.flatMap element.encode
  | .map key value, .map entries =>
      Encode.index (Int32.ofNat entries.length) ++
        entries.flatMap fun entry => key.encode entry.key ++ value.encode entry.value
  | _, _ => []

def encodeMembers : List Property → List MemberValue → List UInt8
  | ⟨_, _, _, type, _, _, _, _⟩ :: properties, member :: members =>
      member.values.flatMap type.encode ++ encodeMembers properties members
  | _, _ => []

end

end PropertyType

end ObjectPackage
