/-
What each property type does with its bytes: construction, copying, release,
reading a value out and assigning one.
-/
import ObjectPackage.Layout.Basic
import ObjectPackage.Store.Basic
import ObjectPackage.Value

namespace ObjectPackage

/-- Run an action for every index below a count. -/
def forIndices {m : Type → Type} [Monad m] (count : Nat) (action : Nat → m Unit) : m Unit :=
  (List.range count).forM action

namespace PropertyType

mutual

/-- Make the default value; what the location owned before is not released. -/
def construct (location : Location) (mask : UInt32) : PropertyType → Update Unit
  | .bool => Update.setBool location mask false
  | .struct ⟨_, _, properties, _, _, size, _⟩ => do
      Update.zero location size
      constructMembers location properties
  | .fixedArray element count =>
      forIndices count fun index =>
        element.construct (location.shift (index * element.pitch)) elementMask
  | type => Update.zero location type.size

def constructMembers (location : Location) : List Property → Update Unit
  | [] => pure ()
  | member@⟨_, _, _, type, dimension, _, _, mask⟩ :: rest => do
      forIndices dimension fun index =>
        type.construct (location.shift (member.elementOffset index)) mask
      constructMembers location rest

end

mutual

/-- Copy a value of another store into bytes that own nothing. -/
def copy (source : Store) (origin location : Location) (mask : UInt32) :
    PropertyType → Update Unit
  | .bool => do
      Update.setBool location mask (← Update.fetch fun _ => source.bool origin mask)
  | .str => do
      match ← Update.fetch fun _ => source.handle origin with
      | none => Update.setHandle location none
      | some slot =>
          let text ← Update.fetch fun _ => source.text slot
          Update.setHandle location (some (← Update.alloc (.text text)))
  | .struct ⟨_, _, properties, _, _, _, _⟩ =>
      copyMembers source origin location properties
  | .fixedArray element count =>
      forIndices count fun index =>
        let distance := index * element.pitch
        element.copy source (origin.shift distance) (location.shift distance) elementMask
  | .array element => do
      match ← Update.fetch fun _ => source.container? origin with
      | none => Update.setHandle location none
      | some (old, count) =>
          let slot ← Update.ownElements location count element.pitch
          forIndices count fun index =>
            let offset := index * element.pitch
            element.copy source (.element old offset) (.element slot offset) elementMask
  | .map key value => do
      match ← Update.fetch fun _ => source.container? origin with
      | none => Update.setHandle location none
      | some (old, count) =>
          let pitch := entryPitch key value
          let slot ← Update.ownElements location count pitch
          forIndices count fun index => do
            let offset := index * pitch
            key.copy source (.element old offset) (.element slot offset) elementMask
            let offset := offset + entryValueOffset key value
            value.copy source (.element old offset) (.element slot offset) elementMask
  | type => do
      Update.write location (← Update.fetch fun _ => source.bytes origin type.size)

def copyMembers (source : Store) (origin location : Location) :
    List Property → Update Unit
  | [] => pure ()
  | member@⟨_, _, _, type, dimension, _, _, mask⟩ :: rest => do
      forIndices dimension fun index =>
        let distance := member.elementOffset index
        type.copy source (origin.shift distance) (location.shift distance) mask
      copyMembers source origin location rest

end

mutual

/-- Release what a value owns and leave the default value. -/
def release (location : Location) (mask : UInt32) : PropertyType → Update Unit
  | .bool => Update.setBool location mask false
  | .str => do
      match ← Update.fetch fun store => store.handle location with
      | none => pure ()
      | some slot => Update.free slot
      Update.setHandle location none
  | .struct ⟨_, _, properties, _, _, _, _⟩ => releaseMembers location properties
  | .fixedArray element count =>
      forIndices count fun index =>
        element.release (location.shift (index * element.pitch)) elementMask
  | .array element => do
      match ← Update.fetch fun store => store.container? location with
      | none => pure ()
      | some (slot, count) =>
          forIndices count fun index =>
            element.release (.element slot (index * element.pitch)) elementMask
          Update.free slot
      Update.setHandle location none
  | .map key value => do
      match ← Update.fetch fun store => store.container? location with
      | none => pure ()
      | some (slot, count) =>
          forIndices count fun index => do
            let offset := index * entryPitch key value
            key.release (.element slot offset) elementMask
            value.release (.element slot (offset + entryValueOffset key value)) elementMask
          Update.free slot
      Update.setHandle location none
  | type => Update.zero location type.size

def releaseMembers (location : Location) : List Property → Update Unit
  | [] => pure ()
  | member@⟨_, _, _, type, dimension, _, _, mask⟩ :: rest => do
      forIndices dimension fun index =>
        type.release (location.shift (member.elementOffset index)) mask
      releaseMembers location rest

end

mutual

/-- The value at a location. -/
def snapshot (store : Store) (location : Location) (mask : UInt32) :
    PropertyType → Except PropertyError Value
  | .byte => return .byte (UInt8.ofNat (← store.word location 1))
  | .int => return .int (UInt32.ofNat (← store.word location 4)).toInt32
  | .bool => return .bool (← store.bool location mask)
  | .float => return .float (UInt32.ofNat (← store.word location 4))
  | .name => return .name ⟨UInt32.ofNat (← store.word location 4)⟩
  | .object _ => return .object ⟨UInt64.ofNat (← store.word location 8)⟩
  | .classRef _ => return .object ⟨UInt64.ofNat (← store.word location 8)⟩
  | .str => return .str (← store.ownedText location)
  | .struct ⟨_, _, properties, _, _, _, _⟩ =>
      return .struct (← snapshotMembers store location properties)
  | .fixedArray element count =>
      return .array (← (List.range count).mapM fun index =>
        element.snapshot store (location.shift (index * element.pitch)) elementMask)
  | .array element => do
      let (slot, count) ← store.container location
      return .array (← (List.range count).mapM fun index =>
        element.snapshot store (.element slot (index * element.pitch)) elementMask)
  | .map key value => do
      let (slot, count) ← store.container location
      return .map (← (List.range count).mapM fun index => do
        let offset := index * entryPitch key value
        let valueOffset := offset + entryValueOffset key value
        return ⟨← key.snapshot store (.element slot offset) elementMask,
          ← value.snapshot store (.element slot valueOffset) elementMask⟩)

def snapshotMembers (store : Store) (location : Location) :
    List Property → Except PropertyError (List MemberValue)
  | [] => return []
  | member@⟨_, _, memberName, type, dimension, _, _, mask⟩ :: rest => do
      let values ← (List.range dimension).mapM fun index =>
        type.snapshot store (location.shift (member.elementOffset index)) mask
      return ⟨memberName, values⟩ :: (← snapshotMembers store location rest)

end

mutual

/-- Store a value of the right shape.  Struct members and elements of a fixed array
that the value does not list keep what they hold; containers are replaced. -/
def assign (location : Location) (mask : UInt32) : PropertyType → Value → Update Unit
  | .byte, .byte value => Update.write location [value]
  | .int, .int value => Update.writeWord location 4 value.toUInt32.toNat
  | .bool, .bool value => Update.setBool location mask value
  | .float, .float bits => Update.writeWord location 4 bits.toNat
  | .name, .name id => Update.writeWord location 4 id.val.toNat
  | .object _, .object handle => Update.writeWord location 8 handle.bits.toNat
  | .classRef _, .object handle => Update.writeWord location 8 handle.bits.toNat
  | .str, .str text => do
      release location mask .str
      Update.ownText location text
  | .struct layout, .struct members => assignMembers layout location members
  | .fixedArray element count, .array items => do
      if count < items.length then
        throw (.invalidCount items.length count)
      assignAll element (fun index => location.shift (index * element.pitch)) elementMask
        0 items
  | .array element, .array items => do
      release location mask (.array element)
      let slot ← Update.ownElements location items.length element.pitch
      assignAll element (fun index => .element slot (index * element.pitch)) elementMask
        0 items
  | .map key value, .map entries => do
      release location mask (.map key value)
      let slot ← Update.ownElements location entries.length (entryPitch key value)
      assignEntries key value slot 0 entries
  | type, value => throw (.valueMismatch type.kind value.kind)

/-- Store values at consecutive places. -/
def assignAll (type : PropertyType) (place : Nat → Location) (mask : UInt32) :
    Nat → List Value → Update Unit
  | _, [] => pure ()
  | index, value :: rest => do
      assign (place index) mask type value
      assignAll type place mask (index + 1) rest

def assignMembers (layout : StructLayout) (location : Location) :
    List MemberValue → Update Unit
  | [] => pure ()
  | ⟨memberName, values⟩ :: rest => do
      match layout.findProperty? memberName with
      | none => throw (.foreignProperty memberName layout.name)
      | some member =>
          if member.dimension < values.length then
            throw (.indexOutOfRange memberName (values.length - 1) member.dimension)
          assignAll member.type (fun index => location.shift (member.elementOffset index))
            member.mask 0 values
      assignMembers layout location rest

def assignEntries (key value : PropertyType) (slot : Nat) :
    Nat → List EntryValue → Update Unit
  | _, [] => pure ()
  | index, ⟨entryKey, entryValue⟩ :: rest => do
      let offset := index * entryPitch key value
      assign (.element slot offset) elementMask key entryKey
      assign (.element slot (offset + entryValueOffset key value)) elementMask value
        entryValue
      assignEntries key value slot (index + 1) rest

end

mutual

/-- Whether two locations hold the same value; floats are compared by their bits. -/
def identical (left : Store) (leftAt : Location) (right : Store) (rightAt : Location)
    (mask : UInt32) : PropertyType → Except PropertyError Bool
  | .bool => return (← left.bool leftAt mask) == (← right.bool rightAt mask)
  | .str => return (← left.ownedText leftAt) == (← right.ownedText rightAt)
  | .struct ⟨_, _, properties, _, _, _, _⟩ =>
      identicalMembers left leftAt right rightAt properties
  | .fixedArray element count =>
      (List.range count).allM fun index =>
        let distance := index * element.pitch
        element.identical left (leftAt.shift distance) right (rightAt.shift distance)
          elementMask
  | .array element => do
      let (leftSlot, count) ← left.container leftAt
      let (rightSlot, rightCount) ← right.container rightAt
      if count ≠ rightCount then return false
      (List.range count).allM fun index =>
        let offset := index * element.pitch
        element.identical left (.element leftSlot offset) right (.element rightSlot offset)
          elementMask
  | .map key value => do
      let (leftSlot, count) ← left.container leftAt
      let (rightSlot, rightCount) ← right.container rightAt
      if count ≠ rightCount then return false
      (List.range count).allM fun index => do
        let offset := index * entryPitch key value
        let sameKey ← key.identical left (.element leftSlot offset) right
          (.element rightSlot offset) elementMask
        if !sameKey then return false
        let offset := offset + entryValueOffset key value
        value.identical left (.element leftSlot offset) right (.element rightSlot offset)
          elementMask
  | type => return (← left.bytes leftAt type.size) == (← right.bytes rightAt type.size)

def identicalMembers (left : Store) (leftAt : Location) (right : Store)
    (rightAt : Location) : List Property → Except PropertyError Bool
  | [] => return true
  | member@⟨_, _, _, type, dimension, _, _, mask⟩ :: rest => do
      let same ← (List.range dimension).allM fun index =>
        let distance := member.elementOffset index
        type.identical left (leftAt.shift distance) right (rightAt.shift distance) mask
      if same then identicalMembers left leftAt right rightAt rest else return false

end

end PropertyType

end ObjectPackage
