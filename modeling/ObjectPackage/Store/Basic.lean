/-
Bytes and heap of a block.  Values of fixed size live in the root bytes or in
the element bytes of a container; text and containers live in heap slots, and
the bytes that own one hold its slot number plus one, or zero.
-/
import ObjectPackage.Bytes
import ObjectPackage.Property.Error

namespace ObjectPackage

inductive HeapValue where
  | free
  | text (value : String)
  | elements (bytes : Array UInt8) (count : Nat)
deriving DecidableEq, Repr, Inhabited

def HeapValue.isFree : HeapValue → Bool
  | free => true
  | _ => false

/-- The element bytes of a heap value after a change. -/
def HeapValue.mapBytes (change : Array UInt8 → Array UInt8) : HeapValue → HeapValue
  | elements bytes count => elements (change bytes) count
  | value => value

structure Store where
  root : Array UInt8
  heap : Array HeapValue
deriving DecidableEq, Repr, Inhabited

inductive Region where
  | root
  | slot (index : Nat)
deriving DecidableEq, Repr, Inhabited

structure Location where
  region : Region
  offset : Nat
deriving DecidableEq, Repr, Inhabited

namespace Location

def root (offset : Nat) : Location := ⟨.root, offset⟩

def element (slot offset : Nat) : Location := ⟨.slot slot, offset⟩

def shift (location : Location) (distance : Nat) : Location :=
  { location with offset := location.offset + distance }

end Location

namespace Store

def zeroed (size : Nat) : Store := ⟨Array.replicate size 0, #[]⟩

def region (store : Store) : Region → Except PropertyError (Array UInt8)
  | .root => .ok store.root
  | .slot index =>
      match store.heap[index]? with
      | some (.elements bytes _) => .ok bytes
      | _ => .error (.danglingHandle index)

/-- The region of a location, which has to hold `length` bytes from there on. -/
def enclosing (store : Store) (location : Location) (length : Nat) :
    Except PropertyError (Array UInt8) := do
  let region ← store.region location.region
  if location.offset + length ≤ region.size then .ok region
  else .error (.outOfBounds location.offset length region.size)

def bytes (store : Store) (location : Location) (length : Nat) :
    Except PropertyError (List UInt8) := do
  let region ← store.enclosing location length
  .ok (region.extract location.offset (location.offset + length)).toList

/-- Overwrite bytes of a region that is there. -/
def overwrite (location : Location) (piece : List UInt8) : Store → Store
  | ⟨root, heap⟩ =>
      match location.region with
      | .root => ⟨ObjectPackage.overwrite root location.offset piece, heap⟩
      | .slot index =>
          ⟨root, heap.modify index fun value =>
            value.mapBytes fun bytes => ObjectPackage.overwrite bytes location.offset piece⟩

def word (store : Store) (location : Location) (count : Nat) : Except PropertyError Nat :=
  return ofLittleEndian (← store.bytes location count)

def bool (store : Store) (location : Location) (mask : UInt32) : Except PropertyError Bool :=
  return UInt32.ofNat (← store.word location 4) &&& mask != 0

/-- The slot that the value at a location owns. -/
def handle (store : Store) (location : Location) : Except PropertyError (Option Nat) := do
  match ← store.word location handleSize with
  | 0 => .ok none
  | slot + 1 => .ok (some slot)

def text (store : Store) (slot : Nat) : Except PropertyError String :=
  match store.heap[slot]? with
  | some (.text value) => .ok value
  | _ => .error (.danglingHandle slot)

def count (store : Store) (slot : Nat) : Except PropertyError Nat :=
  match store.heap[slot]? with
  | some (.elements _ count) => .ok count
  | _ => .error (.danglingHandle slot)

/-- Text that a location owns; an empty one owns no slot. -/
def ownedText (store : Store) (location : Location) : Except PropertyError String := do
  match ← store.handle location with
  | some slot => store.text slot
  | none => .ok ""

/-- Slot and count of the container that a location owns. -/
def container? (store : Store) (location : Location) :
    Except PropertyError (Option (Nat × Nat)) := do
  match ← store.handle location with
  | some slot => .ok (some (slot, ← store.count slot))
  | none => .ok none

/-- As `container?`; a container without a slot has no elements. -/
def container (store : Store) (location : Location) : Except PropertyError (Nat × Nat) :=
  return (← store.container? location).getD (0, 0)

/-- The lowest free slot, or a new one. -/
def freeSlot (store : Store) : Nat :=
  (store.heap.findIdx? HeapValue.isFree).getD store.heap.size

/-- Put a value into a slot that is there, or into the next new one. -/
def setSlot (slot : Nat) (value : HeapValue) : Store → Store
  | ⟨root, heap⟩ =>
      ⟨root, if slot = heap.size then heap.push value else heap.setIfInBounds slot value⟩

/-- A slot that is not there is left alone. -/
def free (slot : Nat) : Store → Store
  | ⟨root, heap⟩ => ⟨root, heap.setIfInBounds slot .free⟩

/-- Number of slots in use. -/
def liveSlots (store : Store) : Nat :=
  store.heap.countP fun value => !value.isFree

end Store

/-- Changes to a store.  What was done before a failure stays done. -/
abbrev Update := ExceptT PropertyError (StateM Store)

def Store.update {α : Type} (store : Store) (action : Update α) :
    Except PropertyError α × Store :=
  (ExceptT.run action).run store

namespace Update

def fetch {α : Type} (query : Store → Except PropertyError α) : Update α := do
  match query (← get) with
  | .ok value => return value
  | .error error => throw error

def write (location : Location) (piece : List UInt8) : Update Unit := do
  discard (fetch fun store => store.enclosing location piece.length)
  modify (Store.overwrite location piece)

def writeWord (location : Location) (count value : Nat) : Update Unit :=
  write location (littleEndian count value)

def zero (location : Location) (length : Nat) : Update Unit :=
  write location (List.replicate length 0)

/-- Set or clear the masked bits of a word and keep the others. -/
def setBool (location : Location) (mask : UInt32) (value : Bool) : Update Unit := do
  let word := UInt32.ofNat (← fetch fun store => store.word location 4)
  let word := if value then word ||| mask else word &&& ~~~mask
  writeWord location 4 word.toNat

def setHandle (location : Location) : Option Nat → Update Unit
  | none => writeWord location handleSize 0
  | some slot => writeWord location handleSize (slot + 1)

def alloc (value : HeapValue) : Update Nat := do
  let slot := (← get).freeSlot
  modify (Store.setSlot slot value)
  return slot

def free (slot : Nat) : Update Unit :=
  modify (Store.free slot)

/-- Give a location a slot with text; empty text needs none. -/
def ownText (location : Location) (text : String) : Update Unit := do
  if text.isEmpty then setHandle location none
  else setHandle location (some (← alloc (.text text)))

/-- Give a location a slot with zeroed elements. -/
def ownElements (location : Location) (count pitch : Nat) : Update Nat := do
  let slot ← alloc (.elements (Array.replicate (count * pitch) 0) count)
  setHandle location (some slot)
  return slot

end Update

end ObjectPackage
