/-
Typed reads over the bytes of a package.  A read either moves the cursor past
what it decoded or fails; the cursor is kept on failure as well, so a stream
can be used on after an error.
-/
import ObjectPackage.Bytes
import ObjectPackage.Package

namespace ObjectPackage

/-- Position in a stream together with the bytes that are left. -/
structure Cursor where
  pos : Nat
  rest : List UInt8
deriving DecidableEq, Repr, Inhabited

namespace Cursor

def ofBytes (bytes : List UInt8) : Cursor := ⟨0, bytes⟩

def advance (cursor : Cursor) (count : Nat) : Cursor :=
  ⟨cursor.pos + count, cursor.rest.drop count⟩

/-- Length of the whole stream. -/
def size (cursor : Cursor) : Nat :=
  cursor.pos + cursor.rest.length

end Cursor

abbrev Read := ExceptT StreamError (StateM Cursor)

/-- Run a read; the cursor of the answer is where the read stopped. -/
def Cursor.read {α : Type} (cursor : Cursor) (action : Read α) :
    Except StreamError α × Cursor :=
  (ExceptT.run action).run cursor

/-- Split code units off up to the first zero unit.  The flag tells whether a
zero unit was there; it is dropped. -/
def scanUnits : List UInt8 → List UInt16 × Bool
  | low :: high :: rest =>
      let unit := UInt16.ofNat (ofLittleEndian [low, high])
      if unit == 0 then ([], true)
      else
        let (units, ended) := scanUnits rest
        (unit :: units, ended)
  | _ => ([], false)

namespace Read

def position : Read Nat :=
  return (← get).pos

def remaining : Read Nat :=
  return (← get).rest.length

/-- Take exactly `count` bytes, or none of them. -/
def bytes (count : Nat) : Read (List UInt8) := do
  let cursor ← get
  let piece := cursor.rest.take count
  if piece.length < count then
    throw (.unexpectedEnd cursor.pos count)
  set (cursor.advance count)
  return piece

def skip (count : Nat) : Read Unit := do
  discard (bytes count)

/-- Unsigned little-endian word of `count` bytes. -/
def word (count : Nat) : Read Nat :=
  return ofLittleEndian (← bytes count)

def u8 : Read UInt8 :=
  return UInt8.ofNat (← word 1)

def u16 : Read UInt16 :=
  return UInt16.ofNat (← word 2)

def u32 : Read UInt32 :=
  return UInt32.ofNat (← word 4)

def u64 : Read UInt64 :=
  return UInt64.ofNat (← word 8)

def i32 : Read Int32 :=
  return (← u32).toInt32

/-- Bytes that continue a compact index: seven value bits each, the high bit
announces another byte. -/
def indexTail (start : Nat) : Nat → Read Nat
  | 0 => throw (.indexOverflow start)
  | more + 1 => do
      let byte ← u8
      let low := byte.toNat % 128
      if byte.toNat < 128 then return low
      else return low + 128 * (← indexTail start more)

/-- Signed compact index.  The first byte holds the sign (0x80), a continuation
bit (0x40) and six value bits; at most four bytes continue it. -/
def index : Read Int32 := do
  let start ← position
  let first := (← u8).toNat
  let tail ← if first / 64 % 2 = 1 then indexTail start 4 else pure 0
  let magnitude : Int := Int.ofNat (first % 64 + 64 * tail)
  let value := if 128 ≤ first then -magnitude else magnitude
  if Int32.minValue.toInt ≤ value ∧ value ≤ Int32.maxValue.toInt then
    return Int32.ofInt value
  else throw (.indexOverflow start)

/-- Array index of one, two or four bytes, told apart by the two high bits of
the first. -/
def arrayIndex : Read UInt32 := do
  let first := (← u8).toNat
  if first < 128 then return UInt32.ofNat first
  else if first < 192 then
    let low := (← u8).toNat
    return UInt32.ofNat ((first % 128) * 256 + low)
  else
    let high := (← u8).toNat
    let middle := (← u8).toNat
    let low := (← u8).toNat
    return UInt32.ofNat (((first % 64 * 256 + high) * 256 + middle) * 256 + low)

/-- Reference to a slot of the name table. -/
def name (names : NameTable) : Read NameId := do
  let slot := (← index).toInt
  if slot < 0 ∨ Int.ofNat names.size ≤ slot then throw (.nameOutOfRange slot)
  else return .ofIndex slot.toNat

def nameText (names : NameTable) : Read String := do
  let id ← name names
  match names.get? id with
  | some text => return text
  | none => throw (.nameOutOfRange id.index)

/-- Object reference; whether the table has such an object is not checked. -/
def object : Read ObjectRef :=
  return ⟨← index⟩

/-- Handle of an object that the table has. -/
def handle (objects : ObjectTable) : Read ObjectHandle := do
  match objects.resolve (← object) with
  | .ok handle => return handle
  | .error error => throw error

/-- Bytes up to the next zero byte, which is consumed. -/
def bytesZ : Read (List UInt8) := do
  let cursor ← get
  let text := cursor.rest.takeWhile (· != 0)
  if (cursor.rest.dropWhile (· != 0)).isEmpty then
    throw (.unterminatedString cursor.pos)
  set (cursor.advance (text.length + 1))
  return text

/-- Code units up to the next zero unit, which is consumed.  Without one the
cursor ends past the last whole unit. -/
def unitsZ : Read (List UInt16) := do
  let cursor ← get
  let (units, ended) := scanUnits cursor.rest
  if ended then
    set (cursor.advance (2 * (units.length + 1)))
    return units
  else
    set (cursor.advance (2 * units.length))
    throw (.unterminatedString cursor.pos)

def asciiZ : Read String :=
  return latin1 (← bytesZ)

def unicodeZ : Read String := do
  let start ← position
  match textOfUnits? (← unitsZ) with
  | some text => return text
  | none => throw (.invalidText start)

/-- Code units one after the other. -/
def units : Nat → Read (List UInt16)
  | 0 => return []
  | count + 1 => do
      let unit ← u16
      return unit :: (← units count)

/-- Text with its length in front, terminator included: a positive length
counts Latin-1 bytes, a negative one UTF-16 units, and zero is the empty text. -/
def string : Read String := do
  let start ← position
  let length := (← index).toInt
  if length = 0 then return ""
  else if 0 < length then
    let text ← bytes length.toNat
    if text.getLast? = some 0 then return latin1 text.dropLast
    else throw (.unterminatedString start)
  else
    let text ← units length.natAbs
    if text.getLast? = some 0 then
      match textOfUnits? text.dropLast with
      | some text => return text
      | none => throw (.invalidText start)
    else throw (.unterminatedString start)

end Read

end ObjectPackage
