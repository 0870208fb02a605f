/-
Headers of tagged property lists: the name of an entry and one byte with its
type tag, size class and a high bit, then the parts that these call for.
-/
import ObjectPackage.Property.TypeTag
import ObjectPackage.Stream.Encode
import ObjectPackage.Stream.Read

namespace ObjectPackage

/-- The header of one entry.  Only a struct entry names a struct, and only a bool
entry carries its value in the header. -/
structure Header where
  name : NameId
  tag : TypeTag
  size : UInt32
  arrayIndex : UInt32
  structName : Option NameId
  boolValue : Bool
deriving DecidableEq, Repr, Inhabited

namespace Header

/-- Payload sizes that have a size class of their own. -/
def fixedSizes : List Nat := [1, 2, 4, 12, 16]

/-- The size of a size class; the last three classes store it. -/
def readSize (sizeClass : Nat) : Read UInt32 := do
  match fixedSizes[sizeClass]? with
  | some size => return UInt32.ofNat size
  | none =>
      if sizeClass = 5 then return UInt32.ofNat (← Read.u8).toNat
      else if sizeClass = 6 then return UInt32.ofNat (← Read.u16).toNat
      else Read.u32

/-- Read a header, or the terminator name that ends a list. -/
def read (names : NameTable) : Read (Option Header) := do
  let name ← Read.name names
  if names.isNone name then return none
  let info ← Read.u8
  let tag := TypeTag.ofByte info
  let structName ← if tag = .struct then some <$> Read.name names else pure none
  let size ← readSize (info.toNat / 16 % 8)
  let high : Bool := 128 ≤ info.toNat
  if tag = .bool then return some ⟨name, tag, size, 0, structName, high⟩
  else
    let arrayIndex ← if high then Read.arrayIndex else pure 0
    return some ⟨name, tag, size, arrayIndex, structName, false⟩

/-- The smallest size class for a payload size. -/
def sizeClass (size : UInt32) : Nat :=
  match fixedSizes.findIdx? (· == size.toNat) with
  | some index => index
  | none => if size.toNat ≤ 0xff then 5 else if size.toNat ≤ 0xffff then 6 else 7

def sizeBytes (size : UInt32) : List UInt8 :=
  match sizeClass size with
  | 5 => littleEndian 1 size.toNat
  | 6 => littleEndian 2 size.toNat
  | 7 => littleEndian 4 size.toNat
  | _ => []

def highBit (header : Header) : Bool :=
  if header.tag = .bool then header.boolValue else header.arrayIndex != 0

def info (header : Header) : UInt8 :=
  header.tag.code + UInt8.ofNat (16 * sizeClass header.size) +
    if header.highBit then 128 else 0

/-- Everything before the array index. -/
def lead (header : Header) : List UInt8 :=
  Encode.name header.name ++ Encode.u8 header.info ++
    (if header.tag = .struct then Encode.name (header.structName.getD ⟨0⟩) else []) ++
    sizeBytes header.size

/-- The array index, which is left out where it is zero. -/
def trail (header : Header) : Except StreamError (List UInt8) :=
  if header.highBit ∧ header.tag ≠ .bool then Encode.arrayIndex header.arrayIndex else .ok []

def encode (header : Header) : Except StreamError (List UInt8) :=
  return header.lead ++ (← header.trail)

end Header

end ObjectPackage
