/-
The byte forms of stream values.  Every form but that of an array index is
total; an array index has only thirty bits.
-/
import ObjectPackage.Bytes
import ObjectPackage.Package

namespace ObjectPackage

namespace Encode

def u8 (value : UInt8) : List UInt8 := [value]

def u16 (value : UInt16) : List UInt8 := littleEndian 2 value.toNat

def u32 (value : UInt32) : List UInt8 := littleEndian 4 value.toNat

def u64 (value : UInt64) : List UInt8 := littleEndian 8 value.toNat

def i32 (value : Int32) : List UInt8 := u32 value.toUInt32

/-- Bytes that continue a compact index, as few as the number needs. -/
def indexTail : Nat → Nat → List UInt8
  | 0, _ => []
  | more + 1, number =>
      if number = 0 then []
      else
        let high := number / 128
        UInt8.ofNat (number % 128 + if high = 0 then 0 else 128) :: indexTail more high

/-- The shortest compact index. -/
def index (value : Int32) : List UInt8 :=
  let magnitude := value.toInt.natAbs
  let high := magnitude / 64
  let sign := if value.toInt < 0 then 128 else 0
  let more := if high = 0 then 0 else 64
  UInt8.ofNat (magnitude % 64 + sign + more) :: indexTail 4 high

def maxArrayIndex : Nat := 0x3fffffff

def arrayIndex (value : UInt32) : Except StreamError (List UInt8) :=
  let number := value.toNat
  if number < 0x80 then .ok [UInt8.ofNat number]
  else if number < 0x4000 then
    .ok [UInt8.ofNat (number / 256 + 0x80), UInt8.ofNat number]
  else if number ≤ maxArrayIndex then
    .ok (littleEndian 4 (number + 0xc0000000)).reverse
  else .error (.arrayIndexTooLarge number)

def name (id : NameId) : List UInt8 :=
  index id.val.toInt32

def object (reference : ObjectRef) : List UInt8 :=
  index reference.val

/-- Latin-1 text and a zero byte. -/
def asciiZ (text : String) : List UInt8 :=
  text.toList.map latin1Byte ++ [0]

/-- UTF-16 text and a zero unit. -/
def unicodeZ (text : String) : List UInt8 :=
  (utf16Units text).flatMap u16 ++ u16 0

/-- Text with its length in front, in Latin-1 where that is possible. -/
def string (text : String) : List UInt8 :=
  if text.isEmpty then index 0
  else if isLatin1 text then
    index (Int32.ofNat (text.toList.length + 1)) ++ asciiZ text
  else
    index (-Int32.ofNat ((utf16Units text).length + 1)) ++ unicodeZ text

end Encode

/-- One value as it is put into a stream. -/
inductive Item where
  | u8 (value : UInt8)
  | u16 (value : UInt16)
  | u32 (value : UInt32)
  | i32 (value : Int32)
  | u64 (value : UInt64)
  | f32 (bits : UInt32)
  | f64 (bits : UInt64)
  | bytes (raw : List UInt8)
  | index (value : Int32)
  | arrayIndex (value : UInt32)
  | name (id : NameId)
  | object (reference : ObjectRef)
  | asciiZ (text : String)
  | unicodeZ (text : String)
  | string (text : String)
deriving DecidableEq, Repr

def Item.encode : Item → Except StreamError (List UInt8)
  | .u8 value => .ok (Encode.u8 value)
  | .u16 value => .ok (Encode.u16 value)
  | .u32 value => .ok (Encode.u32 value)
  | .i32 value => .ok (Encode.i32 value)
  | .u64 value => .ok (Encode.u64 value)
  | .f32 bits => .ok (Encode.u32 bits)
  | .f64 bits => .ok (Encode.u64 bits)
  | .bytes raw => .ok raw
  | .index value => .ok (Encode.index value)
  | .arrayIndex value => Encode.arrayIndex value
  | .name id => .ok (Encode.name id)
  | .object reference => .ok (Encode.object reference)
  | .asciiZ text => .ok (Encode.asciiZ text)
  | .unicodeZ text => .ok (Encode.unicodeZ text)
  | .string text => .ok (Encode.string text)

end ObjectPackage
