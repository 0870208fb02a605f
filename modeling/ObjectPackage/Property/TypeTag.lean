/-
The four-bit type tags of tagged property lists, and property flags.
-/
import ObjectPackage.Text

namespace ObjectPackage

inductive TypeTag where
  | invalid
  | byte
  | int
  | bool
  | float
  | object
  | name
  | string
  | classRef
  | array
  | struct
  | vector
  | rotator
  | str
  | map
  | fixedArray
deriving DecidableEq, Repr, Inhabited

namespace TypeTag

/-- All tags in the order of their codes. -/
def all : List TypeTag :=
  [invalid, byte, int, bool, float, object, name, string, classRef, array, struct, vector,
    rotator, str, map, fixedArray]

def code : TypeTag → UInt8
  | invalid => 0
  | byte => 1
  | int => 2
  | bool => 3
  | float => 4
  | object => 5
  | name => 6
  | string => 7
  | classRef => 8
  | array => 9
  | struct => 10
  | vector => 11
  | rotator => 12
  | str => 13
  | map => 14
  | fixedArray => 15

/-- The tag in the low four bits of a byte. -/
def ofByte (byte : UInt8) : TypeTag :=
  (all[byte.toNat % 16]?).getD invalid

/-- The bare word for a tag; the display form adds `Property`. -/
def word : TypeTag → String
  | invalid => "Invalid"
  | byte => "Byte"
  | int => "Int"
  | bool => "Bool"
  | float => "Float"
  | object => "Object"
  | name => "Name"
  | string => "String"
  | classRef => "Class"
  | array => "Array"
  | struct => "Struct"
  | vector => "Vector"
  | rotator => "Rotator"
  | str => "Str"
  | map => "Map"
  | fixedArray => "FixedArray"

def display (tag : TypeTag) : String :=
  tag.word ++ "Property"

end TypeTag

/-- A set of property flags; bits without a name are kept as they are. -/
structure PropertyFlags where
  bits : UInt32
deriving DecidableEq, Repr, Inhabited

namespace PropertyFlags

def empty : PropertyFlags := ⟨0⟩

/-- Properties with this flag are not saved. -/
def transient : PropertyFlags := ⟨0x2000⟩

def has (flags other : PropertyFlags) : Bool :=
  flags.bits &&& other.bits == other.bits

/-- The named flags in the order in which they are listed. -/
def named : List (String × UInt32) :=
  [("EDIT", 0x1), ("CONST", 0x2), ("INPUT", 0x4), ("EXPORT_OBJECT", 0x8),
    ("OPTIONAL_PARM", 0x10), ("NET", 0x20), ("PARM", 0x80), ("OUT_PARM", 0x100),
    ("RETURN_PARM", 0x400), ("NATIVE", 0x1000), ("TRANSIENT", 0x2000), ("CONFIG", 0x4000),
    ("LOCALIZED", 0x8000), ("TRAVEL", 0x10000), ("EDIT_CONST", 0x20000),
    ("GLOBAL_CONFIG", 0x40000)]

/-- Names of the flags that are set, and the bits left without a name. -/
def split (flags : PropertyFlags) : List String × UInt32 :=
  let set := named.filter fun (_, bit) => flags.bits &&& bit != 0
  (set.map Prod.fst, flags.bits &&& ~~~(named.foldl (fun known (_, bit) => known ||| bit) 0))

/-- Flag names in order, then leftover bits in hexadecimal, joined by bars. -/
def text (flags : PropertyFlags) : String :=
  let (names, rest) := flags.split
  " | ".intercalate (names ++ if rest = 0 then [] else ["0x" ++ hexDigits 1 rest.toNat])

def hexDigit? (c : Char) : Option Nat :=
  if '0' ≤ c && c ≤ '9' then some (c.toNat - 48)
  else if 'a' ≤ c && c ≤ 'f' then some (c.toNat - 87)
  else if 'A' ≤ c && c ≤ 'F' then some (c.toNat - 55)
  else none

/-- A hexadecimal number of at least one digit that fits 32 bits; a plus sign may
come first. -/
def hexWord? (text : List Char) : Option UInt32 :=
  let digits := match text with
    | '+' :: rest => rest
    | rest => rest
  if digits.isEmpty then none
  else
    match digits.mapM hexDigit? with
    | none => none
    | some values =>
        let number := values.foldl (fun total digit => total * 16 + digit) 0
        if number < UInt32.size then some (UInt32.ofNat number) else none

/-- Bits of one flag name or hexadecimal number. -/
def piece? (text : List Char) : Option UInt32 :=
  match text with
  | '0' :: 'x' :: digits => hexWord? digits
  | _ => named.lookup (String.ofList text)

def splitBars : List Char → List (List Char)
  | [] => [[]]
  | c :: rest =>
      if c = '|' then [] :: splitBars rest
      else
        match splitBars rest with
        | [] => [[c]]
        | piece :: pieces => (c :: piece) :: pieces

/-- Flags from names and hexadecimal numbers between bars; blank text is no flag. -/
def ofText? (text : String) : Option PropertyFlags :=
  let trimmed := trim text.toList
  if trimmed.isEmpty then some empty
  else do
    let pieces ← ((splitBars trimmed).map trim).mapM piece?
    return ⟨pieces.foldl (· ||| ·) 0⟩

end PropertyFlags

end ObjectPackage
