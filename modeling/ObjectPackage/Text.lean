/-
Text as the stream formats see it: ASCII case folding for names, Latin-1
bytes and UTF-16 units for strings.
-/

namespace ObjectPackage

/-- Lower-case the ASCII letters and keep every other character. -/
def foldCase (text : String) : String :=
  String.ofList (text.toList.map Char.toLower)

/-- Names are compared without regard to ASCII case. -/
def sameName (left right : String) : Bool :=
  foldCase left == foldCase right

theorem sameName_self (text : String) : sameName text text = true := by
  simp [sameName]

theorem sameName_eq_true_iff {left right : String} :
    sameName left right = true ↔ foldCase left = foldCase right := by
  simp [sameName]

/-- Identifiers start with an ASCII letter or underscore and go on with ASCII
letters, digits and underscores. -/
def isIdentifier (text : String) : Bool :=
  match text.toList with
  | [] => false
  | first :: rest =>
      (first.isAlpha || first == '_') && rest.all fun c => c.isAlphanum || c == '_'

/-- Every byte is the character of the same code point. -/
def latin1 (bytes : List UInt8) : String :=
  String.ofList (bytes.map fun byte => Char.ofNat byte.toNat)

def isLatin1 (text : String) : Bool :=
  text.toList.all fun c => c.toNat ≤ 0xff

/-- The Latin-1 byte of a character, or a question mark where there is none. -/
def latin1Byte (c : Char) : UInt8 :=
  if c.toNat ≤ 0xff then UInt8.ofNat c.toNat else 0x3f

/-- One unit for a character of the basic plane, a surrogate pair for any other. -/
def charUnits (c : Char) : List UInt16 :=
  if c.toNat < 0x10000 then [UInt16.ofNat c.toNat]
  else
    [UInt16.ofNat (0xd800 + (c.toNat - 0x10000) / 0x400),
     UInt16.ofNat (0xdc00 + (c.toNat - 0x10000) % 0x400)]

def utf16Units (text : String) : List UInt16 :=
  text.toList.flatMap charUnits

def isHighSurrogate (unit : UInt16) : Bool :=
  0xd800 ≤ unit.toNat && unit.toNat < 0xdc00

def isLowSurrogate (unit : UInt16) : Bool :=
  0xdc00 ≤ unit.toNat && unit.toNat < 0xe000

def pairedChar (high low : UInt16) : Char :=
  Char.ofNat (0x10000 + (high.toNat - 0xd800) * 0x400 + (low.toNat - 0xdc00))

/-- Characters of a sequence of units in which every surrogate is paired. -/
def charsOfUnits? : List UInt16 → Option (List Char)
  | [] => some []
  | unit :: rest =>
      if isHighSurrogate unit then
        match rest with
        | low :: rest =>
            if isLowSurrogate low then
              (charsOfUnits? rest).map (pairedChar unit low :: ·)
            else none
        | [] => none
      else if isLowSurrogate unit then none
      else (charsOfUnits? rest).map (Char.ofNat unit.toNat :: ·)

def textOfUnits? (units : List UInt16) : Option String :=
  (charsOfUnits? units).map String.ofList

/-- Lower-case hexadecimal digits, padded with zeros to at least `width` of them. -/
def hexDigits (width number : Nat) : String :=
  let digits := Nat.toDigits 16 number
  String.ofList (List.replicate (width - digits.length) '0' ++ digits)

/-- Pad with blanks on the left to at least `width` characters. -/
def padLeft (width : Nat) (text : String) : String :=
  String.ofList (List.replicate (width - text.toList.length) ' ') ++ text

/-- Pad with blanks on the right to at least `width` characters. -/
def padRight (width : Nat) (text : String) : String :=
  text ++ String.ofList (List.replicate (width - text.toList.length) ' ')

/-- White space as Unicode defines it. -/
def isBlank (c : Char) : Bool :=
  let code := c.toNat
  (9 ≤ code && code ≤ 13) || code == 0x20 || code == 0x85 || code == 0xa0 ||
    code == 0x1680 || (0x2000 ≤ code && code ≤ 0x200a) || code == 0x2028 ||
    code == 0x2029 || code == 0x202f || code == 0x205f || code == 0x3000

/-- Text without blanks at its ends. -/
def trim (text : List Char) : List Char :=
  ((text.dropWhile isBlank).reverse.dropWhile isBlank).reverse

end ObjectPackage
