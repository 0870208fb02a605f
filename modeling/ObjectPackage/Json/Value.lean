/-
JSON values and their text, compact or indented.
-/
import ObjectPackage.Text

namespace ObjectPackage

/-- A number literal: an integer, or a mantissa times a power of ten. -/
inductive JsonNumber where
  | integer (value : Int)
  | decimal (mantissa exponent : Int)
deriving DecidableEq, Repr, Inhabited

mutual

/-- Members of an object keep their order and may repeat a key.  An unusable value
is well-formed text that stands for nothing: a string that is no Unicode text, or
a number beyond the range of doubles. -/
inductive JsonValue where
  | null
  | bool (value : Bool)
  | number (value : JsonNumber)
  | string (text : String)
  | array (items : List JsonValue)
  | object (members : List JsonMember)
  | unusable

structure JsonMember where
  key : String
  value : JsonValue

end

instance : Inhabited JsonValue := ⟨.null⟩

namespace JsonValue

def ofNat (number : Nat) : JsonValue :=
  .number (.integer (Int.ofNat number))

def natural? : JsonValue → Option Nat
  | number (.integer value) => if 0 ≤ value then some value.toNat else none
  | _ => none

def string? : JsonValue → Option String
  | string text => some text
  | _ => none

def array? : JsonValue → Option (List JsonValue)
  | array items => some items
  | _ => none

mutual

/-- Everything in a value is usable, and at most `levels` containers are nested. -/
def usable (levels : Nat) : JsonValue → Bool
  | unusable => false
  | array items => 0 < levels && usableItems (levels - 1) items
  | object members => 0 < levels && usableMembers (levels - 1) members
  | _ => true

def usableItems (levels : Nat) : List JsonValue → Bool
  | [] => true
  | item :: rest => item.usable levels && usableItems levels rest

def usableMembers (levels : Nat) : List JsonMember → Bool
  | [] => true
  | ⟨_, value⟩ :: rest => value.usable levels && usableMembers levels rest

end

/-- A character inside quotes.  Quotes, backslashes and control characters are
escaped, the usual ones with a letter. -/
def escape (c : Char) : List Char :=
  if c = '"' then ['\\', '"']
  else if c = '\\' then ['\\', '\\']
  else if c = '\n' then ['\\', 'n']
  else if c = '\r' then ['\\', 'r']
  else if c = '\t' then ['\\', 't']
  else if c.toNat = 8 then ['\\', 'b']
  else if c.toNat = 12 then ['\\', 'f']
  else if c.toNat < 0x20 then '\\' :: 'u' :: (hexDigits 4 c.toNat).toList
  else [c]

def quote (text : String) : String :=
  "\"" ++ String.ofList (text.toList.flatMap escape) ++ "\""

def numberText : JsonNumber → String
  | .integer value => toString value
  | .decimal mantissa exponent => toString mantissa ++ "e" ++ toString exponent

def braced (text : String) : String :=
  "\x7b" ++ text ++ "\x7d"

def bracketed (text : String) : String :=
  "[" ++ text ++ "]"

mutual

/-- Text without any blank. -/
def compact : JsonValue → String
  | null => "null"
  | bool value => if value then "true" else "false"
  | number value => numberText value
  | string text => quote text
  | array items => bracketed (",".intercalate (compactItems items))
  | object members => braced (",".intercalate (compactMembers members))
  | unusable => "null"

def compactItems : List JsonValue → List String
  | [] => []
  | item :: rest => item.compact :: compactItems rest

def compactMembers : List JsonMember → List String
  | [] => []
  | ⟨key, value⟩ :: rest => (quote key ++ ":" ++ value.compact) :: compactMembers rest

end

/-- The start of a line at an indentation level. -/
def lineStart (level : Nat) : String :=
  "\n" ++ String.ofList (List.replicate (2 * level) ' ')

/-- Parts on lines of their own, one level deeper than the brackets around them. -/
def indented (level : Nat) : List String → String
  | [] => ""
  | parts =>
      lineStart (level + 1) ++ ("," ++ lineStart (level + 1)).intercalate parts ++
        lineStart level

mutual

/-- Text with every item and member on its own line, indented by two blanks. -/
def pretty (level : Nat) : JsonValue → String
  | array items => bracketed (indented level (prettyItems (level + 1) items))
  | object members => braced (indented level (prettyMembers (level + 1) members))
  | value => value.compact

def prettyItems (level : Nat) : List JsonValue → List String
  | [] => []
  | item :: rest => item.pretty level :: prettyItems level rest

def prettyMembers (level : Nat) : List JsonMember → List String
  | [] => []
  | ⟨key, value⟩ :: rest =>
      (quote key ++ ": " ++ value.pretty level) :: prettyMembers level rest

end

end JsonValue

end ObjectPackage
