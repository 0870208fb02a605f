/-
JSON values from tokens.
-/
import ObjectPackage.Json.Token

namespace ObjectPackage

namespace JsonValue

/-- An object of members some of which may have an unusable key. -/
def ofMembers (members : List (Option String × JsonValue)) : JsonValue :=
  match members.mapM fun (key, value) => key.map fun key => JsonMember.mk key value with
  | some members => .object members
  | none => .unusable

mutual

/-- The value at the start of the tokens, and what follows it. -/
def valueWithin : Nat → List JsonToken → Option (JsonValue × List JsonToken)
  | 0, _ => none
  | budget + 1, tokens =>
      match tokens with
      | .null :: rest => some (.null, rest)
      | .bool value :: rest => some (.bool value, rest)
      | .number (some value) :: rest => some (.number value, rest)
      | .number none :: rest => some (.unusable, rest)
      | .text (some text) :: rest => some (.string text, rest)
      | .text none :: rest => some (.unusable, rest)
      | .openBracket :: .closeBracket :: rest => some (.array [], rest)
      | .openBracket :: rest => do
          let (items, rest) ← itemsWithin budget rest
          return (.array items, rest)
      | .openBrace :: .closeBrace :: rest => some (.object [], rest)
      | .openBrace :: rest => do
          let (members, rest) ← membersWithin budget rest
          return (ofMembers members, rest)
      | _ => none

/-- Items up to the closing bracket. -/
def itemsWithin : Nat → List JsonToken → Option (List JsonValue × List JsonToken)
  | 0, _ => none
  | budget + 1, tokens => do
      let (item, rest) ← valueWithin budget tokens
      match rest with
      | .closeBracket :: rest => return ([item], rest)
      | .comma :: rest => do
          let (items, rest) ← itemsWithin budget rest
          return (item :: items, rest)
      | _ => none

/-- Members up to the closing brace. -/
def membersWithin :
    Nat → List JsonToken → Option (List (Option String × JsonValue) × List JsonToken)
  | 0, _ => none
  | budget + 1, tokens =>
      match tokens with
      | .text key :: .colon :: rest => do
          let (value, rest) ← valueWithin budget rest
          match rest with
          | .closeBrace :: rest => return ([(key, value)], rest)
          | .comma :: rest => do
              let (members, rest) ← membersWithin budget rest
              return ((key, value) :: members, rest)
          | _ => none
      | _ => none

end

/-- A budget for a number of tokens: a container and its first item may start at the
same token. -/
def tokenBudget (count : Nat) : Nat :=
  2 * count + 2

/-- The value that the tokens are, all of them. -/
def ofTokens? (tokens : List JsonToken) : Option JsonValue := do
  let (value, rest) ← valueWithin (tokenBudget tokens.length) tokens
  if rest.isEmpty then some value else none

def ofCodes? (codes : List Nat) : Option JsonValue := do
  ofTokens? (← JsonText.tokens? codes)

def ofText? (text : String) : Option JsonValue :=
  ofCodes? (JsonText.codesOfText text)

def ofBytes? (bytes : List UInt8) : Option JsonValue :=
  ofCodes? (JsonText.codesOfBytes bytes)

end JsonValue

end ObjectPackage
