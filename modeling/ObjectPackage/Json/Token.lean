/-
Tokens of JSON text.  Text is a list of code points; a byte that is no UTF-8
and half of a surrogate pair stand as numbers that are no character.
-/
import ObjectPackage.Json.Number

namespace ObjectPackage

/-- A text token without content is a string that is no Unicode text, and a number
token without content is a number beyond the range of doubles. -/
inductive JsonToken where
  | openBrace
  | closeBrace
  | openBracket
  | closeBracket
  | comma
  | colon
  | null
  | bool (value : Bool)
  | number (value : Option JsonNumber)
  | text (content : Option String)
deriving DecidableEq, Repr, Inhabited

namespace JsonText

def isTail (byte : UInt8) : Bool :=
  0x80 ≤ byte && byte ≤ 0xbf

def tailBits (byte : UInt8) : Nat :=
  byte.toNat % 64

/-- A code above all characters for a byte that is not part of UTF-8 text. -/
def strayByte (byte : UInt8) : Nat :=
  0x110000 + byte.toNat

def isPair (first second : UInt8) : Bool :=
  0xc2 ≤ first && first ≤ 0xdf && isTail second

def isTriple (first second third : UInt8) : Bool :=
  isTail second && isTail third &&
    (first == 0xe0 && 0xa0 ≤ second || first == 0xed && second ≤ 0x9f ||
      0xe1 ≤ first && first ≤ 0xec || first == 0xee || first == 0xef)

def isQuadruple (first second third fourth : UInt8) : Bool :=
  isTail second && isTail third && isTail fourth &&
    (first == 0xf0 && 0x90 ≤ second || first == 0xf4 && second ≤ 0x8f ||
      0xf1 ≤ first && first ≤ 0xf3)

/-- Code points of UTF-8 bytes. -/
def codesOfBytes : List UInt8 → List Nat
  | [] => []
  | first :: rest =>
      if first < 0x80 then first.toNat :: codesOfBytes rest
      else
        match rest with
        | [] => [strayByte first]
        | second :: afterSecond =>
            if isPair first second then
              (first.toNat % 32 * 64 + tailBits second) :: codesOfBytes afterSecond
            else
              match afterSecond with
              | [] => strayByte first :: codesOfBytes [second]
              | third :: afterThird =>
                  if isTriple first second third then
                    ((first.toNat % 16 * 64 + tailBits second) * 64 + tailBits third) ::
                      codesOfBytes afterThird
                  else
                    match afterThird with
                    | [] => strayByte first :: codesOfBytes [second, third]
                    | fourth :: afterFourth =>
                        if isQuadruple first second third fourth then
                          (((first.toNat % 8 * 64 + tailBits second) * 64 +
                            tailBits third) * 64 + tailBits fourth) ::
                            codesOfBytes afterFourth
                        else
                          strayByte first ::
                            codesOfBytes (second :: third :: fourth :: afterFourth)

def codesOfText (text : String) : List Nat :=
  text.toList.map Char.toNat

def isHigh (code : Nat) : Bool :=
  0xd800 ≤ code && code < 0xdc00

def isLow (code : Nat) : Bool :=
  0xdc00 ≤ code && code < 0xe000

/-- Join neighbouring halves of a surrogate pair. -/
def joinPairs : List Nat → List Nat
  | high :: low :: rest =>
      if isHigh high && isLow low then
        (0x10000 + (high - 0xd800) * 0x400 + (low - 0xdc00)) :: joinPairs rest
      else high :: joinPairs (low :: rest)
  | codes => codes

def char? (code : Nat) : Option Char :=
  if code.isValidChar then some (Char.ofNat code) else none

def text? (codes : List Nat) : Option String :=
  ((joinPairs codes).mapM char?).map String.ofList

def hexDigit? (code : Nat) : Option Nat :=
  if 48 ≤ code && code ≤ 57 then some (code - 48)
  else if 97 ≤ code && code ≤ 102 then some (code - 87)
  else if 65 ≤ code && code ≤ 70 then some (code - 55)
  else none

def hexUnit? (a b c d : Nat) : Option Nat := do
  return (((← hexDigit? a) * 16 + (← hexDigit? b)) * 16 + (← hexDigit? c)) * 16 +
    (← hexDigit? d)

/-- The character that a letter after a backslash stands for. -/
def escaped? (code : Nat) : Option Nat :=
  if code = 0x22 ∨ code = 0x5c ∨ code = 0x2f then some code
  else if code = 0x62 then some 8
  else if code = 0x66 then some 12
  else if code = 0x6e then some 10
  else if code = 0x72 then some 13
  else if code = 0x74 then some 9
  else none

def quoteCode : Nat := 0x22

def backslashCode : Nat := 0x5c

def unicodeCode : Nat := 0x75

/-- The inside of a string up to its closing quote, and what follows. -/
def quoted? : List Nat → Option (List Nat × List Nat)
  | [] => none
  | code :: rest =>
      if code = quoteCode then some ([], rest)
      else if code < 0x20 then none
      else if code = backslashCode then
        match rest with
        | [] => none
        | letter :: rest =>
            if letter = unicodeCode then
              match rest with
              | a :: b :: c :: d :: rest => do
                  let unit ← hexUnit? a b c d
                  let (codes, rest) ← quoted? rest
                  return (unit :: codes, rest)
              | _ => none
            else do
              let plain ← escaped? letter
              let (codes, rest) ← quoted? rest
              return (plain :: codes, rest)
      else do
        let (codes, rest) ← quoted? rest
        return (code :: codes, rest)

/-- What is left after a word, if the text starts with it. -/
def word? (word : String) (codes : List Nat) : Option (List Nat) :=
  let expected := codesOfText word
  if expected.isPrefixOf codes then some (codes.drop expected.length) else none

/-- The token at the start of a text. -/
def token? (codes : List Nat) : Option (JsonToken × List Nat) :=
  match codes with
  | [] => none
  | code :: rest =>
      if code = 0x7b then some (.openBrace, rest)
      else if code = 0x7d then some (.closeBrace, rest)
      else if code = 0x5b then some (.openBracket, rest)
      else if code = 0x5d then some (.closeBracket, rest)
      else if code = 0x2c then some (.comma, rest)
      else if code = 0x3a then some (.colon, rest)
      else if code = quoteCode then
        (quoted? rest).map fun (codes, rest) => (.text (text? codes), rest)
      else if code = 0x2d ∨ isDigit code then
        (number? codes).map fun (number, rest) => (.number number, rest)
      else if code = 0x6e then (word? "null" codes).map (.null, ·)
      else if code = 0x74 then (word? "true" codes).map (.bool true, ·)
      else if code = 0x66 then (word? "false" codes).map (.bool false, ·)
      else none

def isBlank (code : Nat) : Bool :=
  code == 0x20 || code == 0x09 || code == 0x0a || code == 0x0d

/-- Tokens of a text.  A token takes at least one code, so a budget of one more than
the codes does not run out. -/
def tokensWithin : Nat → List Nat → Option (List JsonToken)
  | 0, _ => none
  | budget + 1, codes =>
      match codes.dropWhile isBlank with
      | [] => some []
      | codes => do
          let (token, rest) ← token? codes
          return token :: (← tokensWithin budget rest)

def tokens? (codes : List Nat) : Option (List JsonToken) :=
  tokensWithin (codes.length + 1) codes

end JsonText

end ObjectPackage
