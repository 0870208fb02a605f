/-
Number literals of JSON text.  A literal is read as a significand of 64 bits and a
power of ten; digits that the significand has no room for are dropped.  Its range
is that of the product of the two in double precision.
-/
import ObjectPackage.Json.Value
import ObjectPackage.Rounding

namespace ObjectPackage

namespace JsonText

def isDigit (code : Nat) : Bool :=
  48 ≤ code && code ≤ 57

def digitsValue (codes : List Nat) : Nat :=
  codes.foldl (fun total code => total * 10 + (code - 48)) 0

/-- A run of digits, which must not be empty, and what follows. -/
def digits? (codes : List Nat) : Option (List Nat × List Nat) :=
  let run := codes.takeWhile isDigit
  if run.isEmpty then none else some (run, codes.dropWhile isDigit)

/-- The digits after a point, if one comes next. -/
def fraction? : List Nat → Option (List Nat × List Nat)
  | 0x2e :: rest => digits? rest
  | codes => some ([], codes)

/-- The exponent, if one comes next. -/
def exponent? : List Nat → Option (Option Int × List Nat)
  | code :: rest =>
      if code = 0x65 ∨ code = 0x45 then
        match rest with
        | 0x2d :: rest => (digits? rest).map fun (run, rest) =>
            (some (-Int.ofNat (digitsValue run)), rest)
        | 0x2b :: rest => (digits? rest).map fun (run, rest) =>
            (some (Int.ofNat (digitsValue run)), rest)
        | rest => (digits? rest).map fun (run, rest) =>
            (some (Int.ofNat (digitsValue run)), rest)
      else some (none, code :: rest)
  | [] => some (none, [])

/-- Append digits to a significand until one would not fit 64 bits any more.  The
digits from that one on are left over. -/
def appendDigits (significand : Nat) : List Nat → Nat × List Nat
  | [] => (significand, [])
  | code :: rest =>
      let longer := significand * 10 + (code - 48)
      if longer < UInt64.size then appendDigits longer rest else (significand, code :: rest)

/-- Largest power of ten that is a double. -/
def maxDecimalExponent : Int := 308

/-- Whether the double next to the significand, times the double next to the power of
ten, is in the range of doubles. -/
def inRange (significand : Nat) (exponent : Int) : Bool :=
  significand == 0 || exponent ≤ 0 ||
    (exponent ≤ maxDecimalExponent &&
      nearestDouble (nearestDouble significand * nearestDouble (Nat.pow 10 exponent.toNat)) < 1 <<< 1024)

/-- An integer of 64 bits, signed if it is negative, has neither fraction nor exponent,
and is not minus zero.  All other numbers are decimals. -/
def numberOf (negative : Bool) (whole fraction : List Nat) (exponent : Option Int)
    (hasPoint : Bool) : Option JsonNumber :=
  let (significand, leftWhole) := appendDigits 0 whole
  let (digits, leftFraction) := appendDigits significand fraction
  let places := fraction.length - leftFraction.length
  let scale := exponent.getD 0 + Int.ofNat leftWhole.length - Int.ofNat places
  let signed := if negative then -Int.ofNat digits else Int.ofNat digits
  if !inRange digits scale then none
  else if hasPoint || exponent.isSome || !leftWhole.isEmpty then some (.decimal signed scale)
  else if negative && (digits == 0 || 1 <<< 63 < digits) then some (.decimal signed scale)
  else some (.integer signed)

/-- A number literal and what follows it.  Nothing stands for a number out of range. -/
def number? (codes : List Nat) : Option (Option JsonNumber × List Nat) := do
  let (negative, codes) := match codes with
    | 0x2d :: rest => (true, rest)
    | codes => (false, codes)
  let (whole, codes) ← digits? codes
  if whole.head? = some 48 ∧ 1 < whole.length then none
  let hasPoint := codes.head? == some 0x2e
  let (fraction, codes) ← fraction? codes
  let (exponent, codes) ← exponent? codes
  return (numberOf negative whole fraction exponent hasPoint, codes)

end JsonText

end ObjectPackage
