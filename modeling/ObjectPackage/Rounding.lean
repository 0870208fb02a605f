/-
Rounding to the nearest, ties to even: quotients of numbers, and numbers to the
precision of doubles.
-/

namespace ObjectPackage

/-- The quotient rounded to the nearest number, ties to even. -/
def roundDiv (numerator denominator : Nat) : Nat :=
  let quotient := numerator / denominator
  let twice := 2 * (numerator % denominator)
  if twice < denominator then quotient
  else if denominator < twice then quotient + 1
  else if quotient % 2 = 0 then quotient
  else quotient + 1

/-- Bits of precision of a double. -/
def doublePrecision : Nat := 53

/-- The nearest number of no more bits than a double has, trailing zeros apart. -/
def nearestDouble (number : Nat) : Nat :=
  let unit := 1 <<< (number.log2 + 1 - doublePrecision)
  roundDiv number unit * unit

end ObjectPackage
