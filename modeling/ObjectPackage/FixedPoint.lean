/-
Decimal text of single-precision floats with six places.  The float is taken
as its exact value; a tie goes to the even neighbour.
-/
import ObjectPackage.Rounding

namespace ObjectPackage

/-- Places behind the point. -/
def floatPlaces : Nat := 6

/-- A number of units of the last place, written with the point. -/
def placesText (units : Nat) : String :=
  let scale := Nat.pow 10 floatPlaces
  let fraction := Nat.toDigits 10 (units % scale)
  let zeros := List.replicate (floatPlaces - fraction.length) '0'
  toString (units / scale) ++ "." ++ String.ofList (zeros ++ fraction)

/-- Text of the float with the given bits. -/
def floatText (bits : UInt32) : String :=
  let negative := 0x80000000 ≤ bits.toNat
  let exponent := (bits.toNat >>> 23) % 256
  let fraction := bits.toNat % 0x800000
  let sign := if negative then "-" else ""
  if exponent = 255 then
    if fraction = 0 then sign ++ "inf" else "NaN"
  else
    let mantissa := if exponent = 0 then fraction else fraction + 0x800000
    let power := max exponent 1
    let scaled := mantissa * Nat.pow 10 floatPlaces
    let units :=
      if 150 ≤ power then scaled <<< (power - 150)
      else roundDiv scaled (1 <<< (150 - power))
    sign ++ placesText units

end ObjectPackage
