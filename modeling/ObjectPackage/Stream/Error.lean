/-
What can go wrong while values are read from or written to a stream.
-/

namespace ObjectPackage

inductive StreamError where
  | unexpectedEnd (offset wanted : Nat)
  | indexOverflow (offset : Nat)
  | nameOutOfRange (index : Int)
  | objectOutOfRange (reference : Int)
  | unterminatedString (offset : Nat)
  | invalidText (offset : Nat)
  | arrayIndexTooLarge (index : Nat)
  | reentrantLoad (object : String)
deriving DecidableEq, Repr, Inhabited

namespace StreamError

def message : StreamError → String
  | unexpectedEnd offset wanted =>
      s!"unexpected end of stream at offset {offset} (wanted {wanted} bytes)"
  | indexOverflow offset => s!"compact index at offset {offset} does not fit 32 bits"
  | nameOutOfRange index => s!"name index {index} is outside the name table"
  | objectOutOfRange reference =>
      s!"object reference {reference} is outside the object table"
  | unterminatedString offset => s!"string at offset {offset} is not terminated"
  | invalidText offset => s!"string at offset {offset} is not valid UTF-16"
  | arrayIndexTooLarge index => s!"array index {index} does not fit the 30-bit encoding"
  | reentrantLoad object => s!"object {object} is already being loaded"

def isEnd : StreamError → Bool
  | unexpectedEnd _ _ => true
  | _ => false

end StreamError

end ObjectPackage
