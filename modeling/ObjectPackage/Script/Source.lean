/-
Where script operands are read from.  A package stream holds names and objects
as compact indices and knows its terminator name by its text; a decoded blob
holds four bytes for either and knows at most one terminator.
-/
import ObjectPackage.Stream.Read

namespace ObjectPackage

structure ScriptSource where
  u8 : Read UInt8
  u16 : Read UInt16
  u32 : Read UInt32
  object : Read Int32
  name : Read UInt32
  isTerminator : UInt32 → Bool
  bytesZ : Read (List UInt8)
  unitsZ : Read (List UInt16)

namespace Cursor

def atEnd (cursor : Cursor) : Cursor :=
  ⟨cursor.size, []⟩

end Cursor

namespace Read

/-- A read that uses up the whole input when it fails. -/
def orExhaust {α : Type} (action : Read α) : Read α :=
  tryCatch action fun error => do
    modify Cursor.atEnd
    throw error

/-- Bytes up to the next zero byte; running out of input is an ordinary end. -/
def blobBytesZ : Read (List UInt8) := do
  let cursor ← get
  let text := cursor.rest.takeWhile (· != 0)
  if (cursor.rest.dropWhile (· != 0)).isEmpty then
    set cursor.atEnd
    throw (.unexpectedEnd cursor.size 1)
  set (cursor.advance (text.length + 1))
  return text

/-- Units up to the next zero unit; running out of input is an ordinary end. -/
def blobUnitsZ : Read (List UInt16) := do
  let cursor ← get
  let (units, ended) := scanUnits cursor.rest
  if ended then
    set (cursor.advance (2 * (units.length + 1)))
    return units
  else
    set cursor.atEnd
    throw (.unexpectedEnd (cursor.pos + 2 * units.length) 2)

end Read

namespace ScriptSource

def package (names : NameTable) : ScriptSource where
  u8 := Read.u8
  u16 := Read.u16
  u32 := Read.u32
  object := Read.index
  name := return (← Read.name names).val
  isTerminator id := names.isNone ⟨id⟩
  bytesZ := Read.bytesZ
  unitsZ := Read.unitsZ

def blob (terminator : Option UInt32) : ScriptSource where
  u8 := Read.orExhaust Read.u8
  u16 := Read.orExhaust Read.u16
  u32 := Read.orExhaust Read.u32
  object := Read.orExhaust Read.i32
  name := Read.orExhaust Read.u32
  isTerminator id := terminator == some id
  bytesZ := Read.blobBytesZ
  unitsZ := Read.blobUnitsZ

end ScriptSource

end ObjectPackage
