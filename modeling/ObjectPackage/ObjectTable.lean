/-
The object table of a package: objects it exports, objects it imports, and
the load state of every export.  A stream names an object by a signed
reference; a loaded value holds a 64-bit handle.
-/
import ObjectPackage.NameTable
import ObjectPackage.Stream.Error

namespace ObjectPackage

/-- Zero is no object, positive references count exports, negative ones imports. -/
structure ObjectRef where
  val : Int32
deriving DecidableEq, Repr, Inhabited

namespace ObjectRef

def null : ObjectRef := ⟨0⟩

/-- Reference of an export position, taken modulo 32 bits. -/
def ofExport (index : Int32) : ObjectRef := ⟨index + 1⟩

/-- Reference of an import position, taken modulo 32 bits. -/
def ofImport (index : Int32) : ObjectRef := ⟨-index - 1⟩

def isNull (reference : ObjectRef) : Bool :=
  reference.val == 0

def export? (reference : ObjectRef) : Option Nat :=
  if 0 < reference.val.toInt then some (reference.val.toInt - 1).toNat else none

def import? (reference : ObjectRef) : Option Nat :=
  if reference.val.toInt < 0 then some (-reference.val.toInt - 1).toNat else none

end ObjectRef

/-- Zero is no object; the top bit tells an import from an export and the rest
is its position plus one. -/
structure ObjectHandle where
  bits : UInt64
deriving DecidableEq, Repr, Inhabited

namespace ObjectHandle

def importBit : UInt64 := 0x8000000000000000

def null : ObjectHandle := ⟨0⟩

def isNull (handle : ObjectHandle) : Bool :=
  handle.bits == 0

def ofExport (index : Nat) : ObjectHandle := ⟨UInt64.ofNat index + 1⟩

def ofImport (index : Nat) : ObjectHandle := ⟨importBit ||| (UInt64.ofNat index + 1)⟩

/-- The reference that a handle stands for; positions are cut to 32 bits. -/
def toRef (handle : ObjectHandle) : ObjectRef :=
  if handle.bits == 0 then .null
  else if handle.bits &&& importBit != 0 then
    .ofImport ((handle.bits &&& ~~~importBit) - 1).toUInt32.toInt32
  else .ofExport (handle.bits - 1).toUInt32.toInt32

end ObjectHandle

inductive LoadState where
  | unloaded
  | loading
  | loaded
deriving DecidableEq, Repr, Inhabited

/-- Object and class of a table row, both by name. -/
structure ObjectEntry where
  name : NameId
  className : NameId
deriving DecidableEq, Repr, Inhabited

/-- An exported object is loaded at most once. -/
structure ExportEntry where
  entry : ObjectEntry
  state : LoadState
deriving DecidableEq, Repr, Inhabited

structure ObjectTable where
  exports : List ExportEntry
  imports : List ObjectEntry
deriving DecidableEq, Repr, Inhabited

namespace ObjectTable

def empty : ObjectTable := ⟨[], []⟩

def addExport (table : ObjectTable) (entry : ObjectEntry) : ObjectRef × ObjectTable :=
  (.ofExport (UInt32.ofNat table.exports.length).toInt32,
    { table with exports := table.exports ++ [⟨entry, .unloaded⟩] })

def addImport (table : ObjectTable) (entry : ObjectEntry) : ObjectRef × ObjectTable :=
  (.ofImport (UInt32.ofNat table.imports.length).toInt32,
    { table with imports := table.imports ++ [entry] })

def row? (table : ObjectTable) (reference : ObjectRef) : Option ObjectEntry :=
  match reference.export?, reference.import? with
  | some index, _ => table.exports[index]?.map ExportEntry.entry
  | none, some index => table.imports[index]?
  | none, none => none

/-- The handle of a reference that is null or names a row of the table. -/
def resolve (table : ObjectTable) (reference : ObjectRef) :
    Except StreamError ObjectHandle :=
  match reference.export?, reference.import? with
  | some index, _ =>
      if index < table.exports.length then .ok (.ofExport index)
      else .error (.objectOutOfRange reference.val.toInt)
  | none, some index =>
      if index < table.imports.length then .ok (.ofImport index)
      else .error (.objectOutOfRange reference.val.toInt)
  | none, none => .ok .null

def state? (table : ObjectTable) (reference : ObjectRef) : Option LoadState := do
  let index ← reference.export?
  return (← table.exports[index]?).state

/-- Change the state of one export; other rows and invalid positions are untouched. -/
def setState (table : ObjectTable) (index : Nat) (state : LoadState) : ObjectTable :=
  { table with exports := table.exports.modify index fun row => { row with state := state } }

/-- Start to load an export.  The answer tells whether the caller has to load
it now; an export that is being loaded cannot be started again. -/
def beginLoad (table : ObjectTable) (reference : ObjectRef) :
    Except StreamError (Bool × ObjectTable) :=
  match reference.export? with
  | none => .error (.objectOutOfRange reference.val.toInt)
  | some index =>
      match table.exports[index]? with
      | none => .error (.objectOutOfRange reference.val.toInt)
      | some row =>
          match row.state with
          | .loaded => .ok (false, table)
          | .loading => .error (.reentrantLoad ("export #" ++ toString index))
          | .unloaded => .ok (true, table.setState index .loading)

def finishLoad (table : ObjectTable) (reference : ObjectRef) : ObjectTable :=
  match reference.export? with
  | none => table
  | some index => table.setState index .loaded

/-- Class and quoted name of an object, as far as the names are known. -/
def describe (table : ObjectTable) (handle : ObjectHandle) (names : NameTable) : String :=
  match table.row? handle.toRef with
  | none => "None"
  | some entry =>
      let name := (names.get? entry.name).getD "?"
      match names.get? entry.className with
      | some owner => s!"{owner}'{name}'"
      | none => name

end ObjectTable

end ObjectPackage
