/-
Tagged property lists.  Loading puts every entry into the property it names and
skips entries that the layout does not know; saving writes an entry for every
element that differs from its default.
-/
import ObjectPackage.Block
import ObjectPackage.Store.Payload
import ObjectPackage.Tagged.Header

namespace ObjectPackage

/-- Number of entries that were loaded and names of those that were skipped. -/
structure LoadReport where
  loaded : Nat
  skipped : List String
deriving DecidableEq, Repr, Inhabited

namespace PropertyType

/-- Load the value of an entry.  A bool has its value in the header. -/
def loadEntry (package : Package) (property : String) (header : Header)
    (location : Location) (mask : UInt32) (type : PropertyType) : Load Unit := do
  if !type.accepts header.tag then
    throw (.typeMismatch property type.tag header.tag)
  match type.struct?, header.structName with
  | some layout, some id =>
      let found := (package.names.get? id).getD "?"
      if !sameName found layout.name then
        throw (.structMismatch property layout.name found)
  | _, _ => pure ()
  if type.isBool then
    Load.update (Update.setBool location mask header.boolValue)
  else
    tryCatch (type.load package location mask) fun error =>
      throw (error.inProperty property)

end PropertyType

namespace Load

/-- Load one entry into the property that its header resolves to. -/
def entry (package : Package) (property : Property) (header : Header) : Load Unit := do
  let index := header.arrayIndex.toNat
  if property.dimension ≤ index then
    throw (.indexOutOfRange property.name index property.dimension)
  let start := (← get).cursor.pos
  property.type.loadEntry package property.name header (Block.elementAt property index)
    property.mask
  let consumed := (← get).cursor.pos - start
  if header.tag ≠ .bool ∧ consumed ≠ header.size.toNat then
    throw (.sizeMismatch property.name header.size.toNat consumed)

/-- Load entries up to the terminator.  A header takes at least two bytes, so a
budget of one more than the bytes that are left does not run out. -/
def entries (package : Package) (layout : StructLayout) : Nat → LoadReport → Load LoadReport
  | 0, report => return report
  | budget + 1, report => do
      match ← read (Header.read package.names) with
      | none => return report
      | some header =>
          let name := (package.names.get? header.name).getD "?"
          match layout.findTagged? name (header.tag == .struct) with
          | some property =>
              entry package property header
              entries package layout budget { report with loaded := report.loaded + 1 }
          | none =>
              tryCatch (read (Read.skip header.size.toNat)) fun error =>
                throw (error.inProperty name)
              entries package layout budget { report with skipped := report.skipped ++ [name] }

def properties (package : Package) (layout : StructLayout) : Load LoadReport := do
  entries package layout ((← get).cursor.rest.length + 1) ⟨0, []⟩

end Load

/-- Load a property list into a block. -/
def Block.loadProperties (package : Package) (block : Block) (cursor : Cursor) :
    Except PropertyError LoadReport × Block × Cursor :=
  let (result, state) :=
    (Filling.mk block.store cursor).run (Load.properties package block.layout)
  (result, { block with store := state.store }, state.cursor)

/-- The name table, which grows while a list is saved, and the bytes so far. -/
structure SaveState where
  names : NameTable
  output : Array UInt8
deriving DecidableEq, Repr, Inhabited

abbrev Save := ExceptT PropertyError (StateM SaveState)

namespace Save

def emit (bytes : List UInt8) : Save Unit :=
  modify fun state => { state with output := state.output ++ bytes }

def intern (name : String) : Save NameId := do
  let state ← get
  let (id, names) := state.names.intern name
  set { state with names := names }
  return id

def ofExcept {α : Type} : Except PropertyError α → Save α
  | .ok value => return value
  | .error error => throw error

/-- Header of an element with its names interned, property first. -/
def header (property : Property) (index payloadSize : Nat) (boolValue : Bool) :
    Save Header := do
  let name ← intern property.name
  let structName ← match property.type.struct? with
    | some layout => some <$> intern layout.name
    | none => pure none
  return ⟨name, property.type.tag, UInt32.ofNat payloadSize, UInt32.ofNat index, structName,
    boolValue⟩

/-- The payload of an element; a bool is saved in the header alone. -/
def payload (block : Block) (property : Property) (index : Nat) :
    Except PropertyError (List UInt8 × Bool) := do
  let value ← block.value property index
  match property.type, value with
  | .bool, .bool value => .ok ([], value)
  | type, value => .ok (type.encode value, false)

/-- Save one element. -/
def element (block : Block) (property : Property) (index : Nat) : Save Unit := do
  if property.type.isBool ∧ 1 < property.dimension then
    throw (.unsupportedBoolArray property.name)
  let (payload, boolValue) ← ofExcept (payload block property index)
  let header ← header property index payload.length boolValue
  emit header.lead
  match header.trail with
  | .ok bytes => emit bytes
  | .error error => throw (.stream error)
  emit payload

/-- Whether an element holds what the defaults hold. -/
def isDefault (block : Block) (defaults : Option Block) (property : Property)
    (index : Nat) : Except PropertyError Bool :=
  match defaults with
  | some defaults =>
      if defaults.layout.contains property then block.identical property index defaults
      else .ok false
  | none => .ok false

/-- Save the elements of a property that differ, and count them. -/
def property (block : Block) (defaults : Option Block) (property : Property) : Save Nat := do
  if property.flags.has .transient then return 0
  (List.range property.dimension).foldlM (fun written index => do
    if ← ofExcept (isDefault block defaults property index) then return written
    element block property index
    return written + 1) 0

/-- Save all properties and the terminator. -/
def properties (block : Block) (defaults : Option Block) : Save Nat := do
  let written ← block.layout.properties.foldlM (fun written item => do
    return written + (← property block defaults item)) 0
  emit (Encode.name (← intern noneName))
  return written

end Save

/-- Save a block as a property list.  The name table and the output of the answer
hold what was added before a failure, too. -/
def Block.saveProperties (block : Block) (defaults : Option Block) (names : NameTable) :
    Except PropertyError Nat × SaveState :=
  (ExceptT.run (Save.properties block defaults)).run ⟨names, #[]⟩

end ObjectPackage
