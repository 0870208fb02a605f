/-
Blocks: the values of one layout.  A block is made as the defaults of a struct,
which start from the defaults of a base, or as an instance, which copies such
defaults.  It is reached through the properties of its own layout only.
-/
import ObjectPackage.Layout.Build
import ObjectPackage.Store.Typed

namespace ObjectPackage

structure Block where
  layout : StructLayout
  store : Store
deriving Inhabited

namespace Block

/-- Run an action for every element of some properties. -/
def forElements (properties : List Property) (action : Property → Nat → Update Unit) :
    Update Unit :=
  properties.forM fun property => forIndices property.dimension (action property)

def elementAt (property : Property) (index : Nat) : Location :=
  .root (property.elementOffset index)

def copyElement (source : Store) (property : Property) (index : Nat) : Update Unit :=
  let location := elementAt property index
  property.type.copy source location location property.mask

def constructElement (property : Property) (index : Nat) : Update Unit :=
  property.type.construct (elementAt property index) property.mask

/-- Fill a new store for a layout. -/
def fill (layout : StructLayout) (size : Nat) (action : Property → Nat → Update Unit) :
    Except PropertyError Block :=
  match (Store.zeroed size).update (forElements layout.properties action) with
  | (.ok (), store) => .ok ⟨layout, store⟩
  | (.error error, _) => .error error

/-- Default values, except for properties of a base block, which are copied from
there.  The layout has to be the layout of the base block or derive from it. -/
def newDefault (layout : StructLayout) (base : Option Block) : Except PropertyError Block :=
  let size := alignUp layout.size blockGrain
  match base with
  | none => fill layout size constructElement
  | some base =>
      if layout.isA base.layout.name then
        fill layout size fun property =>
          if base.layout.contains property then copyElement base.store property
          else constructElement property
      else .error (.layoutMismatch layout.name base.layout.name)

/-- A copy that shares nothing with the block it is made from. -/
def newInstance (defaults : Block) : Except PropertyError Block :=
  fill defaults.layout defaults.store.root.size (copyElement defaults.store)

def size (block : Block) : Nat :=
  block.store.root.size

def heapValues (block : Block) : Nat :=
  block.store.liveSlots

/-- A block is reached only through its own properties. -/
def checkOwn (block : Block) (property : Property) : Except PropertyError Unit :=
  if block.layout.contains property then .ok ()
  else .error (.foreignProperty property.name block.layout.name)

/-- Where an element of a property is. -/
def element (block : Block) (property : Property) (index : Nat) :
    Except PropertyError Location := do
  block.checkOwn property
  if index < property.dimension then .ok (elementAt property index)
  else .error (.indexOutOfRange property.name (index % UInt32.size) property.dimension)

/-- The bytes of all elements of a property. -/
def slice (block : Block) (property : Property) : Except PropertyError (List UInt8) := do
  block.checkOwn property
  block.store.bytes (.root property.offset) property.size

/-- Overwrite bytes inside the slice of a property, which may break handles. -/
def poke (block : Block) (property : Property) (start : Nat) (piece : List UInt8) :
    Except PropertyError Block := do
  let bytes ← block.slice property
  let changed := (overwrite bytes.toArray start piece).toList
  return { block with store := block.store.overwrite (.root property.offset) changed }

def value (block : Block) (property : Property) (index : Nat) :
    Except PropertyError Value := do
  let location ← block.element property index
  property.type.snapshot block.store location property.mask

/-- Store a value; a value that does not fit may be stored in part. -/
def setValue (block : Block) (property : Property) (index : Nat) (value : Value) :
    Except PropertyError Unit × Block :=
  match block.element property index with
  | .error error => (.error error, block)
  | .ok location =>
      let (result, store) :=
        block.store.update (property.type.assign location property.mask value)
      (result, { block with store := store })

def print (package : Package) (block : Block) (property : Property) (index : Nat) :
    Except PropertyError String :=
  return (← block.value property index).render package

/-- Whether two blocks agree on an element. -/
def identical (block : Block) (property : Property) (index : Nat) (other : Block) :
    Except PropertyError Bool := do
  let left ← block.element property index
  let right ← other.element property index
  property.type.identical block.store left other.store right property.mask

/-- The value of an element that has to be of a kind. -/
def valueOfKind (block : Block) (property : Property) (index : Nat) (kind : String) :
    Except PropertyError Value := do
  let value ← block.value property index
  if value.kind = kind then return value
  else .error (.valueMismatch kind value.kind)

end Block

end ObjectPackage
