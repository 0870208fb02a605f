/-
Classes: a layout with default values and, where the class has code, its script.
-/
import ObjectPackage.Script.Decode
import ObjectPackage.Tagged.PropertyList

namespace ObjectPackage

structure ClassObject where
  layout : StructLayout
  defaults : Block
  script : Option Script
  report : LoadReport
deriving Inhabited

/-- Why the saved body of a class cannot be loaded. -/
inductive ClassFault where
  | script (error : ScriptError)
  | property (error : PropertyError)
deriving DecidableEq, Repr, Inhabited

def ClassFault.message : ClassFault → String
  | script error => error.message
  | property error => error.message

structure ClassError where
  className : String
  fault : ClassFault
deriving DecidableEq, Repr, Inhabited

def ClassError.message (error : ClassError) : String :=
  "class " ++ error.className ++ ": " ++ error.fault.message

namespace ClassObject

def name (object : ClassObject) : String :=
  object.layout.name

/-- The script of a class, which comes first in its saved body. -/
def loadScript (package : Package) (size : Nat) (cursor : Cursor) :
    Except ClassFault (Option Script) × Cursor :=
  if size = 0 then (.ok none, cursor)
  else
    match cursor.decode (Script.decode package size) with
    | (.ok script, state) => (.ok (some script), state.cursor)
    | (.error error, state) => (.error (.script error), state.cursor)

/-- Load a class from its saved body.  Its defaults start from those of its base.
The cursor of the answer is where loading stopped. -/
def load (package : Package) (layout : StructLayout) (base : Option ClassObject)
    (scriptSize : Nat) (cursor : Cursor) : Except ClassError ClassObject × Cursor :=
  let fail (fault : ClassFault) : Except ClassError ClassObject :=
    .error ⟨layout.name, fault⟩
  match loadScript package scriptSize cursor with
  | (.error fault, cursor) => (fail fault, cursor)
  | (.ok script, cursor) =>
      match Block.newDefault layout (base.map ClassObject.defaults) with
      | .error error => (fail (.property error), cursor)
      | .ok block =>
          match block.loadProperties package cursor with
          | (.error error, _, cursor) => (fail (.property error), cursor)
          | (.ok report, defaults, cursor) => (.ok ⟨layout, defaults, script, report⟩, cursor)

/-- A new object of a class. -/
def instantiate (object : ClassObject) : Except PropertyError Block :=
  object.defaults.newInstance

end ClassObject

end ObjectPackage
