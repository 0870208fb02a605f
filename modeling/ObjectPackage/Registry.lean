/-
Named struct declarations and their layouts.  A declaration is resolved at most
once, after everything it depends on, and a declaration that is being resolved
cannot be needed by itself.
-/
import ObjectPackage.Layout.Build
import ObjectPackage.ObjectTable
import ObjectPackage.Schema.Basic

namespace ObjectPackage

inductive RegistryEntry where
  | unloaded (decl : StructDecl)
  | loading
  | loaded (layout : StructLayout)

instance : Inhabited RegistryEntry := ⟨.loading⟩

def RegistryEntry.state : RegistryEntry → LoadState
  | unloaded _ => .unloaded
  | loading => .loading
  | loaded _ => .loaded

/-- Entries are keyed by the name in lower case; `order` lists the keys as they
were registered. -/
structure Registry where
  realm : Nat
  entries : List (String × RegistryEntry)
  order : List String
deriving Inhabited

/-- Replace the value of a key, or add the pair at the end. -/
def insertEntry {α : Type} (key : String) (value : α) : List (String × α) → List (String × α)
  | [] => [(key, value)]
  | (other, old) :: rest =>
      if other = key then (key, value) :: rest
      else (other, old) :: insertEntry key value rest

namespace Registry

def empty (realm : Nat) : Registry := ⟨realm, [], []⟩

def find? (registry : Registry) (name : String) : Option RegistryEntry :=
  registry.entries.lookup (foldCase name)

def setEntry (registry : Registry) (name : String) (entry : RegistryEntry) : Registry :=
  { registry with entries := insertEntry (foldCase name) entry registry.entries }

/-- Add a declaration at the end of the order. -/
def enter (registry : Registry) (decl : StructDecl) : Registry :=
  { registry.setEntry decl.name (.unloaded decl) with
    order := registry.order ++ [foldCase decl.name] }

def withBuiltins (realm : Nat) : Registry :=
  builtinStructs.foldl enter (empty realm)

def contains (registry : Registry) (name : String) : Bool :=
  (registry.find? name).isSome

def state? (registry : Registry) (name : String) : Option LoadState :=
  (registry.find? name).map RegistryEntry.state

/-- The layout of a struct that has been resolved. -/
def get? (registry : Registry) (name : String) : Option StructLayout :=
  match registry.find? name with
  | some (.loaded layout) => some layout
  | _ => none

/-- All resolved layouts in the order of registration. -/
def layouts (registry : Registry) : List StructLayout :=
  registry.order.filterMap fun key =>
    match registry.entries.lookup key with
    | some (.loaded layout) => some layout
    | _ => none

end Registry

abbrev Resolve := ExceptT LayoutError (StateM Registry)

/-- Run an action on a registry; what it did before it failed is kept. -/
def Registry.run {α : Type} (registry : Registry) (action : Resolve α) :
    Except LayoutError α × Registry :=
  (ExceptT.run action).run registry

namespace Registry

mutual

/-- Register a declaration after the structs nested in it. -/
def register : StructDecl → Resolve Unit
  | ⟨name, base, fields⟩ => do
      if !isIdentifier name then throw (.malformedName name)
      if (← get).contains name then throw (.duplicateStruct name)
      registerNested fields
      modify fun registry => registry.enter ⟨name, base, fields⟩

def registerNested : List FieldDecl → Resolve Unit
  | [] => pure ()
  | .property _ :: rest => registerNested rest
  | .struct decl :: rest => do
      register decl
      registerNested rest

end

def registerSchema (schema : Schema) : Resolve Unit :=
  schema.structs.forM register

/-- Resolve the structs that a type names. -/
def resolveType (resolve : String → Resolve StructLayout) : TypeExpr → Resolve PropertyType
  | .byte => return .byte
  | .int => return .int
  | .bool => return .bool
  | .float => return .float
  | .name => return .name
  | .str => return .str
  | .object className => return .object className
  | .classRef metaClass => return .classRef metaClass
  | .struct name => return .struct (← resolve name)
  | .fixedArray element count => return .fixedArray (← resolveType resolve element) count
  | .array element => return .array (← resolveType resolve element)
  | .map key value => do
      let key ← resolveType resolve key
      let value ← resolveType resolve value
      return .map key value

def resolveField (resolve : String → Resolve StructLayout) :
    FieldDecl → Resolve LayoutField
  | .struct decl => return .nested (← resolve decl.name)
  | .property decl => do
      let type ← resolveType resolve decl.type
      return .property decl.name type decl.dimension decl.flags

/-- Resolve everything a declaration depends on, then lay it out. -/
def buildDecl (resolve : String → Resolve StructLayout) (decl : StructDecl) :
    Resolve StructLayout := do
  let base ← match decl.base with
    | none => pure none
    | some base => some <$> resolve base
  let fields ← decl.fields.mapM (resolveField resolve)
  match buildLayout (← get).realm decl.name base fields with
  | .ok layout => return layout
  | .error error => throw error

def maxResolveDepth : Nat := 64

/-- Resolve a struct with `levels` dependency levels left. -/
def resolveWithin : Nat → String → Resolve StructLayout
  | 0, name => throw (.depthExceeded name maxResolveDepth)
  | levels + 1, name => do
      match (← get).find? name with
      | none => throw (.unknownStruct name)
      | some (.loaded layout) => return layout
      | some .loading => throw (.recursiveStruct name)
      | some (.unloaded decl) =>
          modify fun registry => registry.setEntry name .loading
          try
            let layout ← buildDecl (resolveWithin levels) decl
            modify fun registry => registry.setEntry name (.loaded layout)
            return layout
          catch error =>
            modify fun registry => registry.setEntry name (.unloaded decl)
            throw error

/-- Resolve a struct by name. -/
def resolve (name : String) : Resolve StructLayout :=
  resolveWithin (maxResolveDepth + 1) name

/-- Resolve every registered struct, up to the first that fails. -/
def resolveAll : Resolve (List StructLayout) := do
  (← get).order.mapM resolve

end Registry

end ObjectPackage
