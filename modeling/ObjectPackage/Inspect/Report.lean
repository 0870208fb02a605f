/-
Reports on layouts, loaded values and script tokens, as lines of text or as JSON.
-/
import ObjectPackage.Json.Value
import ObjectPackage.Script.Decode
import ObjectPackage.Tagged.PropertyList

namespace ObjectPackage

/-- Values of a block by label, and how they were loaded. -/
structure ValueReport where
  load : LoadReport
  values : List (String × String)
deriving DecidableEq, Repr, Inhabited

structure Report where
  layouts : List StructLayout
  values : Option ValueReport
  tokens : Option (List TokenRecord)
deriving Inhabited

namespace Report

/-- The elements of a property; one that is no array has no index. -/
def elementLabel (property : Property) (index : Nat) : String :=
  if 1 < property.dimension then s!"{property.name}[{index}]" else property.name

/-- Labels and texts of all elements of a block. -/
def valueTexts (package : Package) (block : Block) :
    Except PropertyError (List (String × String)) := do
  let texts ← block.layout.properties.mapM fun property =>
    (List.range property.dimension).mapM fun index =>
      return (elementLabel property index, ← block.print package property index)
  return texts.flatten

def propertyLine (property : Property) : String :=
  let mask :=
    if property.mask = 0 then "" else "mask 0x" ++ hexDigits 8 property.mask.toNat
  "  " ++ padLeft 6 (toString property.offset) ++ "  " ++ padRight 24 property.name ++ " " ++
    padRight 20 property.type.display ++ " x" ++ padRight 3 (toString property.dimension) ++
    " " ++ mask

def layoutLines (layout : StructLayout) : List String :=
  let base := match layout.base with
    | some base => " : " ++ base.name
    | none => ""
  ("struct " ++ layout.name ++ base ++ s!" ({layout.size} bytes)") ::
    layout.properties.map propertyLine

def valueLines (report : ValueReport) : List String :=
  s!"loaded {report.load.loaded} properties, skipped {report.load.skipped.length}" ::
    report.load.skipped.map (fun name => "  skipped " ++ name) ++
    report.values.map (fun (label, text) => "  " ++ label ++ " = " ++ text)

/-- A token behind its offset, indented by its depth. -/
def tokenLine (record : TokenRecord) : String :=
  padLeft 6 (toString record.offset) ++ "  " ++
    String.ofList (List.replicate (2 * record.depth) ' ') ++ record.opcode.display

def lines (report : Report) : List String :=
  report.layouts.flatMap layoutLines ++
    (match report.values with
    | some values => valueLines values
    | none => []) ++
    (match report.tokens with
    | some tokens => tokens.map tokenLine
    | none => [])

def text (report : Report) : String :=
  String.join (report.lines.map fun line => line ++ "\n")

def propertyJson (property : Property) : JsonValue :=
  .object [⟨"name", .string property.name⟩, ⟨"kind", .string property.type.display⟩,
    ⟨"owner", .string property.owner⟩, ⟨"offset", .ofNat property.offset⟩,
    ⟨"bit_mask", .ofNat property.mask.toNat⟩, ⟨"array_dim", .ofNat property.dimension⟩,
    ⟨"size", .ofNat property.size⟩]

def layoutJson (layout : StructLayout) : JsonValue :=
  .object [⟨"name", .string layout.name⟩,
    ⟨"base", match layout.base with
      | some base => .string base.name
      | none => .null⟩,
    ⟨"size", .ofNat layout.size⟩, ⟨"alignment", .ofNat layout.alignment⟩,
    ⟨"properties", .array (layout.properties.map propertyJson)⟩]

def valuesJson (report : ValueReport) : JsonValue :=
  .object [
    ⟨"load", .object [⟨"loaded", .ofNat report.load.loaded⟩,
      ⟨"skipped", .array (report.load.skipped.map JsonValue.string)⟩]⟩,
    ⟨"values", .array (report.values.map fun (label, text) =>
      .array [.string label, .string text])⟩]

/-- An opcode that stands for a range of bytes is written with its byte. -/
def opcodeJson (opcode : Opcode) : JsonValue :=
  match opcode.rangeByte? with
  | some byte => .object [⟨opcode.tag, .ofNat byte.toNat⟩]
  | none => .string opcode.tag

def tokenJson (record : TokenRecord) : JsonValue :=
  .object [⟨"offset", .ofNat record.offset⟩, ⟨"depth", .ofNat record.depth⟩,
    ⟨"opcode", opcodeJson record.opcode⟩]

/-- Values and tokens are left out where there are none. -/
def toJson (report : Report) : JsonValue :=
  .object (⟨"layouts", .array (report.layouts.map layoutJson)⟩ ::
    (match report.values with
    | some values => [⟨"values", valuesJson values⟩]
    | none => []) ++
    (match report.tokens with
    | some tokens => [⟨"tokens", .array (tokens.map tokenJson)⟩]
    | none => []))

end Report

end ObjectPackage
