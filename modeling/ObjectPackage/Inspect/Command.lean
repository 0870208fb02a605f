/-
The inspection command: it lays out the structs of a schema and, where asked to,
loads a property list or decodes a script against them.
-/
import ObjectPackage.Inspect.Report
import ObjectPackage.Registry
import ObjectPackage.Schema.Document

namespace ObjectPackage

/-- What the command is asked for; files are given by path. -/
structure Arguments where
  schema : String
  structName : Option String
  names : Option String
  formatVersion : UInt32
  tagged : Option String
  script : Option String
  scriptSize : Option Nat
  json : Bool
deriving DecidableEq, Repr, Inhabited

namespace Arguments

/-- Options that take a value. -/
def valueOptions : List String :=
  ["--struct", "--names", "--format-version", "--tagged", "--script", "--script-size"]

/-- A command line taken apart, with options in the order given. -/
structure Parts where
  plain : List String
  options : List (String × String)
  json : Bool
deriving DecidableEq, Repr, Inhabited

/-- An argument up to its first equals sign, and what stands behind it. -/
def splitEquals : List Char → List Char × Option (List Char)
  | [] => ([], none)
  | '=' :: rest => ([], some rest)
  | c :: rest =>
      let (before, after) := splitEquals rest
      (c :: before, after)

def isOption (argument : String) : Bool :=
  match argument.toList with
  | '-' :: _ :: _ => true
  | _ => false

/-- Take a command line apart.  A value cannot look like an option unless it stands
behind an equals sign; after a double dash all arguments are plain. -/
def parts? : List String → Option Parts
  | [] => some ⟨[], [], false⟩
  | argument :: rest =>
      if argument = "--" then some ⟨rest, [], false⟩
      else if argument = "--json" then do
        let parts ← parts? rest
        if parts.json then none else some { parts with json := true }
      else if isOption argument then
        match splitEquals argument.toList with
        | (name, some value) => do
            let parts ← parts? rest
            let name := String.ofList name
            if valueOptions.contains name then
              some { parts with options := (name, String.ofList value) :: parts.options }
            else none
        | (_, none) =>
            match rest with
            | [] => none
            | value :: rest => do
                let parts ← parts? rest
                if valueOptions.contains argument && !isOption value then
                  some { parts with options := (argument, value) :: parts.options }
                else none
      else do
        let parts ← parts? rest
        some { parts with plain := argument :: parts.plain }

/-- A decimal number below a bound; a plus sign may come first. -/
def number? (bound : Nat) (text : String) : Option Nat :=
  let digits := match text.toList with
    | '+' :: rest => rest
    | rest => rest
  if digits.isEmpty || !digits.all Char.isDigit then none
  else
    let number := digits.foldl (fun total c => total * 10 + (c.toNat - 48)) 0
    if number < bound then some number else none

/-- The value of an option that is given at most once. -/
def option? (parts : Parts) (name : String) : Option (Option String) :=
  match parts.options.filter fun option => option.1 == name with
  | [] => some none
  | [(_, value)] => some (some value)
  | _ => none

def numberOption? (parts : Parts) (name : String) (bound : Nat) : Option (Option Nat) := do
  match ← option? parts name with
  | none => some none
  | some text => (number? bound text).map some

def defaultFormatVersion : UInt32 := 69

def ofList? (arguments : List String) : Option Arguments := do
  let parts ← parts? arguments
  match parts.plain with
  | [schema] =>
      let version ← numberOption? parts "--format-version" UInt32.size
      return {
        schema := schema
        structName := ← option? parts "--struct"
        names := ← option? parts "--names"
        formatVersion := (version.map UInt32.ofNat).getD defaultFormatVersion
        tagged := ← option? parts "--tagged"
        script := ← option? parts "--script"
        scriptSize := ← numberOption? parts "--script-size" UInt64.size
        json := parts.json }
  | _ => none

/-- The files that the command may read. -/
def paths (arguments : Arguments) : List String :=
  arguments.schema ::
    (arguments.names.toList ++ arguments.tagged.toList ++ arguments.script.toList)

end Arguments

/-- Why the command stops: what it was doing, and the causes from near to far. -/
structure Failure where
  context : String
  causes : List String
deriving DecidableEq, Repr, Inhabited

namespace Failure

/-- Text whose later lines are indented. -/
def hang (indent text : String) : String :=
  String.join (text.toList.map fun c => if c = '\n' then "\n" ++ indent else c.toString)

/-- A failure with its causes, which are numbered when there are several. -/
def text (failure : Failure) : String :=
  let numbered (cause : String × Nat) : String :=
    padLeft 5 (toString cause.2) ++ ": " ++ hang "       " cause.1
  let lines := match failure.causes with
    | [] => []
    | [cause] => ["", "Caused by:", "    " ++ hang "    " cause]
    | causes => "" :: "Caused by:" :: causes.zipIdx.map numbered
  String.join (("Error: " ++ failure.context) :: lines.map ("\n" ++ ·)) ++ "\n"

end Failure

/-- The content of a file, or why it cannot be read. -/
abbrev Files := String → Except String (List UInt8)

namespace Command

def withCauses {ε α : Type} (context : String) (causes : ε → List String) :
    Except ε α → Except Failure α
  | .ok value => .ok value
  | .error error => .error ⟨context, causes error⟩

def layoutCauses (error : LayoutError) : List String :=
  [error.message]

/-- A payload error is caused by the stream error it reports. -/
def propertyCauses : PropertyError → List String
  | .payload property cause => [(PropertyError.payload property cause).message, cause.message]
  | error => [error.message]

/-- An operand error is caused by the stream error it reports. -/
def scriptCauses : ScriptError → List String
  | .operand opcode offset cause =>
      [(ScriptError.operand opcode offset cause).message, cause.message]
  | error => [error.message]

def malformedDocument : String := "malformed schema document"

def readSchema (files : Files) (path : String) : Except Failure Schema := do
  let context := "reading schema " ++ path
  let bytes ← withCauses context (fun cause => ["schema read error: " ++ cause, cause])
    (files path)
  match Schema.ofBytes? bytes with
  | some schema => return schema
  | none =>
      .error ⟨context, ["schema decode error: " ++ malformedDocument, malformedDocument]⟩

/-- The layouts to report on: the struct that was asked for, or all of them. -/
def resolveLayouts (schema : Schema) (structName : Option String) :
    Except Failure (List StructLayout) := do
  let (result, registry) := (Registry.withBuiltins 0).run (Registry.registerSchema schema)
  withCauses "registering schema structs" layoutCauses result
  match structName with
  | some name =>
      let layout ← withCauses ("resolving struct " ++ name) layoutCauses
        (registry.run (Registry.resolve name)).1
      return [layout]
  | none =>
      withCauses "resolving schema structs" layoutCauses (registry.run Registry.resolveAll).1

def splitLines : List Char → List (List Char)
  | [] => [[]]
  | c :: rest =>
      if c = '\n' then [] :: splitLines rest
      else
        match splitLines rest with
        | [] => [[c]]
        | line :: lines => (c :: line) :: lines

/-- One name on each line that is not blank. -/
def namesOfText (text : String) : NameTable :=
  ⟨(((splitLines text.toList).map trim).filter fun line => !line.isEmpty).map String.ofList⟩

def readNames (files : Files) : Option String → Except Failure NameTable
  | none => return .initial
  | some path => do
      let context := "reading name table " ++ path
      let bytes ← withCauses context (fun cause => [cause]) (files path)
      match JsonText.text? (JsonText.codesOfBytes bytes) with
      | some text => return namesOfText text
      | none => .error ⟨context, ["stream did not contain valid UTF-8"]⟩

def openFile (files : Files) (path : String) : Except Failure (List UInt8) :=
  withCauses ("opening " ++ path) (fun cause => [cause]) (files path)

/-- Load a property list, which has to be all of its file, over default values. -/
def loadValues (files : Files) (package : Package) (layouts : List StructLayout)
    (path : String) : Except Failure ValueReport := do
  match layouts with
  | [layout] =>
      let bytes ← openFile files path
      let block ← withCauses ("constructing " ++ layout.name) propertyCauses
        (Block.newDefault layout none)
      let (result, block, cursor) := block.loadProperties package (.ofBytes bytes)
      let load ← withCauses ("loading tagged properties from " ++ path) propertyCauses result
      if cursor.rest.length ≠ 0 then
        .error ⟨s!"{cursor.rest.length} trailing bytes after the property list", []⟩
      match Report.valueTexts package block with
      | .ok values => return ⟨load, values⟩
      | .error error => .error ⟨error.message, (propertyCauses error).drop 1⟩
  | _ => .error ⟨"--tagged needs --struct to pick the target layout", []⟩

/-- Decode a script; its size is that of the file unless another is declared. -/
def loadTokens (files : Files) (package : Package) (size : Option Nat) (path : String) :
    Except Failure (List TokenRecord) := do
  let bytes ← openFile files path
  let script ← withCauses ("decoding script " ++ path) scriptCauses
    ((Cursor.ofBytes bytes).decode (Script.decode package (size.getD bytes.length))).1
  withCauses "walking decoded script" scriptCauses script.walk

def report (files : Files) (arguments : Arguments) : Except Failure Report := do
  let schema ← readSchema files arguments.schema
  let layouts ← resolveLayouts schema arguments.structName
  let names ← readNames files arguments.names
  let package : Package := ⟨arguments.formatVersion, names, .empty⟩
  let values ← arguments.tagged.mapM (loadValues files package layouts)
  let tokens ← arguments.script.mapM (loadTokens files package arguments.scriptSize)
  return ⟨layouts, values, tokens⟩

/-- The text that the command prints, or the failure it reports. -/
def run (files : Files) (arguments : Arguments) : Except Failure String := do
  let report ← report files arguments
  return if arguments.json then report.toJson.pretty 0 ++ "\n" else report.text

end Command

end ObjectPackage
