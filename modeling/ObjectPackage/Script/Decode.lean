/-
Decoding of compiled scripts.  Statements are decoded until their canonical
form has the declared size; input that ends inside an operand is reported as a
wrong length.
-/
import ObjectPackage.Script.Source
import ObjectPackage.Script.Token

namespace ObjectPackage

inductive ScriptError where
  | unknownOpcode (byte : UInt8) (offset : Nat)
  | depthExceeded (limit offset : Nat)
  | lengthMismatch (declared decoded : Nat)
  | operand (opcode : String) (offset : Nat) (cause : StreamError)
deriving DecidableEq, Repr, Inhabited

def ScriptError.message : ScriptError → String
  | unknownOpcode byte offset =>
      "unknown opcode 0x" ++ hexDigits 2 byte.toNat ++ s!" at decoded offset {offset}"
  | depthExceeded limit offset =>
      s!"expression nesting exceeds {limit} at decoded offset {offset}"
  | lengthMismatch declared decoded =>
      s!"bytecode load failed: declared script size {declared}, decoded {decoded}"
  | operand opcode offset cause =>
      s!"operand of {opcode} at decoded offset {offset}: " ++ cause.message

/-- Input that is left and the number of canonical bytes decoded so far. -/
structure DecodeState where
  cursor : Cursor
  decoded : Nat
deriving DecidableEq, Repr, Inhabited

abbrev Decode := ExceptT ScriptError (StateM DecodeState)

/-- Decode from a cursor; the answer tells where the input and the output stopped. -/
def Cursor.decode {α : Type} (cursor : Cursor) (action : Decode α) :
    Except ScriptError α × DecodeState :=
  (ExceptT.run action).run ⟨cursor, 0⟩

namespace Decode

def maxDepth : Nat := 64

/-- Read an operand.  A failure is reported with the owner of the operand and the
decoded offset at which it would have started. -/
def operand {α : Type} (owner : String) (action : Read α) : Decode α := do
  let state ← get
  match state.cursor.read action with
  | (.ok value, cursor) =>
      set { state with cursor := cursor }
      return value
  | (.error cause, cursor) =>
      set { state with cursor := cursor }
      throw (.operand owner state.decoded cause)

def advance (count : Nat) : Decode Unit :=
  modify fun state => { state with decoded := state.decoded + count }

/-- Read a leaf and count its canonical bytes. -/
def leaf (opcode : Opcode) (action : Read Leaf) : Decode Leaf := do
  let value ← operand opcode.name action
  advance value.canonical.length
  return value

/-- Label pairs through the first terminator.  Every pair takes input, so a budget
of one more than the bytes that are left does not run out. -/
def labels (source : ScriptSource) (opcode : Opcode) : Nat → Decode (List Operand)
  | 0 => return []
  | budget + 1 => do
      let name ← leaf opcode (Leaf.name <$> source.name)
      let value ← leaf opcode (Leaf.long <$> source.u32)
      let pair := [.leaf name, .leaf value]
      match name with
      | .name id =>
          if source.isTerminator id then return pair
          else return pair ++ (← labels source opcode budget)
      | _ => return pair

/-- Tokens through the first end-of-parameters token, with a budget as for labels. -/
def arguments (token : Decode Token) : Nat → Decode (List Operand)
  | 0 => return []
  | budget + 1 => do
      let argument ← token
      if argument.opcode = .endParameters then return [.expression argument]
      else return .expression argument :: (← arguments token budget)

/-- Bound on the number of pairs or tokens that the rest of the input can hold. -/
def inputBudget : Decode Nat :=
  return (← get).cursor.rest.length + 1

def operandsOf (source : ScriptSource) (token : Decode Token) (opcode : Opcode) :
    OperandShape → Decode (List Operand)
  | .object => return [.leaf (← leaf opcode (Leaf.object <$> source.object))]
  | .name => return [.leaf (← leaf opcode (Leaf.name <$> source.name))]
  | .byte => return [.leaf (← leaf opcode (Leaf.byte <$> source.u8))]
  | .word => return [.leaf (← leaf opcode (Leaf.word <$> source.u16))]
  | .long => return [.leaf (← leaf opcode (Leaf.long <$> source.u32))]
  | .text => return [.leaf (← leaf opcode (Leaf.text <$> source.bytesZ))]
  | .unicodeText => return [.leaf (← leaf opcode (Leaf.unicodeText <$> source.unitsZ))]
  | .expression => return [.expression (← token)]
  | .caseBody => do
      let target ← leaf opcode (Leaf.word <$> source.u16)
      if target = .word 0xffff then return [.leaf target]
      else return [.leaf target, .expression (← token)]
  | .arguments => do arguments token (← inputBudget)
  | .labels => do labels source opcode (← inputBudget)

def operandsAll (source : ScriptSource) (token : Decode Token) (opcode : Opcode) :
    List OperandShape → Decode (List Operand)
  | [] => return []
  | shape :: rest => do
      let first ← operandsOf source token opcode shape
      return first ++ (← operandsAll source token opcode rest)

/-- One token with everything nested in it, at most `levels` deep. -/
def token (source : ScriptSource) (version : UInt32) : Nat → Decode Token
  | 0 => do throw (.depthExceeded maxDepth (← get).decoded)
  | levels + 1 => do
      let offset := (← get).decoded
      let byte ← operand "opcode" source.u8
      match Opcode.ofByte? byte with
      | none => throw (.unknownOpcode byte offset)
      | some opcode =>
          advance 1
          let operands ←
            operandsAll source (token source version levels) opcode (opcode.operands version)
          return .node opcode operands

/-- Statements until `size` canonical bytes are there. -/
def statements (source : ScriptSource) (version : UInt32) (size : Nat) :
    Nat → Decode (List Token)
  | 0 => return []
  | budget + 1 => do
      if (← get).decoded < size then
        let statement ← token source version maxDepth
        return statement :: (← statements source version size budget)
      else return []

end Decode

/-- A decoded script. -/
structure Script where
  version : UInt32
  statements : List Token

instance : Inhabited Script := ⟨⟨0, []⟩⟩

namespace Script

/-- The script in its canonical form. -/
def bytes (script : Script) : List UInt8 :=
  script.statements.flatMap Token.canonical

def size (script : Script) : Nat :=
  script.bytes.length

def isEmpty (script : Script) : Bool :=
  script.bytes.isEmpty

/-- Offsets at which the statements start. -/
def offsets (script : Script) : List Nat :=
  Token.offsetsFrom 0 script.statements

/-- The terminator of the last label table. -/
def terminator? (script : Script) : Option UInt32 :=
  Token.lastTerminatorIn? (script.statements.map Operand.expression)

/-- The statement that a byte of the canonical form belongs to. -/
def statementIndex? (script : Script) (offset : Nat) : Option Nat :=
  if script.size ≤ offset then none
  else
    match (script.offsets.takeWhile (· ≤ offset)).length with
    | 0 => none
    | count + 1 => some count

/-- Decode a script of a declared canonical size. -/
def decodeFrom (source : ScriptSource) (version : UInt32) (size : Nat) :
    Decode Script := do
  let budget ← Decode.inputBudget
  try
    let statements ← Decode.statements source version size budget
    let decoded := (← get).decoded
    if decoded ≠ size then
      throw (.lengthMismatch size decoded)
    return ⟨version, statements⟩
  catch
    | .operand owner offset cause =>
        if cause.isEnd then throw (.lengthMismatch size (← get).decoded)
        else throw (.operand owner offset cause)
    | error => throw error

/-- Decode a script from a stream of its package. -/
def decode (package : Package) (size : Nat) : Decode Script :=
  decodeFrom (.package package.names) package.version size

/-- List every token by decoding the canonical form once more. -/
def walk (script : Script) : Except ScriptError (List TokenRecord) :=
  let action : Decode (List Token) := do
    Decode.statements (.blob script.terminator?) script.version script.size
      (← Decode.inputBudget)
  match ((Cursor.ofBytes script.bytes).decode action).1 with
  | .ok statements => .ok (Token.recordsFrom 0 statements)
  | .error error => .error error

end Script

end ObjectPackage
