/-
The opcodes of compiled scripts, the byte of each one, and the operands that
follow it.
-/
import ObjectPackage.Text

namespace ObjectPackage

inductive Opcode where
  | localVariable
  | instanceVariable
  | defaultVariable
  | returnValue
  | switchOn
  | jump
  | jumpIfNot
  | stop
  | assert
  | caseOf
  | nothing
  | labelTable
  | gotoLabel
  | eatString
  | assign
  | dynArrayElement
  | newObject
  | classContext
  | metaCast
  | assignBool
  | endParameters
  | selfObject
  | skip
  | context
  | arrayElement
  | virtualFunction
  | finalFunction
  | intConst
  | floatConst
  | stringConst
  | objectConst
  | nameConst
  | rotationConst
  | vectorConst
  | byteConst
  | intZero
  | intOne
  | trueConst
  | falseConst
  | nativeParameter
  | noObject
  | intConstByte
  | boolVariable
  | dynamicCast
  | iterator
  | iteratorPop
  | iteratorNext
  | structEqual
  | structNotEqual
  | unicodeConst
  | structMember
  | globalFunction
  | conversion (byte : UInt8)
  | extendedNative (byte : UInt8)
  | native (byte : UInt8)
deriving DecidableEq, Repr, Inhabited

/-- The operands an opcode is followed by.  A case holds an expression unless its
word is `0xffff`; arguments run through the first end-of-parameters token;
labels are pairs of a name and a long, through the first terminator name. -/
inductive OperandShape where
  | object
  | name
  | byte
  | word
  | long
  | text
  | unicodeText
  | expression
  | caseBody
  | arguments
  | labels
deriving DecidableEq, Repr, Inhabited

namespace Opcode

def byte : Opcode → UInt8
  | localVariable => 0x00
  | instanceVariable => 0x01
  | defaultVariable => 0x02
  | returnValue => 0x04
  | switchOn => 0x05
  | jump => 0x06
  | jumpIfNot => 0x07
  | stop => 0x08
  | assert => 0x09
  | caseOf => 0x0a
  | nothing => 0x0b
  | labelTable => 0x0c
  | gotoLabel => 0x0d
  | eatString => 0x0e
  | assign => 0x0f
  | dynArrayElement => 0x10
  | newObject => 0x11
  | classContext => 0x12
  | metaCast => 0x13
  | assignBool => 0x14
  | endParameters => 0x16
  | selfObject => 0x17
  | skip => 0x18
  | context => 0x19
  | arrayElement => 0x1a
  | virtualFunction => 0x1b
  | finalFunction => 0x1c
  | intConst => 0x1d
  | floatConst => 0x1e
  | stringConst => 0x1f
  | objectConst => 0x20
  | nameConst => 0x21
  | rotationConst => 0x22
  | vectorConst => 0x23
  | byteConst => 0x24
  | intZero => 0x25
  | intOne => 0x26
  | trueConst => 0x27
  | falseConst => 0x28
  | nativeParameter => 0x29
  | noObject => 0x2a
  | intConstByte => 0x2c
  | boolVariable => 0x2d
  | dynamicCast => 0x2e
  | iterator => 0x2f
  | iteratorPop => 0x30
  | iteratorNext => 0x31
  | structEqual => 0x32
  | structNotEqual => 0x33
  | unicodeConst => 0x34
  | structMember => 0x36
  | globalFunction => 0x38
  | conversion byte => byte
  | extendedNative byte => byte
  | native byte => byte

/-- The opcodes that stand for one byte each. -/
def single : List Opcode :=
  [localVariable, instanceVariable, defaultVariable, returnValue, switchOn, jump,
    jumpIfNot, stop, assert, caseOf, nothing, labelTable, gotoLabel, eatString, assign,
    dynArrayElement, newObject, classContext, metaCast, assignBool, endParameters,
    selfObject, skip, context, arrayElement, virtualFunction, finalFunction, intConst,
    floatConst, stringConst, objectConst, nameConst, rotationConst, vectorConst,
    byteConst, intZero, intOne, trueConst, falseConst, nativeParameter, noObject,
    intConstByte, boolVariable, dynamicCast, iterator, iteratorPop, iteratorNext,
    structEqual, structNotEqual, unicodeConst, structMember, globalFunction]

def firstConversion : UInt8 := 0x39

def firstExtendedNative : UInt8 := 0x60

def firstNative : UInt8 := 0x70

/-- The opcode of a byte; below the first conversion some bytes have none. -/
def ofByte? (byte : UInt8) : Option Opcode :=
  if byte < firstConversion then single.find? fun opcode => opcode.byte == byte
  else if byte < firstExtendedNative then some (conversion byte)
  else if byte < firstNative then some (extendedNative byte)
  else some (native byte)

theorem byte_of_ofByte? {byte : UInt8} {opcode : Opcode}
    (h : ofByte? byte = some opcode) : opcode.byte = byte := by
  unfold ofByte? at h
  split at h
  · simpa using List.find?_some h
  · split at h
    · simp only [Option.some.injEq] at h
      rw [← h]
      rfl
    · split at h <;>
      · simp only [Option.some.injEq] at h
        rw [← h]
        rfl

/-- The name that errors and listings use. -/
def name : Opcode → String
  | localVariable => "LocalVariable"
  | instanceVariable => "InstanceVariable"
  | defaultVariable => "DefaultVariable"
  | returnValue => "Return"
  | switchOn => "Switch"
  | jump => "Jump"
  | jumpIfNot => "JumpIfNot"
  | stop => "Stop"
  | assert => "Assert"
  | caseOf => "Case"
  | nothing => "Nothing"
  | labelTable => "LabelTable"
  | gotoLabel => "GotoLabel"
  | eatString => "EatString"
  | assign => "Let"
  | dynArrayElement => "DynArrayElement"
  | newObject => "New"
  | classContext => "ClassContext"
  | metaCast => "MetaCast"
  | assignBool => "LetBool"
  | endParameters => "EndFunctionParms"
  | selfObject => "Self"
  | skip => "Skip"
  | context => "Context"
  | arrayElement => "ArrayElement"
  | virtualFunction => "VirtualFunction"
  | finalFunction => "FinalFunction"
  | intConst => "IntConst"
  | floatConst => "FloatConst"
  | stringConst => "StringConst"
  | objectConst => "ObjectConst"
  | nameConst => "NameConst"
  | rotationConst => "RotationConst"
  | vectorConst => "VectorConst"
  | byteConst => "ByteConst"
  | intZero => "IntZero"
  | intOne => "IntOne"
  | trueConst => "True"
  | falseConst => "False"
  | nativeParameter => "NativeParm"
  | noObject => "NoObject"
  | intConstByte => "IntConstByte"
  | boolVariable => "BoolVariable"
  | dynamicCast => "DynamicCast"
  | iterator => "Iterator"
  | iteratorPop => "IteratorPop"
  | iteratorNext => "IteratorNext"
  | structEqual => "StructCmpEq"
  | structNotEqual => "StructCmpNe"
  | unicodeConst => "UnicodeStringConst"
  | structMember => "StructMember"
  | globalFunction => "GlobalFunction"
  | conversion _ => "Conversion"
  | extendedNative _ => "ExtendedNative"
  | native _ => "Native"

/-- The byte of an opcode that stands for a range of bytes. -/
def rangeByte? : Opcode → Option UInt8
  | conversion byte => some byte
  | extendedNative byte => some byte
  | native byte => some byte
  | _ => none

/-- Name of an opcode, with the byte where the name alone does not fix it. -/
def display (opcode : Opcode) : String :=
  match opcode.rangeByte? with
  | some byte => opcode.name ++ "(0x" ++ hexDigits 2 byte.toNat ++ ")"
  | none => opcode.name

/-- Name of an opcode in structured output, where `Self` would be ambiguous. -/
def tag : Opcode → String
  | selfObject => "SelfRef"
  | opcode => opcode.name

/-- First format version in which a return carries an expression. -/
def returnValueVersion : UInt32 := 62

/-- First format version in which a bool assignment has an expression on its left. -/
def assignBoolVersion : UInt32 := 64

/-- The operands of an opcode at a format version. -/
def operands (version : UInt32) : Opcode → List OperandShape
  | localVariable | instanceVariable | defaultVariable | nativeParameter | objectConst =>
      [.object]
  | returnValue => if returnValueVersion ≤ version then [.expression] else []
  | switchOn => [.byte, .expression]
  | jump => [.word]
  | jumpIfNot | assert | skip => [.word, .expression]
  | caseOf => [.caseBody]
  | labelTable => [.labels]
  | gotoLabel | eatString | boolVariable | conversion _ => [.expression]
  | assign | dynArrayElement | arrayElement => [.expression, .expression]
  | newObject => [.expression, .expression, .expression, .expression]
  | classContext | context => [.expression, .word, .byte, .expression]
  | metaCast | dynamicCast | structMember => [.object, .expression]
  | assignBool =>
      [if assignBoolVersion ≤ version then .expression else .object, .expression]
  | virtualFunction | globalFunction => [.name, .arguments]
  | finalFunction => [.object, .arguments]
  | intConst | floatConst => [.long]
  | rotationConst | vectorConst => [.long, .long, .long]
  | byteConst | intConstByte => [.byte]
  | stringConst => [.text]
  | unicodeConst => [.unicodeText]
  | nameConst => [.name]
  | iterator => [.expression, .word]
  | structEqual | structNotEqual => [.object, .expression, .expression]
  | extendedNative _ => [.byte, .arguments]
  | native _ => [.arguments]
  | stop | nothing | endParameters | selfObject | intZero | intOne | trueConst
  | falseConst | noObject | iteratorPop | iteratorNext => []

end Opcode

end ObjectPackage
