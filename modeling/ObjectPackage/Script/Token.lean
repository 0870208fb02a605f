/-
Decoded script tokens as trees.  A tree has two byte forms: the wire form of a
package stream, where names and objects are compact indices, and the
canonical form, where both take four bytes.
-/
import ObjectPackage.Script.Opcode
import ObjectPackage.Stream.Encode

namespace ObjectPackage

/-- An operand that holds no further token. -/
inductive Leaf where
  | object (reference : Int32)
  | name (id : UInt32)
  | byte (value : UInt8)
  | word (value : UInt16)
  | long (value : UInt32)
  | text (bytes : List UInt8)
  | unicodeText (units : List UInt16)
deriving DecidableEq, Repr, Inhabited

mutual

/-- An opcode together with its operands. -/
inductive Token where
  | node (opcode : Opcode) (operands : List Operand)

inductive Operand where
  | leaf (value : Leaf)
  | expression (token : Token)

end

instance : Inhabited Token := ⟨.node default []⟩

instance : Inhabited Operand := ⟨.leaf default⟩

/-- Where a token starts in the canonical form and how deep it is nested. -/
structure TokenRecord where
  offset : Nat
  depth : Nat
  opcode : Opcode
deriving DecidableEq, Repr, Inhabited

namespace Leaf

def canonical : Leaf → List UInt8
  | object reference => Encode.i32 reference
  | name id => Encode.u32 id
  | byte value => Encode.u8 value
  | word value => Encode.u16 value
  | long value => Encode.u32 value
  | text bytes => bytes ++ [0]
  | unicodeText units => units.flatMap Encode.u16 ++ Encode.u16 0

def wire : Leaf → List UInt8
  | object reference => Encode.index reference
  | name id => Encode.name ⟨id⟩
  | leaf => leaf.canonical

end Leaf

namespace Token

def opcode : Token → Opcode
  | node opcode _ => opcode

mutual

def canonical : Token → List UInt8
  | node opcode operands => opcode.byte :: canonicalOperands operands

def canonicalOperands : List Operand → List UInt8
  | [] => []
  | .leaf value :: rest => value.canonical ++ canonicalOperands rest
  | .expression token :: rest => token.canonical ++ canonicalOperands rest

end

mutual

def wire : Token → List UInt8
  | node opcode operands => opcode.byte :: wireOperands operands

def wireOperands : List Operand → List UInt8
  | [] => []
  | .leaf value :: rest => value.wire ++ wireOperands rest
  | .expression token :: rest => token.wire ++ wireOperands rest

end

mutual

/-- A token and all tokens inside it, in the order of their first bytes. -/
def records (offset depth : Nat) : Token → List TokenRecord
  | node opcode operands =>
      ⟨offset, depth, opcode⟩ :: operandRecords (offset + 1) (depth + 1) operands

def operandRecords (offset depth : Nat) : List Operand → List TokenRecord
  | [] => []
  | .leaf value :: rest => operandRecords (offset + value.canonical.length) depth rest
  | .expression token :: rest =>
      token.records offset depth ++
        operandRecords (offset + token.canonical.length) depth rest

end

/-- Records of tokens that follow one another from an offset on. -/
def recordsFrom : Nat → List Token → List TokenRecord
  | _, [] => []
  | offset, token :: rest =>
      token.records offset 0 ++ recordsFrom (offset + token.canonical.length) rest

/-- The offset at which each of a sequence of tokens starts. -/
def offsetsFrom : Nat → List Token → List Nat
  | _, [] => []
  | offset, token :: rest => offset :: offsetsFrom (offset + token.canonical.length) rest

end Token

/-- The terminator of a label table: the name of the last pair. -/
def lastLabel? : List Operand → Option UInt32
  | [] => none
  | .leaf (.name id) :: rest => (lastLabel? rest).or (some id)
  | _ :: rest => lastLabel? rest

namespace Token

mutual

/-- The name that ended the last label table of a token, in byte order. -/
def lastTerminator? : Token → Option UInt32
  | node opcode operands =>
      (lastTerminatorIn? operands).or
        (if opcode = .labelTable then lastLabel? operands else none)

def lastTerminatorIn? : List Operand → Option UInt32
  | [] => none
  | .leaf _ :: rest => lastTerminatorIn? rest
  | .expression token :: rest => (lastTerminatorIn? rest).or token.lastTerminator?

end

end Token

end ObjectPackage
