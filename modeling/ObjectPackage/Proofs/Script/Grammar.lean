/-
The grammar of scripts.  A token tree is grammatical in a dialect when the operands
of every token have the shapes of its opcode; the dialect knows the format version,
the names that exist and the names that end a label table.  Trees whose label tables
all end at one name stay grammatical when that name becomes the only terminator.
-/
import ObjectPackage.Script.Decode

namespace ObjectPackage

/-- Kinds of operands that hold no further token. -/
inductive LeafKind where
  | object
  | name
  | byte
  | word
  | long
  | text
  | unicodeText
deriving DecidableEq, Repr

def LeafKind.shape : LeafKind → OperandShape
  | object => .object
  | name => .name
  | byte => .byte
  | word => .word
  | long => .long
  | text => .text
  | unicodeText => .unicodeText

namespace Leaf

def kind : Leaf → LeafKind
  | object _ => .object
  | name _ => .name
  | byte _ => .byte
  | word _ => .word
  | long _ => .long
  | text _ => .text
  | unicodeText _ => .unicodeText

/-- Names exist and texts hold no zero, which would end them. -/
def Legal (known : UInt32 → Prop) : Leaf → Prop
  | name id => known id
  | text bytes => 0 ∉ bytes
  | unicodeText units => 0 ∉ units
  | _ => True

theorem Legal.mono {known known' : UInt32 → Prop} {value : Leaf}
    (hknown : ∀ id, known id → known' id) (h : value.Legal known) : value.Legal known' := by
  cases value with
  | name id => exact hknown id h
  | _ => exact h

end Leaf

/-- What the grammar of scripts depends on. -/
structure Dialect where
  version : UInt32
  known : UInt32 → Prop
  ends : UInt32 → Bool

namespace Dialect

/-- The dialect of a package: names are in its table, and the terminator is any
slot that is spelled so. -/
def package (package : Package) : Dialect where
  version := package.version
  known id := id.toNat < package.names.size
  ends id := package.names.isNone ⟨id⟩

/-- The dialect of a canonical form, in which a name is any number. -/
def blob (version : UInt32) (terminator : Option UInt32) : Dialect where
  version := version
  known _ := True
  ends id := terminator == some id

end Dialect

/-- Arguments run through the first end-of-parameters token. -/
inductive ArgumentsFit (nested : Token → Prop) : List Operand → Prop
  | last {token : Token} (h : nested token) (hend : token.opcode = .endParameters) :
      ArgumentsFit nested [.expression token]
  | more {token : Token} {rest : List Operand} (h : nested token)
      (hend : token.opcode ≠ .endParameters) (hrest : ArgumentsFit nested rest) :
      ArgumentsFit nested (.expression token :: rest)

/-- Label pairs run through the first terminator. -/
inductive LabelsFit (dialect : Dialect) : List Operand → Prop
  | last {id target : UInt32} (h : dialect.known id) (hend : dialect.ends id = true) :
      LabelsFit dialect [.leaf (.name id), .leaf (.long target)]
  | more {id target : UInt32} {rest : List Operand} (h : dialect.known id)
      (hend : dialect.ends id = false) (hrest : LabelsFit dialect rest) :
      LabelsFit dialect (.leaf (.name id) :: .leaf (.long target) :: rest)

/-- Operands of one shape. -/
inductive ShapeFits (dialect : Dialect) (nested : Token → Prop) :
    OperandShape → List Operand → Prop
  | leaf {value : Leaf} (h : value.Legal dialect.known) :
      ShapeFits dialect nested value.kind.shape [.leaf value]
  | expression {token : Token} (h : nested token) :
      ShapeFits dialect nested .expression [.expression token]
  | lastCase : ShapeFits dialect nested .caseBody [.leaf (.word 0xffff)]
  | caseOf {target : UInt16} {token : Token} (htarget : target ≠ 0xffff) (h : nested token) :
      ShapeFits dialect nested .caseBody [.leaf (.word target), .expression token]
  | arguments {operands : List Operand} (h : ArgumentsFit nested operands) :
      ShapeFits dialect nested .arguments operands
  | labels {operands : List Operand} (h : LabelsFit dialect operands) :
      ShapeFits dialect nested .labels operands

/-- Operands of several shapes, one after the other. -/
inductive OperandsFit (dialect : Dialect) (nested : Token → Prop) :
    List OperandShape → List Operand → Prop
  | nil : OperandsFit dialect nested [] []
  | cons {shape : OperandShape} {shapes : List OperandShape} {first rest : List Operand}
      (hfirst : ShapeFits dialect nested shape first)
      (hrest : OperandsFit dialect nested shapes rest) :
      OperandsFit dialect nested (shape :: shapes) (first ++ rest)

/-- A token that a dialect allows, nested less than `levels` deep. -/
def Token.Grammatical (dialect : Dialect) : Nat → Token → Prop
  | 0, _ => False
  | levels + 1, .node opcode operands =>
      Opcode.ofByte? opcode.byte = some opcode ∧
        OperandsFit dialect (Token.Grammatical dialect levels)
          (opcode.operands dialect.version) operands

namespace Token

mutual

/-- Names that end the label tables of a token, in byte order. -/
def tableEnds : Token → List UInt32
  | node opcode operands =>
      (if opcode = .labelTable then (lastLabel? operands).toList else []) ++
        tableEndsIn operands

def tableEndsIn : List Operand → List UInt32
  | [] => []
  | .leaf _ :: rest => tableEndsIn rest
  | .expression token :: rest => token.tableEnds ++ tableEndsIn rest

end

theorem mem_tableEndsIn {token : Token} {operands : List Operand} {id : UInt32}
    (htoken : .expression token ∈ operands) (hid : id ∈ token.tableEnds) :
    id ∈ tableEndsIn operands := by
  induction operands with
  | nil => cases htoken
  | cons first rest ih =>
      cases first with
      | leaf value =>
          rw [tableEndsIn]
          exact ih (by simpa using htoken)
      | expression other =>
          rw [tableEndsIn]
          rcases List.mem_cons.mp htoken with heq | hrest
          · obtain rfl := Operand.expression.inj heq
            exact List.mem_append_left _ hid
          · exact List.mem_append_right _ (ih hrest)

mutual

theorem getLast?_tableEnds (token : Token) :
    token.tableEnds.getLast? = token.lastTerminator? := by
  cases token with
  | node opcode operands =>
      rw [tableEnds, lastTerminator?, List.getLast?_append, getLast?_tableEndsIn operands]
      congr 1
      split
      · cases lastLabel? operands <;> rfl
      · rfl

theorem getLast?_tableEndsIn (operands : List Operand) :
    (tableEndsIn operands).getLast? = lastTerminatorIn? operands := by
  cases operands with
  | nil => rfl
  | cons first rest =>
      cases first with
      | leaf value => rw [tableEndsIn, lastTerminatorIn?, getLast?_tableEndsIn rest]
      | expression token =>
          rw [tableEndsIn, lastTerminatorIn?, List.getLast?_append, getLast?_tableEnds token,
            getLast?_tableEndsIn rest]

end

end Token

theorem lastLabel?_pair (id target : UInt32) (rest : List Operand) :
    lastLabel? (.leaf (.name id) :: .leaf (.long target) :: rest) =
      (lastLabel? rest).or (some id) := by
  simp [lastLabel?]

namespace LabelsFit

variable {dialect other : Dialect} {operands : List Operand}

/-- The last label of a table is the one that ends it. -/
theorem lastLabel (h : LabelsFit dialect operands) :
    ∃ id, lastLabel? operands = some id ∧ dialect.ends id = true := by
  induction h with
  | last h hend => exact ⟨_, rfl, hend⟩
  | more h hend hrest ih =>
      obtain ⟨last, hlast, hends⟩ := ih
      exact ⟨last, by rw [lastLabel?_pair, hlast]; rfl, hends⟩

/-- A table ends where it did when its last label becomes the only terminator. -/
theorem retarget (h : LabelsFit dialect operands)
    (hknown : ∀ id, dialect.known id → other.known id)
    (hends : ∀ last, lastLabel? operands = some last → ∀ id, other.ends id = (last == id)) :
    LabelsFit other operands := by
  induction h with
  | @last id target h hend =>
      refine .last (hknown id h) ?_
      rw [hends id rfl]
      exact beq_self_eq_true id
  | @more id target rest h hend hrest ih =>
      obtain ⟨last, hlast, hlastEnds⟩ := hrest.lastLabel
      have hall : lastLabel? (.leaf (.name id) :: .leaf (.long target) :: rest) = some last := by
        rw [lastLabel?_pair, hlast]
        rfl
      have hne : last ≠ id := by
        rintro rfl
        rw [hend] at hlastEnds
        cases hlastEnds
      refine .more (hknown _ h) ?_ (ih fun other hother => ?_)
      · rw [hends last hall]
        exact beq_eq_false_iff_ne.mpr hne
      · obtain rfl : last = other := Option.some.inj (hlast.symm.trans hother)
        exact hends last hall

end LabelsFit

theorem ArgumentsFit.imp {nested nested' : Token → Prop} {operands : List Operand}
    (h : ArgumentsFit nested operands)
    (himp : ∀ token, .expression token ∈ operands → nested token → nested' token) :
    ArgumentsFit nested' operands := by
  induction h with
  | last h hend => exact .last (himp _ List.mem_cons_self h) hend
  | more h hend hrest ih =>
      exact .more (himp _ List.mem_cons_self h) hend
        (ih fun token hmem => himp token (List.mem_cons_of_mem _ hmem))

section Retarget

variable {dialect other : Dialect} {nested nested' : Token → Prop}

theorem ShapeFits.retarget {shape : OperandShape} {operands : List Operand}
    (h : ShapeFits dialect nested shape operands)
    (hknown : ∀ id, dialect.known id → other.known id)
    (himp : ∀ token, .expression token ∈ operands → nested token → nested' token)
    (hlabels : shape ≠ .labels) : ShapeFits other nested' shape operands := by
  cases h with
  | leaf h => exact .leaf (h.mono hknown)
  | expression h => exact .expression (himp _ List.mem_cons_self h)
  | lastCase => exact .lastCase
  | caseOf htarget h => exact .caseOf htarget (himp _ (by simp) h)
  | arguments h => exact .arguments (h.imp himp)
  | labels h => exact absurd rfl hlabels

theorem OperandsFit.retarget {shapes : List OperandShape} {operands : List Operand}
    (h : OperandsFit dialect nested shapes operands)
    (hknown : ∀ id, dialect.known id → other.known id)
    (himp : ∀ token, .expression token ∈ operands → nested token → nested' token)
    (hlabels : OperandShape.labels ∉ shapes) : OperandsFit other nested' shapes operands := by
  induction h with
  | nil => exact .nil
  | cons hfirst hrest ih =>
      refine .cons (hfirst.retarget hknown (fun token hmem => himp token ?_) ?_)
        (ih (fun token hmem => himp token ?_) ?_)
      · exact List.mem_append_left _ hmem
      · rintro rfl
        exact hlabels List.mem_cons_self
      · exact List.mem_append_right _ hmem
      · exact fun hmem => hlabels (List.mem_cons_of_mem _ hmem)

end Retarget

theorem operandsFit_labels {dialect : Dialect} {nested : Token → Prop}
    {operands : List Operand} :
    OperandsFit dialect nested [.labels] operands ↔ LabelsFit dialect operands := by
  constructor
  · rintro (_ | ⟨hfirst, hrest⟩)
    cases hrest
    rw [List.append_nil]
    generalize hshape : OperandShape.labels = shape at hfirst
    cases hfirst with
    | labels h => exact h
    | @leaf value h => cases value <;> cases hshape
    | _ => cases hshape
  · intro h
    simpa using OperandsFit.cons (.labels h) .nil

/-- Only label tables hold labels. -/
theorem Opcode.eq_labelTable_of_mem_operands {version : UInt32} {opcode : Opcode}
    (h : .labels ∈ opcode.operands version) : opcode = .labelTable := by
  cases opcode with
  | labelTable => rfl
  | returnValue =>
      rw [operands] at h
      split at h <;> simp at h
  | assignBool =>
      rw [operands] at h
      split at h <;> simp at h
  | _ => simp [operands] at h

/-- Grammatical trees stay so in a dialect that ends all their label tables where
they ended. -/
theorem Token.Grammatical.retarget {dialect other : Dialect} {levels : Nat} {token : Token}
    (h : token.Grammatical dialect levels) (hversion : other.version = dialect.version)
    (hknown : ∀ id, dialect.known id → other.known id)
    (hends : ∀ last ∈ token.tableEnds, ∀ id, other.ends id = (last == id)) :
    token.Grammatical other levels := by
  induction levels generalizing token with
  | zero => exact h
  | succ levels ih =>
      cases token with
      | node opcode operands =>
          obtain ⟨hbyte, hoperands⟩ := h
          refine ⟨hbyte, ?_⟩
          rw [hversion]
          rw [Token.tableEnds] at hends
          by_cases htable : opcode = .labelTable
          · subst htable
            refine operandsFit_labels.mpr ?_
            refine (operandsFit_labels.mp hoperands).retarget hknown fun last hlast => ?_
            refine hends last (List.mem_append_left _ ?_)
            rw [if_pos rfl, hlast]
            exact List.mem_singleton_self last
          · refine hoperands.retarget hknown (fun inner hinner hgrammar => ?_)
              (fun hmem => htable (Opcode.eq_labelTable_of_mem_operands hmem))
            refine ih hgrammar fun last hlast => ?_
            exact hends last (List.mem_append_right _ (mem_tableEndsIn hinner hlast))

end ObjectPackage
