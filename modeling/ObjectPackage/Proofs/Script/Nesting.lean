/-
Nesting of tokens.  A tree that a dialect allows at some depth is allowed at every depth
that its height does not exceed; in a higher one there is a first token that is nested too
deep, and the list of records shows where it starts.
-/
import ObjectPackage.Proofs.Script.Grammar

namespace ObjectPackage

section Nested

variable {dialect : Dialect} {nested nested' : Token → Prop} {operands : List Operand}

theorem ArgumentsFit.nested_of_mem (h : ArgumentsFit nested operands) {token : Token}
    (hmem : .expression token ∈ operands) : nested token := by
  induction h with
  | last h hend =>
      obtain rfl := Operand.expression.inj (List.mem_singleton.mp hmem)
      exact h
  | more h hend hrest ih =>
      rcases List.mem_cons.mp hmem with heq | hmem
      · obtain rfl := Operand.expression.inj heq
        exact h
      · exact ih hmem

theorem LabelsFit.not_mem (h : LabelsFit dialect operands) (token : Token) :
    .expression token ∉ operands := by
  induction h with
  | last h hend => simp
  | more h hend hrest ih => simpa using ih

theorem ShapeFits.nested_of_mem {shape : OperandShape}
    (h : ShapeFits dialect nested shape operands) {token : Token}
    (hmem : .expression token ∈ operands) : nested token := by
  cases h with
  | leaf h => simp at hmem
  | expression h =>
      obtain rfl := Operand.expression.inj (List.mem_singleton.mp hmem)
      exact h
  | lastCase => simp at hmem
  | caseOf htarget h =>
      obtain rfl : token = _ := by simpa using hmem
      exact h
  | arguments h => exact h.nested_of_mem hmem
  | labels h => exact absurd hmem (h.not_mem token)

theorem ShapeFits.imp {shape : OperandShape} (h : ShapeFits dialect nested shape operands)
    (himp : ∀ token, .expression token ∈ operands → nested token → nested' token) :
    ShapeFits dialect nested' shape operands := by
  by_cases hlabels : shape = .labels
  · subst hlabels
    have hone : OperandsFit dialect nested [.labels] (operands ++ []) := .cons h .nil
    rw [List.append_nil] at hone
    exact .labels (operandsFit_labels.mp hone)
  · exact h.retarget (fun _ hid => hid) himp hlabels

/-- Every nested token of operands that fit has the property asked of them. -/
theorem OperandsFit.nested_of_mem {shapes : List OperandShape}
    (h : OperandsFit dialect nested shapes operands) {token : Token}
    (hmem : .expression token ∈ operands) : nested token := by
  induction h with
  | nil => cases hmem
  | cons hfirst hrest ih =>
      rcases List.mem_append.mp hmem with hmem | hmem
      · exact hfirst.nested_of_mem hmem
      · exact ih hmem

theorem OperandsFit.imp {shapes : List OperandShape}
    (h : OperandsFit dialect nested shapes operands)
    (himp : ∀ token, .expression token ∈ operands → nested token → nested' token) :
    OperandsFit dialect nested' shapes operands := by
  induction h with
  | nil => exact .nil
  | cons hfirst hrest ih =>
      refine .cons (hfirst.imp fun token hmem => himp token ?_) (ih fun token hmem => himp token ?_)
      · exact List.mem_append_left _ hmem
      · exact List.mem_append_right _ hmem

end Nested

namespace Token

mutual

/-- Number of tokens on the longest way down through a token, itself included. -/
def height : Token → Nat
  | node _ operands => heightIn operands + 1

def heightIn : List Operand → Nat
  | [] => 0
  | .leaf _ :: rest => heightIn rest
  | .expression token :: rest => max token.height (heightIn rest)

end

theorem heightIn_le {levels : Nat} {operands : List Operand} :
    heightIn operands ≤ levels ↔
      ∀ token, .expression token ∈ operands → token.height ≤ levels := by
  induction operands with
  | nil => simp [heightIn]
  | cons operand rest ih =>
      cases operand with
      | leaf value => simp [heightIn, ih]
      | expression first =>
          rw [heightIn, Nat.max_le, ih]
          simp

/-- A token that a dialect allows, however deep it is nested. -/
def WellFormed (dialect : Dialect) (token : Token) : Prop :=
  ∃ levels, token.Grammatical dialect levels

variable {dialect : Dialect}

theorem Grammatical.height_le {levels : Nat} {token : Token}
    (h : token.Grammatical dialect levels) : token.height ≤ levels := by
  induction levels generalizing token with
  | zero => exact absurd h id
  | succ levels ih =>
      cases token with
      | node opcode operands =>
          have hoperands : heightIn operands ≤ levels :=
            heightIn_le.mpr fun inner hmem => ih (h.2.nested_of_mem hmem)
          rw [height]
          omega

theorem Grammatical.of_height_le {levels levels' : Nat} {token : Token}
    (h : token.Grammatical dialect levels) (hheight : token.height ≤ levels') :
    token.Grammatical dialect levels' := by
  induction levels generalizing token levels' with
  | zero => exact absurd h id
  | succ levels ih =>
      cases token with
      | node opcode operands =>
          rw [height] at hheight
          obtain ⟨levels', rfl⟩ := Nat.exists_eq_add_of_le' (Nat.le_of_add_left_le hheight)
          have hoperands := heightIn_le.mp (Nat.le_of_succ_le_succ hheight)
          refine ⟨h.1, h.2.imp fun inner hmem hinner => ?_⟩
          exact ih hinner (hoperands inner hmem)

/-- The bound of the grammar is a bound on the height. -/
theorem grammatical_iff {levels : Nat} {token : Token} :
    token.Grammatical dialect levels ↔ token.WellFormed dialect ∧ token.height ≤ levels := by
  constructor
  · intro h
    exact ⟨⟨levels, h⟩, h.height_le⟩
  · rintro ⟨⟨enough, h⟩, hheight⟩
    exact h.of_height_le hheight

mutual

/-- Where the first token starts, in the canonical form of a token, that is nested in at
least so many levels of it. -/
def tooDeep? : Nat → Token → Option Nat
  | 0, _ => some 0
  | levels + 1, node _ operands => (tooDeepIn? levels operands).map (1 + ·)

def tooDeepIn? : Nat → List Operand → Option Nat
  | _, [] => none
  | levels, .leaf value :: rest => (tooDeepIn? levels rest).map (value.canonical.length + ·)
  | levels, .expression token :: rest =>
      (token.tooDeep? levels).or ((tooDeepIn? levels rest).map (token.canonical.length + ·))

end

mutual

theorem tooDeep?_eq_none {levels : Nat} (token : Token) :
    token.tooDeep? levels = none ↔ token.height ≤ levels := by
  cases token with
  | node opcode operands =>
      cases levels with
      | zero => simp [tooDeep?, height]
      | succ levels =>
          rw [tooDeep?, Option.map_eq_none_iff, tooDeepIn?_eq_none operands, height,
            Nat.add_le_add_iff_right]

theorem tooDeepIn?_eq_none {levels : Nat} (operands : List Operand) :
    tooDeepIn? levels operands = none ↔ heightIn operands ≤ levels := by
  cases operands with
  | nil => simp [tooDeepIn?, heightIn]
  | cons operand rest =>
      cases operand with
      | leaf value =>
          rw [tooDeepIn?, heightIn, Option.map_eq_none_iff, tooDeepIn?_eq_none rest]
      | expression token =>
          rw [tooDeepIn?, heightIn, Option.or_eq_none_iff, Option.map_eq_none_iff,
            tooDeep?_eq_none token, tooDeepIn?_eq_none rest, Nat.max_le]

end

theorem tooDeepIn?_append (levels : Nat) (first rest : List Operand) :
    tooDeepIn? levels (first ++ rest) = (tooDeepIn? levels first).or
      ((tooDeepIn? levels rest).map ((canonicalOperands first).length + ·)) := by
  induction first with
  | nil => simp [tooDeepIn?, canonicalOperands]
  | cons operand first ih =>
      cases operand with
      | leaf value =>
          simp [tooDeepIn?, canonicalOperands, ih, Option.map_or, Function.comp_def, Nat.add_assoc]
      | expression token =>
          simp [tooDeepIn?, canonicalOperands, ih, Option.map_or, Option.or_assoc,
            Function.comp_def, Nat.add_assoc]

mutual

/-- The first record of that depth tells where the token starts. -/
theorem find?_records (levels offset depth : Nat) (token : Token) :
    ((token.records offset depth).find? (·.depth == depth + levels)).map (·.offset) =
      (token.tooDeep? levels).map (offset + ·) := by
  cases token with
  | node opcode operands =>
      cases levels with
      | zero => simp [records, tooDeep?]
      | succ levels =>
          have hoperands := find?_operandRecords levels (offset + 1) (depth + 1) operands
          have hdepth : depth + 1 + levels = depth + (levels + 1) := by omega
          rw [hdepth] at hoperands
          rw [records, List.find?_cons_of_neg (by simp), hoperands, tooDeep?, Option.map_map]
          simp [Function.comp_def, Nat.add_assoc]

theorem find?_operandRecords (levels offset depth : Nat) (operands : List Operand) :
    ((operandRecords offset depth operands).find? (·.depth == depth + levels)).map (·.offset) =
      (tooDeepIn? levels operands).map (offset + ·) := by
  cases operands with
  | nil => rfl
  | cons operand rest =>
      cases operand with
      | leaf value =>
          rw [operandRecords, tooDeepIn?, find?_operandRecords, Option.map_map]
          simp [Function.comp_def, Nat.add_assoc]
      | expression token =>
          rw [operandRecords, tooDeepIn?, List.find?_append, Option.map_or, Option.map_or,
            find?_records levels offset depth token, find?_operandRecords, Option.map_map]
          simp [Function.comp_def, Nat.add_assoc]

end

end Token

end ObjectPackage
