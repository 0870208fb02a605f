/-
Scripts at two versions.  The version is looked at for the operands of two opcodes only, so
a script without these, or between versions that give them the same operands, is decoded
alike at both versions, whatever it is read from.
-/
import ObjectPackage.Proofs.Script.Walk

namespace ObjectPackage

/-- An opcode for which both versions are on the same side of the one that changed its
operands, if one did. -/
def Opcode.Steady (version other : UInt32) (opcode : Opcode) : Prop :=
  (opcode = .returnValue → (returnValueVersion ≤ version ↔ returnValueVersion ≤ other)) ∧
    (opcode = .assignBool → (assignBoolVersion ≤ version ↔ assignBoolVersion ≤ other))

/-- These are the opcodes that have the same operands at both versions. -/
theorem Opcode.steady_iff {version other : UInt32} {opcode : Opcode} :
    opcode.Steady version other ↔ opcode.operands version = opcode.operands other := by
  constructor
  · rintro ⟨hreturn, hassign⟩
    cases opcode with
    | returnValue => simp only [operands, hreturn rfl]
    | assignBool => simp only [operands, hassign rfl]
    | _ => rfl
  · intro h
    refine ⟨?_, ?_⟩
    · rintro rfl
      by_cases hversion : returnValueVersion ≤ version <;>
        by_cases hother : returnValueVersion ≤ other <;>
        simp [operands, hversion, hother] at h ⊢
    · rintro rfl
      by_cases hversion : assignBoolVersion ≤ version <;>
        by_cases hother : assignBoolVersion ≤ other <;>
        simp [operands, hversion, hother] at h ⊢

/-- Wherever the one decoder gives a token whose opcodes have some property, the other one
gives it as well and stops in the same state. -/
def Decode.Follows (other token : Decode Token) (steady : Opcode → Prop) : Prop :=
  ∀ {state final : DecodeState} {result : Token} {offset depth : Nat},
    runFrom state token = (.ok result, final) →
    (∀ record ∈ result.records offset depth, steady record.opcode) →
      runFrom state other = (.ok result, final)

namespace Decode.Follows

variable {source : ScriptSource} {other nested : Decode Token} {steady : Opcode → Prop}
  {opcode : Opcode} {state final : DecodeState} {operands : List Operand} {offset depth : Nat}

theorem arguments (hfollows : other.Follows nested steady) {budget : Nat}
    (h : runFrom state (Decode.arguments nested budget) = (.ok operands, final))
    (hsteady : ∀ record ∈ Token.operandRecords offset depth operands, steady record.opcode) :
    runFrom state (Decode.arguments other budget) = (.ok operands, final) := by
  induction budget generalizing state operands offset with
  | zero => exact h
  | succ budget ih =>
      obtain ⟨argument, middle, hargument, h⟩ := Decode.arguments_eq_ok.mp h
      rcases h with ⟨hend, rfl, rfl⟩ | ⟨hend, rest, hrest, rfl⟩
      · have hfirst := hfollows hargument fun record hrecord =>
          hsteady record (List.mem_append_left _ hrecord)
        exact Decode.arguments_eq_ok.mpr ⟨argument, _, hfirst, Or.inl ⟨hend, rfl, rfl⟩⟩
      · have hfirst := hfollows hargument fun record hrecord =>
          hsteady record (List.mem_append_left _ hrecord)
        have hmore := ih hrest fun record hrecord =>
          hsteady record (List.mem_append_right _ hrecord)
        exact Decode.arguments_eq_ok.mpr
          ⟨argument, middle, hfirst, Or.inr ⟨hend, rest, hmore, rfl⟩⟩

theorem operandsOf (hfollows : other.Follows nested steady) {shape : OperandShape}
    (h : runFrom state (Decode.operandsOf source nested opcode shape) = (.ok operands, final))
    (hsteady : ∀ record ∈ Token.operandRecords offset depth operands, steady record.opcode) :
    runFrom state (Decode.operandsOf source other opcode shape) = (.ok operands, final) := by
  refine Decode.operandsOf_eq_ok.mpr ?_
  cases Decode.operandsOf_eq_ok.mp h with
  | leaf hvalue => exact .leaf hvalue
  | lastCase htarget => exact .lastCase htarget
  | expression hinner =>
      exact .expression (hfollows hinner fun record hrecord =>
        hsteady record (List.mem_append_left _ hrecord))
  | caseOf htarget hmore hinner =>
      exact .caseOf htarget hmore (hfollows hinner fun record hrecord =>
        hsteady record (List.mem_append_left _ hrecord))
  | arguments h => exact .arguments (hfollows.arguments h hsteady)
  | labels h => exact .labels h

theorem operandsAll (hfollows : other.Follows nested steady) {shapes : List OperandShape}
    (h : runFrom state (Decode.operandsAll source nested opcode shapes) = (.ok operands, final))
    (hsteady : ∀ record ∈ Token.operandRecords offset depth operands, steady record.opcode) :
    runFrom state (Decode.operandsAll source other opcode shapes) = (.ok operands, final) := by
  induction shapes generalizing state operands offset with
  | nil => exact h
  | cons shape shapes ih =>
      obtain ⟨first, middle, rest, hfirst, hrest, rfl⟩ := Decode.operandsAll_eq_ok.mp h
      rw [Token.operandRecords_append] at hsteady
      have hsame := hfollows.operandsOf hfirst fun record hrecord =>
        hsteady record (List.mem_append_left _ hrecord)
      have hmore := ih hrest fun record hrecord =>
        hsteady record (List.mem_append_right _ hrecord)
      exact Decode.operandsAll_eq_ok.mpr ⟨first, middle, rest, hsame, hmore, rfl⟩

end Decode.Follows

namespace ScriptSource

variable {version other : UInt32}

/-- A token is decoded alike when all opcodes in it are steady. -/
theorem follows_token (source : ScriptSource) (version other : UInt32) (levels : Nat) :
    (Decode.token source other levels).Follows (Decode.token source version levels)
      (Opcode.Steady version other) := by
  induction levels with
  | zero =>
      intro state final result offset depth h
      cases h
  | succ levels ih =>
      intro state final result offset depth h hsteady
      obtain ⟨byte, cursor, opcode, operands, hread, hopcode, hoperands, rfl⟩ :=
        Decode.token_eq_ok.mp h
      -- the opcode is the only place where the version is looked at
      rw [Opcode.steady_iff.mp (hsteady _ List.mem_cons_self)] at hoperands
      have hsame := ih.operandsAll hoperands fun record hrecord =>
        hsteady record (List.mem_cons_of_mem _ hrecord)
      exact Decode.token_eq_ok.mpr ⟨byte, cursor, opcode, operands, hread, hopcode, hsame, rfl⟩

theorem follows_statements (source : ScriptSource) {size budget offset : Nat}
    {state final : DecodeState} {result : List Token}
    (h : runFrom state (Decode.statements source version size budget) = (.ok result, final))
    (hsteady : ∀ record ∈ Token.recordsFrom offset result, record.opcode.Steady version other) :
    runFrom state (Decode.statements source other size budget) = (.ok result, final) := by
  induction budget generalizing state result offset with
  | zero => exact h
  | succ budget ih =>
      refine Decode.statements_eq_ok.mpr ?_
      rcases Decode.statements_eq_ok.mp h with
        hfilled | ⟨hmissing, first, middle, rest, hfirst, hrest, rfl⟩
      · exact Or.inl hfilled
      · have hsame := source.follows_token version other Decode.maxDepth hfirst
          fun record hrecord => hsteady record (List.mem_append_left _ hrecord)
        have hmore := ih hrest fun record hrecord =>
          hsteady record (List.mem_append_right _ hrecord)
        exact Or.inr ⟨hmissing, first, middle, rest, hsame, hmore, rfl⟩

end ScriptSource

namespace Script

/-- Versions that all tokens of a script are steady between do not tell it apart: at the other
version it is decoded from the same source to the same statements, with the same canonical form,
offsets and terminator, and the source is left where it was left. -/
theorem decodeFrom_steady {source : ScriptSource} {version other : UInt32} {size : Nat}
    {cursor : Cursor} {script : Script} {final : DecodeState}
    (h : cursor.decode (decodeFrom source version size) = (.ok script, final))
    (hsteady : ∀ record ∈ Token.recordsFrom 0 script.statements,
      record.opcode.Steady version other) :
    ∃ script', cursor.decode (decodeFrom source other size) = (.ok script', final) ∧
      script' = { script with version := other } ∧ script'.bytes = script.bytes ∧
      script'.offsets = script.offsets ∧ script'.terminator? = script.terminator? := by
  obtain ⟨hstatements, hsize, -⟩ := decodeFrom_eq_ok.mp h
  have hother := source.follows_statements hstatements hsteady
  exact ⟨{ script with version := other }, decodeFrom_eq_ok.mpr ⟨hother, hsize, rfl⟩, rfl, rfl,
    rfl, rfl⟩

end Script

namespace SteadyReturn

/-- A return of nothing and an assignment between constants. -/
def input : List UInt8 := [0x04, 0x0b, 0x14, 0x27, 0x28]

def script : Script where
  version := 64
  statements :=
    [.node .returnValue [.expression (.node .nothing [])],
      .node .assignBool [.expression (.node .trueConst []), .expression (.node .falseConst [])]]

/-- Both opcodes changed before version 64 and at it, and are the same ever since. -/
theorem script_steady :
    (Cursor.ofBytes input).decode (Script.decodeFrom (.package .initial) 64 5) =
        (.ok script, ⟨⟨5, []⟩, 5⟩) ∧
      ∃ script', (Cursor.ofBytes input).decode (Script.decodeFrom (.package .initial) 69 5) =
          (.ok script', ⟨⟨5, []⟩, 5⟩) ∧ script'.offsets = [0, 2] := by
  have hdecode : (Cursor.ofBytes input).decode (Script.decodeFrom (.package .initial) 64 5) =
      (.ok script, ⟨⟨5, []⟩, 5⟩) := by rfl
  have hsteady : ∀ record ∈ Token.recordsFrom 0 script.statements,
      record.opcode.Steady 64 69 := by
    intro record _
    exact ⟨fun _ => by decide, fun _ => by decide⟩
  obtain ⟨script', hother, -, -, hoffsets, -⟩ := Script.decodeFrom_steady hdecode hsteady
  exact ⟨hdecode, script', hother, hoffsets⟩

end SteadyReturn

end ObjectPackage
