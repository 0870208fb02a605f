/-
Successful runs of the decoder.  Every step of the decoder is inverted once: what a run
that gives a leaf, operands, a token or statements is made of.
-/
import ObjectPackage.Proofs.Script.Grammar
import ObjectPackage.Proofs.Stream.Read

namespace ObjectPackage

/-- Read a leaf of some kind. -/
def ScriptSource.leaf (source : ScriptSource) : LeafKind → Read Leaf
  | .object => Leaf.object <$> source.object
  | .name => Leaf.name <$> source.name
  | .byte => Leaf.byte <$> source.u8
  | .word => Leaf.word <$> source.u16
  | .long => Leaf.long <$> source.u32
  | .text => Leaf.text <$> source.bytesZ
  | .unicodeText => Leaf.unicodeText <$> source.unitsZ

/-- The byte of an opcode is read as a leaf of one byte is. -/
theorem ScriptSource.leaf_byte {source : ScriptSource} {cursor next : Cursor} {byte : UInt8}
    (h : runFrom cursor source.u8 = (.ok byte, next)) :
    runFrom cursor (source.leaf .byte) = (.ok (.byte byte), next) :=
  runFrom_map_eq_ok.mpr ⟨byte, h, rfl⟩

namespace Decode

variable {α : Type} {source : ScriptSource} {nested : Decode Token} {opcode : Opcode}
  {version : UInt32} {size levels budget : Nat} {state final : DecodeState}
  {operands : List Operand}

theorem operand_eq_ok {owner : String} {action : Read α} {value : α} :
    runFrom state (operand owner action) = (.ok value, final) ↔
      ∃ cursor, runFrom state.cursor action = (.ok value, cursor) ∧
        final = { state with cursor := cursor } := by
  rw [operand, runFrom_bind, runFrom_get, ← Cursor.read_eq]
  dsimp only
  constructor
  · intro h
    split at h
    · next result cursor hread =>
        obtain ⟨hvalue, rfl⟩ := Prod.mk.inj h
        obtain rfl := Except.ok.inj hvalue
        exact ⟨cursor, hread, rfl⟩
    · cases h
  · rintro ⟨cursor, hread, rfl⟩
    rw [hread]
    rfl

theorem leaf_eq_ok {action : Read Leaf} {value : Leaf} :
    runFrom state (leaf opcode action) = (.ok value, final) ↔
      ∃ cursor, runFrom state.cursor action = (.ok value, cursor) ∧
        final = ⟨cursor, state.decoded + value.canonical.length⟩ := by
  rw [leaf, runFrom_bind_eq_ok]
  constructor
  · rintro ⟨result, middle, hoperand, hrest⟩
    obtain ⟨cursor, hread, rfl⟩ := operand_eq_ok.mp hoperand
    obtain ⟨hvalue, rfl⟩ := Prod.mk.inj hrest
    obtain rfl := Except.ok.inj hvalue
    exact ⟨cursor, hread, rfl⟩
  · rintro ⟨cursor, hread, rfl⟩
    exact ⟨value, _, operand_eq_ok.mpr ⟨cursor, hread, rfl⟩, rfl⟩

/-- The operands of a leaf shape are one leaf. -/
theorem operandsOf_leaf (source : ScriptSource) (token : Decode Token) (opcode : Opcode)
    (kind : LeafKind) :
    operandsOf source token opcode kind.shape =
      (fun value => [.leaf value]) <$> leaf opcode (source.leaf kind) := by
  cases kind <;> rfl

/-- A label table goes on behind every pair whose name is not a terminator. -/
theorem labels_eq_ok :
    runFrom state (labels source opcode (budget + 1)) = (.ok operands, final) ↔
      ∃ name value middle later,
        runFrom state (leaf opcode (source.leaf .name)) = (.ok name, middle) ∧
        runFrom middle (leaf opcode (source.leaf .long)) = (.ok value, later) ∧
        ((∀ id, name = .name id → source.isTerminator id = true) ∧ final = later ∧
            operands = [.leaf name, .leaf value] ∨
          ∃ id rest, name = .name id ∧ source.isTerminator id = false ∧
            runFrom later (labels source opcode budget) = (.ok rest, final) ∧
            operands = .leaf name :: .leaf value :: rest) := by
  rw [labels]
  constructor
  · intro h
    obtain ⟨name, middle, hname, h⟩ := runFrom_bind_eq_ok.mp h
    obtain ⟨value, later, hvalue, h⟩ := runFrom_bind_eq_ok.mp h
    refine ⟨name, value, middle, later, hname, hvalue, ?_⟩
    cases name with
    | name id =>
        dsimp only at h
        cases hend : source.isTerminator id with
        | true =>
            rw [if_pos hend] at h
            obtain ⟨hresult, rfl⟩ := Prod.mk.inj h
            obtain rfl := Except.ok.inj hresult
            refine Or.inl ⟨fun other heq => ?_, rfl, rfl⟩
            obtain rfl := Leaf.name.inj heq
            exact hend
        | false =>
            rw [if_neg (by simp [hend])] at h
            obtain ⟨rest, hrest, rfl⟩ := runFrom_map_eq_ok.mp h
            exact Or.inr ⟨id, rest, rfl, hend, hrest, rfl⟩
    | _ =>
        obtain ⟨hresult, rfl⟩ := Prod.mk.inj h
        obtain rfl := Except.ok.inj hresult
        exact Or.inl ⟨nofun, rfl, rfl⟩
  · rintro ⟨name, value, middle, later, hname, hvalue, hcases⟩
    refine runFrom_bind_eq_ok.mpr ⟨name, middle, hname, ?_⟩
    refine runFrom_bind_eq_ok.mpr ⟨value, later, hvalue, ?_⟩
    rcases hcases with ⟨hend, rfl, rfl⟩ | ⟨id, rest, rfl, hend, hrest, rfl⟩
    · cases name with
      | name id =>
          dsimp only
          rw [if_pos (hend id rfl)]
          rfl
      | _ => rfl
    · dsimp only
      rw [if_neg (by simp [hend])]
      exact runFrom_map_eq_ok.mpr ⟨rest, hrest, rfl⟩

/-- Arguments go on behind every token but the one that ends them. -/
theorem arguments_eq_ok :
    runFrom state (arguments nested (budget + 1)) = (.ok operands, final) ↔
      ∃ argument middle, runFrom state nested = (.ok argument, middle) ∧
        (argument.opcode = .endParameters ∧ final = middle ∧ operands = [.expression argument] ∨
          argument.opcode ≠ .endParameters ∧
            ∃ rest, runFrom middle (arguments nested budget) = (.ok rest, final) ∧
              operands = .expression argument :: rest) := by
  rw [arguments, runFrom_bind_eq_ok]
  refine exists_congr fun argument => exists_congr fun middle => and_congr_right fun _ => ?_
  by_cases hend : argument.opcode = .endParameters
  · rw [if_pos hend]
    constructor
    · intro h
      obtain ⟨hresult, rfl⟩ := Prod.mk.inj h
      exact Or.inl ⟨hend, rfl, (Except.ok.inj hresult).symm⟩
    · rintro (⟨-, rfl, rfl⟩ | ⟨hmore, -⟩)
      · rfl
      · exact absurd hend hmore
  · rw [if_neg hend]
    constructor
    · intro h
      obtain ⟨rest, hrest, rfl⟩ := runFrom_map_eq_ok.mp h
      exact Or.inr ⟨hend, rest, hrest, rfl⟩
    · rintro (⟨hlast, -⟩ | ⟨-, rest, hrest, rfl⟩)
      · exact absurd hlast hend
      · exact runFrom_map_eq_ok.mpr ⟨rest, hrest, rfl⟩

/-- What the operands of a shape are decoded from. -/
inductive Operates (source : ScriptSource) (nested : Decode Token) (opcode : Opcode)
    (state : DecodeState) : OperandShape → List Operand → DecodeState → Prop
  | leaf {kind : LeafKind} {value : Leaf} {final : DecodeState}
      (h : runFrom state (leaf opcode (source.leaf kind)) = (.ok value, final)) :
      Operates source nested opcode state kind.shape [.leaf value] final
  | expression {inner : Token} {final : DecodeState}
      (h : runFrom state nested = (.ok inner, final)) :
      Operates source nested opcode state .expression [.expression inner] final
  | lastCase {final : DecodeState}
      (h : runFrom state (leaf opcode (source.leaf .word)) = (.ok (.word 0xffff), final)) :
      Operates source nested opcode state .caseBody [.leaf (.word 0xffff)] final
  | caseOf {target : Leaf} {inner : Token} {middle final : DecodeState}
      (h : runFrom state (leaf opcode (source.leaf .word)) = (.ok target, middle))
      (hmore : target ≠ .word 0xffff) (hinner : runFrom middle nested = (.ok inner, final)) :
      Operates source nested opcode state .caseBody [.leaf target, .expression inner] final
  | arguments {operands : List Operand} {final : DecodeState}
      (h : runFrom state (arguments nested (state.cursor.rest.length + 1)) =
        (.ok operands, final)) : Operates source nested opcode state .arguments operands final
  | labels {operands : List Operand} {final : DecodeState}
      (h : runFrom state (labels source opcode (state.cursor.rest.length + 1)) =
        (.ok operands, final)) : Operates source nested opcode state .labels operands final

theorem operandsOf_eq_ok {shape : OperandShape} :
    runFrom state (operandsOf source nested opcode shape) = (.ok operands, final) ↔
      Operates source nested opcode state shape operands final := by
  constructor
  · intro h
    have hleaf {kind : LeafKind}
        (h : runFrom state (operandsOf source nested opcode kind.shape) = (.ok operands, final)) :
        Operates source nested opcode state kind.shape operands final := by
      rw [operandsOf_leaf] at h
      obtain ⟨value, hvalue, rfl⟩ := runFrom_map_eq_ok.mp h
      exact .leaf hvalue
    cases shape with
    | object => exact @hleaf .object h
    | name => exact @hleaf .name h
    | byte => exact @hleaf .byte h
    | word => exact @hleaf .word h
    | long => exact @hleaf .long h
    | text => exact @hleaf .text h
    | unicodeText => exact @hleaf .unicodeText h
    | expression =>
        obtain ⟨inner, hinner, rfl⟩ := runFrom_map_eq_ok.mp h
        exact .expression hinner
    | caseBody =>
        obtain ⟨target, middle, htarget, h⟩ := runFrom_bind_eq_ok.mp h
        split at h
        · next hlast =>
            subst hlast
            obtain ⟨hresult, rfl⟩ := Prod.mk.inj h
            obtain rfl := Except.ok.inj hresult
            exact .lastCase htarget
        · next hmore =>
            obtain ⟨inner, hinner, rfl⟩ := runFrom_map_eq_ok.mp h
            exact .caseOf htarget hmore hinner
    | arguments => exact .arguments h
    | labels => exact .labels h
  · intro h
    cases h with
    | leaf hvalue =>
        rw [operandsOf_leaf]
        exact runFrom_map_eq_ok.mpr ⟨_, hvalue, rfl⟩
    | expression hinner => exact runFrom_map_eq_ok.mpr ⟨_, hinner, rfl⟩
    | lastCase htarget =>
        refine runFrom_bind_eq_ok.mpr ⟨_, _, htarget, ?_⟩
        rw [if_pos rfl]
        rfl
    | caseOf htarget hmore hinner =>
        refine runFrom_bind_eq_ok.mpr ⟨_, _, htarget, ?_⟩
        rw [if_neg hmore]
        exact runFrom_map_eq_ok.mpr ⟨_, hinner, rfl⟩
    | arguments h => exact h
    | labels h => exact h

theorem operandsAll_eq_ok {shape : OperandShape} {shapes : List OperandShape} :
    runFrom state (operandsAll source nested opcode (shape :: shapes)) = (.ok operands, final) ↔
      ∃ first middle rest, runFrom state (operandsOf source nested opcode shape) =
          (.ok first, middle) ∧
        runFrom middle (operandsAll source nested opcode shapes) = (.ok rest, final) ∧
        operands = first ++ rest := by
  rw [operandsAll, runFrom_bind_eq_ok]
  constructor
  · rintro ⟨first, middle, hfirst, h⟩
    obtain ⟨rest, hrest, rfl⟩ := runFrom_map_eq_ok.mp h
    exact ⟨first, middle, rest, hfirst, hrest, rfl⟩
  · rintro ⟨first, middle, rest, hfirst, hrest, rfl⟩
    exact ⟨first, middle, hfirst, runFrom_map_eq_ok.mpr ⟨rest, hrest, rfl⟩⟩

/-- The byte of an opcode is counted, and the operands follow it. -/
theorem token_eq_ok {result : Token} :
    runFrom state (token source version (levels + 1)) = (.ok result, final) ↔
      ∃ byte cursor opcode operands, runFrom state.cursor source.u8 = (.ok byte, cursor) ∧
        Opcode.ofByte? byte = some opcode ∧
        runFrom ⟨cursor, state.decoded + 1⟩ (operandsAll source (token source version levels)
          opcode (opcode.operands version)) = (.ok operands, final) ∧
        result = .node opcode operands := by
  rw [token, runFrom_bind_ok (runFrom_get state), runFrom_bind_eq_ok]
  constructor
  · rintro ⟨byte, middle, hbyte, h⟩
    obtain ⟨cursor, hread, rfl⟩ := operand_eq_ok.mp hbyte
    split at h
    · cases h
    · next opcode hopcode =>
        obtain ⟨⟨⟩, later, hadvance, h⟩ := runFrom_bind_eq_ok.mp h
        obtain ⟨-, rfl⟩ := Prod.mk.inj hadvance
        obtain ⟨operands, hoperands, rfl⟩ := runFrom_map_eq_ok.mp h
        exact ⟨byte, cursor, opcode, operands, hread, hopcode, hoperands, rfl⟩
  · rintro ⟨byte, cursor, opcode, operands, hread, hopcode, hoperands, rfl⟩
    refine ⟨byte, _, operand_eq_ok.mpr ⟨cursor, hread, rfl⟩, ?_⟩
    rw [hopcode]
    exact runFrom_map_eq_ok.mpr ⟨operands, hoperands, rfl⟩

/-- Statements go on while canonical bytes are missing. -/
theorem statements_eq_ok {result : List Token} :
    runFrom state (statements source version size (budget + 1)) = (.ok result, final) ↔
      size ≤ state.decoded ∧ final = state ∧ result = [] ∨
        state.decoded < size ∧ ∃ first middle rest,
          runFrom state (token source version maxDepth) = (.ok first, middle) ∧
          runFrom middle (statements source version size budget) = (.ok rest, final) ∧
          result = first :: rest := by
  rw [statements, runFrom_bind_ok (runFrom_get state)]
  by_cases hmissing : state.decoded < size
  · rw [if_pos hmissing, runFrom_bind_eq_ok]
    constructor
    · rintro ⟨first, middle, hfirst, h⟩
      obtain ⟨rest, hrest, rfl⟩ := runFrom_map_eq_ok.mp h
      exact Or.inr ⟨hmissing, first, middle, rest, hfirst, hrest, rfl⟩
    · rintro (⟨hfilled, -⟩ | ⟨-, first, middle, rest, hfirst, hrest, rfl⟩)
      · exact absurd hmissing (Nat.not_lt.mpr hfilled)
      · exact ⟨first, middle, hfirst, runFrom_map_eq_ok.mpr ⟨rest, hrest, rfl⟩⟩
  · rw [if_neg hmissing]
    constructor
    · intro h
      obtain ⟨hresult, rfl⟩ := Prod.mk.inj h
      exact Or.inl ⟨Nat.not_lt.mp hmissing, rfl, (Except.ok.inj hresult).symm⟩
    · rintro (⟨-, rfl, rfl⟩ | ⟨hmore, -⟩)
      · rfl
      · exact absurd hmore hmissing

end Decode

end ObjectPackage
