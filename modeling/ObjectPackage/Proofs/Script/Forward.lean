/-
Sources go forward.  Whatever becomes of a read of a script source, in a package or in a
blob, the input is used from front to back, and what was decoded stays.
-/
import ObjectPackage.Proofs.Script.Terminators
import ObjectPackage.Proofs.Stream.Forward

namespace ObjectPackage

/-- A source that goes forward whatever becomes of a read, and has longs of four bytes. -/
structure ScriptSource.Forward (source : ScriptSource) : Prop where
  leaf : ∀ kind, (source.leaf kind).Forward
  byte : source.u8.Forward
  long : source.u32.Uses 4

namespace ScriptSource

theorem forward_package (names : NameTable) : (ScriptSource.package names).Forward where
  leaf := by
    intro kind
    cases kind with
    | object => exact Read.forward_index.map _
    | name => exact ((Read.forward_name names).map _).map _
    | byte => exact Read.forward_u8.map _
    | word => exact Read.forward_u16.map _
    | long => exact Read.forward_u32.map _
    | text => exact Read.forward_bytesZ.map _
    | unicodeText => exact Read.forward_unitsZ.map _
  byte := Read.forward_u8
  long := Read.uses_u32

end ScriptSource

namespace Read

variable {α : Type} {action : Read α}

theorem reaches_atEnd (cursor : Cursor) : cursor.Reaches cursor.atEnd :=
  ⟨cursor.rest, (List.append_nil _).symm, rfl⟩

theorem Forward.orExhaust (h : action.Forward) : (orExhaust action).Forward :=
  h.tryCatch fun error => Moves.bind reaches_atEnd fun _ => .throw error

theorem forward_blobBytesZ : blobBytesZ.Forward := by
  intro cursor
  cases hrun : runFrom cursor blobBytesZ with
  | mk outcome next =>
      cases outcome with
      | ok text =>
          obtain ⟨-, hused, hpos⟩ := bytesZ_splits (bytesZ_of_blob hrun)
          exact ⟨_, hused, hpos⟩
      | error error =>
          simp only [blobBytesZ, runFrom_bind, runFrom_get] at hrun
          split at hrun
          · obtain ⟨-, rfl⟩ := Prod.mk.inj hrun
            exact reaches_atEnd cursor
          · cases hrun

theorem forward_blobUnitsZ : blobUnitsZ.Forward := by
  intro cursor
  cases hrun : runFrom cursor blobUnitsZ with
  | mk outcome next =>
      cases outcome with
      | ok units =>
          obtain ⟨-, hused, hpos⟩ := unitsZ_splits (unitsZ_of_blob hrun)
          exact ⟨_, hused, hpos⟩
      | error error =>
          simp only [blobUnitsZ, runFrom_bind, runFrom_get] at hrun
          split at hrun
          · cases hrun
          · obtain ⟨-, rfl⟩ := Prod.mk.inj hrun
            exact reaches_atEnd cursor

end Read

theorem ScriptSource.forward_blob (terminator : Option UInt32) :
    (ScriptSource.blob terminator).Forward where
  leaf := by
    intro kind
    cases kind with
    | object => exact Read.forward_i32.orExhaust.map _
    | name => exact Read.forward_u32.orExhaust.map _
    | byte => exact Read.forward_u8.orExhaust.map _
    | word => exact Read.forward_u16.orExhaust.map _
    | long => exact Read.forward_u32.orExhaust.map _
    | text => exact Read.forward_blobBytesZ.map _
    | unicodeText => exact Read.forward_blobUnitsZ.map _
  byte := Read.forward_u8.orExhaust
  long := Read.uses_u32.orExhaust

namespace DecodeState

/-- The input went forward, and no output was taken back. -/
def Reaches (before after : DecodeState) : Prop :=
  before.cursor.Reaches after.cursor ∧ before.decoded ≤ after.decoded

instance : IsPreorder DecodeState Reaches where
  refl state := ⟨refl_of Cursor.Reaches state.cursor, Nat.le_refl _⟩
  trans := by
    rintro first middle last ⟨hcursor, hdecoded⟩ ⟨hcursor', hdecoded'⟩
    exact ⟨trans_of Cursor.Reaches hcursor hcursor', Nat.le_trans hdecoded hdecoded'⟩

end DecodeState

namespace Decode

theorem moves_operand {α : Type} {owner : String} {action : Read α} (h : action.Forward) :
    Moves DecodeState.Reaches (operand owner action) := by
  intro state
  have hreaches := h state.cursor
  rw [operand, runFrom_bind_ok (runFrom_get _), Cursor.read_eq]
  split <;> next hrun =>
    rw [hrun] at hreaches
    exact ⟨hreaches, Nat.le_refl _⟩

theorem moves_advance (count : Nat) : Moves DecodeState.Reaches (advance count) :=
  fun state => ⟨refl_of Cursor.Reaches state.cursor, Nat.le_add_right _ _⟩

theorem moves_leaf {opcode : Opcode} {action : Read Leaf} (h : action.Forward) :
    Moves DecodeState.Reaches (leaf opcode action) :=
  (moves_operand h).bind fun _ => (moves_advance _).bind fun _ => .pure _

end Decode

theorem ScriptSource.Forward.moves_leaf {source : ScriptSource} (h : source.Forward)
    (opcode : Opcode) (kind : LeafKind) :
    Moves DecodeState.Reaches (Decode.leaf opcode (source.leaf kind)) :=
  Decode.moves_leaf (h.leaf kind)

end ObjectPackage
