/-
What goes along with decoding.  A relation between two states and the canonical bytes
that were added from the one to the other holds of a whole run, statements, tokens and
open lists alike, as soon as it holds of the leaves that a source reads.
-/
import ObjectPackage.Proofs.Script.Walk

namespace ObjectPackage

namespace ScriptSource

/-- Whenever a source reads a leaf, the relation holds with the canonical bytes of the
leaf, and it composes with the bytes. -/
structure Tracks (source : ScriptSource)
    (adds : DecodeState → List UInt8 → DecodeState → Prop) : Prop where
  refl : ∀ state, adds state [] state
  trans : ∀ {first middle last : DecodeState} {bytes more : List UInt8},
    adds first bytes middle → adds middle more last → adds first (bytes ++ more) last
  read : ∀ {kind : LeafKind} {state : DecodeState} {value : Leaf} {cursor : Cursor},
    runFrom state.cursor (source.leaf kind) = (.ok value, cursor) →
      adds state value.canonical ⟨cursor, state.decoded + value.canonical.length⟩

end ScriptSource

/-- Tokens that a decoder gives are tracked with their canonical form. -/
def Decode.TracksTokens (token : Decode Token)
    (adds : DecodeState → List UInt8 → DecodeState → Prop) : Prop :=
  ∀ {state final : DecodeState} {result : Token},
    runFrom state token = (.ok result, final) → adds state result.canonical final

namespace ScriptSource.Tracks

variable {source : ScriptSource} {adds : DecodeState → List UInt8 → DecodeState → Prop}
  {nested : Decode Token} {opcode : Opcode} {state final : DecodeState} {operands : List Operand}

theorem leaf (hsource : source.Tracks adds) {kind : LeafKind} {value : Leaf}
    (h : runFrom state (Decode.leaf opcode (source.leaf kind)) = (.ok value, final)) :
    adds state value.canonical final := by
  obtain ⟨cursor, hread, rfl⟩ := Decode.leaf_eq_ok.mp h
  exact hsource.read hread

theorem append (hsource : source.Tracks adds) {middle : DecodeState} {first rest : List Operand}
    (hfirst : adds state (Token.canonicalOperands first) middle)
    (hrest : adds middle (Token.canonicalOperands rest) final) :
    adds state (Token.canonicalOperands (first ++ rest)) final := by
  rw [Token.canonicalOperands_append]
  exact hsource.trans hfirst hrest

theorem labels (hsource : source.Tracks adds) (budget : Nat)
    (h : runFrom state (Decode.labels source opcode budget) = (.ok operands, final)) :
    adds state (Token.canonicalOperands operands) final := by
  induction budget generalizing state operands with
  | zero =>
      obtain ⟨hresult, rfl⟩ := Prod.mk.inj h
      obtain rfl := Except.ok.inj hresult
      exact hsource.refl state
  | succ budget ih =>
      obtain ⟨name, value, middle, later, hname, hvalue, h⟩ := Decode.labels_eq_ok.mp h
      have hpair : adds state (Token.canonicalOperands [.leaf name, .leaf value]) later := by
        simpa [Token.canonicalOperands] using hsource.trans (hsource.leaf hname) (hsource.leaf hvalue)
      rcases h with ⟨-, rfl, rfl⟩ | ⟨_, rest, -, -, hrest, rfl⟩
      · exact hpair
      · exact hsource.append hpair (ih hrest)

theorem arguments (hsource : source.Tracks adds) (hnested : nested.TracksTokens adds)
    (budget : Nat) (h : runFrom state (Decode.arguments nested budget) = (.ok operands, final)) :
    adds state (Token.canonicalOperands operands) final := by
  induction budget generalizing state operands with
  | zero =>
      obtain ⟨hresult, rfl⟩ := Prod.mk.inj h
      obtain rfl := Except.ok.inj hresult
      exact hsource.refl state
  | succ budget ih =>
      obtain ⟨argument, middle, hargument, h⟩ := Decode.arguments_eq_ok.mp h
      have hfirst : adds state (Token.canonicalOperands [.expression argument]) middle := by
        simpa [Token.canonicalOperands] using hnested hargument
      rcases h with ⟨-, rfl, rfl⟩ | ⟨-, rest, hrest, rfl⟩
      · exact hfirst
      · exact hsource.append hfirst (ih hrest)

theorem operandsOf (hsource : source.Tracks adds) (hnested : nested.TracksTokens adds)
    {shape : OperandShape}
    (h : runFrom state (Decode.operandsOf source nested opcode shape) = (.ok operands, final)) :
    adds state (Token.canonicalOperands operands) final := by
  cases Decode.operandsOf_eq_ok.mp h with
  | leaf hvalue => simpa [Token.canonicalOperands] using hsource.leaf hvalue
  | expression hinner => simpa [Token.canonicalOperands] using hnested hinner
  | lastCase htarget => simpa [Token.canonicalOperands] using hsource.leaf htarget
  | caseOf htarget _ hinner =>
      simpa [Token.canonicalOperands] using hsource.trans (hsource.leaf htarget) (hnested hinner)
  | arguments h => exact hsource.arguments hnested _ h
  | labels h => exact hsource.labels _ h

theorem operandsAll (hsource : source.Tracks adds) (hnested : nested.TracksTokens adds)
    {shapes : List OperandShape}
    (h : runFrom state (Decode.operandsAll source nested opcode shapes) =
      (.ok operands, final)) :
    adds state (Token.canonicalOperands operands) final := by
  induction shapes generalizing state operands with
  | nil =>
      obtain ⟨hresult, rfl⟩ := Prod.mk.inj h
      obtain rfl := Except.ok.inj hresult
      exact hsource.refl state
  | cons shape shapes ih =>
      obtain ⟨first, middle, rest, hfirst, hrest, rfl⟩ := Decode.operandsAll_eq_ok.mp h
      exact hsource.append (hsource.operandsOf hnested hfirst) (ih hrest)

theorem token (hsource : source.Tracks adds) (version : UInt32) (levels : Nat) :
    (Decode.token source version levels).TracksTokens adds := by
  induction levels with
  | zero =>
      intro state final result h
      cases h
  | succ levels ih =>
      intro state final result h
      obtain ⟨byte, cursor, opcode, operands, hread, hopcode, hoperands, rfl⟩ :=
        Decode.token_eq_ok.mp h
      rw [Token.canonical, Opcode.byte_of_ofByte? hopcode]
      have hbyte : adds state [byte] ⟨cursor, state.decoded + 1⟩ :=
        hsource.read (source.leaf_byte hread)
      exact hsource.trans hbyte (hsource.operandsAll ih hoperands)

/-- What holds of the leaves holds of statements. -/
theorem statements (hsource : source.Tracks adds) {version : UInt32} {size : Nat} (budget : Nat)
    {result : List Token}
    (h : runFrom state (Decode.statements source version size budget) = (.ok result, final)) :
    adds state (result.flatMap Token.canonical) final := by
  induction budget generalizing state result with
  | zero =>
      obtain ⟨hresult, rfl⟩ := Prod.mk.inj h
      obtain rfl := Except.ok.inj hresult
      exact hsource.refl state
  | succ budget ih =>
      rcases Decode.statements_eq_ok.mp h with
        ⟨-, rfl, rfl⟩ | ⟨-, first, middle, rest, hfirst, hrest, rfl⟩
      · exact hsource.refl _
      · exact hsource.trans (hsource.token version Decode.maxDepth hfirst) (ih hrest)

end ScriptSource.Tracks

/-- Every source counts the canonical bytes of what it reads. -/
theorem ScriptSource.tracks_count (source : ScriptSource) :
    source.Tracks fun before bytes after => after.decoded = before.decoded + bytes.length where
  refl _ := rfl
  trans h h' := by rw [h', h, List.length_append, Nat.add_assoc]
  read _ := rfl

/-- Whatever it was decoded from, a script has the declared size. -/
theorem Script.size_of_decodeFrom {source : ScriptSource} {version : UInt32} {size : Nat}
    {script : Script} {cursor : Cursor} {final : DecodeState}
    (h : cursor.decode (decodeFrom source version size) = (.ok script, final)) :
    script.size = size := by
  obtain ⟨hstatements, hdecoded, -⟩ := decodeFrom_eq_ok.mp h
  have hcount := source.tracks_count.statements _ hstatements
  rw [hdecoded, Nat.zero_add] at hcount
  exact hcount.symm

end ObjectPackage
