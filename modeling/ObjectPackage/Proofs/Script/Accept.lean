/-
What the decoder accepts.  When a source reads legal leaves only and every leaf takes
input, each token that is decoded from it is grammatical, the count of decoded bytes
grows by its canonical length, and the budgets of the open lists do not run out.
-/
import ObjectPackage.Proofs.Script.Runs

namespace ObjectPackage

namespace ScriptSource

/-- A source that reads leaves of a dialect only, each of them from some input. -/
structure Sound (source : ScriptSource) (dialect : Dialect) : Prop where
  ends : source.isTerminator = dialect.ends
  kind : ∀ {kind cursor value next}, runFrom cursor (source.leaf kind) = (.ok value, next) →
    value.kind = kind
  legal : ∀ {kind cursor value next}, runFrom cursor (source.leaf kind) = (.ok value, next) →
    value.Legal dialect.known
  uses : ∀ kind, (source.leaf kind).Uses 1

theorem sound_package (package : Package) :
    (ScriptSource.package package.names).Sound (.package package) where
  ends := rfl
  kind := by
    intro kind cursor value next h
    cases kind <;>
      · obtain ⟨inner, -, rfl⟩ := runFrom_map_eq_ok.mp h
        rfl
  legal := by
    intro kind cursor value next h
    cases kind with
    | name =>
        obtain ⟨id, hname, rfl⟩ := runFrom_map_eq_ok.mp h
        obtain ⟨name, hread, rfl⟩ := runFrom_map_eq_ok.mp hname
        exact Read.name_index_lt hread
    | text =>
        obtain ⟨bytes, hread, rfl⟩ := runFrom_map_eq_ok.mp h
        exact (Read.bytesZ_eq_ok hread).1
    | unicodeText =>
        obtain ⟨units, hread, rfl⟩ := runFrom_map_eq_ok.mp h
        exact (Read.unitsZ_eq_ok hread).1
    | _ =>
        obtain ⟨inner, -, rfl⟩ := runFrom_map_eq_ok.mp h
        trivial
  uses := by
    intro kind
    cases kind with
    | object => exact Read.uses_index.map _
    | name => exact ((Read.uses_name package.names).map _).map _
    | byte => exact Read.uses_u8.map _
    | word => exact (Read.uses_u16.map _).mono (by decide)
    | long => exact (Read.uses_u32.map _).mono (by decide)
    | text => exact Read.Uses.map _ fun cursor value next h => (Read.bytesZ_eq_ok h).2
    | unicodeText =>
        refine Read.Uses.map _ fun cursor value next h => ?_
        have huse := (Read.unitsZ_eq_ok h).2
        omega

end ScriptSource

namespace Token

@[simp]
theorem canonicalOperands_append (first rest : List Operand) :
    canonicalOperands (first ++ rest) = canonicalOperands first ++ canonicalOperands rest := by
  induction first with
  | nil => rfl
  | cons operand first ih =>
      cases operand <;> simp [canonicalOperands, ih]

/-- Records of later operands start behind the earlier ones. -/
theorem operandRecords_append (offset depth : Nat) (first rest : List Operand) :
    operandRecords offset depth (first ++ rest) = operandRecords offset depth first ++
      operandRecords (offset + (canonicalOperands first).length) depth rest := by
  induction first generalizing offset with
  | nil => rfl
  | cons operand first ih =>
      cases operand <;> simp [operandRecords, canonicalOperands, ih, Nat.add_assoc]

end Token

/-- From one state to another so much output was counted, and at least so much input
was used. -/
structure DecodeState.Advances (before : DecodeState) (output input : Nat)
    (after : DecodeState) : Prop where
  decoded : after.decoded = before.decoded + output
  used : after.cursor.rest.length + input ≤ before.cursor.rest.length

namespace DecodeState.Advances

variable {first middle last : DecodeState} {output output' input input' : Nat}

theorem refl (state : DecodeState) : state.Advances 0 0 state :=
  ⟨rfl, Nat.le_refl _⟩

theorem trans (h : first.Advances output input middle) (h' : middle.Advances output' input' last) :
    first.Advances (output + output') (input + input') last := by
  refine ⟨?_, ?_⟩
  · rw [h'.decoded, h.decoded, Nat.add_assoc]
  · have hfirst := h.used
    have hlast := h'.used
    omega

theorem mono (h : first.Advances output input last) (hle : input' ≤ input) :
    first.Advances output input' last := by
  refine ⟨h.decoded, ?_⟩
  have hused := h.used
  omega

end DecodeState.Advances

namespace ScriptSource.Sound

variable {source : ScriptSource} {dialect : Dialect} {state final : DecodeState}

theorem leaf (hsource : source.Sound dialect) {opcode : Opcode} {kind : LeafKind} {value : Leaf}
    (h : runFrom state (Decode.leaf opcode (source.leaf kind)) = (.ok value, final)) :
    value.kind = kind ∧ value.Legal dialect.known ∧
      state.Advances value.canonical.length 1 final := by
  obtain ⟨cursor, hread, rfl⟩ := Decode.leaf_eq_ok.mp h
  exact ⟨hsource.kind hread, hsource.legal hread, rfl, hsource.uses kind _ _ _ hread⟩

theorem nameLeaf (hsource : source.Sound dialect) {opcode : Opcode} {value : Leaf}
    (h : runFrom state (Decode.leaf opcode (source.leaf .name)) = (.ok value, final)) :
    ∃ id, value = .name id ∧ dialect.known id ∧
      state.Advances value.canonical.length 1 final := by
  obtain ⟨hkind, hlegal, hadvance⟩ := hsource.leaf h
  cases value with
  | name id => exact ⟨id, rfl, hlegal, hadvance⟩
  | _ => cases hkind

theorem longLeaf (hsource : source.Sound dialect) {opcode : Opcode} {value : Leaf}
    (h : runFrom state (Decode.leaf opcode (source.leaf .long)) = (.ok value, final)) :
    ∃ word, value = .long word ∧ state.Advances value.canonical.length 1 final := by
  obtain ⟨hkind, -, hadvance⟩ := hsource.leaf h
  cases value with
  | long word => exact ⟨word, rfl, hadvance⟩
  | _ => cases hkind

theorem wordLeaf (hsource : source.Sound dialect) {opcode : Opcode} {value : Leaf}
    (h : runFrom state (Decode.leaf opcode (source.leaf .word)) = (.ok value, final)) :
    ∃ word, value = .word word ∧ state.Advances value.canonical.length 1 final := by
  obtain ⟨hkind, -, hadvance⟩ := hsource.leaf h
  cases value with
  | word word => exact ⟨word, rfl, hadvance⟩
  | _ => cases hkind

/-- Labels are decoded through a terminator, since every pair takes input. -/
theorem labels (hsource : source.Sound dialect) {opcode : Opcode} {budget : Nat}
    {operands : List Operand} (hbudget : state.cursor.rest.length < budget)
    (h : runFrom state (Decode.labels source opcode budget) = (.ok operands, final)) :
    LabelsFit dialect operands ∧
      state.Advances (Token.canonicalOperands operands).length 0 final := by
  induction budget generalizing state operands with
  | zero => omega
  | succ budget ih =>
      obtain ⟨name, value, middle, later, hname, hvalue, h⟩ := Decode.labels_eq_ok.mp h
      obtain ⟨id, rfl, hknown, hfirst⟩ := hsource.nameLeaf hname
      obtain ⟨target, rfl, hsecond⟩ := hsource.longLeaf hvalue
      have hpair := hfirst.trans hsecond
      rw [hsource.ends] at h
      rcases h with ⟨hend, rfl, rfl⟩ | ⟨other, rest, hsame, hend, hrest, rfl⟩
      · refine ⟨.last hknown (hend id rfl), ?_⟩
        simpa [Token.canonicalOperands] using hpair.mono (Nat.zero_le _)
      · obtain rfl := Leaf.name.inj hsame
        have hused := hpair.used
        obtain ⟨hfit, hadvance⟩ := ih (by omega) hrest
        refine ⟨.more hknown hend hfit, ?_⟩
        simpa [Token.canonicalOperands, Nat.add_assoc] using
          (hpair.trans hadvance).mono (Nat.zero_le _)

end ScriptSource.Sound

/-- Tokens that a decoder gives have some property and are counted by their length. -/
def Decode.Accepts (token : Decode Token) (fits : Token → Prop) : Prop :=
  ∀ {state final result}, runFrom state token = (.ok result, final) →
    fits result ∧ state.Advances result.canonical.length 1 final

namespace Decode.Accepts

variable {source : ScriptSource} {dialect : Dialect} {token : Decode Token}
  {fits : Token → Prop} {state final : DecodeState} {operands : List Operand}

/-- Arguments are decoded through an end token, since every token takes input. -/
theorem arguments (htoken : token.Accepts fits) {budget : Nat}
    (hbudget : state.cursor.rest.length < budget)
    (h : runFrom state (Decode.arguments token budget) = (.ok operands, final)) :
    ArgumentsFit fits operands ∧
      state.Advances (Token.canonicalOperands operands).length 0 final := by
  induction budget generalizing state operands with
  | zero => omega
  | succ budget ih =>
      obtain ⟨argument, middle, hargument, h⟩ := Decode.arguments_eq_ok.mp h
      obtain ⟨hfits, hfirst⟩ := htoken hargument
      rcases h with ⟨hend, rfl, rfl⟩ | ⟨hend, rest, hrest, rfl⟩
      · refine ⟨.last hfits hend, ?_⟩
        simpa [Token.canonicalOperands] using hfirst.mono (Nat.zero_le _)
      · have hused := hfirst.used
        obtain ⟨hfit, hadvance⟩ := ih (by omega) hrest
        refine ⟨.more hfits hend hfit, ?_⟩
        simpa [Token.canonicalOperands] using (hfirst.trans hadvance).mono (Nat.zero_le _)

theorem operandsOf (htoken : token.Accepts fits) (hsource : source.Sound dialect)
    {opcode : Opcode} {shape : OperandShape}
    (h : runFrom state (Decode.operandsOf source token opcode shape) = (.ok operands, final)) :
    ShapeFits dialect fits shape operands ∧
      state.Advances (Token.canonicalOperands operands).length 0 final := by
  cases Decode.operandsOf_eq_ok.mp h with
  | leaf hvalue =>
      obtain ⟨rfl, hlegal, hadvance⟩ := hsource.leaf hvalue
      refine ⟨.leaf hlegal, ?_⟩
      simpa [Token.canonicalOperands] using hadvance.mono (Nat.zero_le _)
  | expression hinner =>
      obtain ⟨hfits, hadvance⟩ := htoken hinner
      refine ⟨.expression hfits, ?_⟩
      simpa [Token.canonicalOperands] using hadvance.mono (Nat.zero_le _)
  | lastCase htarget =>
      refine ⟨.lastCase, ?_⟩
      simpa [Token.canonicalOperands] using (hsource.leaf htarget).2.2.mono (Nat.zero_le _)
  | caseOf htarget hmore hinner =>
      obtain ⟨target, rfl, hfirst⟩ := hsource.wordLeaf htarget
      obtain ⟨hfits, hsecond⟩ := htoken hinner
      refine ⟨.caseOf (fun htarget => hmore (by rw [htarget])) hfits, ?_⟩
      simpa [Token.canonicalOperands] using (hfirst.trans hsecond).mono (Nat.zero_le _)
  | arguments h =>
      obtain ⟨hfit, hadvance⟩ := htoken.arguments (Nat.lt_succ_self _) h
      exact ⟨.arguments hfit, hadvance⟩
  | labels h =>
      obtain ⟨hfit, hadvance⟩ := hsource.labels (Nat.lt_succ_self _) h
      exact ⟨.labels hfit, hadvance⟩

theorem operandsAll (htoken : token.Accepts fits) (hsource : source.Sound dialect)
    {opcode : Opcode} {shapes : List OperandShape}
    (h : runFrom state (Decode.operandsAll source token opcode shapes) =
      (.ok operands, final)) :
    OperandsFit dialect fits shapes operands ∧
      state.Advances (Token.canonicalOperands operands).length 0 final := by
  induction shapes generalizing state operands with
  | nil =>
      obtain ⟨hresult, rfl⟩ := Prod.mk.inj h
      obtain rfl := Except.ok.inj hresult
      exact ⟨.nil, .refl state⟩
  | cons shape shapes ih =>
      obtain ⟨first, middle, rest, hfirst, hrest, rfl⟩ := Decode.operandsAll_eq_ok.mp h
      obtain ⟨hfits, hadvance⟩ := htoken.operandsOf hsource hfirst
      obtain ⟨hfitsRest, hadvanceRest⟩ := ih hrest
      refine ⟨.cons hfits hfitsRest, ?_⟩
      rw [Token.canonicalOperands_append, List.length_append]
      exact hadvance.trans hadvanceRest

end Decode.Accepts

namespace ScriptSource.Sound

variable {source : ScriptSource} {dialect : Dialect}

/-- A decoded token is grammatical. -/
theorem token (hsource : source.Sound dialect) (levels : Nat) :
    (Decode.token source dialect.version levels).Accepts (Token.Grammatical dialect levels) := by
  induction levels with
  | zero =>
      intro state final result h
      cases h
  | succ levels ih =>
      intro state final result h
      obtain ⟨byte, cursor, opcode, operands, hread, hopcode, hoperands, rfl⟩ :=
        Decode.token_eq_ok.mp h
      obtain ⟨hfit, hadvance⟩ := Decode.Accepts.operandsAll ih hsource hoperands
      have hopcodeAdvance : state.Advances 1 1 ⟨cursor, state.decoded + 1⟩ :=
        ⟨rfl, hsource.uses .byte _ _ _ (source.leaf_byte hread)⟩
      refine ⟨⟨?_, hfit⟩, ?_⟩
      · rw [Opcode.byte_of_ofByte? hopcode]
        exact hopcode
      · rw [Token.canonical, List.length_cons, Nat.add_comm _ 1]
        exact hopcodeAdvance.trans hadvance

/-- Decoded statements are grammatical and counted by their length. -/
theorem statements (hsource : source.Sound dialect) {size budget : Nat}
    {state final : DecodeState} {result : List Token}
    (h : runFrom state (Decode.statements source dialect.version size budget) =
      (.ok result, final)) :
    (∀ token ∈ result, token.Grammatical dialect Decode.maxDepth) ∧
      state.Advances (result.flatMap Token.canonical).length 0 final := by
  induction budget generalizing state result with
  | zero =>
      obtain ⟨hresult, rfl⟩ := Prod.mk.inj h
      obtain rfl := Except.ok.inj hresult
      exact ⟨by simp, .refl state⟩
  | succ budget ih =>
      rcases Decode.statements_eq_ok.mp h with
        ⟨-, rfl, rfl⟩ | ⟨-, first, middle, rest, hfirst, hrest, rfl⟩
      · exact ⟨by simp, .refl _⟩
      · obtain ⟨hgrammar, hadvance⟩ := hsource.token Decode.maxDepth hfirst
        obtain ⟨hgrammarRest, hadvanceRest⟩ := ih hrest
        refine ⟨List.forall_mem_cons.mpr ⟨hgrammar, hgrammarRest⟩, ?_⟩
        rw [List.flatMap_cons, List.length_append]
        exact (hadvance.trans hadvanceRest).mono (Nat.zero_le _)

end ScriptSource.Sound

end ObjectPackage
