/-
Decoding of the byte forms of grammatical trees.  When a source reads some byte form
of legal leaves back, the decoder gives back every grammatical tree from its bytes in
that form, whatever follows them, or stops at its first token that is nested too deep.
-/
import ObjectPackage.Proofs.Script.Accept
import ObjectPackage.Proofs.Script.Nesting

namespace ObjectPackage

namespace Token

mutual

/-- Bytes of a token in which leaves have a given form. -/
def encodeWith (form : Leaf → List UInt8) : Token → List UInt8
  | node opcode operands => opcode.byte :: encodeOperandsWith form operands

def encodeOperandsWith (form : Leaf → List UInt8) : List Operand → List UInt8
  | [] => []
  | .leaf value :: rest => form value ++ encodeOperandsWith form rest
  | .expression token :: rest => token.encodeWith form ++ encodeOperandsWith form rest

end

mutual

theorem encodeWith_canonical (token : Token) :
    token.encodeWith Leaf.canonical = token.canonical := by
  cases token with
  | node opcode operands => rw [encodeWith, canonical, encodeOperandsWith_canonical operands]

theorem encodeOperandsWith_canonical (operands : List Operand) :
    encodeOperandsWith Leaf.canonical operands = canonicalOperands operands := by
  cases operands with
  | nil => rfl
  | cons operand rest =>
      cases operand with
      | leaf value =>
          rw [encodeOperandsWith, canonicalOperands, encodeOperandsWith_canonical rest]
      | expression token =>
          rw [encodeOperandsWith, canonicalOperands, encodeWith_canonical token,
            encodeOperandsWith_canonical rest]

end

@[simp]
theorem encodeOperandsWith_append (form : Leaf → List UInt8) (first rest : List Operand) :
    encodeOperandsWith form (first ++ rest) =
      encodeOperandsWith form first ++ encodeOperandsWith form rest := by
  induction first with
  | nil => rfl
  | cons operand first ih =>
      cases operand <;> simp [encodeOperandsWith, ih]

theorem length_encodeWith_pos (form : Leaf → List UInt8) (token : Token) :
    0 < (token.encodeWith form).length := by
  cases token with
  | node opcode operands => simp [encodeWith]

theorem length_canonical_pos (token : Token) : 0 < token.canonical.length := by
  rw [← encodeWith_canonical]
  exact length_encodeWith_pos Leaf.canonical token

theorem length_le_flatMap (form : Leaf → List UInt8) (tokens : List Token) :
    tokens.length ≤ (tokens.flatMap (encodeWith form)).length := by
  induction tokens with
  | nil => exact Nat.le_refl _
  | cons token rest ih =>
      have htoken := token.length_encodeWith_pos form
      rw [List.flatMap_cons, List.length_append, List.length_cons]
      omega

theorem length_le_canonical (tokens : List Token) :
    tokens.length ≤ (tokens.flatMap canonical).length := by
  rw [← funext encodeWith_canonical]
  exact length_le_flatMap Leaf.canonical tokens

end Token

namespace Decode

variable {α β : Type}

/-- The action decodes exactly these bytes to the value and counts so much output. -/
def Restores (action : Decode α) (input : List UInt8) (value : α) (output : Nat) : Prop :=
  ∀ pos rest decoded, runFrom ⟨⟨pos, input ++ rest⟩, decoded⟩ action =
    (.ok value, ⟨⟨pos + input.length, rest⟩, decoded + output⟩)

namespace Restores

variable {action : Decode α} {input more : List UInt8} {value : α} {output output' : Nat}

theorem pure (value : α) : Restores (Pure.pure value) [] value 0 :=
  fun _ _ _ => rfl

theorem bind {next : α → Decode β} {result : β} (h : action.Restores input value output)
    (hnext : (next value).Restores more result output') :
    (action >>= next).Restores (input ++ more) result (output + output') := by
  intro pos rest decoded
  rw [List.append_assoc, runFrom_bind_ok (h pos (more ++ rest) decoded), hnext,
    List.length_append, Nat.add_assoc, Nat.add_assoc]

theorem map (f : α → β) (h : action.Restores input value output) :
    (f <$> action).Restores input (f value) output := by
  intro pos rest decoded
  rw [runFrom_map, h]


end Restores

/-- The action stops in these bytes at a token that is nested too deep, which starts so
far behind the output counted before. -/
def Overflows (action : Decode α) (input : List UInt8) (place : Nat) : Prop :=
  ∀ pos rest decoded, ∃ final, runFrom ⟨⟨pos, input ++ rest⟩, decoded⟩ action =
    (.error (.depthExceeded maxDepth (decoded + place)), final)

theorem Overflows.bind {action : Decode α} {input more : List UInt8} {place : Nat}
    {next : α → Decode β} (h : action.Overflows input place) :
    (action >>= next).Overflows (input ++ more) place := by
  intro pos rest decoded
  obtain ⟨final, hrun⟩ := h pos (more ++ rest) decoded
  rw [List.append_assoc]
  exact ⟨final, runFrom_bind_error hrun next⟩

theorem Restores.overflows {action : Decode α} {input more : List UInt8} {value : α}
    {output place : Nat} {next : α → Decode β} (h : action.Restores input value output)
    (hnext : (next value).Overflows more place) :
    (action >>= next).Overflows (input ++ more) (output + place) := by
  intro pos rest decoded
  obtain ⟨final, hrun⟩ := hnext (pos + input.length) rest (decoded + output)
  refine ⟨final, ?_⟩
  rw [List.append_assoc, runFrom_bind_ok (h pos (more ++ rest) decoded), hrun, Nat.add_assoc]

/-- The action decodes these bytes to the value, or overflows at the place where that
holds a token nested too deep. -/
def Meets (action : Decode α) (input : List UInt8) (value : α) (output : Nat) :
    Option Nat → Prop
  | none => action.Restores input value output
  | some place => action.Overflows input place

namespace Meets

variable {action : Decode α} {input more : List UInt8} {value : α} {output output' : Nat}
  {place place' : Option Nat}

theorem pure (value : α) : Meets (Pure.pure value) [] value 0 none :=
  Restores.pure value

theorem bind {next : α → Decode β} {result : β} (h : action.Meets input value output place)
    (hnext : (next value).Meets more result output' place') :
    (action >>= next).Meets (input ++ more) result (output + output')
      (place.or (place'.map (output + ·))) := by
  cases place with
  | some place => exact Overflows.bind h
  | none =>
      cases place' with
      | none => exact Restores.bind h hnext
      | some place' => exact Restores.overflows h hnext

/-- A first action that counts no output does not move a place behind it. -/
theorem bind_uncounted {next : α → Decode β} {result : β} (h : action.Meets input value 0 none)
    (hnext : (next value).Meets more result output place) :
    (action >>= next).Meets (input ++ more) result output place := by
  have hboth := h.bind hnext
  simpa using hboth

theorem map (f : α → β) (h : action.Meets input value output place) :
    (f <$> action).Meets input (f value) output place := by
  cases place with
  | none => exact Restores.map f h
  | some place =>
      intro pos rest decoded
      obtain ⟨final, hrun⟩ := h pos rest decoded
      exact ⟨final, by rw [runFrom_map, hrun]⟩

theorem ite_pos {condition : Prop} [Decidable condition] {other : Decode α} (hif : condition)
    (h : action.Meets input value output place) :
    (if condition then action else other).Meets input value output place := by
  rw [if_pos hif]
  exact h

theorem ite_neg {condition : Prop} [Decidable condition] {other : Decode α} (hif : ¬condition)
    (h : action.Meets input value output place) :
    (if condition then other else action).Meets input value output place := by
  rw [if_neg hif]
  exact h

theorem of_eq {input' : List UInt8} (h : action.Meets input value output place)
    (hinput : input = input') (houtput : output = output') (hplace : place = place') :
    action.Meets input' value output' place' := by
  rw [← hinput, ← houtput, ← hplace]
  exact h

/-- A budget for the rest of the input is enough when it is enough for what is taken. -/
theorem budget {next : Nat → Decode α}
    (h : ∀ count, input.length < count → (next count).Meets input value output place) :
    (inputBudget >>= next).Meets input value output place := by
  have hrun (pos : Nat) (rest : List UInt8) (decoded : Nat) :
      runFrom ⟨⟨pos, input ++ rest⟩, decoded⟩ (inputBudget >>= next) =
        runFrom ⟨⟨pos, input ++ rest⟩, decoded⟩ (next ((input ++ rest).length + 1)) :=
    runFrom_bind_ok (show runFrom _ inputBudget = (.ok ((input ++ rest).length + 1), _) from rfl) next
  have henough (rest : List UInt8) : input.length < (input ++ rest).length + 1 := by
    rw [List.length_append]
    omega
  cases place with
  | none =>
      intro pos rest decoded
      rw [hrun]
      exact h _ (henough rest) pos rest decoded
  | some place =>
      intro pos rest decoded
      rw [hrun]
      exact h _ (henough rest) pos rest decoded

theorem get {next : DecodeState → Decode α}
    (h : ∀ state, (next state).Meets input value output place) :
    (MonadState.get >>= next).Meets input value output place := by
  cases place with
  | none => exact fun pos rest decoded => h ⟨⟨pos, input ++ rest⟩, decoded⟩ pos rest decoded
  | some place => exact fun pos rest decoded => h ⟨⟨pos, input ++ rest⟩, decoded⟩ pos rest decoded

theorem advance (count : Nat) : (Decode.advance count).Meets [] () count none :=
  fun _ _ _ => rfl

end Meets

theorem restores_operand {owner : String} {action : Read α} {input : List UInt8} {value : α}
    (h : action.Takes input value) : (operand owner action).Restores input value 0 := by
  intro pos rest decoded
  exact operand_eq_ok.mpr ⟨_, h pos rest, rfl⟩

theorem restores_leaf {opcode : Opcode} {action : Read Leaf} {input : List UInt8} {value : Leaf}
    (h : action.Takes input value) :
    (leaf opcode action).Restores input value value.canonical.length := by
  intro pos rest decoded
  exact leaf_eq_ok.mpr ⟨_, h pos rest, rfl⟩

end Decode

/-- A source that reads one byte form of the leaves of a dialect back. -/
structure ScriptSource.Reads (source : ScriptSource) (dialect : Dialect)
    (form : Leaf → List UInt8) : Prop where
  ends : source.isTerminator = dialect.ends
  byte : ∀ value, form (.byte value) = [value]
  nonempty : ∀ value, 0 < (form value).length
  takes : ∀ value, value.Legal dialect.known → (source.leaf value.kind).Takes (form value) value

/-- A decoder that gives back all tokens with a property from a byte form, as far as they
are nested in so many levels. -/
def Decode.Inverts (token : Decode Token) (form : Leaf → List UInt8) (fits : Token → Prop)
    (levels : Nat) : Prop :=
  ∀ value, fits value → token.Meets (value.encodeWith form) value value.canonical.length
    (value.tooDeep? levels)

namespace ScriptSource.Reads

variable {source : ScriptSource} {dialect : Dialect} {form : Leaf → List UInt8}
  {operands : List Operand} {levels : Nat}

theorem leaf (hsource : source.Reads dialect form) (opcode : Opcode) (value : Leaf)
    (h : value.Legal dialect.known) :
    (Decode.leaf opcode (source.leaf value.kind)).Meets (form value) value
      value.canonical.length none :=
  Decode.restores_leaf (hsource.takes value h)

theorem opcodeByte (hsource : source.Reads dialect form) (owner : String) (byte : UInt8) :
    (Decode.operand owner source.u8).Meets [byte] byte 0 none := by
  refine Decode.restores_operand fun pos rest => ?_
  have htakes := hsource.takes (.byte byte) trivial pos rest
  rw [hsource.byte] at htakes
  obtain ⟨value, hread, hvalue⟩ := runFrom_map_eq_ok.mp htakes
  obtain rfl := Leaf.byte.inj hvalue
  exact hread

/-- The names and targets of a label table come back through its terminator. -/
theorem labels (hsource : source.Reads dialect form) (opcode : Opcode)
    (h : LabelsFit dialect operands) {budget : Nat} (hbudget : operands.length ≤ budget) :
    (Decode.labels source opcode budget).Meets (Token.encodeOperandsWith form operands)
      operands (Token.canonicalOperands operands).length none := by
  induction h generalizing budget with
  | @last id target hknown hend =>
      obtain ⟨budget, rfl⟩ := Nat.exists_eq_add_of_le' (Nat.le_of_add_left_le hbudget)
      have hstop : source.isTerminator id = true := by rw [hsource.ends, hend]
      refine ((hsource.leaf opcode (.name id) hknown).bind
        ((hsource.leaf opcode (.long target) trivial).bind (.ite_pos hstop (.pure _)))).of_eq
          rfl ?_ rfl
      simp [Token.canonicalOperands]
  | @more id target rest hknown hend hrest ih =>
      obtain ⟨budget, rfl⟩ := Nat.exists_eq_add_of_le' (Nat.le_of_add_left_le hbudget)
      have hgo : ¬source.isTerminator id = true := by simp [hsource.ends, hend]
      have hlength : rest.length ≤ budget := by
        simp only [List.length_cons] at hbudget
        omega
      refine ((hsource.leaf opcode (.name id) hknown).bind
        ((hsource.leaf opcode (.long target) trivial).bind
          (.ite_neg hgo ((ih hlength).map _)))).of_eq rfl ?_ rfl
      simp [Token.canonicalOperands]

/-- Arguments come back through their end token. -/
theorem arguments {token : Decode Token} {fits : Token → Prop}
    (htoken : token.Inverts form fits levels) (h : ArgumentsFit fits operands) {budget : Nat}
    (hbudget : operands.length ≤ budget) :
    (Decode.arguments token budget).Meets (Token.encodeOperandsWith form operands)
      operands (Token.canonicalOperands operands).length
      (Token.tooDeepIn? levels operands) := by
  induction h generalizing budget with
  | @last argument hfits hend =>
      obtain ⟨budget, rfl⟩ := Nat.exists_eq_add_of_le' hbudget
      refine ((htoken argument hfits).bind (.ite_pos hend (.pure _))).of_eq ?_ ?_ ?_ <;>
        simp [Token.encodeOperandsWith, Token.canonicalOperands, Token.tooDeepIn?]
  | @more argument rest hfits hend hrest ih =>
      obtain ⟨budget, rfl⟩ := Nat.exists_eq_add_of_le' (Nat.le_of_add_left_le hbudget)
      have hlength : rest.length ≤ budget := by simpa using hbudget
      refine ((htoken argument hfits).bind (.ite_neg hend ((ih hlength).map _))).of_eq rfl ?_ rfl
      simp [Token.canonicalOperands]

/-- Every operand takes a byte or more, so the budget of an open list is enough. -/
theorem length_le_encode (hsource : source.Reads dialect form) (operands : List Operand) :
    operands.length ≤ (Token.encodeOperandsWith form operands).length := by
  induction operands with
  | nil => exact Nat.le_refl _
  | cons operand rest ih =>
      cases operand with
      | leaf value =>
          have hvalue := hsource.nonempty value
          simp only [Token.encodeOperandsWith, List.length_append, List.length_cons]
          omega
      | expression token =>
          have htoken := token.length_encodeWith_pos form
          simp only [Token.encodeOperandsWith, List.length_append, List.length_cons]
          omega

theorem operandsOf (hsource : source.Reads dialect form) {token : Decode Token}
    {fits : Token → Prop} (htoken : token.Inverts form fits levels) (opcode : Opcode)
    {shape : OperandShape} (h : ShapeFits dialect fits shape operands) :
    (Decode.operandsOf source token opcode shape).Meets
      (Token.encodeOperandsWith form operands) operands
      (Token.canonicalOperands operands).length (Token.tooDeepIn? levels operands) := by
  cases h with
  | @leaf value hlegal =>
      rw [Decode.operandsOf_leaf]
      refine ((hsource.leaf opcode value hlegal).map _).of_eq ?_ ?_ ?_ <;>
        simp [Token.encodeOperandsWith, Token.canonicalOperands, Token.tooDeepIn?]
  | @expression inner hfits =>
      refine ((htoken inner hfits).map fun token => [Operand.expression token]).of_eq ?_ ?_ ?_ <;>
        simp [Token.encodeOperandsWith, Token.canonicalOperands, Token.tooDeepIn?]
  | lastCase =>
      refine ((hsource.leaf opcode (.word 0xffff) trivial).bind
        (.ite_pos rfl (.pure _))).of_eq rfl ?_ rfl
      simp [Token.canonicalOperands]
  | @caseOf target inner htarget hfits =>
      have hgo : Leaf.word target ≠ .word 0xffff := fun heq => htarget (Leaf.word.inj heq)
      refine ((hsource.leaf opcode (.word target) trivial).bind
        (.ite_neg hgo ((htoken inner hfits).map _))).of_eq ?_ ?_ ?_ <;>
        simp [Token.encodeOperandsWith, Token.canonicalOperands, Token.tooDeepIn?]
  | arguments hfit =>
      refine Decode.Meets.budget fun count hcount => ?_
      have hlength := hsource.length_le_encode operands
      exact arguments htoken hfit (by omega)
  | labels hfit =>
      refine Decode.Meets.budget fun count hcount => ?_
      have hlength := hsource.length_le_encode operands
      have hflat : Token.tooDeepIn? levels operands = none := by
        refine (Token.tooDeepIn?_eq_none operands).mpr (Token.heightIn_le.mpr fun inner hmem => ?_)
        exact absurd hmem (hfit.not_mem inner)
      rw [hflat]
      exact hsource.labels opcode hfit (by omega)

theorem operandsAll (hsource : source.Reads dialect form) {token : Decode Token}
    {fits : Token → Prop} (htoken : token.Inverts form fits levels) (opcode : Opcode)
    {shapes : List OperandShape} (h : OperandsFit dialect fits shapes operands) :
    (Decode.operandsAll source token opcode shapes).Meets
      (Token.encodeOperandsWith form operands) operands
      (Token.canonicalOperands operands).length (Token.tooDeepIn? levels operands) := by
  induction h with
  | nil => exact Decode.Restores.pure []
  | cons hfirst hrest ih =>
      refine ((hsource.operandsOf htoken opcode hfirst).bind (ih.map _)).of_eq ?_ ?_ ?_ <;>
        simp [Token.tooDeepIn?_append]

/-- A grammatical token comes back from its bytes unless it is nested too deep. -/
theorem token (hsource : source.Reads dialect form) (levels depth : Nat) :
    (Decode.token source dialect.version levels).Inverts form
      (Token.Grammatical dialect depth) levels := by
  induction depth generalizing levels with
  | zero => exact fun value h => absurd h id
  | succ depth ih =>
      intro value h
      cases levels with
      | zero =>
          rw [Token.tooDeep?]
          exact fun pos rest decoded => ⟨_, rfl⟩
      | succ levels =>
          cases value with
          | node opcode operands =>
              obtain ⟨hbyte, hfit⟩ := h
              have hlength : (Token.node opcode operands).canonical.length =
                  1 + (Token.canonicalOperands operands).length := by
                simp [Token.canonical, Nat.add_comm]
              rw [hlength, Token.tooDeep?]
              refine .get fun state => (hsource.opcodeByte "opcode" opcode.byte).bind_uncounted ?_
              rw [hbyte]
              exact (Decode.Meets.advance 1).bind
                ((hsource.operandsAll (ih levels) opcode hfit).map (Token.node opcode))

/-- A token that is nested in few enough levels comes back. -/
theorem restores (hsource : source.Reads dialect form) {token : Token}
    (h : token.Grammatical dialect levels) :
    (Decode.token source dialect.version levels).Restores (token.encodeWith form) token
      token.canonical.length := by
  have hmeets := hsource.token levels levels token h
  rw [(Token.tooDeep?_eq_none token).mpr h.height_le] at hmeets
  exact hmeets

/-- Statements come back when they fill the size they are decoded for. -/
theorem statements (hsource : source.Reads dialect form) {size budget : Nat}
    {tokens : List Token} (h : ∀ token ∈ tokens, token.Grammatical dialect Decode.maxDepth)
    (hbudget : tokens.length ≤ budget) (pos : Nat) (suffix : List UInt8) {decoded : Nat}
    (hsize : decoded + (tokens.flatMap Token.canonical).length = size) :
    runFrom ⟨⟨pos, tokens.flatMap (Token.encodeWith form) ++ suffix⟩, decoded⟩
        (Decode.statements source dialect.version size budget) =
      (.ok tokens,
        ⟨⟨pos + (tokens.flatMap (Token.encodeWith form)).length, suffix⟩, size⟩) := by
  induction tokens generalizing budget pos decoded with
  | nil =>
      obtain rfl : decoded = size := by simpa using hsize
      cases budget with
      | zero => rfl
      | succ budget =>
          rw [Decode.statements, runFrom_bind_ok (runFrom_get _), if_neg (Nat.lt_irrefl _)]
          rfl
  | cons first rest ih =>
      obtain ⟨budget, rfl⟩ := Nat.exists_eq_add_of_le' (Nat.le_of_add_left_le hbudget)
      obtain ⟨hfirst, hrest⟩ := List.forall_mem_cons.mp h
      have hpos := first.length_canonical_pos
      rw [List.flatMap_cons, List.length_append] at hsize
      have hfill : decoded + first.canonical.length +
          (rest.flatMap Token.canonical).length = size := by omega
      have hnext := ih hrest (by simpa using hbudget)
        (pos + (first.encodeWith form).length) hfill
      rw [Decode.statements, runFrom_bind_ok (runFrom_get _),
        if_pos (show decoded < size by omega), List.flatMap_cons, List.append_assoc,
        runFrom_bind_ok (hsource.restores hfirst pos _ decoded), runFrom_bind_ok hnext,
        List.length_append, Nat.add_assoc]
      rfl

/-- Statements behind a token that is nested too deep are not reached. -/
theorem statements_tooDeep (hsource : source.Reads dialect form) {size budget place : Nat}
    {before : List Token} {deep : Token}
    (h : ∀ token ∈ before, token.Grammatical dialect Decode.maxDepth)
    (hdeep : deep.WellFormed dialect) (hplace : deep.tooDeep? Decode.maxDepth = some place)
    (hbudget : before.length < budget) (pos : Nat) (suffix : List UInt8) (decoded : Nat)
    (hsize : decoded + (before.flatMap Token.canonical).length < size) :
    ∃ final, runFrom ⟨⟨pos, before.flatMap (Token.encodeWith form) ++
        (deep.encodeWith form ++ suffix)⟩, decoded⟩
        (Decode.statements source dialect.version size budget) =
      (.error (.depthExceeded Decode.maxDepth
        (decoded + (before.flatMap Token.canonical).length + place)), final) := by
  induction before generalizing budget pos decoded with
  | nil =>
      obtain ⟨budget, rfl⟩ := Nat.exists_eq_succ_of_ne_zero (Nat.ne_of_gt hbudget)
      obtain ⟨depth, hgrammar⟩ := hdeep
      have hmeets := hsource.token Decode.maxDepth depth deep hgrammar
      rw [hplace] at hmeets
      obtain ⟨final, hrun⟩ := hmeets pos suffix decoded
      refine ⟨final, ?_⟩
      rw [Decode.statements, runFrom_bind_ok (runFrom_get _),
        if_pos (show decoded < size by simpa using hsize)]
      exact runFrom_bind_error hrun _
  | cons first rest ih =>
      obtain ⟨budget, rfl⟩ := Nat.exists_eq_succ_of_ne_zero (Nat.ne_zero_of_lt hbudget)
      obtain ⟨hfirst, hrest⟩ := List.forall_mem_cons.mp h
      rw [List.flatMap_cons, List.length_append] at hsize
      obtain ⟨final, hrun⟩ := ih hrest (by simpa using hbudget)
        (pos + (first.encodeWith form).length) (decoded + first.canonical.length) (by omega)
      refine ⟨final, ?_⟩
      rw [Decode.statements, runFrom_bind_ok (runFrom_get _),
        if_pos (show decoded < size by omega), List.flatMap_cons, List.append_assoc,
        runFrom_bind_ok (hsource.restores hfirst pos _ decoded), runFrom_bind_error hrun,
        List.flatMap_cons, List.length_append, ← Nat.add_assoc decoded]

end ScriptSource.Reads

end ObjectPackage
