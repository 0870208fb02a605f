/-
Progress of decoding.  The declared size, the label tables and the argument lists are all
bounded by the input alone.  The traced decoder notes each token and each label pair that it
meets, and whether a budget ran out before its loop did, so its runs show, successful or
not, that tokens and pairs are paid for with bytes of the input and that no budget is short.
-/
import ObjectPackage.Proofs.Script.Forward

namespace ObjectPackage

/-- What happens while a script is decoded: a token, a label pair with the bytes that it
used up, or the end of a budget. -/
inductive DecodeEvent where
  | token (record : TokenRecord)
  | label (used : Nat)
  | starved
deriving DecidableEq, Repr

namespace DecodeEvent

/-- Bytes of the input that an event stands for, of a token that of its opcode alone. -/
def cost : DecodeEvent → Nat
  | token _ => 1
  | label used => used
  | starved => 0

def record? : DecodeEvent → Option TokenRecord
  | token record => some record
  | _ => none

/-- The tokens among some events. -/
def records (events : List DecodeEvent) : List TokenRecord :=
  events.filterMap record?

/-- A token is nested less deep than the limit, a pair takes five bytes or more, and no
budget runs out. -/
def Fair : DecodeEvent → Prop
  | token record => record.depth < Decode.maxDepth
  | label used => 5 ≤ used
  | starved => False

theorem records_append (events more : List DecodeEvent) :
    records (events ++ more) = records events ++ records more :=
  List.filterMap_append

/-- Every token costs a byte. -/
theorem length_records_le (events : List DecodeEvent) :
    (records events).length ≤ (events.map cost).sum := by
  induction events with
  | nil => exact Nat.le_refl _
  | cons event events ih =>
      cases event <;> simp only [records, record?, cost, List.filterMap_cons, List.map_cons,
        List.sum_cons, List.length_cons] at ih ⊢ <;> omega

end DecodeEvent

namespace DecodeState

/-- The events of a run are fair, the input paid for all of them, and every token added to
the output. -/
structure Account (before : DecodeState) (events : List DecodeEvent) (after : DecodeState) :
    Prop where
  fair : ∀ event ∈ events, event.Fair
  used : (events.map DecodeEvent.cost).sum + after.cursor.rest.length ≤
    before.cursor.rest.length
  decoded : before.decoded + (DecodeEvent.records events).length ≤ after.decoded

theorem Reaches.account {before after : DecodeState} (h : before.Reaches after) :
    before.Account [] after where
  fair := by simp
  used := by simpa using h.1.length_le
  decoded := h.2

theorem accounts : Accounts Account where
  refl state := (refl_of Reaches state).account
  trans := by
    intro first middle last events more h h'
    refine ⟨?_, ?_, ?_⟩
    · exact List.forall_mem_append.mpr ⟨h.fair, h'.fair⟩
    · have hused := h.used
      have hused' := h'.used
      rw [List.map_append, List.sum_append]
      omega
    · have hdecoded := h.decoded
      have hdecoded' := h'.decoded
      rw [DecodeEvent.records_append, List.length_append]
      omega

theorem Account.length_records_le {before after : DecodeState} {events : List DecodeEvent}
    (h : before.Account events after) :
    (DecodeEvent.records events).length + after.cursor.rest.length ≤
      before.cursor.rest.length := by
  have hcost := DecodeEvent.length_records_le events
  have hused := h.used
  omega

end DecodeState

namespace Decode

/-- The opcode of a token, which is where the token is met. -/
def head (source : ScriptSource) : Decode Opcode := do
  let offset := (← get).decoded
  let byte ← operand "opcode" source.u8
  match Opcode.ofByte? byte with
  | none => throw (.unknownOpcode byte offset)
  | some opcode =>
      advance 1
      return opcode

theorem token_succ (source : ScriptSource) (version : UInt32) (levels : Nat) :
    token source version (levels + 1) = (do
      let opcode ← head source
      let operands ←
        operandsAll source (token source version levels) opcode (opcode.operands version)
      return .node opcode operands) := by
  rw [token, head]
  simp only [bind_assoc]
  congr 1
  funext state
  congr 1
  funext byte
  cases Opcode.ofByte? byte with
  | none => rfl
  | some opcode => simp only [bind_assoc, pure_bind]

/-- One entry of a label table. -/
def label (source : ScriptSource) (opcode : Opcode) : Decode (Leaf × Leaf) := do
  let name ← leaf opcode (Leaf.name <$> source.name)
  let value ← leaf opcode (Leaf.long <$> source.u32)
  return (name, value)

theorem labels_succ (source : ScriptSource) (opcode : Opcode) (budget : Nat) :
    labels source opcode (budget + 1) = (do
      let pair ← label source opcode
      let operands := [.leaf pair.1, .leaf pair.2]
      match pair.1 with
      | .name id =>
          if source.isTerminator id then return operands
          else return operands ++ (← labels source opcode budget)
      | _ => return operands) := by
  rw [labels, label]
  simp only [bind_assoc, pure_bind] <;> rfl

end Decode

namespace Script

/-- The script of some statements, if they have the declared size. -/
def finish (version : UInt32) (size : Nat) (statements : List Token) : Decode Script := do
  let decoded := (← get).decoded
  if decoded = size then return ⟨version, statements⟩
  else throw (.lengthMismatch size decoded)

/-- Input that ends in an operand is reported as a wrong length. -/
def report (size decoded : Nat) : ScriptError → ScriptError
  | .operand owner offset cause =>
      if cause.isEnd then .lengthMismatch size decoded else .operand owner offset cause
  | error => error

theorem decodeFrom_eq (source : ScriptSource) (version : UInt32) (size : Nat) :
    decodeFrom source version size = (do
      let budget ← Decode.inputBudget
      tryCatch (do finish version size (← Decode.statements source version size budget))
        fun error => do throw (report size (← get).decoded error)) := by
  refine runFrom_ext fun state => ?_
  rw [runFrom_decodeFrom,
    runFrom_bind_ok (show runFrom state Decode.inputBudget = (.ok _, state) from rfl),
    runFrom_tryCatch, runFrom_bind]
  cases runFrom state
    (Decode.statements source version size (state.cursor.rest.length + 1)) with
  | mk outcome final =>
      cases outcome with
      | ok statements =>
          dsimp only
          rw [finish, runFrom_bind_ok (runFrom_get _)]
          dsimp only
          split <;> rfl
      | error error =>
          cases error with
          | operand owner offset cause =>
              dsimp only
              rw [runFrom_bind_ok (runFrom_get _), runFrom_throw, report]
              split <;> rfl
          | _ => rfl

theorem moves_finish (version : UInt32) (size : Nat) (statements : List Token) :
    Moves DecodeState.Reaches (finish version size statements) := by
  refine Moves.get.bind fun state => ?_
  dsimp only
  split
  · exact .pure _
  · exact .throw _

end Script

/-- The decoding that a walk consists of. -/
def Script.redecode (script : Script) : Decode (List Token) := do
  Decode.statements (.blob script.terminator?) script.version script.size (← Decode.inputBudget)

abbrev DecodeTrace := Trace DecodeEvent ScriptError DecodeState

namespace DecodeTrace

open Trace (noting silent)

variable {α : Type}

/-- The end of a budget. -/
def starved : DecodeTrace (List α) :=
  noting (pure []) fun _ _ _ => [.starved]

def leaf (source : ScriptSource) (opcode : Opcode) (kind : LeafKind) :
    DecodeTrace (List Operand) :=
  silent ((fun value => [.leaf value]) <$> Decode.leaf opcode (source.leaf kind))

def labels (source : ScriptSource) (opcode : Opcode) : Nat → DecodeTrace (List Operand)
  | 0 => starved
  | budget + 1 => do
      let pair ← noting (Decode.label source opcode) fun _ before after =>
        [.label (before.cursor.rest.length - after.cursor.rest.length)]
      let operands := [.leaf pair.1, .leaf pair.2]
      match pair.1 with
      | .name id =>
          if source.isTerminator id then return operands
          else return operands ++ (← labels source opcode budget)
      | _ => return operands

def arguments (token : DecodeTrace Token) : Nat → DecodeTrace (List Operand)
  | 0 => starved
  | budget + 1 => do
      let argument ← token
      if argument.opcode = .endParameters then return [.expression argument]
      else return .expression argument :: (← arguments token budget)

def operandsOf (source : ScriptSource) (token : DecodeTrace Token) (opcode : Opcode) :
    OperandShape → DecodeTrace (List Operand)
  | .object => leaf source opcode .object
  | .name => leaf source opcode .name
  | .byte => leaf source opcode .byte
  | .word => leaf source opcode .word
  | .long => leaf source opcode .long
  | .text => leaf source opcode .text
  | .unicodeText => leaf source opcode .unicodeText
  | .expression => return [.expression (← token)]
  | .caseBody => do
      let target ← silent (Decode.leaf opcode (Leaf.word <$> source.u16))
      if target = .word 0xffff then return [.leaf target]
      else return [.leaf target, .expression (← token)]
  | .arguments => do arguments token (← silent Decode.inputBudget)
  | .labels => do labels source opcode (← silent Decode.inputBudget)

def operandsAll (source : ScriptSource) (token : DecodeTrace Token) (opcode : Opcode) :
    List OperandShape → DecodeTrace (List Operand)
  | [] => return []
  | shape :: rest => do
      let first ← operandsOf source token opcode shape
      return first ++ (← operandsAll source token opcode rest)

/-- A token is noted with its depth, which goes up as the levels that are left go down. -/
def token (source : ScriptSource) (version : UInt32) : Nat → Nat → DecodeTrace Token
  | _, 0 => silent (Decode.token source version 0)
  | depth, levels + 1 => do
      let opcode ← noting (Decode.head source) fun opcode before _ =>
        [.token ⟨before.decoded, depth, opcode⟩]
      let operands ← operandsAll source (token source version (depth + 1) levels) opcode
        (opcode.operands version)
      return .node opcode operands

def statements (source : ScriptSource) (version : UInt32) (size : Nat) :
    Nat → DecodeTrace (List Token)
  | 0 => starved
  | budget + 1 => do
      if (← silent get).decoded < size then
        let statement ← token source version 0 Decode.maxDepth
        return statement :: (← statements source version size budget)
      else return []

def script (source : ScriptSource) (version : UInt32) (size : Nat) : DecodeTrace Script := do
  let budget ← silent Decode.inputBudget
  tryCatch
    (do silent (Script.finish version size (← statements source version size budget)))
    fun error => do throw (Script.report size (← silent get).decoded error)

def walk (script : Script) : DecodeTrace (List Token) := do
  statements (.blob script.terminator?) script.version script.size
    (← silent Decode.inputBudget)

end DecodeTrace

/-- The tokens that were met are those of the operands. -/
def DecodeEvent.Shows (start depth : Nat) (operands : List Operand)
    (events : List DecodeEvent) : Prop :=
  records events = Token.operandRecords start depth operands

/-- A traced token decoder that tells the runs of another one, and the tokens in what it
gives. -/
def DecodeTrace.TellsTokens (traced : DecodeTrace Token) (token : Decode Token) (depth : Nat) :
    Prop :=
  ∀ state, Tells DecodeState.Account
    (fun result events => DecodeEvent.records events = result.records state.decoded depth) state
    traced token

namespace ScriptSource.Sound

variable {source : ScriptSource} {dialect : Dialect} {state final : DecodeState}
  {opcode : Opcode}

/-- The opcode of a token takes a byte and gives one. -/
theorem head (hsource : source.Sound dialect)
    (h : runFrom state (Decode.head source) = (.ok opcode, final)) : state.Advances 1 1 final := by
  obtain ⟨start, middle, hstart, h⟩ := runFrom_bind_eq_ok.mp h
  obtain ⟨-, rfl⟩ := Prod.mk.inj hstart
  obtain ⟨byte, middle, hbyte, h⟩ := runFrom_bind_eq_ok.mp h
  obtain ⟨cursor, hread, rfl⟩ := Decode.operand_eq_ok.mp hbyte
  split at h
  · cases h
  · obtain ⟨⟨⟩, later, hadvance, h⟩ := runFrom_bind_eq_ok.mp h
    obtain ⟨-, rfl⟩ := Prod.mk.inj hadvance
    obtain ⟨-, rfl⟩ := Prod.mk.inj h
    exact ⟨rfl, hsource.uses .byte _ _ _ (source.leaf_byte hread)⟩

/-- A label pair takes five bytes or more and gives eight. -/
theorem label (hsource : source.Sound dialect) (hforward : source.Forward) {pair : Leaf × Leaf}
    (h : runFrom state (Decode.label source opcode) = (.ok pair, final)) :
    (∃ id target, pair = (.name id, .long target)) ∧ state.Advances 8 5 final := by
  obtain ⟨name, middle, hname, h⟩ := runFrom_bind_eq_ok.mp h
  obtain ⟨value, later, hvalue, h⟩ := runFrom_bind_eq_ok.mp h
  obtain ⟨hpair, rfl⟩ := Prod.mk.inj h
  obtain rfl := Except.ok.inj hpair
  obtain ⟨id, rfl, -, hfirst⟩ := hsource.nameLeaf hname
  obtain ⟨target, rfl, hsecond⟩ := hsource.longLeaf hvalue
  have hlong : middle.Advances 4 4 later := by
    obtain ⟨cursor, hread, rfl⟩ := Decode.leaf_eq_ok.mp hvalue
    exact ⟨hsecond.decoded, hforward.long.map _ _ _ _ hread⟩
  exact ⟨⟨id, target, rfl⟩, hfirst.trans hlong⟩

end ScriptSource.Sound

namespace ScriptSource.Forward

open DecodeEvent (Shows)

variable {source : ScriptSource} {dialect : Dialect} {state : DecodeState} {opcode : Opcode}
  {depth budget : Nat}

theorem head (hforward : source.Forward) : Moves DecodeState.Reaches (Decode.head source) := by
  refine Moves.get.bind fun start => (Decode.moves_operand hforward.byte).bind fun byte => ?_
  split
  · exact .throw _
  · exact (Decode.moves_advance 1).bind fun _ => .pure _

theorem label (hforward : source.Forward) (opcode : Opcode) :
    Moves DecodeState.Reaches (Decode.label source opcode) :=
  (hforward.moves_leaf opcode .name).bind fun _ =>
    (hforward.moves_leaf opcode .long).bind fun _ => .pure _

/-- The budget of a table does not run out. -/
theorem labels (hforward : source.Forward) (hsource : source.Sound dialect)
    (hbudget : state.cursor.rest.length < budget) :
    Tells DecodeState.Account (Shows state.decoded depth) state
      (DecodeTrace.labels source opcode budget) (Decode.labels source opcode budget) := by
  induction budget generalizing state with
  | zero => omega
  | succ budget ih =>
      rw [DecodeTrace.labels, Decode.labels_succ]
      have hpair : Tells DecodeState.Account (fun _ events => DecodeEvent.records events = [])
          state (Trace.noting (Decode.label source opcode) fun _ before after =>
            [.label (before.cursor.rest.length - after.cursor.rest.length)])
          (Decode.label source opcode) := by
        refine .noting_of_moves (hforward.label opcode) (fun _ h => h.account)
          fun pair after hrun _ => ?_
        obtain ⟨-, hadvance⟩ := hsource.label hforward hrun
        have hused := hadvance.used
        refine ⟨⟨?_, ?_, ?_⟩, rfl⟩
        · exact List.forall_mem_singleton.mpr (Nat.le_sub_of_add_le (by omega))
        · simp only [List.map_cons, List.map_nil, List.sum_singleton, DecodeEvent.cost]
          omega
        · rw [hadvance.decoded]
          exact Nat.le_add_right _ _
      refine hpair.bind DecodeState.accounts fun pair middle events hrun _ hevents => ?_
      obtain ⟨⟨id, target, rfl⟩, hadvance⟩ := hsource.label hforward hrun
      dsimp only
      split
      · refine .pure DecodeState.accounts ?_
        rw [Shows, List.append_nil, hevents]
        rfl
      -- input was used, so the smaller budget covers what is left
      · have hused := hadvance.used
        refine .map DecodeState.accounts (ih (by omega)) fun rest final more _ hmore => ?_
        rw [Shows, DecodeEvent.records_append, hevents, hmore, hadvance.decoded]
        rfl

end ScriptSource.Forward

namespace DecodeTrace.TellsTokens

open DecodeEvent (Shows)

variable {source : ScriptSource} {dialect : Dialect} {traced : DecodeTrace Token}
  {nested : Decode Token} {fits : Token → Prop} {state : DecodeState} {opcode : Opcode}
  {depth budget : Nat}

/-- The budget of a list of arguments does not run out. -/
theorem arguments (htells : traced.TellsTokens nested depth) (haccepts : nested.Accepts fits)
    (hbudget : state.cursor.rest.length < budget) :
    Tells DecodeState.Account (Shows state.decoded depth) state
      (DecodeTrace.arguments traced budget) (Decode.arguments nested budget) := by
  induction budget generalizing state with
  | zero => omega
  | succ budget ih =>
      rw [DecodeTrace.arguments, Decode.arguments]
      refine (htells state).bind DecodeState.accounts fun argument middle events hrun _ hevents => ?_
      obtain ⟨-, hadvance⟩ := haccepts hrun
      split
      · refine .pure DecodeState.accounts ?_
        rw [Shows, List.append_nil, hevents, Token.operandRecords, Token.operandRecords,
          List.append_nil]
      · have hused := hadvance.used
        refine .map DecodeState.accounts (ih (by omega)) fun rest final more _ hmore => ?_
        rw [Shows, DecodeEvent.records_append, hevents, hmore, hadvance.decoded]
        rfl

theorem operandsOf (htells : traced.TellsTokens nested depth) (haccepts : nested.Accepts fits)
    (hforward : source.Forward) (hsource : source.Sound dialect) (shape : OperandShape) :
    Tells DecodeState.Account (Shows state.decoded depth) state
      (DecodeTrace.operandsOf source traced opcode shape)
      (Decode.operandsOf source nested opcode shape) := by
  have hleaf (kind : LeafKind) : Tells DecodeState.Account (Shows state.decoded depth) state
      (DecodeTrace.leaf source opcode kind)
      (Decode.operandsOf source nested opcode kind.shape) := by
    rw [Decode.operandsOf_leaf]
    refine .silent ((hforward.moves_leaf opcode kind).map _ state).account fun operands after hrun => ?_
    obtain ⟨value, -, rfl⟩ := runFrom_map_eq_ok.mp hrun
    rfl
  cases shape with
  | object => exact hleaf .object
  | name => exact hleaf .name
  | byte => exact hleaf .byte
  | word => exact hleaf .word
  | long => exact hleaf .long
  | text => exact hleaf .text
  | unicodeText => exact hleaf .unicodeText
  | expression =>
      refine .map DecodeState.accounts (htells state) fun token middle events _ hevents => ?_
      rw [Shows, hevents, Token.operandRecords, Token.operandRecords, List.append_nil]
  | caseBody =>
      rw [DecodeTrace.operandsOf, Decode.operandsOf]
      have htarget : Tells DecodeState.Account (fun _ events => events = []) state
          (Trace.silent (Decode.leaf opcode (Leaf.word <$> source.u16)))
          (Decode.leaf opcode (Leaf.word <$> source.u16)) :=
        .silent (hforward.moves_leaf opcode .word state).account fun _ _ _ => rfl
      refine htarget.bind DecodeState.accounts fun target middle events hrun _ hevents => ?_
      obtain ⟨word, rfl, hadvance⟩ := hsource.wordLeaf hrun
      split
      · refine .pure DecodeState.accounts ?_
        rw [hevents]
        rfl
      · refine .map DecodeState.accounts (htells middle) fun token last more _ hmore => ?_
        rw [Shows, hevents, List.nil_append, hmore, hadvance.decoded, Token.operandRecords,
          Token.operandRecords, Token.operandRecords, List.append_nil]
  | arguments =>
      exact .after DecodeState.accounts rfl (DecodeState.accounts.refl state)
        (htells.arguments haccepts (Nat.lt_succ_self _))
  | labels =>
      exact .after DecodeState.accounts rfl (DecodeState.accounts.refl state)
        (hforward.labels hsource (Nat.lt_succ_self _))

theorem operandsAll (htells : traced.TellsTokens nested depth) (haccepts : nested.Accepts fits)
    (hforward : source.Forward) (hsource : source.Sound dialect) (shapes : List OperandShape) :
    Tells DecodeState.Account (Shows state.decoded depth) state
      (DecodeTrace.operandsAll source traced opcode shapes)
      (Decode.operandsAll source nested opcode shapes) := by
  induction shapes generalizing state with
  | nil => exact .pure DecodeState.accounts rfl
  | cons shape shapes ih =>
      rw [DecodeTrace.operandsAll, Decode.operandsAll]
      refine (htells.operandsOf haccepts hforward hsource shape).bind DecodeState.accounts
        fun first middle events hrun _ hevents => ?_
      obtain ⟨-, hadvance⟩ := haccepts.operandsOf hsource hrun
      refine .map DecodeState.accounts ih fun rest final more _ hmore => ?_
      rw [Shows, DecodeEvent.records_append, hevents, hmore, hadvance.decoded,
        Token.operandRecords_append]

end DecodeTrace.TellsTokens

namespace ScriptSource.Forward

variable {source : ScriptSource} {dialect : Dialect} {state : DecodeState}

/-- Every token that is met takes a byte and gives one, and lies above the limit. -/
theorem token (hforward : source.Forward) (hsource : source.Sound dialect) {depth levels : Nat}
    (hdepth : depth + levels ≤ Decode.maxDepth) :
    (DecodeTrace.token source dialect.version depth levels).TellsTokens
      (Decode.token source dialect.version levels) depth := by
  induction levels generalizing depth with
  | zero =>
      intro state
      refine .silent (DecodeState.accounts.refl state) fun result after hrun => ?_
      cases hrun
  | succ levels ih =>
      intro state
      rw [DecodeTrace.token, Decode.token_succ]
      have hhead : Tells DecodeState.Account
          (fun opcode events => events = [.token ⟨state.decoded, depth, opcode⟩]) state
          (Trace.noting (Decode.head source) fun opcode before _ =>
            [.token ⟨before.decoded, depth, opcode⟩]) (Decode.head source) := by
        refine .noting_of_moves hforward.head (fun _ h => h.account) fun opcode after hrun _ => ?_
        have hadvance := hsource.head hrun
        have hused := hadvance.used
        refine ⟨⟨?_, ?_, ?_⟩, rfl⟩
        · exact List.forall_mem_singleton.mpr
            (Nat.lt_of_lt_of_le (Nat.lt_add_of_pos_right (Nat.succ_pos levels)) hdepth)
        · simp only [List.map_cons, List.map_nil, List.sum_singleton, DecodeEvent.cost]
          omega
        · exact Nat.le_of_eq hadvance.decoded.symm
      refine hhead.bind DecodeState.accounts fun opcode middle events hrun _ hevents => ?_
      have hnested := @ih (depth + 1) (by omega)
      refine .map DecodeState.accounts (hnested.operandsAll (hsource.token levels) hforward hsource _)
        fun operands final more _ hmore => ?_
      rw [DecodeEvent.records_append, hmore, hevents, (hsource.head hrun).decoded]
      rfl

theorem statements (hforward : source.Forward) (hsource : source.Sound dialect) {size budget : Nat}
    (hbudget : state.cursor.rest.length < budget) :
    Tells DecodeState.Account
      (fun result events => DecodeEvent.records events = Token.recordsFrom state.decoded result)
      state (DecodeTrace.statements source dialect.version size budget)
      (Decode.statements source dialect.version size budget) := by
  induction budget generalizing state with
  | zero => omega
  | succ budget ih =>
      rw [DecodeTrace.statements, Decode.statements]
      refine .after DecodeState.accounts (runFrom_get state) (DecodeState.accounts.refl state) ?_
      split
      · have hfirst := hforward.token hsource (Nat.le_of_eq (Nat.zero_add Decode.maxDepth)) state
        refine hfirst.bind DecodeState.accounts fun first middle events hrun _ hevents => ?_
        obtain ⟨-, hadvance⟩ := hsource.token Decode.maxDepth hrun
        have hused := hadvance.used
        refine .map DecodeState.accounts (ih (by omega)) fun rest final more _ hmore => ?_
        rw [DecodeEvent.records_append, hevents, hmore, hadvance.decoded]
        rfl
      · exact .pure DecodeState.accounts rfl

theorem script (hforward : source.Forward) (hsource : source.Sound dialect) (size : Nat) :
    Tells DecodeState.Account
      (fun script events =>
        DecodeEvent.records events = Token.recordsFrom state.decoded script.statements)
      state (DecodeTrace.script source dialect.version size)
      (Script.decodeFrom source dialect.version size) := by
  have haccount := DecodeState.accounts
  rw [DecodeTrace.script, Script.decodeFrom_eq]
  refine .after haccount rfl (haccount.refl state) (.tryCatch haccount ?_ ?_)
  · refine (hforward.statements hsource (Nat.lt_succ_self _)).bind haccount
      fun statements middle events _ _ hevents => ?_
    refine .silent (Script.moves_finish _ _ _ middle).account fun script final hrun => ?_
    rw [Script.finish, runFrom_bind_ok (runFrom_get _)] at hrun
    dsimp only at hrun
    split at hrun
    · obtain ⟨hscript, -⟩ := Prod.mk.inj hrun
      obtain rfl := Except.ok.inj hscript
      rw [List.append_nil, hevents]
    · cases hrun
  · intro error middle events _
    exact .after haccount (runFrom_get middle) (haccount.refl middle) (.throw haccount _)

theorem walk (script : Script) :
    Tells DecodeState.Account
      (fun result events => DecodeEvent.records events = Token.recordsFrom 0 result)
      ⟨Cursor.ofBytes script.bytes, 0⟩ (DecodeTrace.walk script) script.redecode := by
  have hforward := ScriptSource.forward_blob script.terminator?
  refine .after DecodeState.accounts rfl (DecodeState.accounts.refl _) ?_
  exact hforward.statements (sound_blob script.version _) (Nat.lt_succ_self _)

end ScriptSource.Forward

/-- What the events of a decoding show.  The traced decoder ends as the decoder does, with no
budget run out; tokens are no more than the bytes of the input and no more than those of the
output, and are nested less deep than the limit; label pairs take five bytes each; all of it
is paid for with what the cursor has moved, and the tokens of a success are those given. -/
structure DecodeTrace.Progress {α : Type} (traced : DecodeTrace α) (action : Decode α)
    (tokens : α → List TokenRecord) (cursor : Cursor) (events : List DecodeEvent) : Prop where
  run : runFrom ⟨⟨cursor, 0⟩, []⟩ traced =
    ((cursor.decode action).1, ⟨(cursor.decode action).2, events⟩)
  enough : .starved ∉ events
  length_le_input : (DecodeEvent.records events).length ≤ cursor.rest.length
  length_le_output : (DecodeEvent.records events).length ≤ (cursor.decode action).2.decoded
  depth_lt : ∀ record, .token record ∈ events → record.depth < Decode.maxDepth
  label_le : ∀ used, .label used ∈ events → 5 ≤ used
  paid : (events.map DecodeEvent.cost).sum + (cursor.decode action).2.cursor.rest.length ≤
    cursor.rest.length
  given : ∀ value, (cursor.decode action).1 = .ok value →
    DecodeEvent.records events = tokens value

theorem Tells.progress {α : Type} {traced : DecodeTrace α} {action : Decode α}
    {tokens : α → List TokenRecord} {cursor : Cursor}
    (h : Tells DecodeState.Account (fun value events => DecodeEvent.records events = tokens value)
      ⟨cursor, 0⟩ traced action) :
    ∃ events, traced.Progress action tokens cursor events := by
  obtain ⟨events, hrun, haccount, hgiven⟩ := h
  refine ⟨events, ?_, ?_, ?_, ?_, ?_, ?_, haccount.used, hgiven⟩
  · exact hrun []
  · exact haccount.fair .starved
  · exact Nat.le_trans (Nat.le_add_right _ _) haccount.length_records_le
  · have hdecoded := haccount.decoded
    rwa [Nat.zero_add] at hdecoded
  · exact fun record => haccount.fair (.token record)
  · exact fun used => haccount.fair (.label used)

end ObjectPackage
