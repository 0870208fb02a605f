/-
Scripts that are cut off.  A script is decoded from bytes that are enough wherever they
stand; cut anywhere, they end inside an operand.  That is reported as a wrong length, save
where the cut is in a text: there the text is reported, which lacks its terminator.
-/
import ObjectPackage.Proofs.Script.Walk
import ObjectPackage.Proofs.Stream.Delimit

namespace ObjectPackage

/-- A text constant and where its bytes start. -/
structure TextSpan where
  start : Nat
  text : Leaf

namespace TextSpan

variable {span : TextSpan} {input more : List UInt8} {cut count : Nat}

/-- A cut falls on the text or in front of its terminator. -/
def Covers (span : TextSpan) (cut : Nat) : Prop :=
  span.start ≤ cut ∧ cut < span.start + span.text.wire.length

/-- The bytes of the text stand there in the input. -/
def In (span : TextSpan) (input : List UInt8) : Prop :=
  span.text.wire <+: input.drop span.start

def shift (count : Nat) (span : TextSpan) : TextSpan :=
  { span with start := count + span.start }

theorem In.append (h : span.In input) (more : List UInt8) : span.In (input ++ more) := by
  rw [In, List.drop_append]
  exact h.trans (List.prefix_append _ _)

theorem In.shift (h : span.In more) (input : List UInt8) :
    (span.shift input.length).In (input ++ more) := by
  rw [In, TextSpan.shift, List.drop_length_add_append]
  exact h

theorem In.lt_of_covers (h : span.In input) (hcovers : span.Covers cut) : cut < input.length := by
  have hlength := h.length_le
  obtain ⟨hstart, hend⟩ := hcovers
  rw [List.length_drop] at hlength
  omega

theorem covers_shift : (span.shift count).Covers (count + cut) ↔ span.Covers cut := by
  simp only [Covers, shift]
  omega

theorem not_covers_shift (h : cut < count) : ¬ (span.shift count).Covers cut := by
  simp only [Covers, shift]
  omega

end TextSpan

/-- Texts that a leaf holds. -/
def Leaf.texts : Leaf → List Leaf
  | .text bytes => [.text bytes]
  | .unicodeText units => [.unicodeText units]
  | _ => []

/-- The text of a leaf fills the bytes of the leaf. -/
def Leaf.spans (value : Leaf) : List TextSpan :=
  value.texts.map (TextSpan.mk 0)

theorem Leaf.map_spans (value : Leaf) : value.spans.map TextSpan.text = value.texts := by
  rw [Leaf.spans, List.map_map]
  exact List.map_id _

namespace Token

mutual

/-- Text constants of a token, in byte order. -/
def texts : Token → List Leaf
  | node _ operands => textsIn operands

def textsIn : List Operand → List Leaf
  | [] => []
  | .leaf value :: rest => value.texts ++ textsIn rest
  | .expression token :: rest => token.texts ++ textsIn rest

end

theorem textsIn_append (first rest : List Operand) :
    textsIn (first ++ rest) = textsIn first ++ textsIn rest := by
  induction first with
  | nil => rfl
  | cons operand first ih =>
      cases operand <;> simp [textsIn, ih]

end Token

/-- Text constants of a script, in byte order. -/
def Script.texts (script : Script) : List Leaf :=
  Token.textsIn (script.statements.map .expression)

/-- Why a read fails whose input is cut: there is no more of it, or the text on which the
cut falls is not terminated. -/
def CutShort (spans : List TextSpan) (pos cut : Nat) (cause : StreamError) : Prop :=
  (cause.isEnd = true ∧ ∀ span ∈ spans, ¬ span.Covers cut) ∨
    ∃ span ∈ spans, span.Covers cut ∧ cause = .unterminatedString (pos + span.start)

namespace CutShort

variable {spans more : List TextSpan} {pos cut count : Nat} {cause : StreamError}

/-- What comes behind the cut does not matter. -/
theorem append (h : CutShort spans pos cut cause) (hcut : cut < count) (more : List TextSpan) :
    CutShort (spans ++ more.map (TextSpan.shift count)) pos cut cause := by
  rcases h with ⟨hend, hnone⟩ | ⟨span, hspan, hcovers⟩
  · refine Or.inl ⟨hend, fun span hspan => ?_⟩
    rcases List.mem_append.mp hspan with hspan | hspan
    · exact hnone span hspan
    · obtain ⟨later, -, rfl⟩ := List.mem_map.mp hspan
      exact TextSpan.not_covers_shift hcut
  · exact Or.inr ⟨span, List.mem_append_left _ hspan, hcovers⟩

/-- Texts in front of the cut end there. -/
theorem shift (h : CutShort more (pos + count) cut cause)
    (hfront : ∀ span ∈ spans, ∀ place, span.Covers place → place < count) :
    CutShort (spans ++ more.map (TextSpan.shift count)) pos (count + cut) cause := by
  rcases h with ⟨hend, hnone⟩ | ⟨span, hspan, hcovers, hcause⟩
  · refine Or.inl ⟨hend, fun span hspan hcovers => ?_⟩
    rcases List.mem_append.mp hspan with hspan | hspan
    · have hlt := hfront span hspan _ hcovers
      omega
    · obtain ⟨later, hlater, rfl⟩ := List.mem_map.mp hspan
      exact hnone later hlater (TextSpan.covers_shift.mp hcovers)
  · refine Or.inr ⟨span.shift count, ?_, TextSpan.covers_shift.mpr hcovers, ?_⟩
    · exact List.mem_append_right _ (List.mem_map_of_mem hspan)
    · rw [hcause, TextSpan.shift, Nat.add_assoc]

end CutShort

/-- From one cursor to the other the bytes were taken that a read delimits, with texts at
these places. -/
def Read.Cuts {α : Type} (action : Read α) (cursor : Cursor) (value : α) (spans : List TextSpan)
    (next : Cursor) : Prop :=
  ∃ used, cursor.rest = used ++ next.rest ∧ next.pos = cursor.pos + used.length ∧
    (∀ span ∈ spans, span.In used) ∧ action.Takes used value ∧
    ∀ cut < used.length, ∀ pos, ∃ cause stop,
      runFrom ⟨pos, used.take cut⟩ action = (.error cause, stop) ∧ CutShort spans pos cut cause

namespace Read

variable {α β : Type} {action : Read α} {cursor next : Cursor} {value : α}

theorem Cuts.of_map {f : α → β} {spans : List TextSpan} (hf : Function.Injective f)
    (h : (f <$> action).Cuts cursor (f value) spans next) :
    action.Cuts cursor value spans next := by
  obtain ⟨used, hused, hpos, hspans, htakes, hcut⟩ := h
  refine ⟨used, hused, hpos, hspans, fun pos rest => ?_, fun cut hlt pos => ?_⟩
  · obtain ⟨found, hrun, hfound⟩ := runFrom_map_eq_ok.mp (htakes pos rest)
    rwa [hf hfound] at hrun
  · obtain ⟨cause, stop, hrun, hshort⟩ := hcut cut hlt pos
    exact ⟨cause, stop, runFrom_map_eq_error.mp hrun, hshort⟩

theorem Delimits.cuts (h : Delimits action action)
    (hrun : runFrom cursor action = (.ok value, next)) : action.Cuts cursor value [] next := by
  obtain ⟨used, hused, hpos, htakes, hshort⟩ := h hrun
  refine ⟨used, hused, hpos, by simp, htakes, fun cut hcut pos => ?_⟩
  obtain ⟨cause, stop, hfail, hend⟩ := hshort cut hcut pos
  exact ⟨cause, stop, hfail, Or.inl ⟨hend, by simp⟩⟩

/-- A read of one text, which fails without its terminator. -/
theorem cuts_text {text : Leaf} (hused : cursor.rest = text.wire ++ next.rest)
    (hpos : next.pos = cursor.pos + text.wire.length) (htakes : action.Takes text.wire value)
    (hcut : ∀ cut < text.wire.length, ∀ pos, ∃ stop,
      runFrom ⟨pos, text.wire.take cut⟩ action = (.error (.unterminatedString pos), stop)) :
    action.Cuts cursor value [⟨0, text⟩] next := by
  refine ⟨text.wire, hused, hpos, ?_, htakes, fun cut hlt pos => ?_⟩
  · intro span hspan
    obtain rfl := List.mem_singleton.mp hspan
    exact List.prefix_rfl
  · obtain ⟨stop, hfail⟩ := hcut cut hlt pos
    refine ⟨.unterminatedString pos, stop, hfail, Or.inr ⟨_, List.mem_singleton_self _, ?_, rfl⟩⟩
    exact ⟨Nat.zero_le cut, by rwa [Nat.zero_add]⟩

end Read

/-- A source whose leaves are self-delimiting, but for texts without their terminator. -/
def ScriptSource.Delimits (source : ScriptSource) : Prop :=
  ∀ ⦃kind cursor value next⦄, runFrom cursor (source.leaf kind) = (.ok value, next) →
    (source.leaf kind).Cuts cursor value value.spans next

namespace ScriptSource

theorem delimits_package (names : NameTable) : (ScriptSource.package names).Delimits := by
  intro kind cursor value next h
  have hread {α : Type} {action : Read α} (make : α → Leaf) (hspans : ∀ value, (make value).spans = [])
      (haction : Read.Delimits action action)
      (h : runFrom cursor (make <$> action) = (.ok value, next)) :
      (make <$> action).Cuts cursor value value.spans next := by
    obtain ⟨found, -, rfl⟩ := runFrom_map_eq_ok.mp h
    rw [hspans]
    exact (haction.map make).cuts h
  cases kind with
  | object => exact hread Leaf.object (fun _ => rfl) Read.delimits_index h
  | name => exact hread Leaf.name (fun _ => rfl) ((Read.delimits_name names).map _) h
  | byte => exact hread Leaf.byte (fun _ => rfl) Read.delimits_u8 h
  | word => exact hread Leaf.word (fun _ => rfl) Read.delimits_u16 h
  | long => exact hread Leaf.long (fun _ => rfl) Read.delimits_u32 h
  | text =>
      obtain ⟨bytes, hbytes, rfl⟩ := runFrom_map_eq_ok.mp h
      obtain ⟨hzero, hused, hpos⟩ := Read.bytesZ_splits hbytes
      refine Read.cuts_text hused hpos ((Read.takes_bytesZ hzero).map Leaf.text) fun cut hcut pos => ?_
      obtain ⟨stop, hfail⟩ := Read.bytesZ_cut hzero hcut pos
      exact ⟨stop, runFrom_map_eq_error.mpr hfail⟩
  | unicodeText =>
      obtain ⟨units, hunits, rfl⟩ := runFrom_map_eq_ok.mp h
      obtain ⟨hzero, hused, hpos⟩ := Read.unitsZ_splits hunits
      refine Read.cuts_text hused hpos ((Read.takes_unitsZ hzero).map Leaf.unicodeText)
        fun cut hcut pos => ?_
      obtain ⟨stop, hfail⟩ := Read.unitsZ_cut hzero hcut pos
      exact ⟨stop, runFrom_map_eq_error.mpr hfail⟩

end ScriptSource

namespace Decode

variable {α β : Type}

/-- At this count of decoded bytes the action takes the input to the value, and fails where
the input is cut, both as long as what is there of it is shorter than a limit. -/
structure Delimits (action : Decode α) (decoded : Nat) (input : List UInt8) (value : α)
    (counted : Nat) (spans : List TextSpan) (limit : Nat) : Prop where
  takes : input.length < limit → ∀ pos rest,
    runFrom ⟨⟨pos, input ++ rest⟩, decoded⟩ action =
      (.ok value, ⟨⟨pos + input.length, rest⟩, counted⟩)
  breaks : ∀ cut < input.length, cut < limit → ∀ pos, ∃ owner offset cause stop,
    runFrom ⟨⟨pos, input.take cut⟩, decoded⟩ action =
        (.error (.operand owner offset cause), stop) ∧
      CutShort spans pos cut cause

namespace Delimits

variable {action : Decode α} {decoded middle counted limit limit' : Nat} {input more : List UInt8}
  {value : α} {spans spans' : List TextSpan}

theorem zero : Delimits action decoded input value counted spans 0 where
  takes h := absurd h (Nat.not_lt_zero _)
  breaks cut _ h := absurd h (Nat.not_lt_zero cut)

theorem pure : Delimits (Pure.pure value) decoded [] value decoded [] limit where
  takes _ _ _ := rfl
  breaks cut h := absurd h (Nat.not_lt_zero cut)

theorem map (f : α → β) (h : action.Delimits decoded input value counted spans limit) :
    (f <$> action).Delimits decoded input (f value) counted spans limit where
  takes henough pos rest := by rw [runFrom_map, h.takes henough]
  breaks cut hcut henough pos := by
    obtain ⟨owner, offset, cause, stop, hrun, hshort⟩ := h.breaks cut hcut henough pos
    exact ⟨owner, offset, cause, stop, runFrom_map_eq_error.mpr hrun, hshort⟩

/-- The limit of what follows may be lower by the bytes that were taken. -/
theorem bind {next : α → Decode β} {result : β}
    (h : action.Delimits decoded input value middle spans limit)
    (hnext : (next value).Delimits middle more result counted spans' limit')
    (hspans : ∀ span ∈ spans, span.In input) (hlimit : limit ≤ limit' + input.length) :
    (action >>= next).Delimits decoded (input ++ more) result counted
      (spans ++ spans'.map (TextSpan.shift input.length)) limit where
  takes := by
    intro henough pos rest
    rw [List.length_append] at henough
    rw [List.append_assoc, runFrom_bind_ok (h.takes (by omega) pos (more ++ rest)),
      hnext.takes (by omega), List.length_append, Nat.add_assoc]
  breaks := by
    intro cut hcut henough pos
    rw [List.length_append] at hcut
    rw [List.take_append]
    by_cases hfront : cut < input.length
    · obtain ⟨owner, offset, cause, stop, hrun, hshort⟩ := h.breaks cut hfront henough pos
      refine ⟨owner, offset, cause, stop, ?_, hshort.append hfront spans'⟩
      rw [Nat.sub_eq_zero_of_le (Nat.le_of_lt hfront), List.take_zero, List.append_nil]
      exact runFrom_bind_error hrun next
    · obtain ⟨behind, rfl⟩ := Nat.exists_eq_add_of_le (Nat.le_of_not_lt hfront)
      obtain ⟨owner, offset, cause, stop, hrun, hshort⟩ :=
        hnext.breaks behind (by omega) (by omega) (pos + input.length)
      refine ⟨owner, offset, cause, stop, ?_, hshort.shift fun span hspan place hcovers => ?_⟩
      · rw [List.take_of_length_le (Nat.le_add_right _ _), Nat.add_sub_cancel_left]
        exact (runFrom_bind_ok (h.takes (by omega) pos (more.take behind)) next).trans hrun
      · exact (hspans span hspan).lt_of_covers hcovers

end Delimits

/-- From one state to the other these bytes were taken, with texts at these places. -/
structure Took (before : DecodeState) (used : List UInt8) (spans : List TextSpan)
    (after : DecodeState) : Prop where
  rest : before.cursor.rest = used ++ after.cursor.rest
  pos : after.cursor.pos = before.cursor.pos + used.length
  spans : ∀ span ∈ spans, span.In used

theorem Took.trans {before middle after : DecodeState} {used more : List UInt8}
    {spans spans' : List TextSpan} (h : Took before used spans middle)
    (h' : Took middle more spans' after) :
    Took before (used ++ more) (spans ++ spans'.map (TextSpan.shift used.length)) after where
  rest := by rw [h.rest, h'.rest, List.append_assoc]
  pos := by rw [h'.pos, h.pos, List.length_append, Nat.add_assoc]
  spans := by
    intro span hspan
    rcases List.mem_append.mp hspan with hspan | hspan
    · exact (h.spans span hspan).append more
    · obtain ⟨later, hlater, rfl⟩ := List.mem_map.mp hspan
      exact (h'.spans later hlater).shift used

theorem map_text_append (spans spans' : List TextSpan) (count : Nat) :
    (spans ++ spans'.map (TextSpan.shift count)).map TextSpan.text =
      spans.map TextSpan.text ++ spans'.map TextSpan.text := by
  rw [List.map_append, List.map_map]
  rfl

/-- From one state to the other the bytes were taken that a family of actions delimits,
with these texts in them.  The index of an action bounds the input it can be run on. -/
def Cuts (family : Nat → Decode α) (before : DecodeState) (value : α) (texts : List Leaf)
    (after : DecodeState) : Prop :=
  ∃ used spans, Took before used spans after ∧ spans.map TextSpan.text = texts ∧
    ∀ limit, (family limit).Delimits before.decoded used value after.decoded spans limit

namespace Cuts

variable {action : Decode α} {family : Nat → Decode α} {before middle after : DecodeState}
  {value : α} {texts texts' : List Leaf}

theorem pure (value : α) (state : DecodeState) :
    Cuts (fun _ => Pure.pure value) state value [] state :=
  ⟨[], [], ⟨rfl, rfl, by simp⟩, rfl, fun _ => .pure⟩

theorem bind {next : Nat → α → Decode β} {result : β}
    (h : Cuts (fun _ => action) before value texts middle)
    (hnext : Cuts (fun limit => next limit value) middle result texts' after) :
    Cuts (fun limit => action >>= next limit) before result (texts ++ texts') after := by
  obtain ⟨used, spans, htook, rfl, hfirst⟩ := h
  obtain ⟨used', spans', htook', rfl, hsecond⟩ := hnext
  refine ⟨_, _, htook.trans htook', map_text_append spans spans' _, fun limit => ?_⟩
  exact (hfirst limit).bind (hsecond limit) htook.spans (Nat.le_add_right _ _)

/-- A loop goes on with one index less when its step took input. -/
theorem loop {next : Nat → α → Decode β} {result : β} {loop : Nat → Decode β}
    (h : Cuts (fun _ => action) before value texts middle)
    (hless : middle.cursor.rest.length < before.cursor.rest.length)
    (hnext : Cuts (fun limit => next limit value) middle result texts' after)
    (hloop : ∀ limit cursor, runFrom ⟨cursor, before.decoded⟩ (loop (limit + 1)) =
      runFrom ⟨cursor, before.decoded⟩ (action >>= next limit)) :
    Cuts loop before result (texts ++ texts') after := by
  obtain ⟨used, spans, htook, rfl, hfirst⟩ := h
  obtain ⟨used', spans', htook', rfl, hsecond⟩ := hnext
  have hsome : 1 ≤ used.length := by
    rw [htook.rest, List.length_append] at hless
    omega
  refine ⟨_, _, htook.trans htook', map_text_append spans spans' _, fun limit => ?_⟩
  cases limit with
  | zero => exact .zero
  | succ limit =>
      have hboth := (hfirst (limit + 1)).bind (hsecond limit) htook.spans
        (Nat.add_le_add_left hsome limit)
      refine ⟨fun henough pos rest => ?_, fun cut hcut henough pos => ?_⟩
      · rw [hloop]
        exact hboth.takes henough pos rest
      · rw [hloop]
        exact hboth.breaks cut hcut henough pos

/-- A loop that is done takes nothing. -/
theorem done {state : DecodeState} (h : ∀ limit cursor,
    runFrom ⟨cursor, state.decoded⟩ (family (limit + 1)) = (.ok value, ⟨cursor, state.decoded⟩)) :
    Cuts family state value [] state := by
  refine ⟨[], [], ⟨rfl, rfl, by simp⟩, rfl, fun limit => ⟨fun henough pos rest => ?_, ?_⟩⟩
  · cases limit with
    | zero => cases henough
    | succ limit => exact h limit ⟨pos, rest⟩
  · exact fun cut hcut => absurd hcut (Nat.not_lt_zero cut)

theorem map (f : α → β) (h : Cuts family before value texts after) :
    Cuts (fun limit => f <$> family limit) before (f value) texts after := by
  obtain ⟨used, spans, htook, htexts, hfamily⟩ := h
  exact ⟨used, spans, htook, htexts, fun limit => (hfamily limit).map f⟩

theorem of_texts (h : Cuts family before value texts after) (htexts : texts = texts') :
    Cuts family before value texts' after := by
  rwa [← htexts]

/-- The input that is there bounds the index that a loop needs. -/
theorem budget (h : Cuts family before value texts after) :
    Cuts (fun _ => inputBudget >>= family) before value texts after := by
  obtain ⟨used, spans, htook, htexts, hfamily⟩ := h
  refine ⟨used, spans, htook, htexts, fun limit => ⟨fun _ pos rest => ?_, fun cut hcut _ pos => ?_⟩⟩
  · have henough : used.length < (used ++ rest).length + 1 := by
      rw [List.length_append]
      omega
    exact (hfamily _).takes henough pos rest
  · have henough : cut < (used.take cut).length + 1 := by
      rw [List.length_take]
      omega
    exact (hfamily _).breaks cut hcut henough pos

/-- What is decoded so far may be looked at. -/
theorem get {next : Nat → DecodeState → Decode α}
    (h : Cuts (fun limit => next limit before) before value texts after)
    (hnext : ∀ limit cursor, next limit { before with cursor := cursor } = next limit before) :
    Cuts (fun limit => MonadState.get >>= next limit) before value texts after := by
  have hget (limit : Nat) (cursor : Cursor) :
      runFrom ⟨cursor, before.decoded⟩ (MonadState.get >>= next limit) =
        runFrom ⟨cursor, before.decoded⟩ (next limit before) := by
    rw [← hnext limit cursor]
    exact runFrom_bind_ok (runFrom_get _) _
  obtain ⟨used, spans, htook, htexts, hfamily⟩ := h
  refine ⟨used, spans, htook, htexts, fun limit => ⟨fun henough pos rest => ?_, ?_⟩⟩
  · rw [hget]
    exact (hfamily limit).takes henough pos rest
  · intro cut hcut henough pos
    rw [hget]
    exact (hfamily limit).breaks cut hcut henough pos

theorem advance (count : Nat) (state : DecodeState) :
    Cuts (fun _ => Decode.advance count) state () []
      { state with decoded := state.decoded + count } :=
  ⟨[], [], ⟨rfl, rfl, by simp⟩, rfl, fun _ =>
    ⟨fun _ _ _ => rfl, fun cut h => absurd h (Nat.not_lt_zero cut)⟩⟩

end Cuts

theorem Cuts.operand {α : Type} {action : Read α} {owner : String} {before after : DecodeState}
    {value : α} {spans : List TextSpan}
    (haction : ∀ next, runFrom before.cursor action = (.ok value, next) →
      action.Cuts before.cursor value spans next)
    (h : runFrom before (Decode.operand owner action) = (.ok value, after)) :
    Cuts (fun _ => Decode.operand owner action) before value (spans.map TextSpan.text) after := by
  obtain ⟨cursor, hread, rfl⟩ := operand_eq_ok.mp h
  obtain ⟨used, hused, hpos, hspans, htakes, hcut⟩ := haction cursor hread
  refine ⟨used, spans, ⟨hused, hpos, hspans⟩, rfl, fun limit => ⟨?_, ?_⟩⟩
  · exact fun _ pos rest => operand_eq_ok.mpr ⟨_, htakes pos rest, rfl⟩
  · intro cut hlt _ pos
    obtain ⟨cause, stop, hfail, hshort⟩ := hcut cut hlt pos
    refine ⟨owner, before.decoded, cause, ⟨stop, before.decoded⟩, ?_, hshort⟩
    rw [Decode.operand, runFrom_bind_ok (runFrom_get _), Cursor.read_eq, hfail]
    rfl

end Decode

namespace ScriptSource.Delimits

variable {source : ScriptSource} {before after : DecodeState}

theorem leaf (hsource : source.Delimits) {opcode : Opcode} {kind : LeafKind} {value : Leaf}
    (h : runFrom before (Decode.leaf opcode (source.leaf kind)) = (.ok value, after)) :
    Decode.Cuts (fun _ => Decode.leaf opcode (source.leaf kind)) before value value.texts
      after := by
  rw [Decode.leaf] at h
  obtain ⟨found, middle, hoperand, h⟩ := runFrom_bind_eq_ok.mp h
  obtain ⟨⟨⟩, last, hadvance, h⟩ := runFrom_bind_eq_ok.mp h
  obtain ⟨-, rfl⟩ := Prod.mk.inj hadvance
  obtain ⟨hvalue, rfl⟩ := Prod.mk.inj h
  obtain rfl := Except.ok.inj hvalue
  have hcuts := Decode.Cuts.operand (fun _ hread => hsource hread) hoperand
  rw [found.map_spans] at hcuts
  refine (hcuts.bind ?_).of_texts (List.append_nil _)
  exact ((Decode.Cuts.advance _ middle).bind (.pure found _)).of_texts (List.append_nil _)

theorem opcodeByte (hsource : source.Delimits) {owner : String} {byte : UInt8}
    (h : runFrom before (Decode.operand owner source.u8) = (.ok byte, after)) :
    Decode.Cuts (fun _ => Decode.operand owner source.u8) before byte [] after := by
  refine @Decode.Cuts.operand _ _ _ _ _ _ [] (fun next hread => ?_) h
  exact Read.Cuts.of_map (fun _ _ heq => Leaf.byte.inj heq) (hsource (source.leaf_byte hread))

end ScriptSource.Delimits

section Cuts

variable {source : ScriptSource} {dialect : Dialect} {fits : Token → Prop} {before after : DecodeState} {operands : List Operand}

/-- Tokens that a decoder gives were taken from bytes that it delimits. -/
def Decode.CutsTokens (token : Decode Token) : Prop :=
  ∀ {before after result}, runFrom before token = (.ok result, after) →
    Decode.Cuts (fun _ => token) before result result.texts after

namespace ScriptSource.Delimits

theorem labels (hsource : source.Delimits) (hsound : source.Sound dialect) {opcode : Opcode}
    {budget : Nat} (hbudget : before.cursor.rest.length < budget)
    (h : runFrom before (Decode.labels source opcode budget) = (.ok operands, after)) :
    Decode.Cuts (Decode.labels source opcode) before operands (Token.textsIn operands) after := by
  induction budget generalizing before operands with
  | zero => omega
  | succ budget ih =>
      obtain ⟨name, value, middle, later, hname, hvalue, h⟩ := Decode.labels_eq_ok.mp h
      obtain ⟨id, rfl, -, hfirst⟩ := hsound.nameLeaf hname
      obtain ⟨target, rfl, hsecond⟩ := hsound.longLeaf hvalue
      refine (hsource.leaf hname).loop hfirst.used ?_ fun _ _ => rfl
      refine (hsource.leaf hvalue).bind ?_
      dsimp only
      rcases h with ⟨hend, rfl, rfl⟩ | ⟨other, rest, hsame, hend, hrest, rfl⟩
      · simp only [if_pos (hend id rfl)]
        exact .pure _ _
      · obtain rfl := Leaf.name.inj hsame
        have hused := (hfirst.trans hsecond).used
        simp only [hend, Bool.false_eq_true, if_false]
        exact (ih (by omega) hrest).map _

end ScriptSource.Delimits

namespace Decode.CutsTokens

variable {token : Decode Token}

theorem arguments (htoken : token.CutsTokens) (haccepts : token.Accepts fits) {budget : Nat}
    (hbudget : before.cursor.rest.length < budget)
    (h : runFrom before (Decode.arguments token budget) = (.ok operands, after)) :
    Cuts (Decode.arguments token) before operands (Token.textsIn operands) after := by
  induction budget generalizing before operands with
  | zero => omega
  | succ budget ih =>
      obtain ⟨argument, middle, hargument, h⟩ := Decode.arguments_eq_ok.mp h
      have hused := (haccepts hargument).2.used
      rcases h with ⟨hend, rfl, rfl⟩ | ⟨hend, rest, hrest, rfl⟩
      · refine (htoken hargument).loop hused ?_ fun _ _ => rfl
        simp only [if_pos hend]
        exact .pure _ _
      · refine (htoken hargument).loop hused ?_ fun _ _ => rfl
        simp only [if_neg hend]
        exact (ih (by omega) hrest).map _

theorem operandsOf (htoken : token.CutsTokens) (haccepts : token.Accepts fits)
    (hsource : source.Delimits) (hsound : source.Sound dialect) {opcode : Opcode}
    {shape : OperandShape}
    (h : runFrom before (Decode.operandsOf source token opcode shape) = (.ok operands, after)) :
    Cuts (fun _ => Decode.operandsOf source token opcode shape) before operands
      (Token.textsIn operands) after := by
  have hexpression {inner : Token} {state : DecodeState}
      (h : runFrom state token = (.ok inner, after)) :
      Cuts (fun _ => token) state inner (Token.textsIn [.expression inner]) after :=
    (htoken h).of_texts (List.append_nil _).symm
  cases Decode.operandsOf_eq_ok.mp h with
  | leaf hvalue =>
      rw [Decode.operandsOf_leaf]
      exact ((hsource.leaf hvalue).map _).of_texts (List.append_nil _).symm
  | expression hinner => exact (hexpression hinner).map _
  | lastCase htarget => exact (hsource.leaf htarget).bind (.pure _ _)
  | caseOf htarget hmore hinner =>
      obtain ⟨target, rfl, -⟩ := hsound.wordLeaf htarget
      refine (hsource.leaf htarget).bind ?_
      simp only [if_neg hmore]
      exact (hexpression hinner).map _
  | arguments h => exact (htoken.arguments haccepts (Nat.lt_succ_self _) h).budget
  | labels h => exact (hsource.labels hsound (Nat.lt_succ_self _) h).budget

theorem operandsAll (htoken : token.CutsTokens) (haccepts : token.Accepts fits)
    (hsource : source.Delimits) (hsound : source.Sound dialect) {opcode : Opcode}
    {shapes : List OperandShape}
    (h : runFrom before (Decode.operandsAll source token opcode shapes) =
      (.ok operands, after)) :
    Cuts (fun _ => Decode.operandsAll source token opcode shapes) before operands
      (Token.textsIn operands) after := by
  induction shapes generalizing before operands with
  | nil =>
      obtain ⟨hresult, rfl⟩ := Prod.mk.inj h
      obtain rfl := Except.ok.inj hresult
      exact .pure _ _
  | cons shape shapes ih =>
      obtain ⟨first, middle, rest, hfirst, hrest, rfl⟩ := Decode.operandsAll_eq_ok.mp h
      rw [Decode.operandsAll, Token.textsIn_append]
      exact (htoken.operandsOf haccepts hsource hsound hfirst).bind ((ih hrest).map _)

end Decode.CutsTokens

namespace ScriptSource.Delimits

theorem token (hsource : source.Delimits) (hsound : source.Sound dialect) (levels : Nat) :
    (Decode.token source dialect.version levels).CutsTokens := by
  induction levels with
  | zero =>
      intro before after result h
      cases h
  | succ levels ih =>
      intro before after result h
      obtain ⟨byte, cursor, opcode, operands, hread, hopcode, hoperands, rfl⟩ :=
        Decode.token_eq_ok.mp h
      have hbyte : runFrom before (Decode.operand "opcode" source.u8) =
          (.ok byte, { before with cursor := cursor }) :=
        Decode.operand_eq_ok.mpr ⟨cursor, hread, rfl⟩
      have hrest := Decode.CutsTokens.operandsAll ih (hsound.token levels) hsource hsound hoperands
      rw [Decode.token]
      refine .get ?_ fun _ _ => rfl
      refine (hsource.opcodeByte hbyte).bind ?_
      simp only [hopcode]
      exact (Decode.Cuts.advance 1 _).bind (hrest.map _)

theorem statements (hsource : source.Delimits) (hsound : source.Sound dialect) {size budget : Nat}
    {result : List Token} (hbudget : before.cursor.rest.length < budget)
    (h : runFrom before (Decode.statements source dialect.version size budget) =
      (.ok result, after)) :
    Decode.Cuts (Decode.statements source dialect.version size) before result
      (Token.textsIn (result.map .expression)) after := by
  induction budget generalizing before result with
  | zero => omega
  | succ budget ih =>
      rcases Decode.statements_eq_ok.mp h with
        ⟨hfilled, rfl, rfl⟩ | ⟨hmissing, first, middle, rest, hfirst, hrest, rfl⟩
      · refine .done fun limit cursor => ?_
        rw [Decode.statements, runFrom_bind_ok (runFrom_get _), if_neg (Nat.not_lt.mpr hfilled)]
        rfl
      · have hused := (hsound.token Decode.maxDepth hfirst).2.used
        have hloop (limit : Nat) (cursor : Cursor) :
            runFrom ⟨cursor, before.decoded⟩
                (Decode.statements source dialect.version size (limit + 1)) =
              runFrom ⟨cursor, before.decoded⟩
                (Decode.token source dialect.version Decode.maxDepth >>= fun first =>
                  (first :: ·) <$> Decode.statements source dialect.version size limit) := by
          rw [Decode.statements, runFrom_bind_ok (runFrom_get _), if_pos hmissing]
          rfl
        refine (hsource.token hsound Decode.maxDepth hfirst).loop hused ?_ hloop
        exact (ih (by omega) hrest).map _

end ScriptSource.Delimits

end Cuts

/-- The bytes that a script is decoded from are decoded to it wherever they stand. -/
theorem Script.decode_anywhere {package : Package} {cursor : Cursor} {size : Nat} {script : Script}
    {final : DecodeState} (h : cursor.decode (decode package size) = (.ok script, final)) :
    ∃ used, cursor.rest = used ++ final.cursor.rest ∧ ∀ pos suffix,
      (Cursor.mk pos (used ++ suffix)).decode (decode package size) =
        (.ok script, ⟨⟨pos + used.length, suffix⟩, final.decoded⟩) := by
  obtain ⟨hstatements, hsize, hversion⟩ := decodeFrom_eq_ok.mp h
  obtain ⟨used, spans, htook, -, hcuts⟩ :=
    (ScriptSource.delimits_package package.names).statements (ScriptSource.sound_package package)
      (Nat.lt_succ_self _) hstatements
  refine ⟨used, htook.rest, fun pos suffix => decodeFrom_eq_ok.mpr ⟨?_, hsize, hversion⟩⟩
  refine (hcuts _).takes (Nat.lt_succ_of_le ?_) pos suffix
  simp only [List.length_append]
  exact Nat.le_add_right _ _

/-- Truncated scripts.  The bytes that a script is decoded from hold its texts at certain
places.  Cut anywhere, they are decoded to an error: a wrong length unless the cut is in a
text, and otherwise the failure to find the end of that text. -/
theorem Script.decode_cut {package : Package} {cursor : Cursor} {size : Nat} {script : Script}
    {final : DecodeState} (h : cursor.decode (decode package size) = (.ok script, final)) :
    ∃ (used : List UInt8) (spans : List TextSpan), cursor.rest = used ++ final.cursor.rest ∧
      final.cursor.pos = cursor.pos + used.length ∧
      spans.map TextSpan.text = script.texts ∧ (∀ span ∈ spans, span.In used) ∧
      ∀ cut < used.length, ∀ pos, ∃ error stop,
        (Cursor.mk pos (used.take cut)).decode (decode package size) = (.error error, stop) ∧
        ((∀ span ∈ spans, ¬ span.Covers cut) ∧ error = .lengthMismatch size stop.decoded ∨
          ∃ span ∈ spans, span.Covers cut ∧ ∃ owner offset,
            error = .operand owner offset (.unterminatedString (pos + span.start))) := by
  obtain ⟨hstatements, -, -⟩ := decodeFrom_eq_ok.mp h
  obtain ⟨used, spans, htook, htexts, hcuts⟩ :=
    (ScriptSource.delimits_package package.names).statements (ScriptSource.sound_package package)
      (Nat.lt_succ_self _) hstatements
  refine ⟨used, spans, htook.rest, htook.pos, htexts, htook.spans, fun cut hcut pos => ?_⟩
  have hbudget : (used.take cut).length + 1 = cut + 1 := by
    rw [List.length_take, Nat.min_eq_left (Nat.le_of_lt hcut)]
  obtain ⟨owner, offset, cause, stop, hrun, hshort⟩ :=
    (hcuts (cut + 1)).breaks cut hcut (Nat.lt_succ_self cut) pos
  have hdecode := runFrom_decodeFrom (.package package.names) package.version size
    ⟨⟨pos, used.take cut⟩, 0⟩
  rw [hbudget] at hdecode
  have hrun' : runFrom ⟨⟨pos, used.take cut⟩, 0⟩ (Decode.statements (.package package.names)
      package.version size (cut + 1)) = (.error (.operand owner offset cause), stop) := hrun
  rw [hrun'] at hdecode
  dsimp only at hdecode
  rcases hshort with ⟨hend, hnone⟩ | ⟨span, hspan, hcovers, rfl⟩
  · refine ⟨.lengthMismatch size stop.decoded, stop, ?_, Or.inl ⟨hnone, rfl⟩⟩
    rwa [if_pos hend] at hdecode
  · exact ⟨.operand owner offset (.unterminatedString (pos + span.start)), stop, hdecode,
      Or.inr ⟨span, hspan, hcovers, owner, offset, rfl⟩⟩

namespace ShortText

def package : Package := ⟨69, ⟨["None"]⟩, default⟩

/-- A text constant of one letter. -/
def input : List UInt8 := [0x1f, 65, 0]

def script : Script where
  version := 69
  statements := [.node .stringConst [.leaf (.text [65])]]

/-- Without its last byte the script is not reported as too short. -/
theorem cut_unterminated :
    (Cursor.ofBytes input).decode (Script.decode package 3) = (.ok script, ⟨⟨3, []⟩, 3⟩) ∧
      ((Cursor.ofBytes (input.take 2)).decode (Script.decode package 3)).1 =
        .error (.operand "StringConst" 1 (.unterminatedString 1)) :=
  ⟨by rfl, by rfl⟩

theorem decode_cut_input :
    (Cursor.ofBytes input).decode (Script.decode package 3) = (.ok script, ⟨⟨3, []⟩, 3⟩) ∧
      ∃ spans : List TextSpan, spans.map TextSpan.text = [.text [65]] ∧ (∀ span ∈ spans, span.In input) ∧
        ∀ cut < 3, ∃ error stop,
          (Cursor.ofBytes (input.take cut)).decode (Script.decode package 3) =
            (.error error, stop) ∧
          ((∀ span ∈ spans, ¬ span.Covers cut) ∧ error = .lengthMismatch 3 stop.decoded ∨
            ∃ span ∈ spans, span.Covers cut ∧ ∃ owner offset,
              error = .operand owner offset (.unterminatedString (0 + span.start))) := by
  have hdecode : (Cursor.ofBytes input).decode (Script.decode package 3) =
      (.ok script, ⟨⟨3, []⟩, 3⟩) := by rfl
  obtain ⟨used, spans, hused, -, htexts, hspans, hcut⟩ := Script.decode_cut hdecode
  obtain rfl : input = used := hused.trans (List.append_nil used)
  exact ⟨hdecode, spans, htexts, hspans, fun cut hlt => hcut cut hlt 0⟩

end ShortText

end ObjectPackage
