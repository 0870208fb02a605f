/-
Scripts and their canonical form.  A script that was decoded from a package and whose
label tables all ended at one name is decoded from its canonical form to itself, and
the walk over that form lists the tokens of its trees in the order of their bytes.
-/
import ObjectPackage.Proofs.Script.Replay

namespace ObjectPackage

namespace Read

theorem Takes.orExhaust {α : Type} {action : Read α} {input : List UInt8} {value : α}
    (h : action.Takes input value) : (Read.orExhaust action).Takes input value := by
  intro pos rest
  rw [Read.orExhaust, runFrom_tryCatch, h]

theorem takes_blobBytesZ {bytes : List UInt8} (h : 0 ∉ bytes) :
    Takes blobBytesZ (bytes ++ [0]) bytes := by
  intro pos rest
  obtain ⟨htake, hdrop⟩ := takeWhile_append_zero h rest
  rw [List.append_assoc, List.singleton_append, blobBytesZ, runFrom_bind_ok (runFrom_get _)]
  simp [-List.isEmpty_iff, runFrom_map, htake, hdrop, Cursor.advance]

theorem takes_blobUnitsZ {units : List UInt16} (h : 0 ∉ units) :
    Takes blobUnitsZ (units.flatMap Encode.u16 ++ Encode.u16 0) units := by
  intro pos rest
  have hread := takes_unitsZ h pos rest
  simp only [unitsZ, blobUnitsZ, runFrom_bind, runFrom_get] at hread ⊢
  split
  · next hended => rwa [if_pos hended] at hread
  · next hended =>
      rw [if_neg hended] at hread
      cases hread

end Read

/-- A blob reads the canonical form of leaves back. -/
theorem ScriptSource.reads_blob (version : UInt32) (terminator : Option UInt32) :
    (ScriptSource.blob terminator).Reads (.blob version terminator) Leaf.canonical where
  ends := rfl
  byte _ := rfl
  nonempty value := by cases value <;> simp [Leaf.canonical, Encode.i32, Encode.u32, Encode.u8,
    Encode.u16]
  takes := by
    intro value h
    cases value with
    | object reference => exact (Read.takes_i32 reference).orExhaust.map _
    | name id => exact (Read.takes_u32 id).orExhaust.map _
    | byte value => exact (Read.takes_u8 value).orExhaust.map _
    | word value => exact (Read.takes_u16 value).orExhaust.map _
    | long value => exact (Read.takes_u32 value).orExhaust.map _
    | text bytes => exact (Read.takes_blobBytesZ h).map _
    | unicodeText units => exact (Read.takes_blobUnitsZ h).map _

namespace Token

mutual

/-- A record gives the place of the opcode byte of its token. -/
theorem canonical_of_mem_records {offset depth : Nat} {record : TokenRecord} (token : Token)
    (h : record ∈ token.records offset depth) :
    ∃ place, record.offset = offset + place ∧
      token.canonical[place]? = some record.opcode.byte := by
  cases token with
  | node opcode operands =>
      rw [records] at h
      rcases List.mem_cons.mp h with rfl | h
      · exact ⟨0, rfl, rfl⟩
      · obtain ⟨place, hoffset, hbyte⟩ := canonical_of_mem_operandRecords operands h
        exact ⟨place + 1, by omega, hbyte⟩

theorem canonical_of_mem_operandRecords {offset depth : Nat} {record : TokenRecord}
    (operands : List Operand) (h : record ∈ operandRecords offset depth operands) :
    ∃ place, record.offset = offset + place ∧
      (canonicalOperands operands)[place]? = some record.opcode.byte := by
  cases operands with
  | nil => cases h
  | cons operand rest =>
      cases operand with
      | leaf value =>
          obtain ⟨place, hoffset, hbyte⟩ := canonical_of_mem_operandRecords rest h
          refine ⟨value.canonical.length + place, by omega, ?_⟩
          rw [canonicalOperands, List.getElem?_append_right (Nat.le_add_right _ _),
            Nat.add_sub_cancel_left]
          exact hbyte
      | expression token =>
          rw [operandRecords] at h
          rcases List.mem_append.mp h with h | h
          · obtain ⟨place, hoffset, hbyte⟩ := canonical_of_mem_records token h
            refine ⟨place, hoffset, ?_⟩
            rw [canonicalOperands, List.getElem?_append_left]
            · exact hbyte
            · exact (List.getElem?_eq_some_iff.mp hbyte).1
          · obtain ⟨place, hoffset, hbyte⟩ := canonical_of_mem_operandRecords rest h
            refine ⟨token.canonical.length + place, by omega, ?_⟩
            rw [canonicalOperands, List.getElem?_append_right (Nat.le_add_right _ _),
              Nat.add_sub_cancel_left]
            exact hbyte

end

theorem canonical_of_mem_recordsFrom {offset : Nat} {record : TokenRecord} {tokens : List Token}
    (h : record ∈ recordsFrom offset tokens) :
    ∃ place, record.offset = offset + place ∧
      (tokens.flatMap canonical)[place]? = some record.opcode.byte := by
  induction tokens generalizing offset with
  | nil => cases h
  | cons token rest ih =>
      rw [recordsFrom] at h
      rcases List.mem_append.mp h with h | h
      · obtain ⟨place, hoffset, hbyte⟩ := canonical_of_mem_records token h
        refine ⟨place, hoffset, ?_⟩
        rw [List.flatMap_cons, List.getElem?_append_left]
        · exact hbyte
        · exact (List.getElem?_eq_some_iff.mp hbyte).1
      · obtain ⟨place, hoffset, hbyte⟩ := ih h
        refine ⟨token.canonical.length + place, by omega, ?_⟩
        rw [List.flatMap_cons, List.getElem?_append_right (Nat.le_add_right _ _),
          Nat.add_sub_cancel_left]
        exact hbyte

end Token

namespace Script

variable {source : ScriptSource} {version : UInt32} {size : Nat} {script : Script}

/-- Names that ended the label tables of a script, in byte order. -/
def tableEnds (script : Script) : List UInt32 :=
  Token.tableEndsIn (script.statements.map .expression)

theorem getLast?_tableEnds (script : Script) : script.tableEnds.getLast? = script.terminator? :=
  Token.getLast?_tableEndsIn _

/-- Outcome of a decode in terms of its statements. -/
theorem runFrom_decodeFrom (source : ScriptSource) (version : UInt32) (size : Nat)
    (state : DecodeState) :
    runFrom state (decodeFrom source version size) =
      match runFrom state
        (Decode.statements source version size (state.cursor.rest.length + 1)) with
      | (.ok statements, final) =>
          if final.decoded = size then (.ok ⟨version, statements⟩, final)
          else (.error (.lengthMismatch size final.decoded), final)
      | (.error (.operand owner offset cause), final) =>
          if cause.isEnd then (.error (.lengthMismatch size final.decoded), final)
          else (.error (.operand owner offset cause), final)
      | (.error error, final) => (.error error, final) := by
  rw [decodeFrom, runFrom_bind_ok (show runFrom state Decode.inputBudget = (.ok _, state) from rfl),
    runFrom_bind, runFrom_tryCatch, runFrom_bind]
  cases runFrom state
    (Decode.statements source version size (state.cursor.rest.length + 1)) with
  | mk outcome final =>
      cases outcome with
      | ok statements =>
          dsimp only
          rw [runFrom_bind_ok (runFrom_get _)]
          by_cases hsize : final.decoded = size
          · rw [if_pos hsize, if_neg (not_not_intro hsize)]
            rfl
          · rw [if_neg hsize, if_pos hsize]
            rfl
      | error error =>
          cases error with
          | operand owner offset cause =>
            cases hend : cause.isEnd with
            | true =>
              simp only [hend, if_true]
              rfl
            | false =>
              simp only [hend]
              rfl
          | _ => rfl

/-- A script comes from statements that end at its declared size. -/
theorem decodeFrom_eq_ok {state final : DecodeState} :
    runFrom state (decodeFrom source version size) = (.ok script, final) ↔
      runFrom state (Decode.statements source version size (state.cursor.rest.length + 1)) =
        (.ok script.statements, final) ∧ final.decoded = size ∧ script.version = version := by
  rw [runFrom_decodeFrom]
  constructor
  · intro h
    split at h
    · next statements middle hstatements =>
        split at h
        · next hsize =>
            obtain ⟨hscript, rfl⟩ := Prod.mk.inj h
            obtain rfl := Except.ok.inj hscript
            exact ⟨hstatements, hsize, rfl⟩
        · cases h
    · split at h <;> cases h
    · cases h
  · rintro ⟨hstatements, hsize, rfl⟩
    rw [hstatements]
    dsimp only
    rw [if_pos hsize]

/-- Statements of a script decoded from a package, and the size they fill. -/
theorem decode_eq_ok {package : Package} {cursor : Cursor} {final : DecodeState}
    (h : cursor.decode (decode package size) = (.ok script, final)) :
    (∀ token ∈ script.statements, token.Grammatical (.package package) Decode.maxDepth) ∧
      script.version = package.version ∧ script.size = size := by
  obtain ⟨hstatements, hsize, hversion⟩ := decodeFrom_eq_ok.mp h
  obtain ⟨hgrammar, hadvance⟩ := (ScriptSource.sound_package package).statements hstatements
  have hlength := hadvance.decoded
  rw [hsize, Nat.zero_add] at hlength
  exact ⟨hgrammar, hversion, hlength.symm⟩

/-- The statements of a script come back from its canonical form when the terminator
given for it ends all its label tables. -/
theorem statements_of_bytes {dialect : Dialect} {terminator : Option UInt32}
    (hgrammar : ∀ token ∈ script.statements, token.Grammatical dialect Decode.maxDepth)
    (hversion : script.version = dialect.version)
    (hends : ∀ last ∈ script.tableEnds, terminator = some last) :
    runFrom ⟨Cursor.ofBytes script.bytes, 0⟩
        (Decode.statements (.blob terminator) script.version script.size
          (script.bytes.length + 1)) =
      (.ok script.statements, ⟨⟨script.size, []⟩, script.size⟩) := by
  have hreads := ScriptSource.reads_blob script.version terminator
  have hbytes : script.statements.flatMap (Token.encodeWith Leaf.canonical) = script.bytes := by
    rw [funext Token.encodeWith_canonical, bytes]
  have hblob : ∀ token ∈ script.statements,
      token.Grammatical (.blob script.version terminator) Decode.maxDepth := by
    intro token htoken
    refine (hgrammar token htoken).retarget hversion (fun _ _ => trivial) fun last hlast id => ?_
    have hmem : last ∈ script.tableEnds :=
      Token.mem_tableEndsIn (List.mem_map_of_mem htoken) hlast
    simp [Dialect.blob, hends last hmem]
  have hbudget : script.statements.length ≤ script.bytes.length + 1 :=
    Nat.le_succ_of_le (Token.length_le_canonical script.statements)
  have hrun := hreads.statements hblob hbudget 0 [] (Nat.zero_add script.bytes.length)
  rw [hbytes, List.append_nil, Nat.zero_add] at hrun
  exact hrun

/-- A decoded script is decoded again from its canonical form, and the walk over it
lists the tokens of its trees, each with the offset of its opcode byte. -/
theorem decode_canonical_walk {package : Package} {cursor : Cursor} {size : Nat}
    {script : Script} {final : DecodeState} {last : UInt32}
    (hdecode : cursor.decode (decode package size) = (.ok script, final))
    (hends : ∀ id ∈ script.tableEnds, id = last) :
    (Cursor.ofBytes script.bytes).decode
        (decodeFrom (.blob (some last)) package.version script.size) =
      (.ok script, ⟨⟨script.size, []⟩, script.size⟩) ∧
    script.walk = .ok (Token.recordsFrom 0 script.statements) ∧
    ∀ record ∈ Token.recordsFrom 0 script.statements,
      script.bytes[record.offset]? = some record.opcode.byte := by
  obtain ⟨hgrammar, hversion, -⟩ := decode_eq_ok hdecode
  refine ⟨?_, ?_, ?_⟩
  · refine decodeFrom_eq_ok.mpr ⟨?_, rfl, hversion⟩
    rw [← hversion]
    exact statements_of_bytes hgrammar hversion fun id hid => by rw [hends id hid]
  · have hterminator : ∀ id ∈ script.tableEnds, script.terminator? = some id := by
      intro id hid
      rw [← getLast?_tableEnds]
      have hlast := List.getLast_mem (List.ne_nil_of_mem hid)
      rw [List.getLast?_eq_some_getLast (List.ne_nil_of_mem hid), hends _ hlast, hends id hid]
    have hrun := statements_of_bytes hgrammar hversion hterminator
    have hwalk : (Cursor.ofBytes script.bytes).decode (do
        Decode.statements (.blob script.terminator?) script.version script.size
          (← Decode.inputBudget)) = (.ok script.statements, ⟨⟨script.size, []⟩, script.size⟩) := hrun
    rw [walk, hwalk]
  · intro record hrecord
    obtain ⟨place, hplace, hbyte⟩ := Token.canonical_of_mem_recordsFrom hrecord
    rw [hplace, Nat.zero_add]
    exact hbyte

end Script

namespace LabelledState

def package : Package := ⟨60, ⟨["None", "Begin"]⟩, default⟩

/-- A table with a label and its terminator, a discarded text and a stop. -/
def input : List UInt8 :=
  [0x0c, 1, 5, 0, 0, 0, 0, 0, 0, 0, 0, 0x0e, 0x1f, 65, 0, 0x08]

def script : Script where
  version := 60
  statements :=
    [.node .labelTable
      [.leaf (.name 1), .leaf (.long 5), .leaf (.name 0), .leaf (.long 0)],
      .node .eatString [.expression (.node .stringConst [.leaf (.text [65])])],
      .node .stop []]

theorem script_walk :
    (Cursor.ofBytes input).decode (Script.decode package 22) = (.ok script, ⟨⟨16, []⟩, 22⟩) ∧
      script.walk = .ok (Token.recordsFrom 0 script.statements) := by
  have hdecode : (Cursor.ofBytes input).decode (Script.decode package 22) =
      (.ok script, ⟨⟨16, []⟩, 22⟩) := by rfl
  have htable : script.tableEnds = [0] := rfl
  have hends : ∀ id ∈ script.tableEnds, id = 0 := by
    simp [htable]
  exact ⟨hdecode, (Script.decode_canonical_walk hdecode hends).2.1⟩

end LabelledState

end ObjectPackage
