/-
Terminators of a script.  A package knows its terminator by the spelling, so label tables
of one script can end at different slots, while the walk knows the last of them alone.  The
walk ends every table where the decoder ended it when all of them ended at that slot, which
a table without repeated spellings cannot miss.
-/
import ObjectPackage.Proofs.NameTable
import ObjectPackage.Proofs.Script.Walk

namespace ObjectPackage

namespace NameTable

variable {table : NameTable}

/-- No two slots are spelled the same, in any case. -/
def Distinct (table : NameTable) : Prop :=
  table.names.Pairwise fun first second => sameName first second = false

/-- At most one slot is spelled as the terminator. -/
def OneNone (table : NameTable) : Prop :=
  ∀ first second, table.isNone first = true → table.isNone second = true → first = second

theorem distinct_initial : initial.Distinct :=
  List.pairwise_singleton _ _

theorem Distinct.intern (h : table.Distinct) (name : String) : (table.intern name).2.Distinct := by
  cases hfind : table.find? name with
  | some id => rwa [intern_of_find?_eq_some hfind]
  | none =>
      have hnone := List.findIdx?_eq_none_iff.mp (Option.map_eq_none_iff.mp hfind)
      rw [intern_of_find?_eq_none hfind]
      refine List.pairwise_append.mpr ⟨h, List.pairwise_singleton _ _, ?_⟩
      intro text htext last hlast
      obtain rfl := List.mem_singleton.mp hlast
      rw [sameName_comm]
      exact hnone text htext

/-- Interning never spells a name twice. -/
theorem Distinct.internAll (h : table.Distinct) (names : List String) :
    (table.internAll names).Distinct := by
  induction names generalizing table with
  | nil => exact h
  | cons name rest ih => exact ih (h.intern name)

theorem Distinct.oneNone (h : table.Distinct) : table.OneNone := by
  intro first second hfirst hsecond
  have hspelled {id : NameId} (hid : table.isNone id = true) :
      ∃ text, table.names[id.index]? = some text ∧ sameName text noneName = true := by
    rw [NameTable.isNone] at hid
    split at hid
    · next text htext => exact ⟨text, htext, hid⟩
    · cases hid
  obtain ⟨text, htext, hsame⟩ := hspelled hfirst
  obtain ⟨other, hother, hsame'⟩ := hspelled hsecond
  obtain ⟨hlt, rfl⟩ := List.getElem?_eq_some_iff.mp htext
  obtain ⟨hlt', rfl⟩ := List.getElem?_eq_some_iff.mp hother
  have hdistinct := List.pairwise_iff_getElem.mp h
  have hindex : first.index = second.index := by
    rcases Nat.lt_trichotomy first.index second.index with hbefore | heq | hafter
    · have hdiffer := hdistinct _ _ hlt hlt' hbefore
      rw [sameName_trans hsame ((sameName_comm _ _).trans hsame')] at hdiffer
      cases hdiffer
    · exact heq
    · have hdiffer := hdistinct _ _ hlt' hlt hafter
      rw [sameName_trans hsame' ((sameName_comm _ _).trans hsame)] at hdiffer
      cases hdiffer
  obtain ⟨first⟩ := first
  obtain ⟨second⟩ := second
  exact congrArg NameId.mk (UInt32.toNat_inj.mp hindex)

/-- Whatever is interned, a new table has one terminator. -/
theorem oneNone_internAll (names : List String) : (initial.internAll names).OneNone :=
  (distinct_initial.internAll names).oneNone

end NameTable

/-- The labels of a table end at a terminator. -/
theorem LabelsFit.ends_of_lastLabel {dialect : Dialect} {operands : List Operand} {id : UInt32}
    (h : LabelsFit dialect operands) (hlast : lastLabel? operands = some id) :
    dialect.ends id = true := by
  obtain ⟨last, hfound, hends⟩ := h.lastLabel
  obtain rfl := Option.some.inj (hfound.symm.trans hlast)
  exact hends

namespace Token

theorem mem_tableEndsIn_iff {operands : List Operand} {id : UInt32} :
    id ∈ tableEndsIn operands ↔ ∃ token, .expression token ∈ operands ∧ id ∈ token.tableEnds := by
  constructor
  · intro h
    induction operands with
    | nil => cases h
    | cons operand rest ih =>
        cases operand with
        | leaf value =>
            obtain ⟨token, htoken, hid⟩ := ih h
            exact ⟨token, List.mem_cons_of_mem _ htoken, hid⟩
        | expression token =>
            rcases List.mem_append.mp h with hid | h
            · exact ⟨token, List.mem_cons_self, hid⟩
            · obtain ⟨inner, hinner, hid⟩ := ih h
              exact ⟨inner, List.mem_cons_of_mem _ hinner, hid⟩
  · rintro ⟨token, htoken, hid⟩
    exact mem_tableEndsIn htoken hid

/-- Label tables of a grammatical token end at terminators of its dialect. -/
theorem Grammatical.ends {dialect : Dialect} {levels : Nat} {token : Token} {id : UInt32}
    (h : token.Grammatical dialect levels) (hid : id ∈ token.tableEnds) :
    dialect.ends id = true := by
  induction levels generalizing token with
  | zero => exact h.elim
  | succ levels ih =>
      obtain ⟨opcode, operands⟩ := token
      obtain ⟨-, hoperands⟩ := h
      rw [tableEnds] at hid
      rcases List.mem_append.mp hid with hlast | hid
      · split at hlast
        · next htable =>
            subst htable
            exact (operandsFit_labels.mp hoperands).ends_of_lastLabel (Option.mem_toList.mp hlast)
        · cases hlast
      · obtain ⟨inner, hinner, hid⟩ := mem_tableEndsIn_iff.mp hid
        exact ih (hoperands.nested_of_mem hinner) hid

mutual

theorem depth_le_of_mem_records {offset depth : Nat} {record : TokenRecord} (token : Token)
    (h : record ∈ token.records offset depth) : depth ≤ record.depth := by
  cases token with
  | node opcode operands =>
      rcases List.mem_cons.mp h with rfl | h
      · exact Nat.le_refl _
      · exact Nat.le_of_succ_le (depth_le_of_mem_operandRecords operands h)

theorem depth_le_of_mem_operandRecords {offset depth : Nat} {record : TokenRecord}
    (operands : List Operand) (h : record ∈ operandRecords offset depth operands) :
    depth ≤ record.depth := by
  cases operands with
  | nil => cases h
  | cons operand rest =>
      cases operand with
      | leaf value => exact depth_le_of_mem_operandRecords rest h
      | expression token =>
          rcases List.mem_append.mp h with h | h
          · exact depth_le_of_mem_records token h
          · exact depth_le_of_mem_operandRecords rest h

end

/-- Of the records of a statement only its own has depth zero. -/
theorem filter_records (offset : Nat) (token : Token) :
    (token.records offset 0).filter (·.depth == 0) = [⟨offset, 0, token.opcode⟩] := by
  obtain ⟨opcode, operands⟩ := token
  have hinner : (operandRecords (offset + 1) 1 operands).filter (·.depth == 0) = [] := by
    refine List.filter_eq_nil_iff.mpr fun record hrecord hdepth => ?_
    have hle := depth_le_of_mem_operandRecords operands hrecord
    rw [beq_iff_eq.mp hdepth] at hle
    exact absurd hle (Nat.not_succ_le_zero 0)
  rw [records, List.filter_cons_of_pos rfl, hinner]
  rfl

theorem filter_recordsFrom (offset : Nat) (tokens : List Token) :
    ((recordsFrom offset tokens).filter (·.depth == 0)).map (·.offset) =
      offsetsFrom offset tokens := by
  induction tokens generalizing offset with
  | nil => rfl
  | cons token rest ih =>
      rw [recordsFrom, List.filter_append, List.map_append, filter_records, ih]
      rfl

end Token

namespace Read

theorem Uses.orExhaust {α : Type} {action : Read α} {count : Nat} (h : action.Uses count) :
    (orExhaust action).Uses count := by
  intro cursor value next hrun
  rw [Read.orExhaust, runFrom_tryCatch] at hrun
  split at hrun
  · next found middle haction =>
      rw [hrun] at haction
      exact h cursor value next haction
  · cases hrun

/-- Text of a blob is text of a stream. -/
theorem bytesZ_of_blob {cursor next : Cursor} {text : List UInt8}
    (h : runFrom cursor blobBytesZ = (.ok text, next)) :
    runFrom cursor bytesZ = (.ok text, next) := by
  simp only [blobBytesZ, bytesZ, runFrom_bind, runFrom_get] at h ⊢
  split at h
  · cases h
  · next hnonempty => rwa [if_neg hnonempty]

theorem unitsZ_of_blob {cursor next : Cursor} {units : List UInt16}
    (h : runFrom cursor blobUnitsZ = (.ok units, next)) :
    runFrom cursor unitsZ = (.ok units, next) := by
  simp only [blobUnitsZ, unitsZ, runFrom_bind, runFrom_get] at h ⊢
  split at h
  · next hended => rwa [if_pos hended]
  · cases h

end Read

theorem ScriptSource.sound_blob (version : UInt32) (terminator : Option UInt32) :
    (ScriptSource.blob terminator).Sound (.blob version terminator) where
  ends := rfl
  kind := by
    intro kind cursor value next h
    cases kind <;>
      · obtain ⟨inner, -, rfl⟩ := runFrom_map_eq_ok.mp h
        rfl
  legal := by
    intro kind cursor value next h
    cases kind with
    | text =>
        obtain ⟨bytes, hread, rfl⟩ := runFrom_map_eq_ok.mp h
        exact (Read.bytesZ_eq_ok (Read.bytesZ_of_blob hread)).1
    | unicodeText =>
        obtain ⟨units, hread, rfl⟩ := runFrom_map_eq_ok.mp h
        exact (Read.unitsZ_eq_ok (Read.unitsZ_of_blob hread)).1
    | _ =>
        obtain ⟨inner, -, rfl⟩ := runFrom_map_eq_ok.mp h
        trivial
  uses := by
    intro kind
    cases kind with
    | object => exact (Read.Uses.orExhaust ((Read.uses_u32.map _).mono (by decide))).map _
    | name => exact (Read.Uses.orExhaust (Read.uses_u32.mono (by decide))).map _
    | byte => exact (Read.Uses.orExhaust Read.uses_u8).map _
    | word => exact (Read.Uses.orExhaust (Read.uses_u16.mono (by decide))).map _
    | long => exact (Read.Uses.orExhaust (Read.uses_u32.mono (by decide))).map _
    | text =>
        exact Read.Uses.map _ fun cursor value next h =>
          (Read.bytesZ_eq_ok (Read.bytesZ_of_blob h)).2
    | unicodeText =>
        refine Read.Uses.map _ fun cursor value next h => ?_
        have huse := (Read.unitsZ_eq_ok (Read.unitsZ_of_blob h)).2
        omega

namespace Script

/-- All label tables ended at the slot that is kept as the terminator. -/
def OneEnd (script : Script) : Prop :=
  ∀ id ∈ script.tableEnds, script.terminator? = some id

variable {package : Package} {cursor : Cursor} {size : Nat} {script : Script}
  {final : DecodeState}

theorem ends_of_mem_tableEnds {dialect : Dialect} {id : UInt32}
    (h : ∀ token ∈ script.statements, token.Grammatical dialect Decode.maxDepth)
    (hid : id ∈ script.tableEnds) : dialect.ends id = true := by
  obtain ⟨token, htoken, hid⟩ := Token.mem_tableEndsIn_iff.mp hid
  obtain ⟨statement, hstatement, heq⟩ := List.mem_map.mp htoken
  obtain rfl := Operand.expression.inj heq
  exact (h statement hstatement).ends hid

/-- What a blob with one terminator gives back ended all its tables there. -/
theorem OneEnd.of_blob {state : DecodeState}
    (h : runFrom state (decodeFrom (.blob script.terminator?) script.version size) =
      (.ok script, final)) : script.OneEnd := by
  obtain ⟨hstatements, -, -⟩ := decodeFrom_eq_ok.mp h
  intro id hid
  have hgrammar := ((ScriptSource.sound_blob script.version _).statements hstatements).1
  exact beq_iff_eq.mp (ends_of_mem_tableEnds hgrammar hid)

/-- A table with one terminator has no other slot for tables to end at. -/
theorem OneEnd.of_oneNone (h : cursor.decode (decode package size) = (.ok script, final))
    (hnone : package.names.OneNone) : script.OneEnd := by
  have hends {id : UInt32} (hid : id ∈ script.tableEnds) : package.names.isNone ⟨id⟩ = true :=
    ends_of_mem_tableEnds (decode_eq_ok h).1 hid
  intro id hid
  obtain ⟨last, hlast⟩ := Option.ne_none_iff_exists'.mp
    (fun hnil => List.ne_nil_of_mem hid (List.getLast?_eq_none_iff.mp hnil))
  have hmem := List.mem_of_getLast? hlast
  rw [← getLast?_tableEnds, hlast, NameId.mk.inj (hnone _ _ (hends hmem) (hends hid))]

/-- The walk of a decoded script.  Its canonical form with the recorded terminator is
decoded to the script itself exactly when all label tables ended at that slot; then the
walk lists the tokens of the script, and those of depth zero start where its statements
do.  That is always so when the name table has one terminator. -/
theorem decode_oneEnd (h : cursor.decode (decode package size) = (.ok script, final)) :
    ((Cursor.ofBytes script.bytes).decode
        (decodeFrom (.blob script.terminator?) script.version script.size) =
          (.ok script, ⟨⟨script.size, []⟩, script.size⟩) ↔ script.OneEnd) ∧
      (script.OneEnd → script.walk = .ok (Token.recordsFrom 0 script.statements)) ∧
      ((Token.recordsFrom 0 script.statements).filter (·.depth == 0)).map (·.offset) =
        script.offsets ∧
      (package.names.OneNone → script.OneEnd) := by
  obtain ⟨hgrammar, hversion, -⟩ := decode_eq_ok h
  refine ⟨⟨OneEnd.of_blob, fun hends => ?_⟩, fun hends => ?_, Token.filter_recordsFrom 0 _,
    OneEnd.of_oneNone h⟩
  · exact decodeFrom_eq_ok.mpr ⟨statements_of_bytes hgrammar hversion hends, rfl, rfl⟩
  · have hwalk : (Cursor.ofBytes script.bytes).decode (do
        Decode.statements (.blob script.terminator?) script.version script.size
          (← Decode.inputBudget)) = (.ok script.statements, ⟨⟨script.size, []⟩, script.size⟩) :=
      statements_of_bytes hgrammar hversion hends
    rw [walk, hwalk]

end Script

namespace TwoSpellings

def package : Package := ⟨69, ⟨["None", "none"]⟩, default⟩

/-- Two empty label tables; each ends at another spelling of the terminator. -/
def input : List UInt8 :=
  [0x0c, 0, 0, 0, 0, 0, 0x0c, 1, 0, 0, 0, 0]

def script : Script where
  version := 69
  statements :=
    [.node .labelTable [.leaf (.name 0), .leaf (.long 0)],
      .node .labelTable [.leaf (.name 1), .leaf (.long 0)]]

/-- The script is decoded, and its walk runs past the end of the first table. -/
theorem walk_fails :
    (Cursor.ofBytes input).decode (Script.decode package 18) = (.ok script, ⟨⟨12, []⟩, 18⟩) ∧
      script.walk = .error (.operand "LabelTable" 17 (.unexpectedEnd 17 4)) := by
  exact ⟨by rfl, by rfl⟩

theorem canonical_not_replayed :
    (Cursor.ofBytes input).decode (Script.decode package 18) = (.ok script, ⟨⟨12, []⟩, 18⟩) ∧
      ¬ (Cursor.ofBytes script.bytes).decode
        (Script.decodeFrom (.blob script.terminator?) script.version script.size) =
          (.ok script, ⟨⟨script.size, []⟩, script.size⟩) ∧
      ¬ package.names.OneNone := by
  have hdecode : (Cursor.ofBytes input).decode (Script.decode package 18) =
      (.ok script, ⟨⟨12, []⟩, 18⟩) := by rfl
  have htable : script.tableEnds = [0, 1] := rfl
  have hlast : script.terminator? = some 1 := rfl
  have hends : ¬ script.OneEnd := by
    intro h
    have hfirst := h 0 (by simp [htable])
    rw [hlast] at hfirst
    exact absurd hfirst (by decide)
  obtain ⟨hreplay, -, -, hnone⟩ := Script.decode_oneEnd hdecode
  exact ⟨hdecode, fun h => hends (hreplay.mp h), fun h => hends (hnone h)⟩

end TwoSpellings

end ObjectPackage
