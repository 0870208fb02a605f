/-
What a script is decoded from.  The decoder gives back exactly the sequences of trees that
a package can store, from their wire form and whatever follows it; their canonical form
tells two such sequences apart, and a tree that is nested too deep is refused where its
first token of that depth starts.
-/
import ObjectPackage.Proofs.Script.Walk
import ObjectPackage.Proofs.Stream.Codec

namespace ObjectPackage

namespace Token

mutual

theorem encodeWith_wire (token : Token) : token.encodeWith Leaf.wire = token.wire := by
  cases token with
  | node opcode operands => rw [encodeWith, wire, encodeOperandsWith_wire operands]

theorem encodeOperandsWith_wire (operands : List Operand) :
    encodeOperandsWith Leaf.wire operands = wireOperands operands := by
  cases operands with
  | nil => rfl
  | cons operand rest =>
      cases operand with
      | leaf value => rw [encodeOperandsWith, wireOperands, encodeOperandsWith_wire rest]
      | expression token =>
          rw [encodeOperandsWith, wireOperands, encodeWith_wire token,
            encodeOperandsWith_wire rest]

end

end Token

/-- The dialect in which a package stores scripts: a name is in its table and has a
compact index. -/
def Dialect.stored (package : Package) : Dialect where
  version := package.version
  known id := id.toNat < package.names.size ∧ id.toNat < 2 ^ 31
  ends id := package.names.isNone ⟨id⟩

namespace ScriptSource

/-- A source of canonical forms that knows terminators by their text. -/
def canonical (names : NameTable) : ScriptSource :=
  { ScriptSource.blob none with isTerminator := fun id => names.isNone ⟨id⟩ }

theorem reads_canonical (package : Package) :
    (ScriptSource.canonical package.names).Reads (.stored package) Leaf.canonical where
  ends := rfl
  byte := (reads_blob package.version none).byte
  nonempty := (reads_blob package.version none).nonempty
  takes := by
    intro value h
    have hblob := (reads_blob package.version none).takes value (h.mono fun _ _ => trivial)
    cases value <;> exact hblob

theorem reads_package (package : Package) :
    (ScriptSource.package package.names).Reads (.stored package) Leaf.wire where
  ends := rfl
  byte _ := rfl
  nonempty value := by
    cases value <;> simp [Leaf.wire, Leaf.canonical, Encode.name, Encode.index, Encode.u8,
      Encode.u16, Encode.u32]
  takes := by
    intro value h
    cases value with
    | object reference => exact (Read.takes_index reference).map _
    | name id => exact ((@Read.takes_name _ ⟨id⟩ h.1 h.2).map _).map _
    | byte value => exact (Read.takes_u8 value).map _
    | word value => exact (Read.takes_u16 value).map _
    | long value => exact (Read.takes_u32 value).map _
    | text bytes => exact (Read.takes_bytesZ h).map _
    | unicodeText units => exact (Read.takes_unitsZ h).map _

/-- A name that is read from a package has a compact index. -/
theorem sound_stored (package : Package) :
    (ScriptSource.package package.names).Sound (.stored package) where
  ends := rfl
  kind := (sound_package package).kind
  uses := (sound_package package).uses
  legal := by
    intro kind cursor value next h
    have hlegal := (sound_package package).legal h
    cases kind with
    | name =>
        obtain ⟨id, hname, rfl⟩ := runFrom_map_eq_ok.mp h
        obtain ⟨name, hread, rfl⟩ := runFrom_map_eq_ok.mp hname
        exact Read.name_index_range hread
    | _ =>
        obtain ⟨inner, hread, rfl⟩ := runFrom_map_eq_ok.mp h
        exact hlegal

end ScriptSource

namespace Token

/-- Where each of a sequence of tokens starts in their canonical form. -/
theorem offsetsFrom_eq (start : Nat) (tokens : List Token) :
    offsetsFrom start tokens = (List.range tokens.length).map fun index =>
      start + ((tokens.take index).flatMap canonical).length := by
  induction tokens generalizing start with
  | nil => rfl
  | cons first rest ih =>
      rw [offsetsFrom, ih, List.length_cons, List.range_succ_eq_map, List.map_cons, List.map_map]
      simp [Function.comp_def, Nat.add_assoc]

/-- The first record of that depth in a sequence whose last token is the first that is
nested so deep. -/
theorem find?_recordsFrom {levels place : Nat} {before : List Token} {deep : Token}
    (hbefore : ∀ token ∈ before, token.height ≤ levels)
    (hdeep : deep.tooDeep? levels = some place) (offset : Nat) :
    ((recordsFrom offset (before ++ [deep])).find? (·.depth == levels)).map (·.offset) =
      some (offset + (before.flatMap canonical).length + place) := by
  have hrecords (offset : Nat) (token : Token) :
      ((token.records offset 0).find? (·.depth == levels)).map (·.offset) =
        (token.tooDeep? levels).map (offset + ·) := by
    have hfind := find?_records levels offset 0 token
    rwa [Nat.zero_add] at hfind
  induction before generalizing offset with
  | nil => simp [recordsFrom, hrecords, hdeep]
  | cons first rest ih =>
      obtain ⟨hfirst, hrest⟩ := List.forall_mem_cons.mp hbefore
      rw [List.cons_append, recordsFrom, List.find?_append, Option.map_or, hrecords,
        (tooDeep?_eq_none first).mpr hfirst, ih hrest]
      simp [Nat.add_assoc]

end Token

namespace Script

/-- Trees that a package can store one after the other as the statements of a script. -/
def Storable (package : Package) (trees : List Token) : Prop :=
  ∀ tree ∈ trees, tree.WellFormed (.stored package) ∧ tree.height ≤ Decode.maxDepth

variable {package : Package}

theorem Storable.grammatical {trees : List Token} (h : Storable package trees) :
    ∀ tree ∈ trees, tree.Grammatical (.stored package) Decode.maxDepth :=
  fun tree htree => Token.grammatical_iff.mpr (h tree htree)

/-- Both sequences are what is decoded from the form that they share. -/
theorem Storable.eq_of_canonical {trees others : List Token} (h : Storable package trees)
    (hothers : Storable package others)
    (heq : trees.flatMap Token.canonical = others.flatMap Token.canonical) : trees = others := by
  have hcanonical : Token.encodeWith Leaf.canonical = Token.canonical :=
    funext Token.encodeWith_canonical
  have hread {tokens : List Token} (h : Storable package tokens) :=
    (ScriptSource.reads_canonical package).statements h.grammatical
      (Token.length_le_canonical tokens) 0 [] (Nat.zero_add _)
  have hfirst := hread h
  have hsecond := hread hothers
  rw [hcanonical, heq] at hfirst
  rw [hcanonical] at hsecond
  have hresult := congrArg Prod.fst (hfirst.symm.trans hsecond)
  exact Except.ok.inj hresult

theorem decode_wire {trees : List Token} (h : Storable package trees) (pos : Nat)
    (suffix : List UInt8) :
    (Cursor.mk pos (trees.flatMap Token.wire ++ suffix)).decode
        (decode package (trees.flatMap Token.canonical).length) =
      (.ok ⟨package.version, trees⟩, ⟨⟨pos + (trees.flatMap Token.wire).length, suffix⟩,
        (trees.flatMap Token.canonical).length⟩) := by
  have hwire : Token.encodeWith Leaf.wire = Token.wire := funext Token.encodeWith_wire
  have hbudget : trees.length ≤ (trees.flatMap Token.wire ++ suffix).length + 1 := by
    have hlength := Token.length_le_flatMap Leaf.wire trees
    rw [hwire] at hlength
    rw [List.length_append]
    omega
  have hrun := (ScriptSource.reads_package package).statements h.grammatical hbudget pos suffix
    (Nat.zero_add _)
  rw [hwire] at hrun
  exact decodeFrom_eq_ok.mpr ⟨hrun, rfl, rfl⟩

theorem storable_of_decode {cursor : Cursor} {size : Nat} {script : Script}
    {final : DecodeState} (h : cursor.decode (decode package size) = (.ok script, final)) :
    Storable package script.statements ∧ script.size = size := by
  obtain ⟨hstatements, -, -⟩ := decodeFrom_eq_ok.mp h
  obtain ⟨hgrammar, -⟩ := (ScriptSource.sound_stored package).statements hstatements
  refine ⟨fun tree htree => Token.grammatical_iff.mp (hgrammar tree htree), ?_⟩
  exact (decode_eq_ok h).2.2

theorem decodeFrom_depthExceeded {source : ScriptSource} {version : UInt32}
    {size limit offset : Nat} {state final : DecodeState}
    (h : runFrom state
      (Decode.statements source version size (state.cursor.rest.length + 1)) =
        (.error (.depthExceeded limit offset), final)) :
    runFrom state (decodeFrom source version size) =
      (.error (.depthExceeded limit offset), final) := by
  rw [runFrom_decodeFrom, h]

theorem decode_tooDeep {before : List Token} {deep : Token} {size : Nat}
    (hbefore : Storable package before) (hdeep : deep.WellFormed (.stored package))
    (hheight : Decode.maxDepth < deep.height)
    (hsize : (before.flatMap Token.canonical).length < size) (pos : Nat) (suffix : List UInt8) :
    ∃ record final, (Token.recordsFrom 0 (before ++ [deep])).find?
        (·.depth == Decode.maxDepth) = some record ∧
      (Cursor.mk pos (before.flatMap Token.wire ++ (deep.wire ++ suffix))).decode
          (decode package size) =
        (.error (.depthExceeded Decode.maxDepth record.offset), final) := by
  have hwire : Token.encodeWith Leaf.wire = Token.wire := funext Token.encodeWith_wire
  obtain ⟨place, hplace⟩ : ∃ place, deep.tooDeep? Decode.maxDepth = some place := by
    refine Option.ne_none_iff_exists'.mp fun hnone => ?_
    have hle := (Token.tooDeep?_eq_none deep).mp hnone
    omega
  have hrecord := Token.find?_recordsFrom (fun token htoken => (hbefore token htoken).2) hplace 0
  obtain ⟨record, hfind, hoffset⟩ := Option.map_eq_some_iff.mp hrecord
  have hbudget : before.length <
      (before.flatMap Token.wire ++ (deep.wire ++ suffix)).length + 1 := by
    have hlength := Token.length_le_flatMap Leaf.wire before
    rw [hwire] at hlength
    rw [List.length_append]
    omega
  obtain ⟨final, hrun⟩ := (ScriptSource.reads_package package).statements_tooDeep
    hbefore.grammatical hdeep hplace hbudget pos suffix 0
    (show 0 + _ < size by rwa [Nat.zero_add])
  rw [hwire, ← hoffset] at hrun
  exact ⟨record, final, hfind, decodeFrom_depthExceeded hrun⟩

/-- The decoder accepts its grammar.  From the wire form of storable trees, before any
suffix, it gives back these trees; whatever it accepts has the canonical form of one
storable sequence only; and it stops in a tree that is nested too deep, at the first token
of that depth. -/
theorem decode_grammar (package : Package) :
    (∀ (trees : List Token) (pos : Nat) (suffix : List UInt8), Storable package trees →
      ∃ script final, (Cursor.mk pos (trees.flatMap Token.wire ++ suffix)).decode
          (decode package (trees.flatMap Token.canonical).length) = (.ok script, final) ∧
        script.bytes = trees.flatMap Token.canonical ∧
        script.offsets = (List.range trees.length).map (fun index =>
          ((trees.take index).flatMap Token.canonical).length) ∧
        final.cursor = ⟨pos + (trees.flatMap Token.wire).length, suffix⟩) ∧
    (∀ (cursor : Cursor) (size : Nat) (script : Script) (final : DecodeState),
      cursor.decode (decode package size) = (.ok script, final) →
        script.size = size ∧
        ∃ trees, Storable package trees ∧ script.bytes = trees.flatMap Token.canonical ∧
          script.offsets = (List.range trees.length).map (fun index =>
            ((trees.take index).flatMap Token.canonical).length) ∧
          ∀ others, Storable package others →
            script.bytes = others.flatMap Token.canonical → others = trees) ∧
    (∀ (before : List Token) (deep : Token) (pos size : Nat) (suffix : List UInt8),
      Storable package before → deep.WellFormed (.stored package) →
      Decode.maxDepth < deep.height → (before.flatMap Token.canonical).length < size →
      ∃ record final, (Token.recordsFrom 0 (before ++ [deep])).find?
          (·.depth == Decode.maxDepth) = some record ∧
        (Cursor.mk pos (before.flatMap Token.wire ++ (deep.wire ++ suffix))).decode
            (decode package size) =
          (.error (.depthExceeded Decode.maxDepth record.offset), final)) := by
  have hoffsets (script : Script) : script.offsets =
      (List.range script.statements.length).map fun index =>
        ((script.statements.take index).flatMap Token.canonical).length := by
    rw [offsets, Token.offsetsFrom_eq]
    simp only [Nat.zero_add]
  refine ⟨?_, ?_, ?_⟩
  · intro trees pos suffix h
    exact ⟨_, _, decode_wire h pos suffix, rfl, hoffsets _, rfl⟩
  · intro cursor size script final h
    obtain ⟨hstorable, hsize⟩ := storable_of_decode h
    refine ⟨hsize, script.statements, hstorable, rfl, hoffsets script, ?_⟩
    intro others hothers hbytes
    exact hothers.eq_of_canonical hstorable hbytes.symm
  · intro before deep pos size suffix hbefore hdeep hheight hsize
    exact decode_tooDeep hbefore hdeep hheight hsize pos suffix

end Script

namespace LabelledState

/-- A stop inside so many discarded expressions. -/
def tower : Nat → Token
  | 0 => .node .stop []
  | levels + 1 => .node .eatString [.expression (tower levels)]

theorem tower_grammatical (dialect : Dialect) (levels : Nat) :
    (tower levels).Grammatical dialect (levels + 1) := by
  induction levels with
  | zero => exact ⟨rfl, .nil⟩
  | succ levels ih => exact ⟨rfl, .cons (.expression ih) .nil⟩

theorem tower_height (levels : Nat) : (tower levels).height = levels + 1 := by
  induction levels with
  | zero => rfl
  | succ levels ih => simp [tower, Token.height, Token.heightIn, ih]

/-- The script is accepted with a byte behind it, and refused when a tower follows that is
one token too high. -/
theorem script_exact :
    (∃ script' final, (Cursor.mk 0 (input ++ [7])).decode (Script.decode package 22) =
        (.ok script', final) ∧ script'.offsets = [0, 17, 21] ∧ final.cursor = ⟨16, [7]⟩) ∧
      ∃ final, (Cursor.mk 0 (input ++ ((tower 64).wire ++ []))).decode
          (Script.decode package 87) = (.error (.depthExceeded 64 86), final) := by
  have hdecode : (Cursor.ofBytes input).decode (Script.decode package 22) =
      (.ok script, ⟨⟨16, []⟩, 22⟩) := by rfl
  have hstorable := (Script.storable_of_decode hdecode).1
  obtain ⟨haccept, -, hrefuse⟩ := Script.decode_grammar package
  constructor
  · obtain ⟨script', final, hrun, -, hoffsets, hcursor⟩ :=
      haccept script.statements 0 [7] hstorable
    exact ⟨script', final, hrun, hoffsets, hcursor⟩
  · have hheight : Decode.maxDepth < (tower 64).height := by
      rw [tower_height]
      exact Nat.lt_succ_self 64
    obtain ⟨record, final, hfind, hrun⟩ := hrefuse script.statements (tower 64) 0 87 []
      hstorable ⟨65, tower_grammatical _ 64⟩ hheight (by decide)
    obtain rfl : TokenRecord.mk 86 64 .stop = record := Option.some.inj hfind
    exact ⟨final, hrun⟩

end LabelledState

end ObjectPackage
