/-
Decoding of canonical forms.  A blob is read as it is written, each value with its width and
order of bytes and each text with its zero, so a decoded script is the front of the blob,
whatever the blob holds, and that front is decoded to the same script.
-/
import ObjectPackage.Proofs.Script.Terminators
import ObjectPackage.Proofs.Script.Track
import ObjectPackage.Proofs.Stream.Delimit

namespace ObjectPackage

namespace Read

variable {α : Type} {action : Read α} {cursor next : Cursor}

theorem orExhaust_eq_ok {value : α} :
    runFrom cursor (orExhaust action) = (.ok value, next) ↔
      runFrom cursor action = (.ok value, next) := by
  rw [orExhaust, runFrom_tryCatch]
  constructor
  · intro h
    split at h
    · next found middle haction => rwa [haction]
    · cases h
  · intro h
    rw [h]

theorem bytes_splits {count : Nat} {piece : List UInt8}
    (h : runFrom cursor (bytes count) = (.ok piece, next)) :
    cursor.rest = piece ++ next.rest ∧ piece.length = count := by
  simp only [bytes, runFrom_bind, runFrom_get] at h
  split at h
  · cases h
  · next hlength =>
      obtain ⟨hpiece, rfl⟩ := Prod.mk.inj h
      obtain rfl := Except.ok.inj hpiece
      refine ⟨(List.take_append_drop count cursor.rest).symm, ?_⟩
      have hle := List.length_take_le count cursor.rest
      omega

/-- A word is written with the bytes it was read from. -/
theorem word_splits {count value : Nat} (h : runFrom cursor (word count) = (.ok value, next)) :
    cursor.rest = littleEndian count value ++ next.rest ∧ value < 256 ^ count := by
  obtain ⟨piece, hpiece, rfl⟩ := runFrom_map_eq_ok.mp h
  obtain ⟨hrest, rfl⟩ := bytes_splits hpiece
  rw [littleEndian_ofLittleEndian]
  exact ⟨hrest, ofLittleEndian_lt piece⟩

theorem u8_splits {value : UInt8} (h : runFrom cursor u8 = (.ok value, next)) :
    cursor.rest = Encode.u8 value ++ next.rest := by
  obtain ⟨number, hnumber, rfl⟩ := runFrom_map_eq_ok.mp h
  obtain ⟨hrest, hlt⟩ := word_splits hnumber
  have hbytes : littleEndian 1 number = Encode.u8 (UInt8.ofNat number) := by
    simp [littleEndian, Encode.u8]
  rwa [← hbytes]

theorem u16_splits {value : UInt16} (h : runFrom cursor u16 = (.ok value, next)) :
    cursor.rest = Encode.u16 value ++ next.rest := by
  obtain ⟨number, hnumber, rfl⟩ := runFrom_map_eq_ok.mp h
  obtain ⟨hrest, hlt⟩ := word_splits hnumber
  rwa [Encode.u16, UInt16.toNat_ofNat_of_lt' hlt]

theorem u32_splits {value : UInt32} (h : runFrom cursor u32 = (.ok value, next)) :
    cursor.rest = Encode.u32 value ++ next.rest := by
  obtain ⟨number, hnumber, rfl⟩ := runFrom_map_eq_ok.mp h
  obtain ⟨hrest, hlt⟩ := word_splits hnumber
  rwa [Encode.u32, UInt32.toNat_ofNat_of_lt' hlt]

theorem i32_splits {value : Int32} (h : runFrom cursor i32 = (.ok value, next)) :
    cursor.rest = Encode.i32 value ++ next.rest := by
  obtain ⟨word, hword, rfl⟩ := runFrom_map_eq_ok.mp h
  exact u32_splits hword

end Read

/-- A blob is used up by the canonical bytes of what is read from it. -/
theorem ScriptSource.tracks_blob (terminator : Option UInt32) :
    (ScriptSource.blob terminator).Tracks fun before bytes after =>
      before.cursor.rest = bytes ++ after.cursor.rest where
  refl _ := rfl
  trans h h' := by rw [h, h', List.append_assoc]
  read := by
    intro kind state value cursor h
    cases kind with
    | object =>
        obtain ⟨reference, hread, rfl⟩ := runFrom_map_eq_ok.mp h
        exact Read.i32_splits (Read.orExhaust_eq_ok.mp hread)
    | name =>
        obtain ⟨id, hread, rfl⟩ := runFrom_map_eq_ok.mp h
        exact Read.u32_splits (Read.orExhaust_eq_ok.mp hread)
    | byte =>
        obtain ⟨value, hread, rfl⟩ := runFrom_map_eq_ok.mp h
        exact Read.u8_splits (Read.orExhaust_eq_ok.mp hread)
    | word =>
        obtain ⟨value, hread, rfl⟩ := runFrom_map_eq_ok.mp h
        exact Read.u16_splits (Read.orExhaust_eq_ok.mp hread)
    | long =>
        obtain ⟨value, hread, rfl⟩ := runFrom_map_eq_ok.mp h
        exact Read.u32_splits (Read.orExhaust_eq_ok.mp hread)
    | text =>
        obtain ⟨bytes, hread, rfl⟩ := runFrom_map_eq_ok.mp h
        exact (Read.bytesZ_splits (Read.bytesZ_of_blob hread)).2.1
    | unicodeText =>
        obtain ⟨units, hread, rfl⟩ := runFrom_map_eq_ok.mp h
        exact (Read.unitsZ_splits (Read.unitsZ_of_blob hread)).2.1

namespace Script

variable {script : Script} {terminator : Option UInt32} {version : UInt32} {size : Nat}

/-- A script that a blob gives is decoded to itself from its canonical form. -/
theorem decode_bytes_of_blob {state final : DecodeState}
    (h : runFrom state (decodeFrom (.blob terminator) version size) = (.ok script, final)) :
    (Cursor.ofBytes script.bytes).decode (decodeFrom (.blob terminator) version script.size) =
      (.ok script, ⟨⟨script.size, []⟩, script.size⟩) := by
  obtain ⟨hstatements, -, rfl⟩ := decodeFrom_eq_ok.mp h
  have hgrammar := ((ScriptSource.sound_blob script.version terminator).statements hstatements).1
  have hends : ∀ last ∈ script.tableEnds, terminator = some last := fun last hlast =>
    beq_iff_eq.mp (ends_of_mem_tableEnds hgrammar hlast)
  exact decodeFrom_eq_ok.mpr ⟨statements_of_bytes hgrammar rfl hends, rfl, rfl⟩

/-- Canonical forms are fixed points of decoding.  Whatever a blob holds, a script that is
decoded from it is its front of the declared size, and is decoded from that front alone as
well, which is used up then. -/
theorem decodeFrom_blob_fixed {blob : List UInt8} {final : DecodeState}
    (h : (Cursor.ofBytes blob).decode (decodeFrom (.blob terminator) version size) =
      (.ok script, final)) :
    size ≤ blob.length ∧ script.size = size ∧ script.bytes = blob.take size ∧
      final.cursor.rest = blob.drop size ∧
      (Cursor.ofBytes script.bytes).decode (decodeFrom (.blob terminator) version size) =
        (.ok script, ⟨⟨size, []⟩, size⟩) := by
  obtain ⟨hstatements, -, -⟩ := decodeFrom_eq_ok.mp h
  have hsize := size_of_decodeFrom h
  have hblob : blob = script.bytes ++ final.cursor.rest :=
    (ScriptSource.tracks_blob terminator).statements _ hstatements
  have hagain := decode_bytes_of_blob h
  rw [hsize] at hagain
  refine ⟨?_, hsize, ?_, ?_, hagain⟩
  · rw [← hsize, Script.size, hblob, List.length_append]
    exact Nat.le_add_right _ _
  · rw [hblob, List.take_left' hsize]
  · rw [hblob, List.drop_left' hsize]

end Script

namespace LabelledState

/-- No decoder wrote the byte behind the script, and the blob is cut in front of it. -/
theorem script_copied :
    (Cursor.ofBytes (script.bytes ++ [0xff])).decode
        (Script.decodeFrom (.blob (some 0)) 60 22) = (.ok script, ⟨⟨22, [0xff]⟩, 22⟩) ∧
      script.bytes = (script.bytes ++ [0xff]).take 22 ∧
      (Cursor.ofBytes script.bytes).decode (Script.decodeFrom (.blob (some 0)) 60 22) =
        (.ok script, ⟨⟨22, []⟩, 22⟩) := by
  have hdecode : (Cursor.ofBytes (script.bytes ++ [0xff])).decode
      (Script.decodeFrom (.blob (some 0)) 60 22) = (.ok script, ⟨⟨22, [0xff]⟩, 22⟩) := by rfl
  obtain ⟨-, -, hfront, -, hagain⟩ := Script.decodeFrom_blob_fixed hdecode
  exact ⟨hdecode, hfront, hagain⟩

end LabelledState

end ObjectPackage
