/-
Headers and their bytes.  A header that can be saved is read back from its bytes wherever they
stand.  Whatever bytes a header is read from, it can be saved, and its saved form is no longer
than these bytes: none of its parts is.
-/
import ObjectPackage.Proofs.Stream.Index
import ObjectPackage.Proofs.Stream.Relocate
import ObjectPackage.Proofs.Tagged.Header

namespace ObjectPackage

namespace Read

variable {cursor next : Cursor}

/-- An index is read from no fewer bytes than it is saved in. -/
theorem index_pays {value : Int32} (h : runFrom cursor index = (.ok value, next)) :
    next.rest.length + (Encode.index value).length ≤ cursor.rest.length := by
  obtain ⟨used, -, -, -, hused, -⟩ := index_eq_ok.mp h
  have hshort := (index_takes_shortest h hused).1
  rw [hused, List.length_append]
  omega

theorem name_pays {names : NameTable} {id : NameId} (h : runFrom cursor (name names) = (.ok id, next)) :
    next.rest.length + (Encode.name id).length ≤ cursor.rest.length := by
  have hlt := (name_index_range h).2
  obtain ⟨slot, middle, hindex, hslot⟩ := runFrom_bind_eq_ok.mp h
  dsimp only at hslot
  split at hslot
  · cases hslot
  · next hrange =>
      obtain ⟨hid, rfl⟩ := Prod.mk.inj hslot
      obtain rfl := Except.ok.inj hid
      have hsame : (NameId.ofIndex slot.toInt.toNat).val.toInt32 = slot := by
        have hhigh : slot.toInt < 2 ^ 31 := slot.toInt_lt
        rw [← Int32.toInt_inj, toInt_toInt32_of_lt hlt]
        change ((UInt32.ofNat slot.toInt.toNat).toNat : Int) = slot.toInt
        rw [UInt32.toNat_ofNat_of_lt' (show slot.toInt.toNat < 2 ^ 32 by omega)]
        omega
      rw [Encode.name, hsame]
      exact index_pays hindex

theorem length_arrayIndex {value : UInt32} {bytes : List UInt8}
    (h : Encode.arrayIndex value = .ok bytes) :
    bytes.length ≤ 4 ∧ (value.toNat < 0x4000 → bytes.length ≤ 2) ∧
      (value.toNat < 0x80 → bytes.length ≤ 1) := by
  simp only [Encode.arrayIndex] at h
  split at h
  · obtain rfl := Except.ok.inj h
    simp
  · split at h
    · next hone _ =>
        obtain rfl := Except.ok.inj h
        simp [hone]
    · split at h
      · next hone htwo _ =>
          obtain rfl := Except.ok.inj h
          simp [hone, htwo]
      · cases h

/-- A number of thirty bits is saved in as many bytes as it was read from, or fewer. -/
theorem arrayIndex_saved {number count : Nat} (hmax : number ≤ Encode.maxArrayIndex)
    (hcount : number < 0x80 ∧ 1 ≤ count ∨ number < 0x4000 ∧ 2 ≤ count ∨ 4 ≤ count) :
    (UInt32.ofNat number).toNat ≤ Encode.maxArrayIndex ∧
      ∃ bytes, Encode.arrayIndex (UInt32.ofNat number) = .ok bytes ∧ bytes.length ≤ count := by
  have hnumber : (UInt32.ofNat number).toNat = number := by
    rw [Encode.maxArrayIndex] at hmax
    exact UInt32.toNat_ofNat_of_lt' (show number < 2 ^ 32 by omega)
  rw [← hnumber] at hmax hcount
  obtain ⟨bytes, hbytes⟩ := arrayIndex_ok hmax
  obtain ⟨hfour, htwo, hone⟩ := length_arrayIndex hbytes
  exact ⟨hmax, bytes, hbytes, by omega⟩

/-- An array index has thirty bits, and is read from no fewer bytes than it is saved in. -/
theorem arrayIndex_pays {value : UInt32} (h : runFrom cursor arrayIndex = (.ok value, next)) :
    value.toNat ≤ Encode.maxArrayIndex ∧ ∃ bytes, Encode.arrayIndex value = .ok bytes ∧
      next.rest.length + bytes.length ≤ cursor.rest.length := by
  suffices hsaved : ∃ count, next.rest.length + count ≤ cursor.rest.length ∧
      value.toNat ≤ Encode.maxArrayIndex ∧
        ∃ bytes, Encode.arrayIndex value = .ok bytes ∧ bytes.length ≤ count by
    obtain ⟨count, hcount, hmax, bytes, hbytes, hlength⟩ := hsaved
    exact ⟨hmax, bytes, hbytes, by omega⟩
  obtain ⟨first, second, hfirst, h⟩ := runFrom_bind_eq_ok.mp h
  have hone := uses_u8 _ _ _ hfirst
  have hbyte := first.toNat_lt
  dsimp only at h
  split at h
  · obtain ⟨hvalue, rfl⟩ := Prod.mk.inj h
    obtain rfl := Except.ok.inj hvalue
    refine ⟨1, hone, arrayIndex_saved ?_ (by omega)⟩
    rw [Encode.maxArrayIndex]
    omega
  · split at h
    · obtain ⟨low, third, hlow, h⟩ := runFrom_bind_eq_ok.mp h
      have htwo := uses_u8 _ _ _ hlow
      have hbyteLow := low.toNat_lt
      obtain ⟨hvalue, rfl⟩ := Prod.mk.inj h
      obtain rfl := Except.ok.inj hvalue
      refine ⟨2, by omega, arrayIndex_saved ?_ (by omega)⟩
      rw [Encode.maxArrayIndex]
      omega
    · obtain ⟨high, third, hhigh, h⟩ := runFrom_bind_eq_ok.mp h
      obtain ⟨middle, fourth, hmiddle, h⟩ := runFrom_bind_eq_ok.mp h
      obtain ⟨low, last, hlow, h⟩ := runFrom_bind_eq_ok.mp h
      have htwo := uses_u8 _ _ _ hhigh
      have hthree := uses_u8 _ _ _ hmiddle
      have hfour := uses_u8 _ _ _ hlow
      have hbyteHigh := high.toNat_lt
      have hbyteMiddle := middle.toNat_lt
      have hbyteLow := low.toNat_lt
      obtain ⟨hvalue, rfl⟩ := Prod.mk.inj h
      obtain rfl := Except.ok.inj hvalue
      refine ⟨4, by omega, arrayIndex_saved ?_ (by omega)⟩
      rw [Encode.maxArrayIndex]
      omega

end Read

namespace Header

variable {cursor next : Cursor} {names : NameTable} {header : Header}

/-- A size with a class of its own takes no bytes, and any other one the fewest that hold it. -/
theorem length_sizeBytes (size : UInt32) :
    (sizeBytes size).length ≤ 4 ∧ (size.toNat ≤ 0xffff → (sizeBytes size).length ≤ 2) ∧
      (size.toNat ≤ 0xff → (sizeBytes size).length ≤ 1) ∧
      (size.toNat ∈ fixedSizes → (sizeBytes size).length = 0) := by
  cases hfind : fixedSizes.findIdx? (· == size.toNat) with
  | some index =>
      have hindex : index < 5 := (List.findIdx?_eq_some_iff_getElem.mp hfind).1
      have hnone : sizeBytes size = [] := by
        rw [sizeBytes, sizeClass, hfind]
        dsimp only
        split <;> first | omega | rfl
      simp [hnone]
  | none =>
      have hfree : size.toNat ∉ fixedSizes := by
        intro hmem
        have hother := List.findIdx?_eq_none_iff.mp hfind _ hmem
        simp at hother
      rw [sizeBytes, sizeClass, hfind]
      dsimp only
      by_cases hone : size.toNat ≤ 0xff
      · simp [hone, hfree]
      · by_cases htwo : size.toNat ≤ 0xffff
        · simp [hone, htwo, hfree]
        · simp [hone, htwo, hfree]

theorem readSize_pays {sizeClass : Nat} {size : UInt32}
    (h : runFrom cursor (readSize sizeClass) = (.ok size, next)) :
    next.rest.length + (sizeBytes size).length ≤ cursor.rest.length := by
  obtain ⟨hfour, htwo, hone, hnone⟩ := length_sizeBytes size
  rw [readSize] at h
  split at h
  · next number hfixed =>
      obtain ⟨hsize, rfl⟩ := Prod.mk.inj h
      obtain rfl := Except.ok.inj hsize
      have hmem : number ∈ fixedSizes := List.mem_of_getElem? hfixed
      have hsmall : number < 2 ^ 32 := by
        have hall : ∀ number ∈ fixedSizes, number < 2 ^ 32 := by decide
        exact hall number hmem
      rw [hnone (by rwa [UInt32.toNat_ofNat_of_lt' hsmall])]
      exact Nat.le_refl _
  · split at h
    · obtain ⟨byte, middle, hbyte, h⟩ := runFrom_bind_eq_ok.mp h
      obtain ⟨hsize, rfl⟩ := Prod.mk.inj h
      obtain rfl := Except.ok.inj hsize
      have hlt := byte.toNat_lt
      have huses := Read.uses_u8 _ _ _ hbyte
      have hlength := hone (by rw [UInt32.toNat_ofNat_of_lt' (show _ < 2 ^ 32 by omega)]; omega)
      omega
    · split at h
      · obtain ⟨word, middle, hword, h⟩ := runFrom_bind_eq_ok.mp h
        obtain ⟨hsize, rfl⟩ := Prod.mk.inj h
        obtain rfl := Except.ok.inj hsize
        have hlt := word.toNat_lt
        have huses := Read.uses_u16 _ _ _ hword
        have hlength := htwo (by rw [UInt32.toNat_ofNat_of_lt' (show _ < 2 ^ 32 by omega)]; omega)
        omega
      · have huses := Read.uses_u32 _ _ _ h
        omega

/-- A size stands first, and an array index behind it unless the header is one of a bool,
which has its value in the high bit. -/
theorem readRest_eq_ok {id : NameId} {info : UInt8} {structName : Option NameId}
    (h : runFrom cursor (readRest id info structName) = (.ok (some header), next)) :
    (header.name = id ∧ header.tag = TypeTag.ofByte info ∧ header.structName = structName) ∧
      ∃ middle, runFrom cursor (readSize (info.toNat / 16 % 8)) = (.ok header.size, middle) ∧
        (header.tag = .bool ∧ header.arrayIndex = 0 ∧ middle = next ∨
          header.tag ≠ .bool ∧ header.boolValue = false ∧ (header.arrayIndex = 0 ∧ middle = next ∨
            runFrom middle Read.arrayIndex = (.ok header.arrayIndex, next))) := by
  obtain ⟨size, middle, hsize, h⟩ := runFrom_bind_eq_ok.mp h
  dsimp only at h
  split at h
  · next htag =>
      obtain ⟨hheader, rfl⟩ := Prod.mk.inj h
      obtain rfl := Option.some.inj (Except.ok.inj hheader)
      exact ⟨⟨rfl, rfl, rfl⟩, middle, hsize, Or.inl ⟨htag, rfl, rfl⟩⟩
  · next htag =>
      split at h
      · obtain ⟨arrayIndex, last, hindex, h⟩ := runFrom_bind_eq_ok.mp h
        obtain ⟨hheader, rfl⟩ := Prod.mk.inj h
        obtain rfl := Option.some.inj (Except.ok.inj hheader)
        exact ⟨⟨rfl, rfl, rfl⟩, middle, hsize, Or.inr ⟨htag, rfl, Or.inr hindex⟩⟩
      · obtain ⟨hheader, rfl⟩ := Prod.mk.inj h
        obtain rfl := Option.some.inj (Except.ok.inj hheader)
        exact ⟨⟨rfl, rfl, rfl⟩, middle, hsize, Or.inr ⟨htag, rfl, Or.inl ⟨rfl, rfl⟩⟩⟩

/-- A header is read as its name, its type byte, the name of its struct and the rest. -/
theorem read_eq_ok (h : runFrom cursor (read names) = (.ok (some header), next)) :
    ∃ (info : UInt8) (afterName afterInfo afterNames : Cursor),
      runFrom cursor (Read.name names) = (.ok header.name, afterName) ∧
      names.isNone header.name = false ∧ runFrom afterName Read.u8 = (.ok info, afterInfo) ∧
      header.tag = TypeTag.ofByte info ∧
      (header.tag = .struct ∧ (∃ id, header.structName = some id ∧
          runFrom afterInfo (Read.name names) = (.ok id, afterNames)) ∨
        header.tag ≠ .struct ∧ header.structName = none ∧ afterNames = afterInfo) ∧
      runFrom afterNames (readRest header.name info header.structName) =
        (.ok (some header), next) := by
  rw [read_eq] at h
  obtain ⟨id, afterName, hname, h⟩ := runFrom_bind_eq_ok.mp h
  split at h
  · cases h
  · next hnone =>
      obtain ⟨info, afterInfo, hinfo, h⟩ := runFrom_bind_eq_ok.mp h
      dsimp only at h
      split at h
      · next htag =>
          obtain ⟨structName, afterNames, hmap, h⟩ := runFrom_bind_eq_ok.mp h
          obtain ⟨inner, hinner, rfl⟩ := runFrom_map_eq_ok.mp hmap
          obtain ⟨⟨rfl, hsame, hstruct⟩, -⟩ := readRest_eq_ok h
          rw [← hstruct] at h
          exact ⟨info, afterName, afterInfo, afterNames, hname, by simpa using hnone, hinfo, hsame,
            Or.inl ⟨hsame.trans htag, inner, hstruct, hinner⟩, h⟩
      · next htag =>
          have hrest : runFrom afterInfo (readRest id info none) = (.ok (some header), next) := h
          obtain ⟨⟨rfl, hsame, hstruct⟩, -⟩ := readRest_eq_ok hrest
          rw [← hstruct] at hrest
          exact ⟨info, afterName, afterInfo, afterInfo, hname, by simpa using hnone, hinfo, hsame,
            Or.inr ⟨fun hold => htag (hsame.symm.trans hold), hstruct, rfl⟩, hrest⟩

/-- The array index of a header that is read can be saved, in no more bytes than it was read
from. -/
theorem trail_pays {middle : Cursor}
    (h : header.tag = .bool ∧ header.arrayIndex = 0 ∧ middle = next ∨
      header.tag ≠ .bool ∧ header.boolValue = false ∧ (header.arrayIndex = 0 ∧ middle = next ∨
        runFrom middle Read.arrayIndex = (.ok header.arrayIndex, next))) :
    header.arrayIndex.toNat ≤ Encode.maxArrayIndex ∧ ∃ trail, header.trail = .ok trail ∧
      next.rest.length + trail.length ≤ middle.rest.length := by
  rcases h with ⟨htag, hzero, rfl⟩ | ⟨htag, -, ⟨hzero, rfl⟩ | hread⟩
  · rw [Header.trail, if_neg fun hold => hold.2 htag, hzero]
    exact ⟨Nat.zero_le _, [], rfl, Nat.le_refl _⟩
  · have hlow : header.highBit = false := by rw [highBit, if_neg htag, hzero]; rfl
    rw [Header.trail, hlow, if_neg fun hold => Bool.false_ne_true hold.1, hzero]
    exact ⟨Nat.zero_le _, [], rfl, Nat.le_refl _⟩
  · obtain ⟨hmax, bytes, hbytes, hlength⟩ := Read.arrayIndex_pays hread
    rw [Header.trail]
    split
    · exact ⟨hmax, bytes, hbytes, hlength⟩
    · refine ⟨hmax, [], rfl, ?_⟩
      rw [List.length_nil]
      omega

/-- A header that is read can be saved, in no more bytes than it was read from. -/
theorem read_saved (h : runFrom cursor (read names) = (.ok (some header), next)) :
    header.Saved names ∧ ∃ bytes, header.encode = .ok bytes ∧
      next.rest.length + bytes.length ≤ cursor.rest.length := by
  obtain ⟨info, afterName, afterInfo, afterNames, hname, hnone, hinfo, -, hstruct, hrest⟩ :=
    read_eq_ok h
  obtain ⟨-, middle, hsize, hindex⟩ := readRest_eq_ok hrest
  have hnames {cursor next : Cursor} {id : NameId}
      (h : runFrom cursor (Read.name names) = (.ok id, next)) : ∃ text, names.Names id text :=
    ⟨_, _, List.getElem?_eq_getElem (Read.name_index_lt h), sameName_self _⟩
  obtain ⟨text, htext⟩ := hnames hname
  -- how many bytes each part takes
  have hpaysName := Read.name_pays hname
  have hpaysInfo := Read.uses_u8 _ _ _ hinfo
  have hpaysSize := readSize_pays hsize
  have hpaysStruct : afterNames.rest.length + (if header.tag = .struct then
      Encode.name (header.structName.getD ⟨0⟩) else []).length ≤ afterInfo.rest.length := by
    rcases hstruct with ⟨htag, id, hid, hinner⟩ | ⟨htag, -, rfl⟩
    · rw [if_pos htag, hid]
      exact Read.name_pays hinner
    · rw [if_neg htag]
      exact Nat.le_refl _
  obtain ⟨hmax, trail, htrail, hpaysTrail⟩ := trail_pays hindex
  refine ⟨?_, header.lead ++ trail, ?_, ?_⟩
  · exact
      { named := ⟨text, htext, htext.isNone.symm.trans hnone⟩
        structNamed := fun htag => by
          obtain ⟨-, id, hid, hinner⟩ | ⟨hother, -⟩ := hstruct
          · obtain ⟨text, htext⟩ := hnames hinner
            exact ⟨id, text, hid, htext⟩
          · exact absurd htag hother
        noStruct := fun htag => by
          obtain ⟨hstruct, -⟩ | ⟨-, hnone, -⟩ := hstruct
          · exact absurd hstruct htag
          · exact hnone
        index_le := hmax
        boolIndex := fun htag => by
          obtain ⟨-, hzero, -⟩ | ⟨hother, -⟩ := hindex
          · exact hzero
          · exact absurd htag hother
        noBool := fun htag => by
          obtain ⟨hbool, -⟩ | ⟨-, hfalse, -⟩ := hindex
          · exact absurd hbool htag
          · exact hfalse }
  · rw [encode, htrail]
    rfl
  · simp only [lead, List.length_append]
    have hinfo : (Encode.u8 header.info).length = 1 := rfl
    omega

theorem encode_ok (h : header.Saved names) : ∃ bytes, header.encode = .ok bytes := by
  obtain ⟨trail, htrail⟩ := trail_ok h.index_le
  exact ⟨header.lead ++ trail, by rw [encode, htrail]; rfl⟩

/-- The headers that can be saved next to a table are the ones that are read with it.  One that
can be saved is written, and read back from exactly its bytes, wherever these stand and whatever
follows; the table has at most `2 ^ 31` names, as a name is written as an index.  One that is read
from any bytes can be saved, in no more bytes than these. -/
theorem saved_codec (names : NameTable) :
    (names.size ≤ 2 ^ 31 → ∀ header, header.Saved names → ∃ bytes, header.encode = .ok bytes ∧
      ∀ pos suffix, (⟨pos, bytes ++ suffix⟩ : Cursor).read (read names) =
        (.ok (some header), ⟨pos + bytes.length, suffix⟩)) ∧
    ∀ cursor header next, Cursor.read cursor (read names) = (.ok (some header), next) →
      header.Saved names ∧ ∃ used bytes, cursor.rest = used ++ next.rest ∧
        next.pos = cursor.pos + used.length ∧ header.encode = .ok bytes ∧
        bytes.length ≤ used.length := by
  refine ⟨fun hsize header hsaved => ?_, fun cursor header next hread => ?_⟩
  · obtain ⟨bytes, hbytes⟩ := encode_ok hsaved
    exact ⟨bytes, hbytes, takes_encode hsaved hsize hbytes⟩
  · obtain ⟨hsaved, bytes, hbytes, hpays⟩ := read_saved hread
    obtain ⟨used, hused, hpos, -⟩ := relocates_read names hread
    refine ⟨hsaved, used, bytes, hused, hpos, hbytes, ?_⟩
    rw [hused, List.length_append] at hpays
    omega

end Header

namespace WideHeader

def names : NameTable := ⟨["None", "Moves", "Vector"]⟩

/-- A vector in an array, at a place that takes four bytes. -/
def header : Header := ⟨⟨1⟩, .struct, 12, 0x4000, some ⟨2⟩, false⟩

theorem saved : header.Saved names where
  named := ⟨"Moves", ⟨"Moves", rfl, sameName_self _⟩, by decide +kernel⟩
  structNamed _ := ⟨⟨2⟩, "Vector", rfl, "Vector", rfl, sameName_self _⟩
  noStruct h := absurd rfl h
  index_le := by decide
  boolIndex h := by cases h
  noBool _ := rfl

/-- The size of the vector is stored in four bytes, where its class alone would do. -/
def stored : List UInt8 := [1, 0xfa, 2, 12, 0, 0, 0, 0xc0, 0, 0x40, 0, 7]

theorem stored_codec : names.size ≤ 2 ^ 31 ∧ header.Saved names ∧
    (Cursor.ofBytes stored).read (Header.read names) = (.ok (some header), ⟨11, [7]⟩) ∧
    ∃ used bytes, stored = used ++ [7] ∧ header.encode = .ok bytes ∧
      bytes.length ≤ used.length ∧ (⟨11, bytes ++ [7]⟩ : Cursor).read (Header.read names) =
        (.ok (some header), ⟨11 + bytes.length, [7]⟩) := by
  obtain ⟨hwrite, hread⟩ := Header.saved_codec names
  have hsize : names.size ≤ 2 ^ 31 := by decide
  have hstored : (Cursor.ofBytes stored).read (Header.read names) =
      (.ok (some header), ⟨11, [7]⟩) := by
    decide +kernel
  obtain ⟨hsaved, used, bytes, hused, -, hbytes, hshort⟩ := hread _ _ _ hstored
  obtain ⟨again, hagain, hback⟩ := hwrite hsize header saved
  obtain rfl := Except.ok.inj (hbytes.symm.trans hagain)
  exact ⟨hsize, hsaved, hstored, used, bytes, hused, hbytes, hshort, hback 11 [7]⟩

end WideHeader

end ObjectPackage
