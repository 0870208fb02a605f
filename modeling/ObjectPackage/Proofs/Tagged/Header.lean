/-
Headers of entries.  A header whose names are in the table is read back from the bytes
that are saved for it, whatever size class its payload has.
-/
import ObjectPackage.Proofs.NameTable
import ObjectPackage.Proofs.Stream.Codec
import ObjectPackage.Tagged.Header

namespace ObjectPackage

namespace Header

/-- A header that can be saved next to a name table and is not the terminator. -/
structure Saved (names : NameTable) (header : Header) : Prop where
  named : ∃ name, names.Names header.name name ∧ sameName name noneName = false
  structNamed : header.tag = .struct → ∃ id name, header.structName = some id ∧ names.Names id name
  noStruct : header.tag ≠ .struct → header.structName = none
  index_le : header.arrayIndex.toNat ≤ Encode.maxArrayIndex
  boolIndex : header.tag = .bool → header.arrayIndex = 0
  noBool : header.tag ≠ .bool → header.boolValue = false

theorem sizeClass_cases (size : UInt32) :
    (∃ index < 5, sizeClass size = index ∧ fixedSizes[index]? = some size.toNat) ∨
      (sizeClass size = 5 ∧ size.toNat ≤ 0xff) ∨ (sizeClass size = 6 ∧ size.toNat ≤ 0xffff) ∨
        sizeClass size = 7 := by
  rw [sizeClass]
  split
  · next index hindex =>
      obtain ⟨hlt, hsize, -⟩ := List.findIdx?_eq_some_iff_getElem.mp hindex
      refine Or.inl ⟨index, hlt, rfl, ?_⟩
      rw [List.getElem?_eq_getElem hlt, beq_iff_eq.mp hsize]
  · split
    · next hone => exact Or.inr (Or.inl ⟨rfl, hone⟩)
    · split
      · next htwo => exact Or.inr (Or.inr (Or.inl ⟨rfl, htwo⟩))
      · exact Or.inr (Or.inr (Or.inr rfl))

theorem sizeClass_lt (size : UInt32) : sizeClass size < 8 := by
  rcases sizeClass_cases size with ⟨index, hindex, hclass, -⟩ | ⟨hclass, -⟩ | ⟨hclass, -⟩ | hclass
  all_goals omega

theorem takes_size (size : UInt32) : (readSize (sizeClass size)).Takes (sizeBytes size) size := by
  rcases sizeClass_cases size with ⟨index, hindex, hclass, hfixed⟩ | ⟨hclass, hmax⟩ |
    ⟨hclass, hmax⟩ | hclass
  · have hnone : sizeBytes size = [] := by
      rw [sizeBytes, hclass]
      split <;> first | omega | rfl
    rw [readSize, hclass, hfixed, hnone]
    simp only [UInt32.ofNat_toNat]
    exact .pure size
  · have hbytes : sizeBytes size = Encode.u8 (UInt8.ofNat size.toNat) := by
      rw [sizeBytes, hclass]
      rfl
    have hread : readSize 5 = (fun byte : UInt8 => UInt32.ofNat byte.toNat) <$> Read.u8 := rfl
    have htake := (Read.takes_u8 (UInt8.ofNat size.toNat)).map fun byte => UInt32.ofNat byte.toNat
    rw [UInt8.toNat_ofNat_of_lt' (show _ < 256 by omega), UInt32.ofNat_toNat] at htake
    rw [hclass, hread, hbytes]
    exact htake
  · have hbytes : sizeBytes size = Encode.u16 (UInt16.ofNat size.toNat) := by
      rw [sizeBytes, hclass, Encode.u16, UInt16.toNat_ofNat_of_lt' (show _ < 65536 by omega)]
      rfl
    have hread : readSize 6 = (fun word : UInt16 => UInt32.ofNat word.toNat) <$> Read.u16 := rfl
    have htake := (Read.takes_u16 (UInt16.ofNat size.toNat)).map fun word => UInt32.ofNat word.toNat
    rw [UInt16.toNat_ofNat_of_lt' (show _ < 65536 by omega), UInt32.ofNat_toNat] at htake
    rw [hclass, hread, hbytes]
    exact htake
  · have hbytes : sizeBytes size = Encode.u32 size := by
      rw [sizeBytes, hclass]
      rfl
    rw [hclass, hbytes]
    exact Read.takes_u32 size

theorem toNat_info (header : Header) : header.info.toNat =
    header.tag.code.toNat + 16 * sizeClass header.size + if header.highBit then 128 else 0 := by
  have hcode : header.tag.code.toNat < 16 := by cases header.tag <;> decide
  have hclass := sizeClass_lt header.size
  have hhigh : (if header.highBit then 128 else 0 : UInt8).toNat =
      if header.highBit then 128 else 0 := by
    split <;> rfl
  rw [info, UInt8.toNat_add, UInt8.toNat_add, hhigh,
    UInt8.toNat_ofNat_of_lt' (show _ < 256 by omega)]
  split <;> omega

theorem ofByte_info (header : Header) : TypeTag.ofByte header.info = header.tag := by
  have hcode : header.tag.code.toNat < 16 := by cases header.tag <;> decide
  have hlow : header.info.toNat % 16 = header.tag.code.toNat := by
    rw [toNat_info]
    split <;> omega
  rw [TypeTag.ofByte, hlow]
  cases header.tag <;> rfl

theorem sizeClass_info (header : Header) : header.info.toNat / 16 % 8 = sizeClass header.size := by
  have hcode : header.tag.code.toNat < 16 := by cases header.tag <;> decide
  have hclass := sizeClass_lt header.size
  rw [toNat_info]
  split <;> omega

theorem highBit_info (header : Header) : decide (128 ≤ header.info.toNat) = header.highBit := by
  have hcode : header.tag.code.toNat < 16 := by cases header.tag <;> decide
  have hclass := sizeClass_lt header.size
  rw [toNat_info]
  cases header.highBit with
  | true => exact decide_eq_true (by simp only [if_true]; omega)
  | false => exact decide_eq_false (by simp only [Bool.false_eq_true, if_false]; omega)

/-- The reader of what stands behind the type byte and the name of a struct. -/
def readRest (id : NameId) (info : UInt8) (structName : Option NameId) : Read (Option Header) := do
  let size ← readSize (info.toNat / 16 % 8)
  let high : Bool := 128 ≤ info.toNat
  if TypeTag.ofByte info = .bool then
    return some ⟨id, TypeTag.ofByte info, size, 0, structName, high⟩
  else
    let arrayIndex ← if high then Read.arrayIndex else pure 0
    return some ⟨id, TypeTag.ofByte info, size, arrayIndex, structName, false⟩

theorem read_eq (names : NameTable) : read names = (do
    let id ← Read.name names
    if names.isNone id then return none
    let info ← Read.u8
    let structName ← if TypeTag.ofByte info = .struct then some <$> Read.name names else pure none
    readRest id info structName) := rfl

theorem takes_rest {names : NameTable} {header : Header} (h : header.Saved names)
    {trail : List UInt8} (htrail : header.trail = .ok trail) :
    (readRest header.name header.info header.structName).Takes (sizeBytes header.size ++ trail)
      (some header) := by
  rw [readRest]
  simp only [ofByte_info, sizeClass_info, highBit_info]
  refine (takes_size _).bind ?_
  rw [Header.trail] at htrail
  by_cases htag : header.tag = .bool
  · simp only [htag, ne_eq, not_true_eq_false, and_false, if_false] at htrail
    obtain rfl := Except.ok.inj htrail
    have hheader : (⟨header.name, .bool, header.size, 0, header.structName, header.highBit⟩ :
        Header) = header := by
      rw [highBit, if_pos htag, ← h.boolIndex htag, ← htag]
    simp only [htag, if_true, hheader]
    exact .pure _
  · have hheader : (⟨header.name, header.tag, header.size, header.arrayIndex, header.structName,
        false⟩ : Header) = header := by
      rw [← h.noBool htag]
    have hhigh : header.highBit = (header.arrayIndex != 0) := by rw [highBit, if_neg htag]
    simp only [htag, if_false, ne_eq, not_false_eq_true, and_true] at htrail ⊢
    cases hbit : header.highBit with
    | true =>
        simp only [hbit, if_true] at htrail ⊢
        refine (Read.takes_arrayIndex htrail).bind_nil ?_
        rw [hheader]
        exact .pure _
    | false =>
        simp only [hbit, Bool.false_eq_true, if_false] at htrail ⊢
        obtain rfl := Except.ok.inj htrail
        have hzero : header.arrayIndex = 0 := by
          rw [hbit] at hhigh
          simpa using hhigh.symm
        rw [hzero] at hheader
        exact (Read.Takes.pure 0).bind (by rw [hheader]; exact .pure _)

/-- A saved header is read back. -/
theorem takes_encode {names : NameTable} {header : Header} (h : header.Saved names)
    (hsize : names.size ≤ 2 ^ 31) {bytes : List UInt8} (hbytes : header.encode = .ok bytes) :
    (read names).Takes bytes (some header) := by
  obtain ⟨trail, htrail, hlead⟩ := bind_eq_ok.mp hbytes
  obtain rfl := Except.ok.inj hlead
  obtain ⟨name, hname, hnone⟩ := h.named
  have hrest := takes_rest h htrail
  rw [read_eq, lead]
  simp only [List.append_assoc]
  refine (Read.takes_name hname.index_lt (Nat.lt_of_lt_of_le hname.index_lt hsize)).bind ?_
  simp only [hname.isNone, hnone, Bool.false_eq_true, if_false]
  refine (Read.takes_u8 _).bind ?_
  simp only [ofByte_info]
  by_cases htag : header.tag = .struct
  · obtain ⟨id, _, hid, hid'⟩ := h.structNamed htag
    simp only [htag, if_true, hid, Option.getD_some] at hrest ⊢
    exact ((Read.takes_name hid'.index_lt (Nat.lt_of_lt_of_le hid'.index_lt hsize)).map some).bind hrest
  · simp only [htag, if_false, List.nil_append]
    rw [h.noStruct htag] at hrest
    exact (Read.Takes.pure none).bind hrest

/-- The name of the terminator ends a list. -/
theorem takes_terminator {names : NameTable} {id : NameId} {name : String}
    (h : names.Names id name) (hnone : sameName name noneName = true) (hsize : names.size ≤ 2 ^ 31) :
    (read names).Takes (Encode.name id) none := by
  rw [read]
  refine (Read.takes_name h.index_lt (Nat.lt_of_lt_of_le h.index_lt hsize)).bind_nil ?_
  simp only [h.isNone, hnone, if_true]
  exact .pure none

theorem trail_ok {header : Header} (h : header.arrayIndex.toNat ≤ Encode.maxArrayIndex) :
    ∃ bytes, header.trail = .ok bytes := by
  rw [trail]
  split
  · exact Read.arrayIndex_ok h
  · exact ⟨[], rfl⟩

end Header

end ObjectPackage
