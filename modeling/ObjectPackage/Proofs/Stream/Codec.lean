/-
Round trips of stream values.  Each read takes the bytes of a value back to the value,
whatever stands before and after them.
-/
import ObjectPackage.Proofs.ObjectTable
import ObjectPackage.Proofs.Stream.Read

namespace ObjectPackage

namespace Read

section Index

/-- Continuation bytes give the number back that they were made of. -/
theorem takes_indexTail (start : Nat) {more number : Nat} (hnonzero : number ≠ 0)
    (hlt : number < 128 ^ more) :
    (indexTail start more).Takes (Encode.indexTail more number) number := by
  induction more generalizing number with
  | zero =>
      rw [Nat.pow_zero] at hlt
      omega
  | succ more ih =>
      have hhigh : number / 128 < 128 ^ more := by
        rw [Nat.pow_succ] at hlt
        omega
      rw [Encode.indexTail, if_neg hnonzero, indexTail]
      by_cases hlast : number / 128 = 0
      · have hsmall : number < 128 := by omega
        have hbyte : (UInt8.ofNat number).toNat = number := UInt8.toNat_ofNat_of_lt' (show _ < 256 by omega)
        have hnone : Encode.indexTail more 0 = [] := by cases more <;> rfl
        simp only [hlast, if_true, Nat.add_zero, Nat.mod_eq_of_lt hsmall, hnone]
        refine (takes_u8 _).bind_nil ?_
        simp only [hbyte, if_pos hsmall, Nat.mod_eq_of_lt hsmall]
        exact .pure _
      · have hbyte : (UInt8.ofNat (number % 128 + 128)).toNat = number % 128 + 128 :=
          UInt8.toNat_ofNat_of_lt' (show _ < 256 by omega)
        have hlow : (number % 128 + 128) % 128 = number % 128 := by omega
        have hmore : ¬number % 128 + 128 < 128 := by omega
        have hsplit : number % 128 + 128 * (number / 128) = number := Nat.mod_add_div number 128
        simp only [hlast, if_false]
        refine (takes_u8 _).bind ?_
        simp only [hbyte, if_neg hmore, hlow]
        have hrest := (ih hlast hhigh).map fun tail => number % 128 + 128 * tail
        rwa [hsplit] at hrest

theorem takes_position {α : Type} {next : Nat → Read α} {input : List UInt8} {value : α}
    (h : ∀ start, (next start).Takes input value) : (position >>= next).Takes input value :=
  fun pos rest => h pos pos rest

theorem takes_index (value : Int32) : index.Takes (Encode.index value) value := by
  have hlow := value.le_toInt
  have hhigh := value.toInt_lt
  obtain ⟨magnitude, hmagnitude⟩ : ∃ magnitude, value.toInt.natAbs = magnitude := ⟨_, rfl⟩
  obtain ⟨sign, hsign⟩ : ∃ sign, (if value.toInt < 0 then 128 else 0) = sign := ⟨_, rfl⟩
  obtain ⟨mark, hmark⟩ : ∃ mark, (if magnitude / 64 = 0 then 0 else 64) = mark := ⟨_, rfl⟩
  have hsigns : value.toInt < 0 ∧ sign = 128 ∨ 0 ≤ value.toInt ∧ sign = 0 := by
    split at hsign <;> omega
  have hmarks : magnitude / 64 = 0 ∧ mark = 0 ∨ magnitude / 64 ≠ 0 ∧ mark = 64 := by
    split at hmark <;> omega
  have hbyte : (UInt8.ofNat (magnitude % 64 + sign + mark)).toNat = magnitude % 64 + sign + mark :=
    UInt8.toNat_ofNat_of_lt' (show _ < 256 by omega)
  have hbits : (magnitude % 64 + sign + mark) % 64 = magnitude % 64 := by omega
  -- with the right tail the sign and the magnitude make the number again
  have hend (start tail : Nat) (htail : magnitude % 64 + 64 * tail = magnitude) :
      Takes (do
        let value := if 128 ≤ magnitude % 64 + sign + mark then -Int.ofNat (magnitude % 64 + 64 * tail)
          else Int.ofNat (magnitude % 64 + 64 * tail)
        if Int32.minValue.toInt ≤ value ∧ value ≤ Int32.maxValue.toInt then
          pure (Int32.ofInt value)
        else throw (.indexOverflow start)) [] value := by
    have hvalue : (if 128 ≤ magnitude % 64 + sign + mark then -Int.ofNat magnitude
        else Int.ofNat magnitude) = value.toInt := by
      simp only [Int.ofNat_eq_natCast]
      split <;> omega
    simp only [htail, hvalue, Int32.ofInt_toInt]
    rw [if_pos ⟨value.minValue_le_toInt, value.toInt_le⟩]
    exact .pure _
  rw [Encode.index]
  simp only [hmagnitude, hsign, hmark, index]
  change Takes _ (Encode.u8 _ ++ Encode.indexTail 4 (magnitude / 64)) value
  refine takes_position fun start => ?_
  refine (takes_u8 _).bind ?_
  simp only [hbyte, hbits]
  by_cases hsmall : magnitude / 64 = 0
  · have hnomark : ¬(magnitude % 64 + sign + mark) / 64 % 2 = 1 := by omega
    have hnone : Encode.indexTail 4 (magnitude / 64) = [] := by rw [hsmall]; rfl
    rw [if_neg hnomark, hnone]
    exact (Takes.pure 0).bind (hend start 0 (by omega))
  · have hmarked : (magnitude % 64 + sign + mark) / 64 % 2 = 1 := by omega
    rw [if_pos hmarked]
    exact (takes_indexTail start hsmall (by norm_num; omega)).bind_nil
      (hend start (magnitude / 64) (by omega))

end Index

theorem toNat_ofNat_byte (number : Nat) : (UInt8.ofNat number).toNat = number % 256 :=
  UInt8.toNat_ofNat'

theorem takes_arrayIndex {value : UInt32} {bytes : List UInt8}
    (h : Encode.arrayIndex value = .ok bytes) : arrayIndex.Takes bytes value := by
  obtain ⟨number, hnumber⟩ : ∃ number, value.toNat = number := ⟨_, rfl⟩
  have hvalue : UInt32.ofNat number = value := by rw [← hnumber, UInt32.ofNat_toNat]
  simp only [Encode.arrayIndex, hnumber, Encode.maxArrayIndex] at h
  rw [arrayIndex]
  split at h
  · next hone =>
      obtain rfl := Except.ok.inj h
      refine (takes_u8 _).bind_nil ?_
      have hfirst : number % 256 = number := by omega
      simp only [toNat_ofNat_byte, hfirst, if_pos hone, hvalue]
      exact .pure _
  · split at h
    · next hone htwo =>
        obtain rfl := Except.ok.inj h
        refine (takes_u8 _).bind (?_ : Takes _ (Encode.u8 _) _)
        have hfirst : (number / 256 + 128) % 256 = number / 256 + 128 := by omega
        have hhigh : ¬number / 256 + 128 < 128 := by omega
        have hlow : number / 256 + 128 < 192 := by omega
        have hsum : (number / 256 + 128) % 128 * 256 + number % 256 = number := by omega
        simp only [toNat_ofNat_byte, hfirst, if_neg hhigh, if_pos hlow]
        refine (takes_u8 _).bind_nil ?_
        rw [toNat_ofNat_byte, hsum, hvalue]
        exact .pure _
    · split at h
      · next hone htwo hfour =>
          obtain rfl := Except.ok.inj h
          have hfirst : (number + 0xc0000000) / 256 / 256 / 256 % 256 = number / 16777216 + 192 := by
            omega
          have hhigh : ¬number / 16777216 + 192 < 128 := by omega
          have hlow : ¬number / 16777216 + 192 < 192 := by omega
          have hsum : (((number / 16777216 + 192) % 64 * 256 +
              (number + 0xc0000000) / 256 / 256 % 256) * 256 +
              (number + 0xc0000000) / 256 % 256) * 256 + (number + 0xc0000000) % 256 = number := by
            omega
          change Takes _ (Encode.u8 _ ++ (Encode.u8 _ ++ (Encode.u8 _ ++ Encode.u8 _))) _
          refine (takes_u8 _).bind ?_
          simp only [toNat_ofNat_byte, hfirst, if_neg hhigh, if_neg hlow]
          refine (takes_u8 _).bind ((takes_u8 _).bind ((takes_u8 _).bind_nil ?_))
          rw [toNat_ofNat_byte, toNat_ofNat_byte, toNat_ofNat_byte, hsum, hvalue]
          exact .pure _
      · cases h

theorem arrayIndex_le {value : UInt32} {bytes : List UInt8}
    (h : Encode.arrayIndex value = .ok bytes) : value.toNat ≤ Encode.maxArrayIndex := by
  by_contra hlarge
  have hmax : Encode.maxArrayIndex < value.toNat := Nat.lt_of_not_le hlarge
  have hone : ¬value.toNat < 0x80 := fun hsmall => by simp [Encode.maxArrayIndex] at hmax; omega
  have htwo : ¬value.toNat < 0x4000 := fun hsmall => by simp [Encode.maxArrayIndex] at hmax; omega
  simp only [Encode.arrayIndex, if_neg hone, if_neg htwo, if_neg hlarge] at h
  cases h

/-- Array indices of up to thirty bits have a byte form. -/
theorem arrayIndex_ok {value : UInt32} (h : value.toNat ≤ Encode.maxArrayIndex) :
    ∃ bytes, Encode.arrayIndex value = .ok bytes := by
  simp only [Encode.arrayIndex]
  split
  · exact ⟨_, rfl⟩
  · split
    · exact ⟨_, rfl⟩
    · exact ⟨_, rfl⟩

theorem takes_name {names : NameTable} {id : NameId} (hid : id.index < names.size)
    (hfits : id.index < 2 ^ 31) : (name names).Takes (Encode.name id) id := by
  have hvalue : id.val.toInt32.toInt = id.index := toInt_toInt32_of_lt hfits
  refine (takes_index _).bind_nil ?_
  have hrange : ¬((id.index : Int) < 0 ∨ Int.ofNat names.size ≤ id.index) := by
    simp only [Int.ofNat_eq_natCast]
    omega
  simp only [hvalue, if_neg hrange, Int.toNat_natCast]
  have hid : NameId.ofIndex id.index = id := by
    rw [NameId.ofIndex, NameId.index, UInt32.ofNat_toNat]
  rw [hid]
  exact .pure _

theorem takes_handle {objects : ObjectTable} {reference : ObjectRef} {handle : ObjectHandle}
    (h : objects.resolve reference = .ok handle) :
    (Read.handle objects).Takes (Encode.object handle.toRef) handle := by
  rw [ObjectTable.toRef_of_resolve h]
  refine ((takes_index _).map ObjectRef.mk).bind_nil ?_
  rw [h]
  exact .pure _

section Text

theorem charsOfUnits?_charUnits (c : Char) (rest : List UInt16) :
    charsOfUnits? (charUnits c ++ rest) = (charsOfUnits? rest).map (c :: ·) := by
  have hvalid : c.toNat < 0xd800 ∨ 0xdfff < c.toNat ∧ c.toNat < 0x110000 := c.valid
  have hunit (number : Nat) (h : number < 0x10000) : (UInt16.ofNat number).toNat = number :=
    UInt16.toNat_ofNat_of_lt' h
  rw [charUnits]
  split
  · next hbasic =>
      have hhigh : isHighSurrogate (UInt16.ofNat c.toNat) = false := by
        simp only [isHighSurrogate, hunit _ hbasic, Bool.and_eq_false_iff, decide_eq_false_iff_not]
        omega
      have hlow : isLowSurrogate (UInt16.ofNat c.toNat) = false := by
        simp only [isLowSurrogate, hunit _ hbasic, Bool.and_eq_false_iff, decide_eq_false_iff_not]
        omega
      rw [List.singleton_append, charsOfUnits?.eq_def]
      simp [hhigh, hlow, hunit _ hbasic]
  · next hlarge =>
      obtain ⟨high, hhigh⟩ : ∃ high, 0xd800 + (c.toNat - 0x10000) / 0x400 = high := ⟨_, rfl⟩
      obtain ⟨low, hlow⟩ : ∃ low, 0xdc00 + (c.toNat - 0x10000) % 0x400 = low := ⟨_, rfl⟩
      have hhighUnit := hunit high (by omega)
      have hlowUnit := hunit low (by omega)
      have hisHigh : isHighSurrogate (UInt16.ofNat high) = true := by
        simp only [isHighSurrogate, hhighUnit, Bool.and_eq_true, decide_eq_true_eq]
        omega
      have hisLow : isLowSurrogate (UInt16.ofNat low) = true := by
        simp only [isLowSurrogate, hlowUnit, Bool.and_eq_true, decide_eq_true_eq]
        omega
      have hpair : pairedChar (UInt16.ofNat high) (UInt16.ofNat low) = c := by
        rw [pairedChar, hhighUnit, hlowUnit]
        have hsum : 0x10000 + (high - 0xd800) * 0x400 + (low - 0xdc00) = c.toNat := by omega
        rw [hsum, Char.ofNat_toNat]
      rw [hhigh, hlow, List.cons_append, List.singleton_append, charsOfUnits?.eq_def]
      simp [hisHigh, hisLow, hpair]

theorem textOfUnits?_utf16Units (text : String) : textOfUnits? (utf16Units text) = some text := by
  have hchars (chars : List Char) : charsOfUnits? (chars.flatMap charUnits) = some chars := by
    induction chars with
    | nil => rfl
    | cons c rest ih => rw [List.flatMap_cons, charsOfUnits?_charUnits, ih, Option.map_some]
  rw [textOfUnits?, utf16Units, hchars, Option.map_some, String.ofList_toList]

theorem latin1_latin1Byte {text : String} (h : isLatin1 text = true) :
    latin1 (text.toList.map latin1Byte) = text := by
  have hchars (chars : List Char) (h : ∀ c ∈ chars, c.toNat ≤ 0xff) :
      (chars.map latin1Byte).map (fun byte => Char.ofNat byte.toNat) = chars := by
    induction chars with
    | nil => rfl
    | cons c rest ih =>
        have hc := h c List.mem_cons_self
        have hrest := ih fun c hc => h c (List.mem_cons_of_mem _ hc)
        have hbyte : (UInt8.ofNat c.toNat).toNat = c.toNat :=
          UInt8.toNat_ofNat_of_lt' (show c.toNat < 256 by omega)
        rw [List.map_cons, List.map_cons, hrest, latin1Byte, if_pos hc, hbyte, Char.ofNat_toNat]
  have hall : ∀ c ∈ text.toList, c.toNat ≤ 0xff := by simpa [isLatin1] using h
  rw [latin1, hchars _ hall, String.ofList_toList]

theorem length_le_utf16Units (text : String) : text.toList.length ≤ (utf16Units text).length := by
  rw [utf16Units]
  induction text.toList with
  | nil => exact Nat.le_refl _
  | cons c rest ih =>
      have hunits : 1 ≤ (charUnits c).length := by
        rw [charUnits]
        split <;> simp
      simp only [List.flatMap_cons, List.length_append, List.length_cons]
      omega

theorem takes_units (list : List UInt16) :
    (units list.length).Takes (list.flatMap Encode.u16) list := by
  induction list with
  | nil => exact .pure _
  | cons unit rest ih => exact (takes_u16 unit).bind (ih.map (unit :: ·))

/-- Text is read back if its count of units, terminator included, fits an index. -/
theorem takes_string {text : String} (h : (utf16Units text).length + 1 < 2 ^ 31) :
    string.Takes (Encode.string text) text := by
  have hlength := length_le_utf16Units text
  rw [Encode.string, string]
  refine takes_position fun start => ?_
  split
  · next hempty =>
      obtain rfl : text = "" := by simpa using hempty
      exact (takes_index 0).bind_nil (.pure _)
  · split
    · next hlatin =>
        have hcount : (Int32.ofNat (text.toList.length + 1)).toInt = (text.toList.length + 1 : Nat) :=
          Int32.toInt_ofNat_of_lt (by omega)
        refine (takes_index _).bind ?_
        have hzero : ¬((text.toList.length + 1 : Nat) : Int) = 0 := by omega
        have hpos : 0 < ((text.toList.length + 1 : Nat) : Int) := by omega
        simp only [hcount, if_neg hzero, if_pos hpos, Int.toNat_natCast]
        have hbytes := takes_bytes (Encode.asciiZ text)
        rw [Encode.asciiZ, List.length_append, List.length_map] at hbytes
        refine hbytes.bind_nil ?_
        simp only [List.getLast?_concat, if_true, List.dropLast_concat, latin1_latin1Byte hlatin]
        exact .pure _
    · have hcount : (-Int32.ofNat ((utf16Units text).length + 1)).toInt =
          -(((utf16Units text).length + 1 : Nat) : Int) := by
        rw [Int32.toInt_neg, Int32.toInt_ofNat_of_lt h]
        simp only [Int.bmod]
        omega
      refine (takes_index _).bind ?_
      have hzero : ¬-(((utf16Units text).length + 1 : Nat) : Int) = 0 := by omega
      have hneg : ¬0 < -(((utf16Units text).length + 1 : Nat) : Int) := by omega
      simp only [hcount, if_neg hzero, if_neg hneg, Int.natAbs_neg, Int.natAbs_natCast]
      have hunits := takes_units (utf16Units text ++ [0])
      rw [List.length_append, List.flatMap_append] at hunits
      refine hunits.bind_nil ?_
      simp only [List.getLast?_concat, if_true, List.dropLast_concat, textOfUnits?_utf16Units]
      exact .pure _

end Text

end Read

end ObjectPackage
