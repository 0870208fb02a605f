/-
Code points of UTF-8 bytes.  Each character is one to four bytes, told by the first of them, so
the bytes of a text are split where its characters are.
-/
import ObjectPackage.Json.Parse

namespace ObjectPackage

namespace JsonText

theorem isTail_iff {byte : UInt8} : isTail byte = true ↔ 0x80 ≤ byte.toNat ∧ byte.toNat ≤ 0xbf := by
  simp [isTail, UInt8.le_iff_toNat_le]

theorem isPair_iff {first second : UInt8} : isPair first second = true ↔
    (0xc2 ≤ first.toNat ∧ first.toNat ≤ 0xdf) ∧ isTail second = true := by
  simp [isPair, UInt8.le_iff_toNat_le]

theorem isTriple_iff {first second third : UInt8} : isTriple first second third = true ↔
    (isTail second = true ∧ isTail third = true) ∧
      ((((first.toNat = 0xe0 ∧ 0xa0 ≤ second.toNat ∨ first.toNat = 0xed ∧ second.toNat ≤ 0x9f) ∨
        0xe1 ≤ first.toNat ∧ first.toNat ≤ 0xec) ∨ first.toNat = 0xee) ∨ first.toNat = 0xef) := by
  simp [isTriple, UInt8.le_iff_toNat_le, ← UInt8.toNat_inj]

theorem isQuadruple_iff {first second third fourth : UInt8} :
    isQuadruple first second third fourth = true ↔
    ((isTail second = true ∧ isTail third = true) ∧ isTail fourth = true) ∧
      ((first.toNat = 0xf0 ∧ 0x90 ≤ second.toNat ∨ first.toNat = 0xf4 ∧ second.toNat ≤ 0x8f) ∨
        0xf1 ≤ first.toNat ∧ first.toNat ≤ 0xf3) := by
  simp [isQuadruple, UInt8.le_iff_toNat_le, ← UInt8.toNat_inj]

section Units

variable {first second third fourth : UInt8} {rest : List UInt8}

theorem not_single (h : 0x80 ≤ first.toNat) : ¬first < 0x80 :=
  mt UInt8.lt_iff_toNat_lt.mp (Nat.not_lt.mpr h)

theorem codesOfBytes_single (h : first.toNat < 0x80) :
    codesOfBytes (first :: rest) = first.toNat :: codesOfBytes rest := by
  have hlt : first < 0x80 := UInt8.lt_iff_toNat_lt.mpr h
  rw [codesOfBytes.eq_def]
  simp [hlt]

theorem codesOfBytes_pair (h : isPair first second = true) :
    codesOfBytes (first :: second :: rest) =
      (first.toNat % 32 * 64 + tailBits second) :: codesOfBytes rest := by
  obtain ⟨hfirst, -⟩ := isPair_iff.mp h
  have hlt := not_single (show 0x80 ≤ first.toNat by omega)
  rw [codesOfBytes.eq_def]
  simp [hlt, h]

theorem codesOfBytes_triple (h : isTriple first second third = true) :
    codesOfBytes (first :: second :: third :: rest) =
      ((first.toNat % 16 * 64 + tailBits second) * 64 + tailBits third) :: codesOfBytes rest := by
  obtain ⟨-, hfirst⟩ := isTriple_iff.mp h
  have hlt := not_single (show 0x80 ≤ first.toNat by omega)
  have hpair : isPair first second = false := by
    rw [Bool.eq_false_iff, ne_eq, isPair_iff]
    omega
  rw [codesOfBytes.eq_def]
  simp [hlt, hpair, h]

theorem codesOfBytes_quadruple (h : isQuadruple first second third fourth = true) :
    codesOfBytes (first :: second :: third :: fourth :: rest) =
      (((first.toNat % 8 * 64 + tailBits second) * 64 + tailBits third) * 64 + tailBits fourth) ::
        codesOfBytes rest := by
  obtain ⟨-, hfirst⟩ := isQuadruple_iff.mp h
  have hlt := not_single (show 0x80 ≤ first.toNat by omega)
  have hpair : isPair first second = false := by
    rw [Bool.eq_false_iff, ne_eq, isPair_iff]
    omega
  have htriple : isTriple first second third = false := by
    rw [Bool.eq_false_iff, ne_eq, isTriple_iff]
    omega
  rw [codesOfBytes.eq_def]
  simp [hlt, hpair, htriple, h]

end Units

/-- The bytes of a character stand for that character, whatever follows them. -/
theorem codesOfBytes_encodeChar (c : Char) (rest : List UInt8) :
    codesOfBytes (String.utf8EncodeChar c ++ rest) = c.toNat :: codesOfBytes rest := by
  have hvalid : c.toNat < 0xd800 ∨ 0xdfff < c.toNat ∧ c.toNat < 0x110000 := c.valid
  have hval : c.val.toNat = c.toNat := rfl
  simp only [String.utf8EncodeChar, hval]
  generalize c.toNat = code at hvalid
  -- one byte to four of them, by the size of the code
  split
  · have hfirst := UInt8.toNat_ofNat_of_lt' (show code < 256 by omega)
    rw [List.singleton_append, codesOfBytes_single (by omega), hfirst]
  split
  · have hfirst := UInt8.toNat_ofNat_of_lt' (show code / 64 % 32 + 192 < 256 by omega)
    have hsecond := UInt8.toNat_ofNat_of_lt' (show code % 64 + 128 < 256 by omega)
    refine (codesOfBytes_pair (isPair_iff.mpr ⟨by omega, isTail_iff.mpr (by omega)⟩)).trans ?_
    rw [tailBits, hfirst, hsecond]
    congr 1
    omega
  split
  · have hfirst := UInt8.toNat_ofNat_of_lt' (show code / 4096 % 16 + 224 < 256 by omega)
    have hsecond := UInt8.toNat_ofNat_of_lt' (show code / 64 % 64 + 128 < 256 by omega)
    have hthird := UInt8.toNat_ofNat_of_lt' (show code % 64 + 128 < 256 by omega)
    refine (codesOfBytes_triple (isTriple_iff.mpr
      ⟨⟨isTail_iff.mpr (by omega), isTail_iff.mpr (by omega)⟩, by omega⟩)).trans ?_
    rw [tailBits, tailBits, hfirst, hsecond, hthird]
    congr 1
    omega
  · have hfirst := UInt8.toNat_ofNat_of_lt' (show code / 262144 % 8 + 240 < 256 by omega)
    have hsecond := UInt8.toNat_ofNat_of_lt' (show code / 4096 % 64 + 128 < 256 by omega)
    have hthird := UInt8.toNat_ofNat_of_lt' (show code / 64 % 64 + 128 < 256 by omega)
    have hfourth := UInt8.toNat_ofNat_of_lt' (show code % 64 + 128 < 256 by omega)
    refine (codesOfBytes_quadruple (isQuadruple_iff.mpr
      ⟨⟨⟨isTail_iff.mpr (by omega), isTail_iff.mpr (by omega)⟩, isTail_iff.mpr (by omega)⟩,
        by omega⟩)).trans ?_
    rw [tailBits, tailBits, tailBits, hfirst, hsecond, hthird, hfourth]
    congr 1
    omega

/-- The bytes of a text stand for its characters. -/
theorem codesOfBytes_toUTF8 (text : String) :
    codesOfBytes text.toUTF8.data.toList = codesOfText text := by
  have hchars (chars : List Char) :
      codesOfBytes (chars.flatMap String.utf8EncodeChar) = chars.map Char.toNat := by
    induction chars with
    | nil => rfl
    | cons c chars ih => rw [List.flatMap_cons, codesOfBytes_encodeChar, ih, List.map_cons]
  obtain ⟨chars, rfl⟩ : ∃ chars, text = String.ofList chars := ⟨text.toList, by simp⟩
  simp [String.toUTF8, String.toByteArray_ofList, List.utf8Encode, codesOfText, hchars]

end JsonText

/-- The bytes of a text are read as the text is. -/
theorem JsonValue.ofBytes?_toUTF8 (text : String) :
    ofBytes? text.toUTF8.data.toList = ofText? text := by
  rw [ofBytes?, JsonText.codesOfBytes_toUTF8, ofText?]

end ObjectPackage
