/-
Words and the bits of their bytes.  A word that is written is read back up to its
width, and each bit of a little-endian word is a bit of one of its bytes.
-/
import Mathlib
import ObjectPackage.Bytes

namespace ObjectPackage

theorem ofLittleEndian_littleEndian (count value : Nat) :
    ofLittleEndian (littleEndian count value) = value % 256 ^ count := by
  induction count generalizing value with
  | zero => simp [littleEndian, ofLittleEndian, Nat.mod_one]
  | succ count ih =>
      have hsplit : value % 256 ^ (count + 1) =
          value % 256 + 256 * (value / 256 % 256 ^ count) := by
        rw [Nat.pow_succ, Nat.mul_comm (256 ^ count) 256, Nat.mod_mul]
      rw [hsplit]
      simp [littleEndian, ofLittleEndian, ih]

theorem ofLittleEndian_lt (bytes : List UInt8) :
    ofLittleEndian bytes < 256 ^ bytes.length := by
  induction bytes with
  | nil => simp [ofLittleEndian]
  | cons byte rest ih =>
      have hbyte := byte.toNat_lt
      simp only [ofLittleEndian, List.length_cons, Nat.pow_succ]
      omega

theorem uint8_ofLittleEndian (byte : UInt8) : UInt8.ofNat (ofLittleEndian [byte]) = byte := by
  simp only [ofLittleEndian, Nat.mul_zero, Nat.add_zero, UInt8.ofNat_toNat]

theorem uint32_ofLittleEndian (word : UInt32) :
    UInt32.ofNat (ofLittleEndian (littleEndian 4 word.toNat)) = word := by
  rw [ofLittleEndian_littleEndian, Nat.mod_eq_of_lt (show _ < 256 ^ 4 from word.toNat_lt),
    UInt32.ofNat_toNat]

theorem uint64_ofLittleEndian (word : UInt64) :
    UInt64.ofNat (ofLittleEndian (littleEndian 8 word.toNat)) = word := by
  rw [ofLittleEndian_littleEndian, Nat.mod_eq_of_lt (show _ < 256 ^ 8 from word.toNat_lt),
    UInt64.ofNat_toNat]

/-- A bit of some bytes, counted from the lowest bit of the first byte. -/
def bitAt (bytes : Array UInt8) (bit : Nat) : Bool :=
  (bytes.getD (bit / 8) 0).toNat.testBit (bit % 8)

theorem uint8_eq_of_testBit {left right : UInt8}
    (h : ∀ bit < 8, left.toNat.testBit bit = right.toNat.testBit bit) : left = right := by
  apply UInt8.toNat_inj.mp
  apply Nat.eq_of_testBit_eq
  intro bit
  by_cases hbit : bit < 8
  · exact h bit hbit
  · have hpow : 2 ^ 8 ≤ 2 ^ bit := Nat.pow_le_pow_right (by decide) (by omega)
    rw [Nat.testBit_lt_two_pow (Nat.lt_of_lt_of_le left.toNat_lt hpow),
      Nat.testBit_lt_two_pow (Nat.lt_of_lt_of_le right.toNat_lt hpow)]

theorem getD_eq_of_bitAt {left right : Array UInt8} {index : Nat}
    (h : ∀ bit < 8, bitAt left (8 * index + bit) = bitAt right (8 * index + bit)) :
    left.getD index 0 = right.getD index 0 := by
  apply uint8_eq_of_testBit
  intro bit hbit
  have hbits := h bit hbit
  have hdiv : (8 * index + bit) / 8 = index := by omega
  have hmod : (8 * index + bit) % 8 = bit := by omega
  rwa [bitAt, bitAt, hdiv, hmod] at hbits

theorem eq_of_bitAt {left right : Array UInt8} (hsize : left.size = right.size)
    (h : ∀ bit, bitAt left bit = bitAt right bit) : left = right := by
  apply Array.ext hsize
  intro index hleft hright
  have hindex := @getD_eq_of_bitAt left right index fun bit _ => h _
  simpa [Array.getD, hleft, hright] using hindex

theorem testBit_ofLittleEndian (bytes : List UInt8) (bit : Nat) :
    (ofLittleEndian bytes).testBit bit = (bytes.getD (bit / 8) 0).toNat.testBit (bit % 8) := by
  induction bytes generalizing bit with
  | nil => simp [ofLittleEndian]
  | cons byte rest ih =>
      have hsplit : ofLittleEndian (byte :: rest) = 2 ^ 8 * ofLittleEndian rest + byte.toNat := by
        rw [ofLittleEndian, Nat.add_comm]
        rfl
      rw [hsplit, Nat.testBit_two_pow_mul_add _ byte.toNat_lt]
      split
      · next hlow =>
          have hdiv : bit / 8 = 0 := by omega
          have hmod : bit % 8 = bit := by omega
          rw [hdiv, hmod]
          rfl
      · next hhigh =>
          obtain ⟨more, rfl⟩ := Nat.exists_eq_add_of_le (Nat.le_of_not_lt hhigh)
          have hdiv : (8 + more) / 8 = more / 8 + 1 := by omega
          have hmod : (8 + more) % 8 = more % 8 := by omega
          rw [Nat.add_sub_cancel_left, ih, hdiv, hmod, List.getD_cons_succ]

theorem testBit_littleEndian {count number bit : Nat} (h : bit < 8 * count) :
    ((littleEndian count number).getD (bit / 8) 0).toNat.testBit (bit % 8) =
      number.testBit bit := by
  rw [← testBit_ofLittleEndian, ofLittleEndian_littleEndian]
  have hpow : 256 ^ count = 2 ^ (8 * count) := by rw [Nat.pow_mul]
  rw [hpow, Nat.testBit_mod_two_pow, decide_eq_true h, Bool.true_and]

theorem lt_of_testBit {mask : UInt32} {bit : Nat} (h : mask.toNat.testBit bit = true) :
    bit < 32 := by
  by_contra hlarge
  have hpow : 2 ^ 32 ≤ 2 ^ bit := Nat.pow_le_pow_right (by decide) (by omega)
  rw [Nat.testBit_lt_two_pow (Nat.lt_of_lt_of_le mask.toNat_lt hpow)] at h
  cases h

theorem testBit_complement (word : UInt32) {bit : Nat} (h : bit < 32) :
    (~~~word).toNat.testBit bit = !word.toNat.testBit bit := by
  change (~~~word).toBitVec.toNat.testBit bit = !word.toBitVec.toNat.testBit bit
  rw [BitVec.testBit_toNat, BitVec.testBit_toNat, UInt32.toBitVec_not, BitVec.getLsbD_not,
    decide_eq_true h, Bool.true_and]

theorem ne_zero_iff_testBit {word : UInt32} :
    word ≠ 0 ↔ ∃ bit, word.toNat.testBit bit = true := by
  constructor
  · intro hne
    by_contra hnone
    refine hne (UInt32.toNat_inj.mp (Nat.eq_of_testBit_eq fun bit => ?_))
    simpa using fun hbit => hnone ⟨bit, hbit⟩
  · rintro ⟨bit, hbit⟩ rfl
    simp at hbit

/-- A masked word is not zero when one of the bits of the mask is set. -/
theorem masked_ne_zero {word : Nat} {mask : UInt32} :
    (UInt32.ofNat word &&& mask != 0) = true ↔
      ∃ bit, mask.toNat.testBit bit = true ∧ word.testBit bit = true := by
  rw [bne_iff_ne, ne_zero_iff_testBit]
  refine exists_congr fun bit => ?_
  rw [UInt32.toNat_and, Nat.testBit_and, UInt32.toNat_ofNat', Nat.testBit_mod_two_pow,
    Bool.and_eq_true, Bool.and_eq_true, decide_eq_true_iff]
  constructor
  · rintro ⟨⟨-, hword⟩, hmask⟩
    exact ⟨hmask, hword⟩
  · rintro ⟨hmask, hword⟩
    exact ⟨⟨lt_of_testBit hmask, hword⟩, hmask⟩

end ObjectPackage
