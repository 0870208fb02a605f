/-
Handles and references.  A handle that a table resolved a reference to stands for that
reference again, and for no other one.
-/
import Mathlib
import ObjectPackage.ObjectTable

namespace ObjectPackage

theorem toInt_toInt32_of_lt {word : UInt32} (h : word.toNat < 2 ^ 31) :
    word.toInt32.toInt = word.toNat :=
  BitVec.toInt_eq_toNat_of_lt (show 2 * word.toNat < 2 ^ 32 by omega)

namespace ObjectHandle

/-- Positions of 32 bits leave the top bit of a handle alone. -/
theorem toNat_ofNat_add_one {index : Nat} (h : index < 2 ^ 31) :
    (UInt64.ofNat index + 1).toNat = index + 1 := by
  rw [UInt64.toNat_add, UInt64.toNat_ofNat_of_lt' (show _ < 2 ^ 64 by omega)]
  exact Nat.mod_eq_of_lt (show index + 1 < 2 ^ 64 by omega)

theorem and_importBit {index : Nat} (h : index < 2 ^ 31) :
    (UInt64.ofNat index + 1) &&& importBit = 0 := by
  apply UInt64.toNat_inj.mp
  rw [UInt64.toNat_and, toNat_ofNat_add_one h]
  apply Nat.eq_of_testBit_eq
  intro bit
  have hbit : importBit.toNat.testBit bit = decide (63 = bit) := @Nat.testBit_two_pow 63 bit
  rw [Nat.testBit_and, hbit, UInt64.toNat_zero, Nat.zero_testBit]
  by_cases htop : 63 = bit
  · subst htop
    rw [Nat.testBit_lt_two_pow (show index + 1 < 2 ^ 63 by omega), Bool.false_and]
  · rw [decide_eq_false htop, Bool.and_false]

/-- Setting bits that were clear and clearing them again changes nothing. -/
theorem or_and_not {left right : UInt64} (h : right &&& left = 0) :
    (left ||| right) &&& ~~~left = right := by
  apply UInt64.toBitVec_inj.mp
  apply BitVec.eq_of_getLsbD_eq
  intro bit hbit
  have hclear := congrArg (fun word : UInt64 => word.toBitVec.getLsbD bit) h
  simp at hclear ⊢
  cases hleft : left.toBitVec[bit] <;> cases hright : right.toBitVec[bit] <;> simp_all

theorem or_and_self (left right : UInt64) : (left ||| right) &&& left = left := by
  apply UInt64.toBitVec_inj.mp
  apply BitVec.eq_of_getLsbD_eq
  intro bit hbit
  simp
  tauto

/-- A position is cut to 32 bits without loss. -/
theorem toInt_position {index : Nat} (h : index < 2 ^ 31) :
    (UInt64.ofNat index + 1 - 1).toUInt32.toInt32.toInt = index := by
  have hword : (UInt64.ofNat index + 1 - 1).toUInt32.toNat = index := by
    rw [UInt64.add_sub_cancel, UInt64.toNat_toUInt32,
      UInt64.toNat_ofNat_of_lt' (show _ < 2 ^ 64 by omega)]
    exact Nat.mod_eq_of_lt (show index < 2 ^ 32 by omega)
  rw [toInt_toInt32_of_lt (by rw [hword]; exact h), hword]

theorem position_ne_zero {index : Nat} (h : index < 2 ^ 31) : UInt64.ofNat index + 1 ≠ 0 := by
  intro hzero
  have hnat := congrArg UInt64.toNat hzero
  rw [toNat_ofNat_add_one h, UInt64.toNat_zero] at hnat
  omega

theorem toRef_ofExport {index : Nat} (h : index < 2 ^ 31) :
    ∃ position : Int32, position.toInt = index ∧ (ofExport index).toRef = .ofExport position := by
  refine ⟨_, toInt_position h, ?_⟩
  simp [toRef, ofExport, position_ne_zero h, and_importBit h]

theorem toRef_ofImport {index : Nat} (h : index < 2 ^ 31) :
    ∃ position : Int32, position.toInt = index ∧ (ofImport index).toRef = .ofImport position := by
  refine ⟨_, toInt_position h, ?_⟩
  have hclear := or_and_not (and_importBit h)
  have htop : (importBit ||| (UInt64.ofNat index + 1)) &&& importBit ≠ 0 := by
    rw [or_and_self]
    decide
  have hnonzero : importBit ||| (UInt64.ofNat index + 1) ≠ 0 := by
    intro hzero
    rw [hzero] at htop
    exact htop rfl
  simp [toRef, ofImport, hnonzero, htop, hclear]

end ObjectHandle

theorem ObjectTable.toRef_of_resolve {table : ObjectTable} {reference : ObjectRef}
    {handle : ObjectHandle} (h : table.resolve reference = .ok handle) :
    handle.toRef = reference := by
  obtain ⟨value⟩ := reference
  have hlow := value.le_toInt
  have hhigh := value.toInt_lt
  simp only [resolve, ObjectRef.export?, ObjectRef.import?] at h
  rcases Int.lt_trichotomy value.toInt 0 with hneg | hzero | hpos
  · have hnotpos : ¬0 < value.toInt := by omega
    simp only [if_pos hneg, if_neg hnotpos] at h
    split at h
    · obtain rfl := Except.ok.inj h
      obtain ⟨position, hposition, htoRef⟩ := @ObjectHandle.toRef_ofImport
        (-value.toInt - 1).toNat (by omega)
      rw [htoRef, ObjectRef.ofImport]
      congr 1
      apply Int32.toInt_inj.mp
      rw [Int32.toInt_sub, Int32.toInt_neg, hposition, Int32.toInt_one]
      simp only [Int.bmod]
      omega
    · cases h
  · have hnotpos : ¬0 < value.toInt := by omega
    have hnotneg : ¬value.toInt < 0 := by omega
    simp only [if_neg hnotneg, if_neg hnotpos] at h
    obtain rfl := Except.ok.inj h
    have hvalue : value = 0 := Int32.toInt_inj.mp hzero
    rw [hvalue]
    rfl
  · simp only [if_pos hpos] at h
    split at h
    · obtain rfl := Except.ok.inj h
      obtain ⟨position, hposition, htoRef⟩ := @ObjectHandle.toRef_ofExport
        (value.toInt - 1).toNat (by omega)
      rw [htoRef, ObjectRef.ofExport]
      congr 1
      apply Int32.toInt_inj.mp
      rw [Int32.toInt_add, hposition, Int32.toInt_one]
      simp only [Int.bmod]
      omega
    · cases h

end ObjectPackage
