/-
Fixed-width words as little-endian byte lists, written by `littleEndian` and read
by `ofLittleEndian`.  `alignUp` gives the least multiple that is large enough, and
`overwrite` changes bytes without resizing.
-/

namespace ObjectPackage

/-- The `count` low bytes of a number, lowest first. -/
def littleEndian : Nat → Nat → List UInt8
  | 0, _ => []
  | count + 1, value => UInt8.ofNat value :: littleEndian count (value / 256)

/-- The number whose bytes are listed lowest first. -/
def ofLittleEndian : List UInt8 → Nat
  | [] => 0
  | byte :: rest => byte.toNat + 256 * ofLittleEndian rest

@[simp]
theorem length_littleEndian (count value : Nat) :
    (littleEndian count value).length = count := by
  induction count generalizing value with
  | zero => rfl
  | succ count ih => simp [littleEndian, ih]

theorem littleEndian_ofLittleEndian (bytes : List UInt8) :
    littleEndian bytes.length (ofLittleEndian bytes) = bytes := by
  induction bytes with
  | nil => rfl
  | cons byte rest ih =>
      have hbyte := byte.toNat_lt
      have hdiv : (byte.toNat + 256 * ofLittleEndian rest) / 256 = ofLittleEndian rest := by
        omega
      have hlow : UInt8.ofNat (byte.toNat + 256 * ofLittleEndian rest) = byte := by
        apply UInt8.toNat_inj.mp
        rw [UInt8.toNat_ofNat']
        omega
      simp only [ofLittleEndian, List.length_cons, littleEndian, hdiv, hlow, ih]

/-- Bytes of a reference to a value that is kept elsewhere. -/
def handleSize : Nat := 8

/-- Round up to the next multiple of an alignment; alignments 0 and 1 keep the value. -/
def alignUp (value alignment : Nat) : Nat :=
  if alignment ≤ 1 then value else (value + alignment - 1) / alignment * alignment

theorem le_alignUp (value alignment : Nat) : value ≤ alignUp value alignment := by
  unfold alignUp
  split
  · exact Nat.le_refl value
  · next h =>
      have hdiv := Nat.div_add_mod (value + alignment - 1) alignment
      have hmod := Nat.mod_lt (value + alignment - 1) (show 0 < alignment by omega)
      rw [Nat.mul_comm] at hdiv
      omega

theorem alignUp_mod (value alignment : Nat) (h : 0 < alignment) :
    alignUp value alignment % alignment = 0 := by
  unfold alignUp
  split
  · next hsmall =>
      obtain rfl : alignment = 1 := by omega
      exact Nat.mod_one value
  · exact Nat.mul_mod_left _ _

theorem alignUp_lt (value alignment : Nat) (h : 0 < alignment) :
    alignUp value alignment < value + alignment := by
  unfold alignUp
  split
  · omega
  · have hle := Nat.div_mul_le_self (value + alignment - 1) alignment
    omega

/-- Overwrite bytes from a position on, keeping their number; what would reach past
the end is dropped. -/
def overwrite (bytes : Array UInt8) (start : Nat) : List UInt8 → Array UInt8
  | [] => bytes
  | byte :: rest => overwrite (bytes.setIfInBounds start byte) (start + 1) rest

@[simp]
theorem size_overwrite (bytes : Array UInt8) (start : Nat) (piece : List UInt8) :
    (overwrite bytes start piece).size = bytes.size := by
  induction piece generalizing bytes start with
  | nil => rfl
  | cons byte rest ih => simp [overwrite, ih]

theorem getElem?_overwrite (bytes : Array UInt8) (start : Nat) (piece : List UInt8)
    (index : Nat) (h : index < bytes.size) :
    (overwrite bytes start piece)[index]? =
      if start ≤ index ∧ index < start + piece.length then piece[index - start]?
      else bytes[index]? := by
  induction piece generalizing bytes start with
  | nil =>
      have hout : ¬(start ≤ index ∧ index < start + ([] : List UInt8).length) := by
        simp only [List.length_nil]
        omega
      rw [overwrite, if_neg hout]
  | cons byte rest ih =>
      rw [overwrite, ih _ _ (by simpa using h), Array.getElem?_setIfInBounds]
      by_cases hstart : start = index
      · subst hstart
        have hlate : ¬(start + 1 ≤ start ∧ start < start + 1 + rest.length) := by omega
        have hhere : start ≤ start ∧ start < start + (byte :: rest).length := by
          simp only [List.length_cons]
          omega
        rw [if_neg hlate, if_pos rfl, if_pos h, if_pos hhere, Nat.sub_self,
          List.getElem?_cons_zero]
      · by_cases hin : start + 1 ≤ index ∧ index < start + 1 + rest.length
        · have hin' : start ≤ index ∧ index < start + (byte :: rest).length := by
            simp only [List.length_cons]
            omega
          have hnext : index - start = index - (start + 1) + 1 := by omega
          rw [if_pos hin, if_pos hin', hnext, List.getElem?_cons_succ]
        · have hin' : ¬(start ≤ index ∧ index < start + (byte :: rest).length) := by
            simp only [List.length_cons]
            omega
          rw [if_neg hin, if_neg hin', if_neg hstart]

end ObjectPackage
