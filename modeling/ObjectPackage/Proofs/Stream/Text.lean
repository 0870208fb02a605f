/-
Texts that are read.  A text has no more units than it is read from, so a text from a stream
that is short enough has a count that fits an index.
-/
import ObjectPackage.Proofs.Stream.Read

namespace ObjectPackage

namespace Read

theorem length_charUnits_of_lt {c : Char} (h : c.toNat < 0x10000) : (charUnits c).length = 1 := by
  rw [charUnits, if_pos h]
  rfl

theorem length_charUnits_le (c : Char) : (charUnits c).length ≤ 2 := by
  rw [charUnits]
  split <;> simp

theorem toNat_ofNat_le (number : Nat) : (Char.ofNat number).toNat ≤ number := by
  rw [Char.toNat_ofNat]
  split
  · exact Nat.le_refl _
  · exact Nat.zero_le _

/-- A byte of Latin-1 is one unit. -/
theorem length_utf16Units_latin1 (bytes : List UInt8) :
    (utf16Units (latin1 bytes)).length = bytes.length := by
  rw [utf16Units, latin1, String.toList_ofList]
  induction bytes with
  | nil => rfl
  | cons byte rest ih =>
      have hbyte := byte.toNat_lt
      have hle := toNat_ofNat_le byte.toNat
      rw [List.map_cons, List.flatMap_cons, List.length_append, ih, List.length_cons,
        length_charUnits_of_lt (by omega), Nat.add_comm]

/-- A text has no more units than it is made of. -/
theorem length_utf16Units_le {units : List UInt16} {text : String}
    (h : textOfUnits? units = some text) : (utf16Units text).length ≤ units.length := by
  obtain ⟨chars, hchars, rfl⟩ := Option.map_eq_some_iff.mp h
  rw [utf16Units, String.toList_ofList]
  clear h
  fun_induction charsOfUnits? units generalizing chars with
  | case1 =>
      obtain rfl := Option.some.inj hchars
      exact Nat.le_refl 0
  | case2 unit hhigh low rest hlow ih =>
      obtain ⟨chars, hrest, rfl⟩ := Option.map_eq_some_iff.mp hchars
      have hpair := length_charUnits_le (pairedChar unit low)
      have hle := ih chars hrest
      simp only [List.flatMap_cons, List.length_append, List.length_cons]
      omega
  | case3 => cases hchars
  | case4 => cases hchars
  | case5 => cases hchars
  | case6 unit rest hhigh hlow ih =>
      obtain ⟨chars, hrest, rfl⟩ := Option.map_eq_some_iff.mp hchars
      have hunit := unit.toNat_lt
      have hsmall := toNat_ofNat_le unit.toNat
      have hsingle := length_charUnits_of_lt (c := Char.ofNat unit.toNat) (by omega)
      have hle := ih chars hrest
      simp only [List.flatMap_cons, List.length_append, List.length_cons]
      omega

theorem length_of_bytes {cursor next : Cursor} {count : Nat} {piece : List UInt8}
    (h : runFrom cursor (bytes count) = (.ok piece, next)) : piece.length = count := by
  simp only [bytes, runFrom_bind, runFrom_get] at h
  split at h
  · cases h
  · next henough =>
      obtain ⟨hpiece, -⟩ := Prod.mk.inj h
      obtain rfl := Except.ok.inj hpiece
      rw [List.length_take] at henough ⊢
      omega

theorem length_of_units {cursor next : Cursor} {count : Nat} {found : List UInt16}
    (h : runFrom cursor (units count) = (.ok found, next)) : found.length = count := by
  induction count generalizing cursor found with
  | zero =>
      obtain ⟨hfound, -⟩ := Prod.mk.inj h
      obtain rfl := Except.ok.inj hfound
      rfl
  | succ count ih =>
      obtain ⟨unit, middle, -, hrest⟩ := runFrom_bind_eq_ok.mp h
      obtain ⟨rest, hunits, rfl⟩ := runFrom_map_eq_ok.mp hrest
      rw [List.length_cons, ih hunits]

/-- A text that is read from less than `2 ^ 32` bytes has a count that fits an index, the
terminator included. -/
theorem string_fits {cursor next : Cursor} {text : String}
    (h : runFrom cursor string = (.ok text, next))
    (hshort : cursor.rest.length < next.rest.length + 2 ^ 32) :
    (utf16Units text).length + 1 < 2 ^ 31 := by
  obtain ⟨start, middle, hstart, hrest⟩ := runFrom_bind_eq_ok.mp h
  obtain ⟨-, rfl⟩ := Prod.mk.inj hstart
  obtain ⟨length, behind, hindex, hrest⟩ := runFrom_bind_eq_ok.mp hrest
  have hhigh := length.toInt_lt
  have hused := uses_index _ _ _ hindex
  dsimp only at hrest
  split at hrest
  · obtain ⟨htext, -⟩ := Prod.mk.inj hrest
    obtain rfl := Except.ok.inj htext
    decide
  · split at hrest
    · obtain ⟨bytes, after, hbytes, hrest⟩ := runFrom_bind_eq_ok.mp hrest
      split at hrest
      · obtain ⟨htext, rfl⟩ := Prod.mk.inj hrest
        obtain rfl := Except.ok.inj htext
        rw [length_utf16Units_latin1, List.length_dropLast, length_of_bytes hbytes]
        omega
      · cases hrest
    · obtain ⟨units, after, hunits, hrest⟩ := runFrom_bind_eq_ok.mp hrest
      split at hrest
      · split at hrest
        · next found hfound =>
            obtain ⟨htext, rfl⟩ := Prod.mk.inj hrest
            obtain rfl := Except.ok.inj htext
            have hle := length_utf16Units_le hfound
            have hmore := uses_units _ _ _ _ hunits
            rw [List.length_dropLast, length_of_units hunits] at hle
            omega
        · cases hrest
      · cases hrest

end Read

end ObjectPackage
