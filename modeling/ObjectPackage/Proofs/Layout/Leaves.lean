/-
Leaves of a value and the bits they take.  Struct members and array elements are
expanded until only leaves are left; in whatever buffer they stand, leaves keep to
it, start at multiples of their alignment and have no bit in common.
-/
import ObjectPackage.Proofs.Layout.Placement

namespace ObjectPackage

/-- The bits of a leaf, counted from the start of the buffer.  A bool has the bits of
its mask alone. -/
def Part.Covers (leaf : Part) (bit : Nat) : Prop :=
  8 * leaf.offset ≤ bit ∧ bit < 8 * (leaf.offset + leaf.type.size) ∧
    (leaf.type = .bool → leaf.mask.toNat.testBit (bit - 8 * leaf.offset) = true)

def Part.Disjoint (left right : Part) : Prop :=
  ∀ bit, left.Covers bit → ¬right.Covers bit

/-- Parts that take different bytes, or different bits of one word. -/
def Part.Apart (left right : Part) : Prop :=
  left.offset + left.type.size ≤ right.offset ∨ right.offset + right.type.size ≤ left.offset ∨
    (left.type = .bool ∧ right.type = .bool ∧ left.offset = right.offset ∧
      left.mask &&& right.mask = 0)

/-- Parts side by side in a buffer of the given size and alignment. -/
structure Fitted (parts : List Part) (size alignment : Nat) : Prop where
  inside : ∀ part ∈ parts, part.offset + part.type.size ≤ size
  aligned : ∀ part ∈ parts, part.type.alignment ∣ part.offset
  narrow : ∀ part ∈ parts, part.type.alignment ∣ alignment
  masked : ∀ part ∈ parts, part.type = .bool → part.mask ≠ 0
  apart : parts.Pairwise Part.Apart

/-- Leaves that keep to a buffer, are aligned, and each have bits that no other has. -/
structure Tiling (leaves : List Part) (size : Nat) : Prop where
  inside : ∀ leaf ∈ leaves, leaf.offset + leaf.type.size ≤ size
  aligned : ∀ leaf ∈ leaves, leaf.type.alignment ∣ leaf.offset
  occupied : ∀ leaf ∈ leaves, ∃ bit, leaf.Covers bit
  disjoint : leaves.Pairwise Part.Disjoint

namespace PropertyType

theorem size_le_pitch (type : PropertyType) : type.size ≤ type.pitch :=
  le_alignUp _ _

/-- An element ends before a later one starts. -/
theorem element_end_le (type : PropertyType) {index count : Nat} (h : index < count) :
    index * type.pitch + type.size ≤ count * type.pitch := by
  have hsize := type.size_le_pitch
  calc
    index * type.pitch + type.size ≤ (index + 1) * type.pitch := by
      rw [Nat.succ_mul]
      omega
    _ ≤ count * type.pitch := Nat.mul_le_mul_right _ h

theorem key_end_le (key value : PropertyType) : key.size ≤ key.entryValueOffset value :=
  le_alignUp _ _

theorem entry_end_le (key value : PropertyType) {index count : Nat} (h : index < count) :
    index * key.entryPitch value + key.entryValueOffset value + value.size ≤
      count * key.entryPitch value := by
  have hpitch : key.entryValueOffset value + value.size ≤ key.entryPitch value :=
    le_alignUp _ _
  calc
    index * key.entryPitch value + key.entryValueOffset value + value.size
        ≤ (index + 1) * key.entryPitch value := by
      rw [Nat.succ_mul]
      omega
    _ ≤ count * key.entryPitch value := Nat.mul_le_mul_right _ h

end PropertyType

theorem Property.parts_fitted {property : Property} {size alignment : Nat}
    (h : property.Placed size alignment) : Fitted property.parts size alignment := by
  refine ⟨?_, ?_, ?_, ?_, ?_⟩
  · intro part hpart
    obtain ⟨index, hindex, rfl⟩ := mem_parts.mp hpart
    have hend := property.type.element_end_le hindex
    have hinside := h.inside
    rw [Property.size, Nat.mul_comm] at hinside
    simp only [Property.elementOffset]
    omega
  · intro part hpart
    obtain ⟨index, _, rfl⟩ := mem_parts.mp hpart
    exact Nat.dvd_add h.aligned (Dvd.dvd.mul_left (dvd_alignUp _ h.narrow) index)
  · intro part hpart
    obtain ⟨index, _, rfl⟩ := mem_parts.mp hpart
    exact h.alignment
  · intro part hpart
    obtain ⟨index, _, rfl⟩ := mem_parts.mp hpart
    exact h.masked
  · rw [Property.parts, List.pairwise_map]
    refine List.pairwise_lt_range.imp ?_
    intro index later hlt
    have hend := property.type.element_end_le hlt
    left
    simp only [Property.elementOffset]
    omega

/-- All elements of a property lie inside its bytes. -/
theorem Property.part_bounds {property : Property} {part : Part} (h : part ∈ property.parts) :
    property.offset ≤ part.offset ∧
      part.offset + part.type.size ≤ property.offset + property.size := by
  obtain ⟨index, hindex, rfl⟩ := mem_parts.mp h
  have hend := property.type.element_end_le hindex
  rw [Property.size, Nat.mul_comm property.type.pitch]
  simp only [Property.elementOffset]
  omega

theorem Property.SharesWord.parts_apart {left right : Property} (h : left.SharesWord right)
    {first second : Part} (hfirst : first ∈ left.parts) (hsecond : second ∈ right.parts) :
    first.Apart second := by
  obtain ⟨index, hindex, rfl⟩ := mem_parts.mp hfirst
  obtain ⟨other, hother, rfl⟩ := mem_parts.mp hsecond
  obtain rfl : index = 0 := by have := h.left_single; omega
  obtain rfl : other = 0 := by have := h.right_single; omega
  refine Or.inr (Or.inr ⟨h.left_bool, h.right_bool, ?_, h.masks⟩)
  simp only [Property.elementOffset, Nat.zero_mul, Nat.add_zero]
  exact h.offset

theorem memberParts_fitted {members : List Property} {size alignment : Nat}
    (h : Arranged members size alignment) : Fitted (memberParts members) size alignment := by
  have hmember : ∀ part ∈ memberParts members, ∃ member ∈ members,
      part ∈ member.parts ∧ Fitted member.parts size alignment := by
    intro part hpart
    obtain ⟨member, hmember, hpart⟩ := mem_memberParts.mp hpart
    exact ⟨member, hmember, hpart, member.parts_fitted (h.placed member hmember)⟩
  refine ⟨?_, ?_, ?_, ?_, ?_⟩
  · intro part hpart
    obtain ⟨_, _, hpart, hfitted⟩ := hmember part hpart
    exact hfitted.inside part hpart
  · intro part hpart
    obtain ⟨_, _, hpart, hfitted⟩ := hmember part hpart
    exact hfitted.aligned part hpart
  · intro part hpart
    obtain ⟨_, _, hpart, hfitted⟩ := hmember part hpart
    exact hfitted.narrow part hpart
  · intro part hpart
    obtain ⟨_, _, hpart, hfitted⟩ := hmember part hpart
    exact hfitted.masked part hpart
  · rw [memberParts, List.pairwise_flatMap]
    refine ⟨?_, h.apart.imp ?_⟩
    · intro member hmember
      exact (member.parts_fitted (h.placed member hmember)).apart
    · intro left right hapart first hfirst second hsecond
      have hleft := left.part_bounds hfirst
      have hright := right.part_bounds hsecond
      rcases hapart with hbefore | hafter | hword
      · exact Or.inl (by omega)
      · exact Or.inr (Or.inl (by omega))
      · exact hword.parts_apart hfirst hsecond

theorem elementParts_fitted {element : PropertyType} (h : element.alignment ∣ 8)
    (count : Nat) : Fitted (elementParts element count) (count * element.pitch)
      element.alignment := by
  refine ⟨?_, ?_, ?_, ?_, ?_⟩
  · intro part hpart
    obtain ⟨index, hindex, rfl⟩ := mem_elementParts.mp hpart
    exact element.element_end_le hindex
  · intro part hpart
    obtain ⟨index, _, rfl⟩ := mem_elementParts.mp hpart
    exact Dvd.dvd.mul_left (dvd_alignUp _ h) index
  · intro part hpart
    obtain ⟨index, _, rfl⟩ := mem_elementParts.mp hpart
    exact Nat.dvd_refl _
  · intro part hpart _
    obtain ⟨index, _, rfl⟩ := mem_elementParts.mp hpart
    exact (by decide : elementMask ≠ 0)
  · rw [elementParts, List.pairwise_map]
    refine List.pairwise_lt_range.imp ?_
    intro index later hlt
    exact Or.inl (element.element_end_le hlt)

theorem entryParts_fitted {key value : PropertyType} (hkey : key.alignment ∣ 8)
    (hvalue : value.alignment ∣ 8) (count : Nat) :
    Fitted (entryParts key value count) (count * key.entryPitch value)
      (max key.alignment value.alignment) := by
  obtain ⟨hkeyMax, hvalueMax, hmax⟩ := dvd_max_of_dvd_eight hkey hvalue
  have hpitch : max key.alignment value.alignment ∣ key.entryPitch value :=
    dvd_alignUp _ hmax
  have hpair : ∀ part ∈ entryParts key value count, ∃ index < count,
      part = ⟨key, index * key.entryPitch value, elementMask⟩ ∨
        part = ⟨value, index * key.entryPitch value + key.entryValueOffset value,
          elementMask⟩ := by
    intro part hpart
    obtain ⟨index, hindex, hpart⟩ := mem_entryParts.mp hpart
    simp only [entryPair, List.mem_cons, List.not_mem_nil, or_false] at hpart
    exact ⟨index, hindex, hpart⟩
  have hbetween := key.key_end_le value
  refine ⟨?_, ?_, ?_, ?_, ?_⟩
  · intro part hpart
    obtain ⟨index, hindex, rfl | rfl⟩ := hpair part hpart
    · have hend := key.entry_end_le value hindex
      simp only
      omega
    · exact key.entry_end_le value hindex
  · intro part hpart
    obtain ⟨index, _, rfl | rfl⟩ := hpair part hpart
    · exact Dvd.dvd.mul_left (Nat.dvd_trans hkeyMax hpitch) index
    · exact Nat.dvd_add (Dvd.dvd.mul_left (Nat.dvd_trans hvalueMax hpitch) index)
        (dvd_alignUp _ hvalue)
  · intro part hpart
    obtain ⟨index, _, rfl | rfl⟩ := hpair part hpart
    · exact hkeyMax
    · exact hvalueMax
  · intro part hpart _
    obtain ⟨index, _, rfl | rfl⟩ := hpair part hpart <;>
      exact (by decide : elementMask ≠ 0)
  · rw [entryParts, List.pairwise_flatMap]
    refine ⟨?_, List.pairwise_lt_range.imp ?_⟩
    · intro index _
      simp only [entryPair, List.pairwise_cons, List.mem_singleton, forall_eq,
        List.not_mem_nil, false_implies, implies_true, List.Pairwise.nil, and_true]
      left
      simp only
      omega
    · intro index later hlt first hfirst second hsecond
      have hend := key.entry_end_le value hlt
      simp only [entryPair, List.mem_cons, List.not_mem_nil, or_false] at hfirst hsecond
      left
      rcases hfirst with rfl | rfl <;> rcases hsecond with rfl | rfl <;> simp only <;> omega

namespace PropertyType

theorem Resolved.parts_fitted {type : PropertyType} (h : type.Resolved) :
    Fitted type.parts type.size type.alignment := by
  cases type with
  | struct layout => exact memberParts_fitted h.built.arranged
  | fixedArray element count =>
      have hfitted := @elementParts_fitted element h.narrow count
      rw [Nat.mul_comm] at hfitted
      exact hfitted
  | _ => exact ⟨nofun, nofun, nofun, nofun, List.Pairwise.nil⟩

theorem Resolved.unitParts_fitted {type : PropertyType} (h : type.Resolved) (count : Nat) :
    Fitted (type.unitParts count) (count * type.unitPitch) 8 := by
  have hweaken : ∀ {parts : List Part} {size alignment : Nat}, alignment ∣ 8 →
      Fitted parts size alignment → Fitted parts size 8 := by
    intro parts size alignment hdvd hfitted
    exact ⟨hfitted.inside, hfitted.aligned,
      fun part hpart => Nat.dvd_trans (hfitted.narrow part hpart) hdvd, hfitted.masked,
      hfitted.apart⟩
  cases type with
  | array element =>
      have helement : element.alignment ∣ 8 := @Resolved.narrow element h
      exact hweaken helement (elementParts_fitted helement count)
  | map key value =>
      have hkey : key.alignment ∣ 8 :=
        Resolved.narrow fun layout hlayout => h layout (List.mem_append_left _ hlayout)
      have hvalue : value.alignment ∣ 8 :=
        Resolved.narrow fun layout hlayout => h layout (List.mem_append_right _ hlayout)
      exact hweaken (dvd_max_of_dvd_eight hkey hvalue).2.2
        (entryParts_fitted hkey hvalue count)
  | _ => exact ⟨nofun, nofun, nofun, nofun, List.Pairwise.nil⟩

mutual

/-- The leaves of a value that starts at an offset, by their own offsets. -/
def leaves (offset : Nat) (mask : UInt32) : PropertyType → List Part
  | .struct ⟨_, _, properties, _, _, _, _⟩ => memberLeaves offset properties
  | .fixedArray element count =>
      (List.range count).flatMap fun index =>
        element.leaves (offset + index * element.pitch) elementMask
  | type => [⟨type, offset, mask⟩]

def memberLeaves (offset : Nat) : List Property → List Part
  | [] => []
  | member@⟨_, _, _, type, dimension, _, _, mask⟩ :: rest =>
      (List.range dimension).flatMap (fun index =>
        type.leaves (offset + member.elementOffset index) mask) ++ memberLeaves offset rest

end

end PropertyType

/-- The leaves of all parts of a buffer. -/
def leavesOf (offset : Nat) (parts : List Part) : List Part :=
  parts.flatMap fun part => part.type.leaves (offset + part.offset) part.mask

namespace PropertyType

theorem memberLeaves_eq (offset : Nat) (members : List Property) :
    memberLeaves offset members = leavesOf offset (memberParts members) := by
  induction members with
  | nil => simp [memberLeaves, leavesOf]
  | cons member rest ih =>
      obtain ⟨_, _, _, type, dimension, _, _, mask⟩ := member
      simp [memberLeaves, leavesOf, Property.parts, ih, List.flatMap_map]

theorem leaves_inline {type : PropertyType} (h : type.storage = .inline) (offset : Nat)
    (mask : UInt32) : type.leaves offset mask = leavesOf offset type.parts := by
  cases type with
  | struct layout =>
      obtain ⟨_, _, properties, _, _, _, _⟩ := layout
      rw [leaves, memberLeaves_eq, parts]
  | fixedArray element count =>
      simp [leaves, leavesOf, parts, elementParts, List.flatMap_map]
  | _ => cases h

theorem leaves_of_ne_inline {type : PropertyType} (h : type.storage ≠ .inline) (offset : Nat)
    (mask : UInt32) : type.leaves offset mask = [⟨type, offset, mask⟩] := by
  cases type <;> first | rfl | exact absurd rfl h

/-- The leaves of a value keep to its bytes. -/
theorem leaves_bounds {type : PropertyType} (h : type.Resolved) (offset : Nat)
    (mask : UInt32) : ∀ leaf ∈ type.leaves offset mask,
      offset ≤ leaf.offset ∧ leaf.offset + leaf.type.size ≤ offset + type.size := by
  induction type using PropertyType.induction_on_inline generalizing offset mask with
  | leaf type hstorage =>
      intro leaf hleaf
      rw [leaves_of_ne_inline hstorage, List.mem_singleton] at hleaf
      subst hleaf
      exact ⟨Nat.le_refl _, Nat.le_refl _⟩
  | inline type hstorage ih =>
      intro leaf hleaf
      rw [leaves_inline hstorage, leavesOf, List.mem_flatMap] at hleaf
      obtain ⟨part, hpart, hleaf⟩ := hleaf
      have hbounds := ih part hpart (h.of_mem_parts hpart) _ _ leaf hleaf
      have hinside := h.parts_fitted.inside part hpart
      omega

theorem leaves_aligned {type : PropertyType} (h : type.Resolved) {offset : Nat}
    (hoffset : type.alignment ∣ offset) (mask : UInt32) :
    ∀ leaf ∈ type.leaves offset mask, leaf.type.alignment ∣ leaf.offset := by
  induction type using PropertyType.induction_on_inline generalizing offset mask with
  | leaf type hstorage =>
      intro leaf hleaf
      rw [leaves_of_ne_inline hstorage, List.mem_singleton] at hleaf
      subst hleaf
      exact hoffset
  | inline type hstorage ih =>
      intro leaf hleaf
      rw [leaves_inline hstorage, leavesOf, List.mem_flatMap] at hleaf
      obtain ⟨part, hpart, hleaf⟩ := hleaf
      refine ih part hpart (h.of_mem_parts hpart) ?_ _ leaf hleaf
      exact Nat.dvd_add (Nat.dvd_trans (h.parts_fitted.narrow part hpart) hoffset)
        (h.parts_fitted.aligned part hpart)

/-- A leaf takes at least one bit, as long as the masks of bools are not empty. -/
theorem leaves_occupied {type : PropertyType} (h : type.Resolved) (offset : Nat)
    {mask : UInt32} (hmask : type = .bool → mask ≠ 0) :
    ∀ leaf ∈ type.leaves offset mask, ∃ bit, leaf.Covers bit := by
  induction type using PropertyType.induction_on_inline generalizing offset mask with
  | leaf type hstorage =>
      intro leaf hleaf
      rw [leaves_of_ne_inline hstorage, List.mem_singleton] at hleaf
      subst hleaf
      by_cases htype : type = .bool
      · subst htype
        have hne : mask.toNat ≠ 0 := fun hzero =>
          hmask rfl (UInt32.toNat_inj.mp (hzero.trans UInt32.toNat_zero.symm))
        obtain ⟨bit, hbit⟩ := Nat.exists_testBit_of_ne_zero hne
        have hlt : bit < 32 := by
          by_contra hge
          have hbound : mask.toNat < 2 ^ bit :=
            Nat.lt_of_lt_of_le mask.toNat_lt (Nat.pow_le_pow_right (by decide) (by omega))
          rw [Nat.testBit_lt_two_pow hbound] at hbit
          cases hbit
        refine ⟨8 * offset + bit, Nat.le_add_right _ _, ?_, fun _ => ?_⟩
        · simp only [size]
          omega
        · rw [Nat.add_sub_cancel_left]
          exact hbit
      · have hpos : 0 < type.size := by
          cases type <;> simp_all [size, storage, handleSize]
        refine ⟨8 * offset, Nat.le_refl _, ?_, fun hbool => absurd hbool htype⟩
        simp only
        omega
  | inline type hstorage ih =>
      intro leaf hleaf
      rw [leaves_inline hstorage, leavesOf, List.mem_flatMap] at hleaf
      obtain ⟨part, hpart, hleaf⟩ := hleaf
      exact ih part hpart (h.of_mem_parts hpart) _ (h.parts_fitted.masked part hpart) leaf hleaf

end PropertyType

/-- Masks without a common bit select different bits. -/
theorem not_testBit_of_and_eq_zero {left right : UInt32} (h : left &&& right = 0)
    {bit : Nat} (hleft : left.toNat.testBit bit = true) : right.toNat.testBit bit ≠ true := by
  intro hright
  have hnat : (left.toNat &&& right.toNat).testBit bit = false := by
    rw [← UInt32.toNat_and, h, UInt32.toNat_zero, Nat.zero_testBit]
  rw [Nat.testBit_and, hleft, hright] at hnat
  cases hnat

/-- The leaves of parts that are apart have no bit in common. -/
theorem Part.Apart.leaves_disjoint {left right : Part} (h : left.Apart right)
    (hleft : left.type.Resolved) (hright : right.type.Resolved) (offset : Nat) :
    ∀ first ∈ left.type.leaves (offset + left.offset) left.mask,
      ∀ second ∈ right.type.leaves (offset + right.offset) right.mask,
        first.Disjoint second := by
  intro first hfirst second hsecond bit hbit hbit'
  have hbounds := PropertyType.leaves_bounds hleft _ _ first hfirst
  have hbounds' := PropertyType.leaves_bounds hright _ _ second hsecond
  obtain ⟨hlow, hhigh, hmask⟩ := hbit
  obtain ⟨hlow', hhigh', hmask'⟩ := hbit'
  rcases h with hbefore | hafter | ⟨htype, htype', hoffset, hmasks⟩
  · omega
  · omega
  · rw [htype, PropertyType.leaves_of_ne_inline (by decide), List.mem_singleton] at hfirst
    rw [htype', PropertyType.leaves_of_ne_inline (by decide), List.mem_singleton] at hsecond
    subst hfirst hsecond
    rw [← hoffset] at hmask'
    exact not_testBit_of_and_eq_zero hmasks (hmask rfl) (hmask' rfl)

theorem leavesOf_pairwise {parts : List Part} {size alignment : Nat}
    (h : Fitted parts size alignment) (hresolved : ∀ part ∈ parts, part.type.Resolved)
    (offset : Nat) (hparts : ∀ part ∈ parts, ∀ (offset : Nat) (mask : UInt32),
      (part.type.leaves offset mask).Pairwise Part.Disjoint) :
    (leavesOf offset parts).Pairwise Part.Disjoint := by
  rw [leavesOf, List.pairwise_flatMap]
  refine ⟨fun part hpart => hparts part hpart _ _, ?_⟩
  exact h.apart.imp_of_mem fun hleft hright hapart =>
    hapart.leaves_disjoint (hresolved _ hleft) (hresolved _ hright) offset

/-- Different leaves of a value have no bit in common. -/
theorem PropertyType.leaves_pairwise {type : PropertyType} (h : type.Resolved) (offset : Nat)
    (mask : UInt32) : (type.leaves offset mask).Pairwise Part.Disjoint := by
  induction type using PropertyType.induction_on_inline generalizing offset mask with
  | leaf type hstorage =>
      rw [leaves_of_ne_inline hstorage]
      exact List.pairwise_singleton _ _
  | inline type hstorage ih =>
      rw [leaves_inline hstorage]
      exact leavesOf_pairwise h.parts_fitted (fun part hpart => h.of_mem_parts hpart) offset
        (fun part hpart => ih part hpart (h.of_mem_parts hpart))

/-- Parts that fit a buffer tile it with their leaves. -/
theorem Fitted.tiling {parts : List Part} {size alignment : Nat}
    (h : Fitted parts size alignment) (hresolved : ∀ part ∈ parts, part.type.Resolved) :
    Tiling (leavesOf 0 parts) size := by
  have hleaf : ∀ leaf ∈ leavesOf 0 parts, ∃ part ∈ parts,
      leaf ∈ part.type.leaves part.offset part.mask := by
    intro leaf hleaf
    rw [leavesOf, List.mem_flatMap] at hleaf
    obtain ⟨part, hpart, hleaf⟩ := hleaf
    rw [Nat.zero_add] at hleaf
    exact ⟨part, hpart, hleaf⟩
  refine ⟨?_, ?_, ?_, ?_⟩
  · intro leaf hmem
    obtain ⟨part, hpart, hmem⟩ := hleaf leaf hmem
    have hbounds := PropertyType.leaves_bounds (hresolved part hpart) _ _ leaf hmem
    have hinside := h.inside part hpart
    omega
  · intro leaf hmem
    obtain ⟨part, hpart, hmem⟩ := hleaf leaf hmem
    exact PropertyType.leaves_aligned (hresolved part hpart) (h.aligned part hpart) _ leaf hmem
  · intro leaf hmem
    obtain ⟨part, hpart, hmem⟩ := hleaf leaf hmem
    exact PropertyType.leaves_occupied (hresolved part hpart) _ (h.masked part hpart) leaf hmem
  · exact leavesOf_pairwise h hresolved 0 fun part hpart =>
      PropertyType.leaves_pairwise (hresolved part hpart)

end ObjectPackage
