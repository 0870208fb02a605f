/-
Twins.  A location of one store and a location of another are twins when they hold the
same value cell by cell, each handle standing against one that names nothing where it names
nothing.  Slots that stand against each other are paired, and what can be reached in one
store is reached at the opposite place of the other.
-/
import ObjectPackage.Proofs.Store.Lifecycle
import ObjectPackage.Proofs.Block.Cells

namespace ObjectPackage

/-- Places that stand against each other: the same place of the root, or of two slots that
are paired. -/
inductive Location.Opposite (pairs : List (Nat × Nat)) : Location → Location → Prop
  | root (offset : Nat) : Opposite pairs (.root offset) (.root offset)
  | element {slot slot' : Nat} (offset : Nat) (h : (slot, slot') ∈ pairs) :
      Opposite pairs (.element slot offset) (.element slot' offset)

theorem Location.Opposite.shift {pairs : List (Nat × Nat)} {left right : Location}
    (h : Opposite pairs left right) (distance : Nat) :
    Opposite pairs (left.shift distance) (right.shift distance) := by
  cases h with
  | root offset => exact .root (offset + distance)
  | element offset hpair => exact .element (offset + distance) hpair

theorem Location.Opposite.symm {pairs : List (Nat × Nat)} {left right : Location}
    (h : Opposite pairs left right) : Opposite (pairs.map Prod.swap) right left := by
  cases h with
  | root offset => exact .root offset
  | element offset hpair => exact .element offset (List.mem_map.mpr ⟨_, hpair, rfl⟩)

namespace Store

mutual

/-- Two locations hold the same value, and name slots that are paired. -/
inductive Twins (left right : Store) :
    PropertyType → Location → Location → UInt32 → List (Nat × Nat) → Prop
  | scalar {type : PropertyType} {leftAt rightAt : Location} {mask : UInt32} {bytes : List UInt8}
      (hstorage : type.storage = .scalar) (hleft : left.bytes leftAt type.size = .ok bytes)
      (hright : right.bytes rightAt type.size = .ok bytes) :
      Twins left right type leftAt rightAt mask []
  | bits {leftAt rightAt : Location} {mask : UInt32} {value : Bool}
      (hleft : left.bool leftAt mask = .ok value) (hright : right.bool rightAt mask = .ok value) :
      Twins left right .bool leftAt rightAt mask []
  | noText {leftAt rightAt : Location} {mask : UInt32} (hleft : left.handle leftAt = .ok none)
      (hright : right.handle rightAt = .ok none) : Twins left right .str leftAt rightAt mask []
  | text {leftAt rightAt : Location} {mask : UInt32} {slot slot' : Nat} {text : String}
      (hleft : left.handle leftAt = .ok (some slot))
      (hright : right.handle rightAt = .ok (some slot'))
      (hcontent : left.content (.slot slot) = some (.text text))
      (hcontent' : right.content (.slot slot') = some (.text text)) :
      Twins left right .str leftAt rightAt mask [(slot, slot')]
  | inline {type : PropertyType} {leftAt rightAt : Location} {mask : UInt32}
      {pairs : List (Nat × Nat)} (hstorage : type.storage = .inline)
      (hleft : left.Room leftAt type.size) (hright : right.Room rightAt type.size)
      (hparts : TwinsAll left right leftAt rightAt type.parts pairs) :
      Twins left right type leftAt rightAt mask pairs
  | noContainer {type : PropertyType} {leftAt rightAt : Location} {mask : UInt32}
      (hstorage : type.storage = .container) (hleft : left.handle leftAt = .ok none)
      (hright : right.handle rightAt = .ok none) : Twins left right type leftAt rightAt mask []
  | container {type : PropertyType} {leftAt rightAt : Location} {mask : UInt32}
      {slot slot' count : Nat} {pairs : List (Nat × Nat)} (hstorage : type.storage = .container)
      (hleft : left.Buffer type leftAt slot count)
      (hright : right.Buffer type rightAt slot' count)
      (hunits : TwinsAll left right (.element slot 0) (.element slot' 0) (type.unitParts count)
        pairs) : Twins left right type leftAt rightAt mask ((slot, slot') :: pairs)

/-- The parts at two locations are twins, in order. -/
inductive TwinsAll (left right : Store) :
    Location → Location → List Part → List (Nat × Nat) → Prop
  | nil {leftAt rightAt : Location} : TwinsAll left right leftAt rightAt [] []
  | cons {leftAt rightAt : Location} {part : Part} {parts : List Part}
      {first rest : List (Nat × Nat)}
      (hfirst : Twins left right part.type (leftAt.shift part.offset) (rightAt.shift part.offset)
        part.mask first) (hrest : TwinsAll left right leftAt rightAt parts rest) :
      TwinsAll left right leftAt rightAt (part :: parts) (first ++ rest)

end

variable {left right after : Store}

section Holds

mutual

/-- Twins hold the same value, each in its own slots. -/
theorem Twins.holds : ∀ {type : PropertyType} {leftAt rightAt : Location} {mask : UInt32}
    {pairs : List (Nat × Nat)}, left.Twins right type leftAt rightAt mask pairs →
    ∃ value, left.Holds type leftAt mask value (pairs.map (·.1)) ∧
      right.Holds type rightAt mask value (pairs.map (·.2))
  | _, _, _, _, _, .scalar hstorage hleft hright =>
      ⟨_, .scalar hstorage hleft, .scalar hstorage hright⟩
  | _, _, _, _, _, .bits hleft hright => ⟨_, .bits hleft, .bits hright⟩
  | _, _, _, _, _, .noText hleft hright => ⟨_, .noText hleft, .noText hright⟩
  | _, _, _, _, _, .text hleft hright hcontent hcontent' =>
      ⟨_, .text hleft hcontent, .text hright hcontent'⟩
  | _, _, _, _, _, .inline hstorage hleft hright hparts =>
      have ⟨_, hheld, hheld'⟩ := hparts.holds
      ⟨_, .inline hstorage hleft hheld, .inline hstorage hright hheld'⟩
  | _, _, _, _, _, .noContainer hstorage hleft hright =>
      ⟨_, .noContainer hstorage hleft, .noContainer hstorage hright⟩
  | _, _, _, _, _, .container hstorage hleft hright hunits =>
      have ⟨_, hheld, hheld'⟩ := hunits.holds
      ⟨_, .container hstorage hleft hheld, .container hstorage hright hheld'⟩

theorem TwinsAll.holds : ∀ {leftAt rightAt : Location} {parts : List Part}
    {pairs : List (Nat × Nat)}, left.TwinsAll right leftAt rightAt parts pairs →
    ∃ values, left.HoldsAll leftAt parts values (pairs.map (·.1)) ∧
      right.HoldsAll rightAt parts values (pairs.map (·.2))
  | _, _, _, _, .nil => ⟨[], .nil, .nil⟩
  | _, _, _, _, .cons hfirst hrest => by
      obtain ⟨value, hheld, hheld'⟩ := hfirst.holds
      obtain ⟨values, hothers, hothers'⟩ := hrest.holds
      rw [List.map_append, List.map_append]
      exact ⟨value :: values, .cons hheld hothers, .cons hheld' hothers'⟩

end

end Holds

section Symmetry

mutual

theorem Twins.symm : ∀ {type : PropertyType} {leftAt rightAt : Location} {mask : UInt32}
    {pairs : List (Nat × Nat)}, left.Twins right type leftAt rightAt mask pairs →
    right.Twins left type rightAt leftAt mask (pairs.map Prod.swap)
  | _, _, _, _, _, .scalar hstorage hleft hright => .scalar hstorage hright hleft
  | _, _, _, _, _, .bits hleft hright => .bits hright hleft
  | _, _, _, _, _, .noText hleft hright => .noText hright hleft
  | _, _, _, _, _, .text hleft hright hcontent hcontent' => .text hright hleft hcontent' hcontent
  | _, _, _, _, _, .inline hstorage hleft hright hparts =>
      .inline hstorage hright hleft hparts.symm
  | _, _, _, _, _, .noContainer hstorage hleft hright => .noContainer hstorage hright hleft
  | _, _, _, _, _, .container hstorage hleft hright hunits =>
      .container hstorage hright hleft hunits.symm

theorem TwinsAll.symm : ∀ {leftAt rightAt : Location} {parts : List Part}
    {pairs : List (Nat × Nat)}, left.TwinsAll right leftAt rightAt parts pairs →
    right.TwinsAll left rightAt leftAt parts (pairs.map Prod.swap)
  | _, _, _, _, .nil => .nil
  | _, _, _, _, .cons hfirst hrest => by
      rw [List.map_append]
      exact .cons hfirst.symm hrest.symm

end

end Symmetry

section Change

mutual

/-- Twins stay twins while the bits and the slots of the right one are kept. -/
theorem Twins.of_agree : ∀ {type : PropertyType} {leftAt rightAt : Location} {mask : UInt32}
    {pairs : List (Nat × Nat)}, left.Twins right type leftAt rightAt mask pairs →
    ∀ {touched : Nat → Prop}, HeapValue.Agree touched (right.content rightAt.region)
      (after.content rightAt.region) →
    (∀ bit, type.Touched rightAt mask rightAt.region bit → ¬touched bit) →
    (∀ pair ∈ pairs, after.content (.slot pair.2) = right.content (.slot pair.2)) →
    left.Twins after type leftAt rightAt mask pairs
  | type, _, _, _, _, .scalar hstorage hleft hright, _, hagree, hkept, _ => by
      have hbool : type ≠ .bool := PropertyType.ne_bool (by simp [hstorage])
      refine .scalar hstorage hleft (bytes_of_agree hagree (fun bit hlow hhigh => ?_) hright)
      exact hkept bit (touched_range (by simp [hstorage]) hbool hlow hhigh)
  | _, _, _, _, _, .bits hleft hright, _, hagree, hkept, _ =>
      .bits hleft (bool_of_agree hagree
        (fun place hplace => hkept _ (touched_bool.mpr ⟨rfl, place, hplace, rfl⟩)) hright)
  | _, _, _, _, _, .noText hleft hright, _, hagree, hkept, _ =>
      .noText hleft (handle_of_kept .str (by decide) nofun rfl hagree hkept hright)
  | _, _, _, _, _, .text hleft hright hcontent hcontent', _, hagree, hkept, hslots =>
      .text hleft (handle_of_kept .str (by decide) nofun rfl hagree hkept hright) hcontent
        ((hslots _ (List.mem_singleton_self _)).trans hcontent')
  | _, _, _, _, _, .inline hstorage hleft hright hparts, _, hagree, hkept, hslots =>
      .inline hstorage hleft (hright.of_agree hagree) (hparts.of_agree hagree
        (fun part hpart bit hbit => hkept bit ((touched_inline hstorage).mpr ⟨part, hpart, hbit⟩))
        hslots)
  | type, _, _, _, _, .noContainer hstorage hleft hright, _, hagree, hkept, _ => by
      have hbool : type ≠ .bool := PropertyType.ne_bool (by simp [hstorage])
      exact .noContainer hstorage hleft (handle_of_kept type (by simp [hstorage]) hbool
        (PropertyType.size_of_container hstorage) hagree hkept hright)
  | type, _, _, _, _, @Twins.container _ _ _ _ _ _ _ slot' _ _ hstorage hleft
      ⟨hhandle, bytes, hcontent, hfit⟩ hunits, _, hagree, hkept, hslots => by
      have hbool : type ≠ .bool := PropertyType.ne_bool (by simp [hstorage])
      have hslot : after.content (.slot slot') = right.content (.slot slot') :=
        hslots (_, slot') List.mem_cons_self
      -- the whole buffer is kept, so no bit of it needs to be looked at
      have hsame : HeapValue.Agree (fun _ => False) (right.content (.slot slot'))
          (after.content (.slot slot')) := hslot ▸ .refl _
      refine .container hstorage hleft ⟨?_, bytes, hslot.trans hcontent, hfit⟩
        (hunits.of_agree hsame (fun _ _ _ _ => id)
          fun pair hpair => hslots pair (List.mem_cons_of_mem _ hpair))
      exact handle_of_kept type (by simp [hstorage]) hbool
        (PropertyType.size_of_container hstorage) hagree hkept hhandle

theorem TwinsAll.of_agree : ∀ {leftAt rightAt : Location} {parts : List Part}
    {pairs : List (Nat × Nat)}, left.TwinsAll right leftAt rightAt parts pairs →
    ∀ {touched : Nat → Prop}, HeapValue.Agree touched (right.content rightAt.region)
      (after.content rightAt.region) →
    (∀ part ∈ parts, ∀ bit, part.Touched rightAt rightAt.region bit → ¬touched bit) →
    (∀ pair ∈ pairs, after.content (.slot pair.2) = right.content (.slot pair.2)) →
    left.TwinsAll after leftAt rightAt parts pairs
  | _, _, _, _, .nil, _, _, _, _ => .nil
  | _, _, _, _, .cons hfirst hrest, _, hagree, hkept, hslots =>
      .cons (hfirst.of_agree hagree (hkept _ List.mem_cons_self)
        fun pair hpair => hslots pair (List.mem_append_left _ hpair))
        (hrest.of_agree hagree (fun part hpart => hkept part (List.mem_cons_of_mem _ hpart))
          fun pair hpair => hslots pair (List.mem_append_right _ hpair))

end

/-- Twins stay twins when a change does not reach the right one. -/
theorem Twins.of_change {type : PropertyType} {leftAt rightAt : Location} {mask : UInt32}
    {pairs : List (Nat × Nat)} (h : left.Twins right type leftAt rightAt mask pairs)
    {touched : Region → Nat → Prop} {old new : List Nat}
    (hchange : right.Change after touched old new) (hregion : ¬rightAt.region.Among old)
    (hslots : ∀ pair ∈ pairs, pair.2 ∉ old ∧ ∀ bit, ¬touched (.slot pair.2) bit)
    (hbits : ∀ bit, type.Touched rightAt mask rightAt.region bit → ¬touched rightAt.region bit) :
    left.Twins after type leftAt rightAt mask pairs := by
  obtain ⟨value, -, hheld⟩ := h.holds
  have hnew := hchange.not_among_new hregion hheld.room.live
  refine h.of_agree (hchange.kept _ hregion hnew) hbits fun pair hpair => ?_
  obtain ⟨hold, hfree⟩ := hslots pair hpair
  exact hchange.content_eq hold (hheld.live _ (List.mem_map_of_mem hpair)) hfree

end Change

section Cells

variable {type cell : PropertyType} {leftAt rightAt cellAt : Location} {mask : UInt32}
  {pairs all : List (Nat × Nat)} {parts : List Part}

theorem TwinsAll.of_mem {part : Part} (h : left.TwinsAll right leftAt rightAt parts pairs)
    (hpart : part ∈ parts) : ∃ first, (∀ pair ∈ first, pair ∈ pairs) ∧
      left.Twins right part.type (leftAt.shift part.offset) (rightAt.shift part.offset) part.mask
        first := by
  induction parts generalizing pairs with
  | nil => cases hpart
  | cons other parts ih =>
      cases h with
      | cons hfirst hrest =>
          rcases List.mem_cons.mp hpart with rfl | hpart
          · exact ⟨_, fun pair => List.mem_append_left _, hfirst⟩
          · obtain ⟨first, hsub, htwins⟩ := ih hrest hpart
            exact ⟨first, fun pair hpair => List.mem_append_right _ (hsub pair hpair), htwins⟩

/-- Every cell of the left one has a twin at the opposite place. -/
theorem Twins.cellOf (hcell : left.CellOf type leftAt cell cellAt)
    (h : left.Twins right type leftAt rightAt mask pairs) (hsub : ∀ pair ∈ pairs, pair ∈ all)
    (hopposite : Location.Opposite all leftAt rightAt) :
    ∃ oppositeAt cellMask inner, right.CellOf type rightAt cell oppositeAt ∧
      Location.Opposite all cellAt oppositeAt ∧ (∀ pair ∈ inner, pair ∈ all) ∧
      left.Twins right cell cellAt oppositeAt cellMask inner := by
  induction hcell generalizing rightAt mask pairs with
  | here hstorage => exact ⟨rightAt, mask, pairs, .here hstorage, hopposite, hsub, h⟩
  | part hstorage hpart _ ih =>
      cases h with
      | inline _ _ _ hparts =>
          obtain ⟨first, hfirst, htwins⟩ := hparts.of_mem hpart
          obtain ⟨oppositeAt, cellMask, inner, hcell, hrest⟩ :=
            ih htwins (fun pair hpair => hsub pair (hfirst pair hpair)) (hopposite.shift _)
          exact ⟨oppositeAt, cellMask, inner, .part hstorage hpart hcell, hrest⟩
      | scalar h => cases h.symm.trans hstorage
      | bits => cases hstorage
      | noText => cases hstorage
      | text => cases hstorage
      | noContainer h => cases h.symm.trans hstorage
      | container h => cases h.symm.trans hstorage
  | @unit _ _ location _ _ slot count hstorage hhandle hcount hpart _ ih =>
      cases h with
      | @container _ _ _ _ _ slot' _ inner _ hleft hright hunits =>
          obtain rfl := Option.some.inj (Except.ok.inj (hleft.handle.symm.trans hhandle))
          obtain ⟨bytes, hcontent, -⟩ := hleft.content
          obtain rfl := Except.ok.inj ((count_eq_ok.mpr ⟨bytes, hcontent⟩).symm.trans hcount)
          obtain ⟨bytes', hcontent', -⟩ := hright.content
          obtain ⟨first, hfirst, htwins⟩ := hunits.of_mem hpart
          have hpair := hsub _ List.mem_cons_self
          obtain ⟨oppositeAt, cellMask, inner', hcell, hrest⟩ := ih htwins
            (fun pair hpair => hsub pair (List.mem_cons_of_mem _ (hfirst pair hpair)))
            ((Location.Opposite.element 0 hpair).shift _)
          exact ⟨oppositeAt, cellMask, inner', .unit hstorage hright.handle
            (count_eq_ok.mpr ⟨bytes', hcontent'⟩) hpart hcell, hrest⟩
      | noContainer _ hleft => cases hleft.symm.trans hhandle
      | scalar h => cases h.symm.trans hstorage
      | bits => cases hstorage
      | noText => cases hstorage
      | text => cases hstorage
      | inline h => cases h.symm.trans hstorage

/-- Handles of twins are both zero, or name slots that are paired. -/
theorem Twins.handles (h : left.Twins right type leftAt rightAt mask pairs)
    (hstorage : type.storage = .text ∨ type.storage = .container) :
    left.handle leftAt = .ok none ∧ right.handle rightAt = .ok none ∨
      ∃ pair ∈ pairs, left.handle leftAt = .ok (some pair.1) ∧
        right.handle rightAt = .ok (some pair.2) := by
  cases h with
  | noText hleft hright => exact Or.inl ⟨hleft, hright⟩
  | noContainer _ hleft hright => exact Or.inl ⟨hleft, hright⟩
  | text hleft hright => exact Or.inr ⟨_, List.mem_cons_self, hleft, hright⟩
  | container _ hleft hright => exact Or.inr ⟨_, List.mem_cons_self, hleft.handle, hright.handle⟩
  | scalar h => simp [h] at hstorage
  | bits => simp [PropertyType.storage] at hstorage
  | inline h => simp [h] at hstorage

end Cells

end Store

end ObjectPackage
