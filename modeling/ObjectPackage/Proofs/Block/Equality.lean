/-
Equality of values.  Comparing two places decides whether they hold the same value.  A
value is read from the bits of its leaves and of the units it owns, so neither the numbers
of its slots nor padding nor the other bits of a shared word matter to the comparison.
-/
import ObjectPackage.Proofs.Block.Repeat
import ObjectPackage.Proofs.Store.Twins

namespace ObjectPackage

namespace Store

/-- The bits that the value of a location is read from, in its own region and in the
buffers of its containers. -/
inductive Reads (store : Store) : PropertyType → Location → UInt32 → Region → Nat → Prop
  | own {type : PropertyType} {location : Location} {mask : UInt32} {region : Region} {bit : Nat}
      (h : type.Touched location mask region bit) : Reads store type location mask region bit
  | part {type : PropertyType} {location : Location} {mask : UInt32} {region : Region} {bit : Nat}
      {part : Part} (hstorage : type.storage = .inline) (hpart : part ∈ type.parts)
      (h : Reads store part.type (location.shift part.offset) part.mask region bit) :
      Reads store type location mask region bit
  | unit {type : PropertyType} {location : Location} {mask : UInt32} {region : Region} {bit : Nat}
      {part : Part} {slot count : Nat} (hstorage : type.storage = .container)
      (hhandle : store.handle location = .ok (some slot)) (hcount : store.count slot = .ok count)
      (hpart : part ∈ type.unitParts count)
      (h : Reads store part.type ((Location.element slot 0).shift part.offset) part.mask region bit) :
      Reads store type location mask region bit

/-- Another store has the same bits wherever a value with some slots is read. -/
def Retains (store after : Store) (type : PropertyType) (location : Location) (mask : UInt32)
    (slots : List Nat) : Prop :=
  ∀ region, region = location.region ∨ region.Among slots →
    HeapValue.Agree (fun bit => ¬store.Reads type location mask region bit)
      (store.content region) (after.content region)

variable {store after : Store} {type : PropertyType} {location : Location} {mask : UInt32}
  {value : Value} {slots : List Nat}

/-- Regions that matter less, and bits that matter less. -/
theorem Retains.narrow {cell : PropertyType} {cellAt : Location} {cellMask : UInt32}
    {inner : List Nat} (h : store.Retains after type location mask slots)
    (hregion : cellAt.region = location.region ∨ cellAt.region.Among slots)
    (hslots : ∀ slot ∈ inner, slot ∈ slots)
    (hreads : ∀ region bit, store.Reads cell cellAt cellMask region bit →
      store.Reads type location mask region bit) :
    store.Retains after cell cellAt cellMask inner := by
  intro region hamong
  have hwide : region = location.region ∨ region.Among slots := by
    rcases hamong with rfl | ⟨slot, hslot, rfl⟩
    · exact hregion
    · exact Or.inr ⟨slot, hslots slot hslot, rfl⟩
  exact (h region hwide).mono fun bit hbit hread => hbit (hreads region bit hread)

theorem Retains.handle (h : store.Retains after type location mask slots)
    (hinline : type.storage ≠ .inline) (hbool : type ≠ .bool) (hsize : type.size = handleSize)
    {handle : Option Nat} (hhandle : store.handle location = .ok handle) :
    after.handle location = .ok handle :=
  handle_of_kept type hinline hbool hsize (h _ (Or.inl rfl))
    (fun _ hbit hread => hread (.own hbit)) hhandle

/-- A value survives every change to bits that it is not read from. -/
theorem Holds.of_retains (h : store.Holds type location mask value slots)
    (hretains : store.Retains after type location mask slots) :
    after.Holds type location mask value slots := by
  induction type using PropertyType.induction_on generalizing location mask value slots with
  | scalar type hstorage =>
      obtain ⟨bytes, -, rfl, rfl⟩ := (holds_scalar hstorage).mp h
      exact h.of_agree (hretains _ (Or.inl rfl)) (fun bit hbit hread => hread (.own hbit)) (by simp)
  | bits =>
      obtain ⟨set, -, rfl, rfl⟩ := holds_bool.mp h
      exact h.of_agree (hretains _ (Or.inl rfl)) (fun bit hbit hread => hread (.own hbit)) (by simp)
  | text =>
      refine h.of_agree (hretains _ (Or.inl rfl)) (fun bit hbit hread => hread (.own hbit)) ?_
      rcases holds_str.mp h with ⟨-, -, rfl⟩ | ⟨slot, text, -, hcontent, -, rfl⟩
      · simp
      · rintro other hother
        obtain rfl := List.mem_singleton.mp hother
        have hagree := hretains (.slot other) (Or.inr (by simp))
        rw [hcontent] at hagree
        rw [hagree.text, hcontent]
  | inline type hstorage ih =>
      obtain ⟨hroom, values, rfl, hparts⟩ := (holds_inline hstorage).mp h
      refine .inline hstorage (hroom.of_agree (hretains _ (Or.inl rfl))) (hparts.imp ?_)
      intro part hpart value first hsub hfirst
      exact ih part hpart hfirst
        (hretains.narrow (Or.inl rfl) hsub fun _ _ => .part hstorage hpart)
  | container type hstorage ih =>
      have hbool : type ≠ .bool := PropertyType.ne_bool (by simp [hstorage])
      have hkept {handle : Option Nat} (hhandle : store.handle location = .ok handle) :
          after.handle location = .ok handle :=
        hretains.handle (by simp [hstorage]) hbool (PropertyType.size_of_container hstorage) hhandle
      rcases (holds_container hstorage).mp h with ⟨hnone, rfl, rfl⟩ |
        ⟨slot, count, values, inner, ⟨hsome, bytes, hcontent, hfit⟩, hunits, rfl, rfl⟩
      · exact .noContainer hstorage (hkept hnone)
      · have hagree := hretains (.slot slot) (Or.inr (by simp))
        rw [hcontent] at hagree
        obtain ⟨bytes', hcontent', hsize, -⟩ := hagree.elements_left
        refine .container hstorage ⟨hkept hsome, bytes', hcontent', hsize.trans hfit⟩
          (hunits.imp ?_)
        intro part hpart value first hsub hfirst
        refine ih count part hpart hfirst (hretains.narrow (Or.inr ?_) ?_ fun _ _ => ?_)
        · exact ⟨slot, List.mem_cons_self, rfl⟩
        · exact fun other hother => List.mem_cons_of_mem _ (hsub other hother)
        · exact .unit hstorage hsome (count_eq_ok.mpr ⟨bytes, hcontent⟩) hpart

end Store

/-- A location of a store that holds a value of a type. -/
structure Place (type : PropertyType) (mask : UInt32) where
  store : Store
  location : Location
  held : ∃ value slots, store.Holds type location mask value slots

namespace Place

variable {type : PropertyType} {mask : UInt32}

def snapshot (place : Place type mask) : Except PropertyError Value :=
  type.snapshot place.store place.location mask

def identical (left right : Place type mask) : Except PropertyError Bool :=
  type.identical left.store left.location right.store right.location mask

/-- A text or container that has no slot, or one with nothing in it. -/
def Vacant (place : Place type mask) : Prop :=
  (type.storage = .text ∨ type.storage = .container) ∧
    (place.store.handle place.location = .ok none ∨
      ∃ slot, place.store.handle place.location = .ok (some slot) ∧
        (place.store.content (.slot slot) = some (.text "") ∨
          place.store.content (.slot slot) = some (.elements #[] 0)))

/-- A place yields its value, and comparison decides equality of values. -/
theorem identical_spec (left right : Place type mask) : ∃ value value' same,
    left.snapshot = .ok value ∧ right.snapshot = .ok value' ∧ left.identical right = .ok same ∧
      (same = true ↔ value = value') := by
  obtain ⟨value, slots, h⟩ := left.held
  obtain ⟨value', slots', h'⟩ := right.held
  obtain ⟨same, hsame, hiff⟩ := PropertyType.identical_of_holds h h'
  exact ⟨value, value', same, PropertyType.snapshot_of_holds h, PropertyType.snapshot_of_holds h',
    hsame, hiff⟩

theorem identical_iff {left right : Place type mask} :
    left.identical right = .ok true ↔ left.snapshot = right.snapshot := by
  obtain ⟨value, value', same, hleft, hright, hsame, hiff⟩ := identical_spec left right
  rw [hleft, hright, hsame, Except.ok.injEq, Except.ok.injEq, hiff]

/-- Only the values matter to a comparison. -/
theorem identical_congr {left left' right right' : Place type mask}
    (hleft : left.snapshot = left'.snapshot) (hright : right.snapshot = right'.snapshot) :
    left.identical right = left'.identical right' := by
  obtain ⟨_, _, same, -, -, hsame, -⟩ := identical_spec left right
  obtain ⟨_, _, same', -, -, hsame', -⟩ := identical_spec left' right'
  have hiff : left.identical right = .ok true ↔ left'.identical right' = .ok true := by
    rw [identical_iff, identical_iff, hleft, hright]
  rw [hsame, hsame', Except.ok.injEq, Except.ok.injEq] at hiff
  rw [hsame, hsame', Bool.eq_iff_iff.mpr hiff]

/-- All vacant places of a type hold the same value. -/
theorem Vacant.snapshot {place : Place type mask} (h : place.Vacant) :
    place.snapshot = .ok (if type.storage = .text then .str "" else type.gather []) := by
  obtain ⟨value, slots, hholds⟩ := place.held
  rw [Place.snapshot, PropertyType.snapshot_of_holds hholds, Except.ok.injEq]
  obtain ⟨htext | hstorage, hempty⟩ := h
  · obtain rfl : type = .str := by cases type <;> first | rfl | cases htext
    rw [if_pos htext]
    rcases Store.holds_str.mp hholds with ⟨-, hvalue, -⟩ | ⟨slot, text, hhandle, hcontent, hvalue, -⟩
    · exact hvalue
    · rcases hempty with hnone | ⟨slot', hsome, hempty⟩
      · cases hnone.symm.trans hhandle
      · obtain rfl := Option.some.inj (Except.ok.inj (hhandle.symm.trans hsome))
        rw [hcontent] at hempty
        simp only [Option.some.injEq, HeapValue.text.injEq, reduceCtorEq, or_false] at hempty
        rw [hvalue, hempty]
  · rw [if_neg (by simp [hstorage])]
    rcases (Store.holds_container hstorage).mp hholds with ⟨-, hvalue, -⟩ |
      ⟨slot, count, values, inner, ⟨hhandle, bytes, hcontent, -⟩, hunits, hvalue, -⟩
    · exact hvalue
    · rcases hempty with hnone | ⟨slot', hsome, hempty⟩
      · cases hnone.symm.trans hhandle
      · obtain rfl := Option.some.inj (Except.ok.inj (hhandle.symm.trans hsome))
        rw [hcontent] at hempty
        simp only [Option.some.injEq, HeapValue.elements.injEq, reduceCtorEq, false_or] at hempty
        have hnil : type.unitParts count = [] := by
          rw [hempty.2]
          cases type <;> rfl
        rw [hnil] at hunits
        cases hunits
        exact hvalue

/-- Comparison of places decides equality of the values read from them, so it is an
equivalence; slots may have other numbers; a store that has the bits a value is read from has
the same value there; and a text or container with no slot is the same as one with an empty
slot. -/
theorem identical_decides (type : PropertyType) (mask : UInt32) :
    (∀ left right : Place type mask, ∃ value value' same, left.snapshot = .ok value ∧
      right.snapshot = .ok value' ∧ left.identical right = .ok same ∧
        (same = true ↔ value = value')) ∧
    Equivalence (fun left right : Place type mask => left.identical right = .ok true) ∧
    (∀ left left' right right' : Place type mask, left.snapshot = left'.snapshot →
      right.snapshot = right'.snapshot → left.identical right = left'.identical right') ∧
    (∀ (left right : Place type mask) (pairs : List (Nat × Nat)),
      left.store.Twins right.store type left.location right.location mask pairs →
      left.identical right = .ok true) ∧
    (∀ (place : Place type mask) (value : Value) (slots : List Nat) (after : Store),
      place.store.Holds type place.location mask value slots →
      place.store.Retains after type place.location mask slots →
      ∃ same : Place type mask, same.store = after ∧ same.location = place.location ∧
        same.snapshot = place.snapshot) ∧
    ∀ left right : Place type mask, left.Vacant → right.Vacant →
      left.identical right = .ok true := by
  refine ⟨identical_spec, ⟨?_, ?_, ?_⟩, ?_, ?_, ?_, ?_⟩
  · exact fun place => identical_iff.mpr rfl
  · exact fun h => identical_iff.mpr (identical_iff.mp h).symm
  · exact fun h h' => identical_iff.mpr ((identical_iff.mp h).trans (identical_iff.mp h'))
  · exact fun left left' right right' => identical_congr
  · intro left right pairs htwins
    obtain ⟨value, hleft, hright⟩ := htwins.holds
    exact identical_iff.mpr ((PropertyType.snapshot_of_holds hleft).trans
      (PropertyType.snapshot_of_holds hright).symm)
  · intro place value slots after hholds hretains
    have hafter := hholds.of_retains hretains
    refine ⟨⟨after, place.location, value, slots, hafter⟩, rfl, rfl, ?_⟩
    exact (PropertyType.snapshot_of_holds hafter).trans
      (PropertyType.snapshot_of_holds hholds).symm
  · exact fun left right hleft hright =>
      identical_iff.mpr (hleft.snapshot.trans hright.snapshot.symm)

end Place

namespace Block

variable {block other : Block} {property : Property} {index : Nat}

/-- The place of an element of a sound block. -/
def place (block : Block) (hsound : block.store.Sound block.layout)
    (hproperty : property ∈ block.layout.properties) (hindex : index < property.dimension) :
    Place property.type property.mask :=
  ⟨block.store, elementAt property index, holds_of_element hsound hproperty hindex⟩

/-- Blocks compare an element by its places. -/
theorem identical_place (hsound : block.store.Sound block.layout)
    (hother : other.store.Sound other.layout) (hproperty : property ∈ block.layout.properties)
    (hproperty' : property ∈ other.layout.properties) (hindex : index < property.dimension) :
    block.identical property index other =
      (block.place hsound hproperty hindex).identical (other.place hother hproperty' hindex) := by
  rw [identical, element_eq_ok.mpr ⟨contains_of_mem hproperty, hindex, rfl⟩,
    element_eq_ok.mpr ⟨contains_of_mem hproperty', hindex, rfl⟩]
  rfl

end Block

namespace TaggedPawn

theorem retitled_made : Block.Made [layout] retitled :=
  have hlayout : layout ∈ [layout] := List.mem_singleton.mpr rfl
  .stored (.stored (.defaults hlayout rfl (by decide)) hlayout (by simp [layout]) 0 _
    (by decide +kernel)) hlayout (by simp [layout, title]) 0 _ (by decide +kernel)

theorem emptied_made : Block.Made [layout] emptied :=
  have hlayout : layout ∈ [layout] := List.mem_singleton.mpr rfl
  .stored (.defaults hlayout rfl (by decide)) hlayout (by simp [layout]) 0 _ (by decide +kernel)

/-- The tags of the pawns are kept in different slots and are the same, and so are no tags
in no slot and no tags in a slot. -/
theorem tags_compared : titled.store.handle (.root 8) = .ok (some 1) ∧
    retitled.store.handle (.root 8) = .ok (some 0) ∧
    titled.identical tags 0 retitled = .ok true ∧ defaults.identical tags 0 emptied = .ok true := by
  have hmem : layout ∈ [layout] := List.mem_singleton.mpr rfl
  have hdefaults : defaults.store.Sound layout :=
    (@Block.newDefault_none_sound layout defaults (catalogue.built _ hmem) rfl (by decide)).2
  have htags : tags ∈ layout.properties := by simp [layout]
  have hindex : 0 < tags.dimension := Nat.one_pos
  have htitled := (titled_made.sound catalogue).2
  have hretitled := (retitled_made.sound catalogue).2
  have hemptied := (emptied_made.sound catalogue).2
  obtain ⟨hdecides, -, -, -, -, hvacant⟩ := Place.identical_decides tags.type tags.mask
  refine ⟨by decide +kernel, by decide +kernel, ?_, ?_⟩
  · obtain ⟨value, value', same, hleft, hright, hsame, hiff⟩ := hdecides
      (titled.place htitled htags hindex) (retitled.place hretitled htags hindex)
    rw [Block.identical_place htitled hretitled htags htags hindex, hsame, Except.ok.injEq, hiff]
    have hvalue : titled.value tags 0 = .ok (.array [.str "b"]) := by cbv
    have hvalue' : retitled.value tags 0 = .ok (.array [.str "b"]) := by cbv
    rw [Block.value_eq (Block.mem_elementsOf.mpr ⟨htags, hindex⟩)] at hvalue hvalue'
    exact Except.ok.inj ((hleft.symm.trans hvalue).trans (hright.symm.trans hvalue').symm)
  · rw [Block.identical_place hdefaults hemptied htags htags hindex]
    refine hvacant _ _ ⟨Or.inr rfl, Or.inl ?_⟩ ⟨Or.inr rfl, Or.inr ⟨0, ?_, Or.inr ?_⟩⟩
    · exact show defaults.store.handle (.root 8) = .ok none by decide +kernel
    · exact show emptied.store.handle (.root 8) = .ok (some 0) by decide +kernel
    · exact show emptied.store.content (.slot 0) = some (.elements #[] 0) by decide +kernel

end TaggedPawn

end ObjectPackage
