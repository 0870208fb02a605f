/-
Fresh values.  Zero bytes hold the default value of every type and own nothing.  A
location that owns nothing can be given bytes, bits, a text or a buffer, and the buffer
of a container can be changed in place; each time the location owns its value afterwards.
-/
import ObjectPackage.Proofs.Store.Owns
import ObjectPackage.Proofs.Store.Update

namespace ObjectPackage

variable {store before after : Store} {type : PropertyType} {location : Location}
  {mask : UInt32} {value : Value} {values : List Value} {slots inner inner' : List Nat}
  {length offset : Nat} {parts : List Part}

namespace PropertyType

mutual

/-- The value that zero bytes stand for. -/
def defaultValue : PropertyType → Value
  | .byte => .byte 0
  | .int => .int 0
  | .bool => .bool false
  | .float => .float 0
  | .name => .name ⟨0⟩
  | .str => .str ""
  | .object _ => .object ⟨0⟩
  | .classRef _ => .object ⟨0⟩
  | .struct ⟨_, _, properties, _, _, _, _⟩ => .struct (defaultMembers properties)
  | .fixedArray element count => .array (List.replicate count element.defaultValue)
  | .array _ => .array []
  | .map _ _ => .map []

def defaultMembers : List Property → List MemberValue
  | [] => []
  | ⟨_, _, memberName, type, dimension, _, _, _⟩ :: rest =>
      ⟨memberName, List.replicate dimension type.defaultValue⟩ :: defaultMembers rest

end

theorem scalar_zero (h : type.storage = .scalar) :
    type.scalar (List.replicate type.size 0) = type.defaultValue := by
  cases type <;> first | rfl | cases h

theorem map_default_parts (property : Property) :
    property.parts.map (·.type.defaultValue) =
      List.replicate property.dimension property.type.defaultValue := by
  simp [Property.parts, Function.comp_def, List.map_const']

theorem map_default_elements (element : PropertyType) (count : Nat) :
    (elementParts element count).map (·.type.defaultValue) =
      List.replicate count element.defaultValue := by
  simp [elementParts, Function.comp_def, List.map_const']

theorem gatherMembers_defaults (members : List Property) :
    gatherMembers members ((memberParts members).map (·.type.defaultValue)) =
      defaultMembers members := by
  induction members with
  | nil => rfl
  | cons member rest ih =>
      rw [memberParts_cons, List.map_append, map_default_parts, gatherMembers,
        List.take_left' List.length_replicate, List.drop_left' List.length_replicate, ih]
      cases member
      rfl

/-- A value whose parts are defaults is one itself. -/
theorem gather_defaults (h : type.storage = .inline) :
    type.gather (type.parts.map (·.type.defaultValue)) = type.defaultValue := by
  cases type with
  | struct layout =>
      obtain ⟨name, base, properties, ownStart, nested, size, alignment⟩ := layout
      exact congrArg Value.struct (gatherMembers_defaults properties)
  | fixedArray element count => exact congrArg Value.array (map_default_elements element count)
  | _ => cases h

theorem gather_nil (h : type.storage = .container) : type.gather [] = type.defaultValue := by
  cases type <;> first | rfl | cases h

end PropertyType

namespace Store

theorem bytes_shift {piece : List UInt8} (h : store.bytes location length = .ok piece)
    {count : Nat} (hinside : offset + count ≤ length) :
    store.bytes (location.shift offset) count = .ok ((piece.drop offset).take count) := by
  obtain ⟨bytes, units, hcontent, hroom, rfl⟩ := bytes_eq_ok.mp h
  refine bytes_eq_ok.mpr ⟨bytes, units, hcontent, ?_, ?_⟩
  · simp only [Location.shift]
    omega
  · have hend : min count (length - offset) = count := by omega
    simp only [Location.shift, Array.toList_extract, List.extract_eq_take_drop,
      Nat.add_sub_cancel_left, List.drop_take, List.drop_drop, List.take_take, hend]

/-- Zero bytes from a location on. -/
def Blank (store : Store) (location : Location) (length : Nat) : Prop :=
  store.bytes location length = .ok (List.replicate length 0)

theorem Blank.shift (h : store.Blank location length) {count : Nat}
    (hinside : offset + count ≤ length) : store.Blank (location.shift offset) count := by
  have hmin : min count (length - offset) = count := by omega
  rw [Blank, bytes_shift h hinside, List.drop_replicate, List.take_replicate, hmin]

theorem Blank.handle (h : store.Blank location handleSize) : store.handle location = .ok none :=
  handle_eq_ok.mpr ⟨_, h, rfl⟩

theorem Blank.bool (h : store.Blank location 4) (mask : UInt32) :
    store.bool location mask = .ok false := by
  rw [Store.bool, word_eq_ok.mpr ⟨_, h, rfl⟩]
  simp [bind, Except.bind, ofLittleEndian, List.replicate, pure, Except.pure]

theorem holdsAll_defaults (h : ∀ part ∈ parts,
    store.Holds part.type (location.shift part.offset) part.mask part.type.defaultValue []) :
    store.HoldsAll location parts (parts.map (·.type.defaultValue)) [] := by
  induction parts with
  | nil => exact .nil
  | cons part rest ih =>
      have hrest := ih fun part hpart => h part (List.mem_cons_of_mem _ hpart)
      exact .cons (h part List.mem_cons_self) hrest

/-- Zero bytes hold the default value, which owns nothing. -/
theorem Blank.holds (hresolved : type.Resolved) (h : store.Blank location type.size)
    (mask : UInt32) : store.Holds type location mask type.defaultValue [] := by
  induction type using PropertyType.induction_on generalizing location mask with
  | scalar type hstorage =>
      rw [← PropertyType.scalar_zero hstorage]
      exact .scalar hstorage h
  | bits => exact .bits (h.bool mask)
  | text => exact .noText h.handle
  | inline type hstorage ih =>
      rw [← PropertyType.gather_defaults hstorage]
      refine .inline hstorage (room_of_bytes h) (holdsAll_defaults fun part hpart => ?_)
      exact ih part hpart (hresolved.of_mem_parts hpart)
        (h.shift (hresolved.parts_fitted.inside part hpart)) part.mask
  | container type hstorage _ =>
      rw [PropertyType.size_of_container hstorage] at h
      rw [← PropertyType.gather_nil hstorage]
      exact .noContainer hstorage h.handle

theorem Blank.holdsAll (hspread : Spread parts) (h : store.Blank location length)
    (hinside : ∀ part ∈ parts, part.offset + part.type.size ≤ length) :
    store.HoldsAll location parts (parts.map (·.type.defaultValue)) [] :=
  holdsAll_defaults fun part hpart =>
    (h.shift (hinside part hpart)).holds (hspread.resolved part hpart) part.mask

theorem Holds.owns (h : store.Holds type location mask value []) :
    store.Owns type location mask value [] :=
  ⟨h, List.nodup_nil, by simp⟩

theorem HoldsAll.owns (h : store.HoldsAll location parts values []) :
    store.OwnsAll location parts values [] :=
  ⟨h, List.nodup_nil, by simp⟩

theorem Owns.room (h : store.Owns type location mask value slots) :
    store.Room location type.size :=
  h.holds.room

/-- A container that is owned has no buffer, or one whose units are owned. -/
theorem Owns.container (h : store.Owns type location mask value slots)
    (hstorage : type.storage = .container) :
    store.handle location = .ok none ∧ value = type.gather [] ∧ slots = [] ∨
      ∃ slot count values inner, store.Buffer type location slot count ∧ slot ∉ inner ∧
        ¬location.region.Among (slot :: inner) ∧
        store.OwnsAll (.element slot 0) (type.unitParts count) values inner ∧
        value = type.gather values ∧ slots = slot :: inner := by
  rcases (holds_container hstorage).mp h.holds with hnone |
    ⟨slot, count, values, inner, hbuffer, hunits, rfl, rfl⟩
  · exact Or.inl hnone
  · obtain ⟨hslot, hnodup⟩ := List.nodup_cons.mp h.nodup
    exact Or.inr ⟨slot, count, values, inner, hbuffer, hslot, h.apart,
      ⟨hunits, hnodup, by simpa [Location.element] using hslot⟩, rfl, rfl⟩

section Buffer

variable {slot count : Nat} {touched : Region → Nat → Prop}
  (h : before.Buffer type location slot count) (hapart : ¬location.region.Among (slot :: inner))
  (hslot : slot ∉ inner) (hchange : before.Change after touched inner inner')
  (htouched : ∀ region bit, touched region bit → region = .slot slot)

include h hapart hslot hchange htouched

/-- A change inside of a buffer leaves it a buffer of as many units. -/
theorem Buffer.of_change : after.Buffer type location slot count := by
  obtain ⟨bytes, hcontent, hsize⟩ := h.content
  obtain ⟨hregion, hinner⟩ := not_or.mp (mt Region.among_cons.mpr hapart)
  have hnew := hchange.not_among_new hinner (room_of_handle h.handle).live
  have hagree := hchange.kept (.slot slot) (by simpa using hslot)
    (hchange.not_among_new (by simpa using hslot) (by simp [hcontent]))
  rw [hcontent] at hagree
  obtain ⟨bytes', hcontent', hsize', -⟩ := hagree.elements_left
  refine ⟨?_, bytes', hcontent', hsize'.trans hsize⟩
  refine handle_of_agree (hchange.kept _ hinner hnew) (fun bit _ _ hbit => ?_) h.handle
  exact hregion (htouched _ _ hbit)

/-- The units of a container may be changed in place. -/
theorem Buffer.refill (hstorage : type.storage = .container)
    (hunits : after.OwnsAll (.element slot 0) (type.unitParts count) values inner') :
    after.Owns type location mask (type.gather values) (slot :: inner') ∧
      before.Change after (type.Reached location mask) (slot :: inner) (slot :: inner') := by
  obtain ⟨hregion, hinner⟩ := not_or.mp (mt Region.among_cons.mpr hapart)
  have hnew := hchange.not_among_new hinner (room_of_handle h.handle).live
  refine ⟨⟨.container hstorage (h.of_change hapart hslot hchange htouched) hunits.holds, ?_, ?_⟩, ?_⟩
  · exact List.nodup_cons.mpr ⟨by simpa [Location.element] using hunits.apart, hunits.nodup⟩
  · rw [Region.among_cons]
    exact not_or.mpr ⟨hregion, hnew⟩
  · refine (hchange.frameLeft [slot]).mono fun region bit hbit => Or.inr (Or.inl ?_)
    exact Region.among_cons.mpr (Or.inl (htouched region bit hbit))

end Buffer

end Store

theorem reached_of_range (hbool : type ≠ .bool) {region : Region} {bit : Nat}
    (h : Store.Range location type.size region bit) : type.Reached location mask region bit :=
  ⟨h.1, h.2.1, h.2.2, fun hbit => absurd hbit hbool⟩

theorem PropertyType.touched_of_range (hinline : type.storage ≠ .inline) (hbool : type ≠ .bool)
    {length : Nat} (hlength : length = type.size) {region : Region} {bit : Nat}
    (h : Store.Range location length region bit) : type.Touched location mask region bit := by
  obtain ⟨rfl, hlow, hhigh⟩ := h
  rw [hlength] at hhigh
  exact Store.touched_range hinline hbool hlow hhigh

theorem reached_of_masked {region : Region} {bit : Nat} (h : Store.Masked location mask region bit) :
    PropertyType.Reached .bool location mask region bit := by
  obtain ⟨hregion, place, hplace, rfl⟩ := h
  have hlt := lt_of_testBit hplace
  refine ⟨hregion, Nat.le_add_right _ _, ?_, fun _ => ?_⟩
  · simp only [PropertyType.size]
    omega
  · rw [Nat.add_sub_cancel_left]
    exact hplace

namespace Update

/-- A text or a container without a slot is a default value. -/
theorem noHandle_spec (hstorage : type.storage = .text ∨ type.storage = .container)
    (h : store.Room location type.size) (mask : UInt32) :
    ∃ after, runFrom store (setHandle location none) = (.ok (), after) ∧
      store.Change after (type.Touched location mask) [] [] ∧
      after.handle location = .ok none ∧
      after.Holds type location mask type.defaultValue [] := by
  have hsize : type.size = handleSize := by
    rcases hstorage with hstorage | hstorage
    · cases type <;> first | rfl | cases hstorage
    · exact PropertyType.size_of_container hstorage
  have hinline : type.storage ≠ .inline := by rcases hstorage with h | h <;> simp [h]
  have hbool : type ≠ .bool := by
    rintro rfl
    rcases hstorage with h | h <;> cases h
  rw [hsize] at h
  obtain ⟨after, hrun, hchange, hhandle⟩ := setHandle_none_spec h
  refine ⟨after, hrun, hchange.mono fun _ _ hbit =>
    Or.inl (PropertyType.touched_of_range hinline hbool hsize.symm hbit), hhandle, ?_⟩
  rcases hstorage with hstorage | hstorage
  · cases type with
    | str => exact .noText hhandle
    | _ => cases hstorage
  · rw [← PropertyType.gather_nil hstorage]
    exact .noContainer hstorage hhandle

/-- A location gets a buffer whose units hold defaults. -/
theorem ownElements_owns (hresolved : type.Resolved) (hstorage : type.storage = .container)
    (h : store.Room location type.size) (mask : UInt32) (count : Nat) :
    ∃ slot after, runFrom store (ownElements location count type.unitPitch) = (.ok slot, after) ∧
      store.Change after (type.Reached location mask) [] [slot] ∧
      ¬location.region.Among [slot] ∧ (after.Fits → after.Buffer type location slot count) ∧
      after.OwnsAll (.element slot 0) (type.unitParts count)
        ((type.unitParts count).map (·.type.defaultValue)) [] := by
  have hsize := PropertyType.size_of_container hstorage
  have hbool : type ≠ .bool := PropertyType.ne_bool (by simp [hstorage])
  rw [hsize] at h
  obtain ⟨slot, after, hrun, hchange, hcontent, hhandle⟩ :=
    ownElements_spec h count type.unitPitch
  have hblank : after.Blank (.element slot 0) (count * type.unitPitch) := by
    refine Store.bytes_eq_ok.mpr ⟨_, count, hcontent, ?_, ?_⟩
    · simp [Location.element]
    · simp [Location.element]
  have hfitted := hresolved.unitParts_fitted count
  have hvalues := hblank.holdsAll (hresolved.unit_spread count) hfitted.inside
  refine ⟨slot, after, hrun, hchange.mono ?_, hchange.not_among_new (by simp) h.live,
    fun hfits => ⟨hhandle hfits, _, hcontent, by simp⟩, hvalues.owns⟩
  rw [← hsize]
  exact fun _ _ hbit => Or.inl (reached_of_range hbool hbit)

end Update

end ObjectPackage
