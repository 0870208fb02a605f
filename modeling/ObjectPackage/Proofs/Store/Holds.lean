/-
Values in a store.  A location holds a value of a type and owns the slots that its
texts and containers are kept in, those of inner values included.  What a location
holds depends on its leaves and on the slots it owns, and on nothing else.
-/
import ObjectPackage.Proofs.Layout.Leaves
import ObjectPackage.Proofs.Store.Change
import ObjectPackage.Store.Typed

namespace ObjectPackage

namespace PropertyType

/-- The value that the bytes of a scalar stand for. -/
def scalar : PropertyType → List UInt8 → Value
  | .byte, bytes => .byte (UInt8.ofNat (ofLittleEndian bytes))
  | .int, bytes => .int (UInt32.ofNat (ofLittleEndian bytes)).toInt32
  | .float, bytes => .float (UInt32.ofNat (ofLittleEndian bytes))
  | .name, bytes => .name ⟨UInt32.ofNat (ofLittleEndian bytes)⟩
  | _, bytes => .object ⟨UInt64.ofNat (ofLittleEndian bytes)⟩

/-- The values of the elements of members, one member after the other. -/
def gatherMembers : List Property → List Value → List MemberValue
  | [], _ => []
  | member :: rest, values =>
      ⟨member.name, values.take member.dimension⟩ ::
        gatherMembers rest (values.drop member.dimension)

/-- Entries of keys and values in turn. -/
def gatherEntries : List Value → List EntryValue
  | key :: value :: rest => ⟨key, value⟩ :: gatherEntries rest
  | _ => []

/-- The value that is made of the values of its parts. -/
def gather : PropertyType → List Value → Value
  | .struct layout, values => .struct (gatherMembers layout.properties values)
  | .map _ _, values => .map (gatherEntries values)
  | _, values => .array values

/-- The bits that a value at a location takes. -/
def Touched (type : PropertyType) (location : Location) (mask : UInt32) (region : Region)
    (bit : Nat) : Prop :=
  region = location.region ∧ ∃ leaf ∈ type.leaves location.offset mask, leaf.Covers bit

end PropertyType

/-- The place of a part of a value at a location. -/
def Part.Touched (location : Location) (part : Part) (region : Region) (bit : Nat) : Prop :=
  part.type.Touched (location.shift part.offset) part.mask region bit

namespace Store

/-- A location names a slot with the buffer of a container of `count` units. -/
structure Buffer (store : Store) (type : PropertyType) (location : Location)
    (slot count : Nat) : Prop where
  handle : store.handle location = .ok (some slot)
  content : ∃ bytes, store.content (.slot slot) = some (.elements bytes count) ∧
    bytes.size = count * type.unitPitch

mutual

/-- A location holds a value and owns some slots. -/
inductive Holds (store : Store) :
    PropertyType → Location → UInt32 → Value → List Nat → Prop
  | scalar {type : PropertyType} {location : Location} {mask : UInt32} {bytes : List UInt8}
      (hstorage : type.storage = .scalar) (hbytes : store.bytes location type.size = .ok bytes) :
      Holds store type location mask (type.scalar bytes) []
  | bits {location : Location} {mask : UInt32} {value : Bool}
      (hbool : store.bool location mask = .ok value) :
      Holds store .bool location mask (.bool value) []
  | noText {location : Location} {mask : UInt32} (hhandle : store.handle location = .ok none) :
      Holds store .str location mask (.str "") []
  | text {location : Location} {mask : UInt32} {slot : Nat} {text : String}
      (hhandle : store.handle location = .ok (some slot))
      (hcontent : store.content (.slot slot) = some (.text text)) :
      Holds store .str location mask (.str text) [slot]
  | inline {type : PropertyType} {location : Location} {mask : UInt32} {values : List Value}
      {slots : List Nat} (hstorage : type.storage = .inline)
      (hroom : store.Room location type.size)
      (hparts : HoldsAll store location type.parts values slots) :
      Holds store type location mask (type.gather values) slots
  | noContainer {type : PropertyType} {location : Location} {mask : UInt32}
      (hstorage : type.storage = .container) (hhandle : store.handle location = .ok none) :
      Holds store type location mask (type.gather []) []
  | container {type : PropertyType} {location : Location} {mask : UInt32} {slot count : Nat}
      {values : List Value} {slots : List Nat} (hstorage : type.storage = .container)
      (hbuffer : store.Buffer type location slot count)
      (hunits : HoldsAll store (.element slot 0) (type.unitParts count) values slots) :
      Holds store type location mask (type.gather values) (slot :: slots)

/-- The parts at a location hold values, in order. -/
inductive HoldsAll (store : Store) : Location → List Part → List Value → List Nat → Prop
  | nil {location : Location} : HoldsAll store location [] [] []
  | cons {location : Location} {part : Part} {parts : List Part} {value : Value}
      {values : List Value} {first rest : List Nat}
      (hfirst : Holds store part.type (location.shift part.offset) part.mask value first)
      (hrest : HoldsAll store location parts values rest) :
      HoldsAll store location (part :: parts) (value :: values) (first ++ rest)

end

variable {store after : Store} {type : PropertyType} {location : Location} {mask : UInt32}
  {value : Value} {values : List Value} {slots : List Nat} {parts : List Part}

namespace HoldsAll

theorem length_eq (h : store.HoldsAll location parts values slots) :
    values.length = parts.length := by
  induction parts generalizing values slots with
  | nil =>
      cases h
      rfl
  | cons part parts ih =>
      cases h with
      | cons hfirst hrest => rw [List.length_cons, List.length_cons, ih hrest]

theorem append {more : List Part} {values' : List Value} {slots' : List Nat}
    (h : store.HoldsAll location parts values slots)
    (h' : store.HoldsAll location more values' slots') :
    store.HoldsAll location (parts ++ more) (values ++ values') (slots ++ slots') := by
  induction parts generalizing values slots with
  | nil =>
      cases h
      exact h'
  | cons part parts ih =>
      cases h with
      | cons hfirst hrest =>
          rw [List.append_assoc]
          exact .cons hfirst (ih hrest)

theorem split {more : List Part} (h : store.HoldsAll location (parts ++ more) values slots) :
    ∃ front back left right, values = front ++ back ∧ slots = left ++ right ∧
      store.HoldsAll location parts front left ∧ store.HoldsAll location more back right := by
  induction parts generalizing values slots with
  | nil => exact ⟨[], values, [], slots, rfl, rfl, .nil, h⟩
  | cons part parts ih =>
      cases h with
      | cons hfirst hrest =>
          obtain ⟨front, back, left, right, rfl, rfl, hfront, hback⟩ := ih hrest
          exact ⟨_ :: front, back, _ ++ left, right, rfl, (List.append_assoc _ _ _).symm,
            .cons hfirst hfront, hback⟩

theorem single {part : Part} :
    store.HoldsAll location [part] values slots ↔ ∃ value, values = [value] ∧
      store.Holds part.type (location.shift part.offset) part.mask value slots := by
  constructor
  · intro h
    cases h with
    | cons hfirst hrest =>
        cases hrest
        rw [List.append_nil]
        exact ⟨_, rfl, hfirst⟩
  · rintro ⟨value, rfl, h⟩
    simpa using HoldsAll.cons h .nil

/-- Part by part to another store or another place. -/
theorem imp {target : Location} (h : store.HoldsAll location parts values slots)
    (himp : ∀ part ∈ parts, ∀ value first, (∀ slot ∈ first, slot ∈ slots) →
      store.Holds part.type (location.shift part.offset) part.mask value first →
      after.Holds part.type (target.shift part.offset) part.mask value first) :
    after.HoldsAll target parts values slots := by
  induction parts generalizing values slots with
  | nil =>
      cases h
      exact .nil
  | cons part parts ih =>
      cases h with
      | cons hfirst hrest =>
          refine .cons (himp part List.mem_cons_self _ _ ?_ hfirst) (ih hrest ?_)
          · exact fun slot hslot => List.mem_append_left _ hslot
          · intro part hpart value first hsub
            refine himp part (List.mem_cons_of_mem _ hpart) value first fun slot hslot => ?_
            exact List.mem_append_right _ (hsub slot hslot)

theorem of_mem {part : Part} (h : store.HoldsAll location parts values slots)
    (hpart : part ∈ parts) : ∃ value ∈ values, ∃ first, (∀ slot ∈ first, slot ∈ slots) ∧
      store.Holds part.type (location.shift part.offset) part.mask value first := by
  induction parts generalizing values slots with
  | nil => cases hpart
  | cons other parts ih =>
      cases h with
      | cons hfirst hrest =>
          rcases List.mem_cons.mp hpart with rfl | hpart
          · exact ⟨_, List.mem_cons_self, _, fun slot hslot => List.mem_append_left _ hslot, hfirst⟩
          · obtain ⟨value, hvalue, first, hsub, hholds⟩ := ih hrest hpart
            exact ⟨value, List.mem_cons_of_mem _ hvalue, first,
              fun slot hslot => List.mem_append_right _ (hsub slot hslot), hholds⟩

/-- Every slot is owned by one of the parts. -/
theorem of_mem_slots {slot : Nat} (h : store.HoldsAll location parts values slots)
    (hslot : slot ∈ slots) : ∃ part ∈ parts, ∃ value first, slot ∈ first ∧
      store.Holds part.type (location.shift part.offset) part.mask value first := by
  induction parts generalizing values slots with
  | nil =>
      cases h
      cases hslot
  | cons part parts ih =>
      cases h with
      | cons hfirst hrest =>
          rcases List.mem_append.mp hslot with hslot | hslot
          · exact ⟨part, List.mem_cons_self, _, _, hslot, hfirst⟩
          · obtain ⟨other, hother, value, first, hmem, hholds⟩ := ih hrest hslot
            exact ⟨other, List.mem_cons_of_mem _ hother, value, first, hmem, hholds⟩

end HoldsAll

section Inversion

theorem holds_scalar (hstorage : type.storage = .scalar) :
    store.Holds type location mask value slots ↔
      ∃ bytes, store.bytes location type.size = .ok bytes ∧ value = type.scalar bytes ∧
        slots = [] := by
  constructor
  · intro h
    cases h with
    | scalar _ hbytes => exact ⟨_, hbytes, rfl, rfl⟩
    | bits => cases hstorage
    | noText => cases hstorage
    | text => cases hstorage
    | inline h => cases hstorage.symm.trans h
    | noContainer h => cases hstorage.symm.trans h
    | container h => cases hstorage.symm.trans h
  · rintro ⟨bytes, hbytes, rfl, rfl⟩
    exact .scalar hstorage hbytes

theorem holds_bool :
    store.Holds .bool location mask value slots ↔
      ∃ set, store.bool location mask = .ok set ∧ value = .bool set ∧ slots = [] := by
  constructor
  · intro h
    cases h with
    | bits hbool => exact ⟨_, hbool, rfl, rfl⟩
    | scalar h => cases h
    | inline h => cases h
    | noContainer h => cases h
    | container h => cases h
  · rintro ⟨set, hbool, rfl, rfl⟩
    exact .bits hbool

theorem holds_str :
    store.Holds .str location mask value slots ↔
      store.handle location = .ok none ∧ value = .str "" ∧ slots = [] ∨
        ∃ slot text, store.handle location = .ok (some slot) ∧
          store.content (.slot slot) = some (.text text) ∧ value = .str text ∧
          slots = [slot] := by
  constructor
  · intro h
    cases h with
    | noText hhandle => exact Or.inl ⟨hhandle, rfl, rfl⟩
    | text hhandle hcontent => exact Or.inr ⟨_, _, hhandle, hcontent, rfl, rfl⟩
    | scalar h => cases h
    | inline h => cases h
    | noContainer h => cases h
    | container h => cases h
  · rintro (⟨hhandle, rfl, rfl⟩ | ⟨slot, text, hhandle, hcontent, rfl, rfl⟩)
    · exact .noText hhandle
    · exact .text hhandle hcontent

theorem holds_inline (hstorage : type.storage = .inline) :
    store.Holds type location mask value slots ↔
      store.Room location type.size ∧ ∃ values, value = type.gather values ∧
        store.HoldsAll location type.parts values slots := by
  constructor
  · intro h
    cases h with
    | inline _ hroom hparts => exact ⟨hroom, _, rfl, hparts⟩
    | scalar h => cases hstorage.symm.trans h
    | bits => cases hstorage
    | noText => cases hstorage
    | text => cases hstorage
    | noContainer h => cases hstorage.symm.trans h
    | container h => cases hstorage.symm.trans h
  · rintro ⟨hroom, values, rfl, hparts⟩
    exact .inline hstorage hroom hparts

theorem holds_container (hstorage : type.storage = .container) :
    store.Holds type location mask value slots ↔
      store.handle location = .ok none ∧ value = type.gather [] ∧ slots = [] ∨
        ∃ slot count values inner, store.Buffer type location slot count ∧
          store.HoldsAll (.element slot 0) (type.unitParts count) values inner ∧
          value = type.gather values ∧ slots = slot :: inner := by
  constructor
  · intro h
    cases h with
    | noContainer _ hhandle => exact Or.inl ⟨hhandle, rfl, rfl⟩
    | container _ hbuffer hunits => exact Or.inr ⟨_, _, _, _, hbuffer, hunits, rfl, rfl⟩
    | scalar h => cases hstorage.symm.trans h
    | bits => cases hstorage
    | noText => cases hstorage
    | text => cases hstorage
    | inline h => cases hstorage.symm.trans h
  · rintro (⟨hhandle, rfl, rfl⟩ | ⟨slot, count, values, inner, hbuffer, hunits, rfl, rfl⟩)
    · exact .noContainer hstorage hhandle
    · exact .container hstorage hbuffer hunits

end Inversion

theorem room_of_handle {handle : Option Nat} (h : store.handle location = .ok handle) :
    store.Room location handleSize := by
  obtain ⟨piece, hpiece, -⟩ := handle_eq_ok.mp h
  exact room_of_bytes hpiece

theorem Holds.room (h : store.Holds type location mask value slots) :
    store.Room location type.size := by
  cases h with
  | scalar _ hbytes => exact room_of_bytes hbytes
  | bits hbool =>
      obtain ⟨bytes, count, hcontent, hroom, -⟩ := bool_eq_ok.mp hbool
      exact ⟨bytes, count, hcontent, hroom⟩
  | noText hhandle => exact room_of_handle hhandle
  | text hhandle => exact room_of_handle hhandle
  | inline _ hroom => exact hroom
  | noContainer hstorage hhandle =>
      rw [PropertyType.size_of_container hstorage]
      exact room_of_handle hhandle
  | container hstorage hbuffer =>
      rw [PropertyType.size_of_container hstorage]
      exact room_of_handle hbuffer.handle

/-- Slots that are owned are in use. -/
theorem Holds.live (h : store.Holds type location mask value slots) :
    ∀ slot ∈ slots, store.content (.slot slot) ≠ none := by
  induction type using PropertyType.induction_on generalizing location mask value slots with
  | scalar type hstorage =>
      obtain ⟨bytes, -, -, rfl⟩ := (holds_scalar hstorage).mp h
      simp
  | bits =>
      obtain ⟨set, -, -, rfl⟩ := holds_bool.mp h
      simp
  | text =>
      rcases holds_str.mp h with ⟨-, -, rfl⟩ | ⟨slot, text, -, hcontent, -, rfl⟩
      · simp
      · simp [hcontent]
  | inline type hstorage ih =>
      obtain ⟨-, values, -, hparts⟩ := (holds_inline hstorage).mp h
      intro slot hslot
      obtain ⟨part, hpart, value, first, hmem, hfirst⟩ := hparts.of_mem_slots hslot
      exact ih part hpart hfirst slot hmem
  | container type hstorage ih =>
      rcases (holds_container hstorage).mp h with
        ⟨-, -, rfl⟩ | ⟨slot, count, values, inner, hbuffer, hunits, -, rfl⟩
      · simp
      · obtain ⟨bytes, hcontent, -⟩ := hbuffer.content
        refine List.forall_mem_cons.mpr ⟨by simp [hcontent], fun slot hslot => ?_⟩
        obtain ⟨part, hpart, value, first, hmem, hfirst⟩ := hunits.of_mem_slots hslot
        exact ih count part hpart hfirst slot hmem

theorem HoldsAll.live (h : store.HoldsAll location parts values slots) :
    ∀ slot ∈ slots, store.content (.slot slot) ≠ none := by
  intro slot hslot
  obtain ⟨part, -, value, first, hmem, hfirst⟩ := h.of_mem_slots hslot
  exact hfirst.live slot hmem

section Touched

theorem touched_range (hinline : type.storage ≠ .inline) (hbool : type ≠ .bool) {bit : Nat}
    (hlow : 8 * location.offset ≤ bit) (hhigh : bit < 8 * (location.offset + type.size)) :
    type.Touched location mask location.region bit := by
  refine ⟨rfl, ⟨type, location.offset, mask⟩, ?_, hlow, hhigh, fun h => absurd h hbool⟩
  rw [PropertyType.leaves_of_ne_inline hinline]
  exact List.mem_singleton_self _

theorem touched_bool {region : Region} {bit : Nat} :
    PropertyType.Touched .bool location mask region bit ↔ Masked location mask region bit := by
  constructor
  · rintro ⟨hregion, leaf, hleaf, hlow, -, hmask⟩
    rw [PropertyType.leaves_of_ne_inline (by decide), List.mem_singleton] at hleaf
    subst hleaf
    exact ⟨hregion, bit - 8 * location.offset, hmask rfl, by simp only at hlow; omega⟩
  · rintro ⟨hregion, place, hplace, rfl⟩
    have hlt := lt_of_testBit hplace
    refine ⟨hregion, ⟨.bool, location.offset, mask⟩, ?_, Nat.le_add_right _ _, ?_, fun _ => ?_⟩
    · rw [PropertyType.leaves_of_ne_inline (by decide)]
      exact List.mem_singleton_self _
    · simp only [PropertyType.size]
      omega
    · rw [Nat.add_sub_cancel_left]
      exact hplace

theorem touched_inline (hstorage : type.storage = .inline) {region : Region} {bit : Nat} :
    type.Touched location mask region bit ↔
      ∃ part ∈ type.parts, part.Touched location region bit := by
  rw [PropertyType.Touched, PropertyType.leaves_inline hstorage]
  simp only [leavesOf, List.mem_flatMap, Part.Touched, PropertyType.Touched, Location.shift]
  constructor
  · rintro ⟨hregion, leaf, ⟨part, hpart, hleaf⟩, hcovers⟩
    exact ⟨part, hpart, hregion, leaf, hleaf, hcovers⟩
  · rintro ⟨part, hpart, hregion, leaf, hleaf, hcovers⟩
    exact ⟨hregion, leaf, ⟨part, hpart, hleaf⟩, hcovers⟩

end Touched

theorem handle_of_kept (type : PropertyType) (hinline : type.storage ≠ .inline)
    (hbool : type ≠ .bool) (hsize : type.size = handleSize) {touched : Nat → Prop}
    (hagree : HeapValue.Agree touched (store.content location.region)
      (after.content location.region))
    (hkept : ∀ bit, type.Touched location mask location.region bit → ¬touched bit)
    {handle : Option Nat} (h : store.handle location = .ok handle) :
    after.handle location = .ok handle := by
  refine handle_of_agree hagree (fun bit hlow hhigh => hkept bit ?_) h
  rw [← hsize] at hhigh
  exact touched_range hinline hbool hlow hhigh

/-- What a location holds survives every change to other bits and other slots. -/
theorem Holds.of_agree (h : store.Holds type location mask value slots) {touched : Nat → Prop}
    (hagree : HeapValue.Agree touched (store.content location.region)
      (after.content location.region))
    (hkept : ∀ bit, type.Touched location mask location.region bit → ¬touched bit)
    (hslots : ∀ slot ∈ slots, after.content (.slot slot) = store.content (.slot slot)) :
    after.Holds type location mask value slots := by
  induction type using PropertyType.induction_on generalizing location mask value slots touched with
  | scalar type hstorage =>
      obtain ⟨bytes, hbytes, rfl, rfl⟩ := (holds_scalar hstorage).mp h
      refine .scalar hstorage (bytes_of_agree hagree (fun bit hlow hhigh => hkept bit ?_) hbytes)
      exact touched_range (by simp [hstorage]) (PropertyType.ne_bool (by simp [hstorage])) hlow hhigh
  | bits =>
      obtain ⟨set, hset, rfl, rfl⟩ := holds_bool.mp h
      refine .bits (bool_of_agree hagree (fun place hplace => hkept _ ?_) hset)
      exact touched_bool.mpr ⟨rfl, place, hplace, rfl⟩
  | text =>
      rcases holds_str.mp h with ⟨hnone, rfl, rfl⟩ | ⟨slot, text, hsome, hcontent, rfl, rfl⟩
      · exact .noText (handle_of_kept .str (by decide) nofun rfl hagree hkept hnone)
      · refine .text (handle_of_kept .str (by decide) nofun rfl hagree hkept hsome) ?_
        rw [hslots slot (List.mem_singleton_self slot), hcontent]
  | inline type hstorage ih =>
      obtain ⟨hroom, values, rfl, hparts⟩ := (holds_inline hstorage).mp h
      refine .inline hstorage (hroom.of_agree hagree) (hparts.imp ?_)
      intro part hpart value first hsub hfirst
      refine ih part hpart hfirst hagree (fun bit hbit => hkept bit ?_)
        (fun slot hslot => hslots slot (hsub slot hslot))
      exact (touched_inline hstorage).mpr ⟨part, hpart, hbit⟩
  | container type hstorage ih =>
      have hinline : type.storage ≠ .inline := by simp [hstorage]
      have hbool : type ≠ .bool := PropertyType.ne_bool (by simp [hstorage])
      have hsize := PropertyType.size_of_container hstorage
      rcases (holds_container hstorage).mp h with ⟨hnone, rfl, rfl⟩ |
        ⟨slot, count, values, inner, ⟨hsome, bytes, hcontent, hfit⟩, hunits, rfl, rfl⟩
      · exact .noContainer hstorage (handle_of_kept type hinline hbool hsize hagree hkept hnone)
      · have hslot := hslots slot List.mem_cons_self
        have hhandle := handle_of_kept type hinline hbool hsize hagree hkept hsome
        refine .container hstorage ⟨hhandle, bytes, hslot.trans hcontent, hfit⟩ (hunits.imp ?_)
        intro part hpart value first hsub hfirst
        -- the whole buffer is kept, so no bit of it needs to be looked at
        have hsame : HeapValue.Agree (fun _ => False) (store.content (.slot slot))
            (after.content (.slot slot)) := hslot ▸ .refl _
        exact ih count part hpart hfirst hsame (fun _ _ => id)
          (fun slot hslot => hslots slot (List.mem_cons_of_mem _ (hsub slot hslot)))

end Store

end ObjectPackage
