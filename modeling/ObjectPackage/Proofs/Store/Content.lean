/-
What the regions of a store hold.  The root bytes and the slots of the heap are looked
at in one way: a region holds elements, text or nothing.  Reads of a location depend on
the bits of its range alone, so they survive every change to other bits.
-/
import ObjectPackage.Proofs.Bytes
import ObjectPackage.Proofs.Effect
import ObjectPackage.Store.Basic

namespace ObjectPackage

namespace HeapValue

/-- Contents that are the same up to some bits of their elements. -/
inductive Agree (touched : Nat → Prop) : Option HeapValue → Option HeapValue → Prop
  | refl (value : Option HeapValue) : Agree touched value value
  | elements {bytes bytes' : Array UInt8} {count : Nat} (hsize : bytes'.size = bytes.size)
      (hbits : ∀ bit, ¬touched bit → bitAt bytes' bit = bitAt bytes bit) :
      Agree touched (some (.elements bytes count)) (some (.elements bytes' count))

namespace Agree

variable {touched touched' : Nat → Prop} {first second third : Option HeapValue}

theorem elements_left {bytes : Array UInt8} {count : Nat}
    (h : Agree touched (some (.elements bytes count)) second) :
    ∃ bytes', second = some (.elements bytes' count) ∧ bytes'.size = bytes.size ∧
      ∀ bit, ¬touched bit → bitAt bytes' bit = bitAt bytes bit := by
  cases h with
  | refl => exact ⟨bytes, rfl, rfl, fun _ _ => rfl⟩
  | elements hsize hbits => exact ⟨_, rfl, hsize, hbits⟩

theorem trans (h : Agree touched first second) (h' : Agree touched second third) :
    Agree touched first third := by
  cases h with
  | refl => exact h'
  | elements hsize hbits =>
      obtain ⟨bytes, rfl, hsize', hbits'⟩ := h'.elements_left
      refine .elements (hsize'.trans hsize) fun bit hbit => ?_
      rw [hbits' bit hbit, hbits bit hbit]

theorem mono (h : Agree touched first second) (hle : ∀ bit, touched bit → touched' bit) :
    Agree touched' first second := by
  cases h with
  | refl => exact .refl _
  | elements hsize hbits => exact .elements hsize fun bit hbit => hbits bit fun h => hbit (hle bit h)

/-- Nothing changes where no bit is touched. -/
theorem eq (h : Agree touched first second) (hnone : ∀ bit, ¬touched bit) : second = first := by
  cases h with
  | refl => rfl
  | elements hsize hbits => rw [eq_of_bitAt hsize fun bit => hbits bit (hnone bit)]

theorem none (h : Agree touched none second) : second = Option.none := by
  cases h
  rfl

theorem text {value : String} (h : Agree touched (some (.text value)) second) :
    second = some (.text value) := by
  cases h
  rfl

end Agree

end HeapValue

namespace Store

/-- What a region holds; free slots hold nothing. -/
def content (store : Store) : Region → Option HeapValue
  | .root => some (.elements store.root 0)
  | .slot index => store.heap[index]?.filter fun value => !value.isFree

/-- A location with that many bytes from there on. -/
def Room (store : Store) (location : Location) (length : Nat) : Prop :=
  ∃ bytes count, store.content location.region = some (.elements bytes count) ∧
    location.offset + length ≤ bytes.size

variable {store store' : Store} {location : Location} {length slot : Nat}
  {touched : Nat → Prop}

theorem content_slot {value : HeapValue} :
    store.content (.slot slot) = some value ↔ store.heap[slot]? = some value ∧ value ≠ .free := by
  rw [content, Option.filter_eq_some_iff]
  cases value <;> simp [HeapValue.isFree]

theorem region_eq_ok {region : Region} {bytes : Array UInt8} :
    store.region region = .ok bytes ↔
      ∃ count, store.content region = some (.elements bytes count) := by
  cases region with
  | root => simp [Store.region, content, eq_comm]
  | slot index =>
      simp only [content_slot, ne_eq, reduceCtorEq, not_false_eq_true, and_true]
      rw [Store.region]
      split
      · next found count hfound => simp [hfound, eq_comm]
      · next hnone =>
          constructor
          · intro h
            cases h
          · rintro ⟨count, hfound⟩
            exact absurd hfound (hnone bytes count)

theorem text_eq_ok {value : String} :
    store.text slot = .ok value ↔ store.content (.slot slot) = some (.text value) := by
  simp only [content_slot, ne_eq, reduceCtorEq, not_false_eq_true, and_true]
  rw [Store.text]
  split
  · next found hfound => simp [hfound]
  · next hnone =>
      constructor
      · intro h
        cases h
      · intro hfound
        exact absurd hfound (hnone value)

theorem count_eq_ok {count : Nat} :
    store.count slot = .ok count ↔
      ∃ bytes, store.content (.slot slot) = some (.elements bytes count) := by
  simp only [content_slot, ne_eq, reduceCtorEq, not_false_eq_true, and_true]
  rw [Store.count]
  split
  · next bytes found hfound => simp [hfound]
  · next hnone =>
      constructor
      · intro h
        cases h
      · rintro ⟨bytes, hfound⟩
        exact absurd hfound (hnone bytes count)

theorem enclosing_eq_ok {bytes : Array UInt8} :
    store.enclosing location length = .ok bytes ↔
      ∃ count, store.content location.region = some (.elements bytes count) ∧
        location.offset + length ≤ bytes.size := by
  rw [enclosing, bind_eq_ok]
  constructor
  · rintro ⟨found, hregion, hif⟩
    obtain ⟨count, hcontent⟩ := region_eq_ok.mp hregion
    split at hif
    · next hroom =>
        obtain rfl := Except.ok.inj hif
        exact ⟨count, hcontent, hroom⟩
    · cases hif
  · rintro ⟨count, hcontent, hroom⟩
    exact ⟨bytes, region_eq_ok.mpr ⟨count, hcontent⟩, if_pos hroom⟩

theorem bytes_eq_ok {piece : List UInt8} :
    store.bytes location length = .ok piece ↔
      ∃ bytes count, store.content location.region = some (.elements bytes count) ∧
        location.offset + length ≤ bytes.size ∧
        piece = (bytes.extract location.offset (location.offset + length)).toList := by
  rw [Store.bytes, bind_eq_ok]
  constructor
  · rintro ⟨bytes, henclosing, hpiece⟩
    obtain ⟨count, hcontent, hroom⟩ := enclosing_eq_ok.mp henclosing
    exact ⟨bytes, count, hcontent, hroom, (Except.ok.inj hpiece).symm⟩
  · rintro ⟨bytes, count, hcontent, hroom, rfl⟩
    exact ⟨bytes, enclosing_eq_ok.mpr ⟨count, hcontent, hroom⟩, rfl⟩

theorem room_of_bytes {piece : List UInt8} (h : store.bytes location length = .ok piece) :
    store.Room location length := by
  obtain ⟨bytes, count, hcontent, hroom, -⟩ := bytes_eq_ok.mp h
  exact ⟨bytes, count, hcontent, hroom⟩

theorem length_of_bytes {piece : List UInt8} (h : store.bytes location length = .ok piece) :
    piece.length = length := by
  obtain ⟨bytes, count, -, hroom, rfl⟩ := bytes_eq_ok.mp h
  simp only [Array.length_toList, Array.size_extract]
  omega

theorem Room.of_agree (h : store.Room location length)
    (hagree : HeapValue.Agree touched (store.content location.region)
      (store'.content location.region)) : store'.Room location length := by
  obtain ⟨bytes, count, hcontent, hroom⟩ := h
  rw [hcontent] at hagree
  obtain ⟨bytes', hcontent', hsize, -⟩ := hagree.elements_left
  exact ⟨bytes', count, hcontent', by omega⟩

theorem getD_extract {bytes : Array UInt8} {start index : Nat} (h : start + length ≤ bytes.size)
    (hindex : index < length) :
    (bytes.extract start (start + length)).toList.getD index 0 = bytes.getD (start + index) 0 := by
  have hlt : start + index < bytes.size := by omega
  simp [Array.getD, hlt, hindex, List.getElem?_drop]

/-- Bytes of a location depend on the bits of its range alone. -/
theorem bytes_of_agree {piece : List UInt8}
    (hagree : HeapValue.Agree touched (store.content location.region)
      (store'.content location.region))
    (hkept : ∀ bit, 8 * location.offset ≤ bit → bit < 8 * (location.offset + length) →
      ¬touched bit)
    (h : store.bytes location length = .ok piece) : store'.bytes location length = .ok piece := by
  obtain ⟨bytes, count, hcontent, hroom, rfl⟩ := bytes_eq_ok.mp h
  rw [hcontent] at hagree
  obtain ⟨bytes', hcontent', hsize, hbits⟩ := hagree.elements_left
  refine bytes_eq_ok.mpr ⟨bytes', count, hcontent', by omega, ?_⟩
  apply List.ext_getElem
  · simp only [Array.length_toList, Array.size_extract]
    omega
  · intro index hleft hright
    have hindex : index < length := by
      simp only [Array.length_toList, Array.size_extract] at hleft
      omega
    rw [← List.getD_eq_getElem _ 0 hleft, ← List.getD_eq_getElem _ 0 hright,
      getD_extract hroom hindex, getD_extract (by omega) hindex]
    apply getD_eq_of_bitAt
    intro bit hbit
    exact (hbits _ (hkept _ (by omega) (by omega))).symm

theorem word_eq_ok {count number : Nat} :
    store.word location count = .ok number ↔
      ∃ piece, store.bytes location count = .ok piece ∧ ofLittleEndian piece = number := by
  rw [word, bind_eq_ok]
  constructor
  · rintro ⟨piece, hpiece, hnumber⟩
    exact ⟨piece, hpiece, Except.ok.inj hnumber⟩
  · rintro ⟨piece, hpiece, rfl⟩
    exact ⟨piece, hpiece, rfl⟩

/-- The slot that a word of handle bytes stands for. -/
def slotOf : Nat → Option Nat
  | 0 => none
  | slot + 1 => some slot

theorem handle_eq_ok {handle : Option Nat} :
    store.handle location = .ok handle ↔
      ∃ piece, store.bytes location handleSize = .ok piece ∧
        slotOf (ofLittleEndian piece) = handle := by
  rw [Store.handle, bind_eq_ok]
  constructor
  · rintro ⟨number, hword, hnumber⟩
    obtain ⟨piece, hpiece, rfl⟩ := word_eq_ok.mp hword
    refine ⟨piece, hpiece, ?_⟩
    cases hpieceNumber : ofLittleEndian piece with
    | zero =>
        rw [hpieceNumber] at hnumber
        exact Except.ok.inj hnumber
    | succ slot =>
        rw [hpieceNumber] at hnumber
        exact Except.ok.inj hnumber
  · rintro ⟨piece, hpiece, rfl⟩
    refine ⟨_, word_eq_ok.mpr ⟨piece, hpiece, rfl⟩, ?_⟩
    cases ofLittleEndian piece <;> rfl

theorem handle_of_agree {handle : Option Nat}
    (hagree : HeapValue.Agree touched (store.content location.region)
      (store'.content location.region))
    (hkept : ∀ bit, 8 * location.offset ≤ bit → bit < 8 * (location.offset + handleSize) →
      ¬touched bit)
    (h : store.handle location = .ok handle) : store'.handle location = .ok handle := by
  obtain ⟨piece, hpiece, hslot⟩ := handle_eq_ok.mp h
  exact handle_eq_ok.mpr ⟨piece, bytes_of_agree hagree hkept hpiece, hslot⟩

theorem testBit_word {bytes : Array UInt8} {start bit : Nat} (h : start + length ≤ bytes.size)
    (hbit : bit < 8 * length) :
    (ofLittleEndian (bytes.extract start (start + length)).toList).testBit bit =
      bitAt bytes (8 * start + bit) := by
  have hdiv : (8 * start + bit) / 8 = start + bit / 8 := by omega
  have hmod : (8 * start + bit) % 8 = bit % 8 := by omega
  rw [testBit_ofLittleEndian, getD_extract h (by omega), bitAt, hdiv, hmod]

/-- A bool is set when one of its masked bits is. -/
theorem bool_eq_ok {mask : UInt32} {value : Bool} :
    store.bool location mask = .ok value ↔
      ∃ bytes count, store.content location.region = some (.elements bytes count) ∧
        location.offset + 4 ≤ bytes.size ∧
        (value = true ↔ ∃ bit, mask.toNat.testBit bit = true ∧
          bitAt bytes (8 * location.offset + bit) = true) := by
  have hmasked {bytes : Array UInt8} (hroom : location.offset + 4 ≤ bytes.size) :
      (UInt32.ofNat (ofLittleEndian
        (bytes.extract location.offset (location.offset + 4)).toList) &&& mask != 0) = true ↔
        ∃ bit, mask.toNat.testBit bit = true ∧
          bitAt bytes (8 * location.offset + bit) = true := by
    rw [masked_ne_zero]
    refine exists_congr fun bit => and_congr_right fun hmask => ?_
    have hbit := lt_of_testBit hmask
    rw [testBit_word hroom (by omega)]
  rw [Store.bool, bind_eq_ok]
  constructor
  · rintro ⟨number, hword, hvalue⟩
    obtain ⟨piece, hpiece, rfl⟩ := word_eq_ok.mp hword
    obtain ⟨bytes, count, hcontent, hroom, rfl⟩ := bytes_eq_ok.mp hpiece
    obtain rfl := Except.ok.inj hvalue
    exact ⟨bytes, count, hcontent, hroom, hmasked hroom⟩
  · rintro ⟨bytes, count, hcontent, hroom, hvalue⟩
    refine ⟨_, word_eq_ok.mpr ⟨_, bytes_eq_ok.mpr ⟨bytes, count, hcontent, hroom, rfl⟩, rfl⟩, ?_⟩
    refine congrArg Except.ok (Bool.eq_iff_iff.mpr ?_)
    rw [hmasked hroom, hvalue]

theorem bool_of_agree {mask : UInt32} {value : Bool}
    (hagree : HeapValue.Agree touched (store.content location.region)
      (store'.content location.region))
    (hkept : ∀ bit, mask.toNat.testBit bit = true → ¬touched (8 * location.offset + bit))
    (h : store.bool location mask = .ok value) : store'.bool location mask = .ok value := by
  obtain ⟨bytes, count, hcontent, hroom, hvalue⟩ := bool_eq_ok.mp h
  rw [hcontent] at hagree
  obtain ⟨bytes', hcontent', hsize, hbits⟩ := hagree.elements_left
  refine bool_eq_ok.mpr ⟨bytes', count, hcontent', by omega, hvalue.trans ?_⟩
  refine exists_congr fun bit => and_congr_right fun hmask => ?_
  rw [hbits _ (hkept bit hmask)]

end Store

end ObjectPackage
