/-
How stores change.  A change touches some bits, releases some slots and takes others
that were free; everything else is kept.  Changes follow one another and can be framed,
so what an update does to a value is all that it does.
-/
import ObjectPackage.Proofs.Store.Content

namespace ObjectPackage

/-- A region that is one of some slots. -/
def Region.Among (slots : List Nat) (region : Region) : Prop :=
  ∃ slot ∈ slots, region = .slot slot

@[simp]
theorem Region.among_slot {slots : List Nat} {slot : Nat} :
    (Region.slot slot).Among slots ↔ slot ∈ slots := by
  simp [Region.Among]

@[simp]
theorem Region.not_among_nil {region : Region} : ¬region.Among [] := by
  simp [Region.Among]

@[simp]
theorem Region.among_append {region : Region} {first second : List Nat} :
    region.Among (first ++ second) ↔ region.Among first ∨ region.Among second := by
  simp [Region.Among, or_and_right, exists_or]

theorem Region.among_cons {region : Region} {slot : Nat} {slots : List Nat} :
    region.Among (slot :: slots) ↔ region = .slot slot ∨ region.Among slots := by
  simp [Region.Among]

namespace Store

/-- One store becomes another: up to the touched bits, regions other than the old and
the new slots are kept; old slots that are not new are released, and new ones that are
not old were free. -/
structure Change (before after : Store) (touched : Region → Nat → Prop)
    (old new : List Nat) : Prop where
  kept : ∀ region, ¬region.Among old → ¬region.Among new →
    HeapValue.Agree (touched region) (before.content region) (after.content region)
  released : ∀ slot ∈ old, slot ∉ new → after.content (.slot slot) = none
  fresh : ∀ slot ∈ new, slot ∉ old → before.content (.slot slot) = none

namespace Change

variable {first second third : Store} {touched touched' : Region → Nat → Prop}
  {old middle new : List Nat}

theorem refl (store : Store) (touched : Region → Nat → Prop) (slots : List Nat) :
    store.Change store touched slots slots :=
  ⟨fun _ _ _ => .refl _, fun _ hold hnew => absurd hold hnew,
    fun _ hnew hold => absurd hnew hold⟩

theorem trans (h : first.Change second touched old middle)
    (h' : second.Change third touched middle new) : first.Change third touched old new := by
  have hsecond : ∀ slot ∈ old, slot ∉ middle → slot ∉ new →
      third.content (.slot slot) = none := by
    intro slot hold hmiddle hnew
    have hkept := h'.kept (.slot slot) (by simpa using hmiddle) (by simpa using hnew)
    rw [h.released slot hold hmiddle] at hkept
    exact hkept.none
  refine ⟨?_, ?_, ?_⟩
  · intro region hold hnew
    by_cases hmiddle : region.Among middle
    · obtain ⟨slot, hslot, rfl⟩ := hmiddle
      rw [Region.among_slot] at hold hnew
      rw [h.fresh slot hslot hold, h'.released slot hslot hnew]
      exact .refl _
    · exact (h.kept region hold hmiddle).trans (h'.kept region hmiddle hnew)
  · intro slot hold hnew
    by_cases hmiddle : slot ∈ middle
    · exact h'.released slot hmiddle hnew
    · exact hsecond slot hold hmiddle hnew
  · intro slot hnew hold
    by_cases hmiddle : slot ∈ middle
    · exact h.fresh slot hmiddle hold
    · have hkept := h.kept (.slot slot) (by simpa using hold) (by simpa using hmiddle)
      have hfree := h'.fresh slot hnew hmiddle
      generalize hcontent : first.content (.slot slot) = content at hkept
      rw [hfree] at hkept
      cases hkept
      rfl

/-- Slots that take no part can be added on either side. -/
theorem frame (h : first.Change second touched old new) (left right : List Nat) :
    first.Change second touched (left ++ old ++ right) (left ++ new ++ right) := by
  refine ⟨?_, ?_, ?_⟩
  · intro region hold hnew
    simp only [Region.among_append, not_or] at hold hnew
    exact h.kept region hold.1.2 hnew.1.2
  · intro slot hold hnew
    simp only [List.mem_append, not_or] at hold hnew
    exact h.released slot (by tauto) hnew.1.2
  · intro slot hnew hold
    simp only [List.mem_append, not_or] at hold hnew
    exact h.fresh slot (by tauto) hold.1.2

theorem frameLeft (h : first.Change second touched old new) (left : List Nat) :
    first.Change second touched (left ++ old) (left ++ new) := by
  simpa using h.frame left []

/-- Bits of owned slots need not be named. -/
theorem mono (h : first.Change second touched old new)
    (hle : ∀ region bit, touched region bit →
      touched' region bit ∨ region.Among old ∨ region.Among new) :
    first.Change second touched' old new := by
  refine ⟨?_, h.released, h.fresh⟩
  intro region hold hnew
  refine (h.kept region hold hnew).mono fun bit hbit => ?_
  rcases hle region bit hbit with hbit | hamong | hamong
  · exact hbit
  · exact absurd hamong hold
  · exact absurd hamong hnew

/-- A slot that was not owned and whose bits are not touched holds what it held. -/
theorem content_eq (h : first.Change second touched old new) {slot : Nat} (hold : slot ∉ old)
    (hlive : first.content (.slot slot) ≠ none) (hbits : ∀ bit, ¬touched (.slot slot) bit) :
    second.content (.slot slot) = first.content (.slot slot) := by
  have hnew : slot ∉ new := fun hnew => hlive (h.fresh slot hnew hold)
  exact (h.kept (.slot slot) (by simpa using hold) (by simpa using hnew)).eq hbits

/-- A region that held something is not among the slots that were taken. -/
theorem not_among_new (h : first.Change second touched old new) {region : Region}
    (hold : ¬region.Among old) (hlive : first.content region ≠ none) : ¬region.Among new := by
  rintro ⟨slot, hslot, rfl⟩
  exact hlive (h.fresh slot hslot fun hslot => hold (Region.among_slot.mpr hslot))

end Change

theorem Room.live {store : Store} {location : Location} {length : Nat}
    (h : store.Room location length) : store.content location.region ≠ none := by
  obtain ⟨bytes, count, hcontent, -⟩ := h
  rw [hcontent]
  exact Option.some_ne_none _

theorem Room.of_change {before after : Store} {touched : Region → Nat → Prop}
    {old new : List Nat} {location : Location} {length : Nat} (h : before.Room location length)
    (hchange : before.Change after touched old new) (hold : ¬location.region.Among old) :
    after.Room location length :=
  h.of_agree (hchange.kept _ hold (hchange.not_among_new hold h.live))

/-- The bits of a range of bytes. -/
def Range (location : Location) (length : Nat) (region : Region) (bit : Nat) : Prop :=
  region = location.region ∧ 8 * location.offset ≤ bit ∧ bit < 8 * (location.offset + length)

/-- The masked bits of a word. -/
def Masked (location : Location) (mask : UInt32) (region : Region) (bit : Nat) : Prop :=
  region = location.region ∧
    ∃ place, mask.toNat.testBit place = true ∧ bit = 8 * location.offset + place

/-- Slot numbers fit the eight bytes of a handle, as those of every heap in memory do. -/
def Fits (store : Store) : Prop :=
  store.heap.size < 2 ^ 64

instance (store : Store) : Decidable store.Fits :=
  inferInstanceAs (Decidable (store.heap.size < 2 ^ 64))

section Overwrite

variable {store : Store} {location : Location} {piece : List UInt8}

theorem bitAt_overwrite_of_lt {bytes : Array UInt8} {start bit : Nat}
    (hroom : start + piece.length ≤ bytes.size) (hstart : 8 * start ≤ bit)
    (hend : bit < 8 * (start + piece.length)) :
    bitAt (ObjectPackage.overwrite bytes start piece) bit =
      (piece.getD (bit / 8 - start) 0).toNat.testBit (bit % 8) := by
  have hindex : bit / 8 < bytes.size := by omega
  have hin : start ≤ bit / 8 ∧ bit / 8 < start + piece.length := by omega
  rw [bitAt, Array.getD_eq_getD_getElem?, getElem?_overwrite _ _ _ _ hindex, if_pos hin,
    List.getD_eq_getElem?_getD]

theorem bitAt_overwrite_of_not_mem {bytes : Array UInt8} {start bit : Nat}
    (hout : ¬(8 * start ≤ bit ∧ bit < 8 * (start + piece.length))) :
    bitAt (ObjectPackage.overwrite bytes start piece) bit = bitAt bytes bit := by
  rw [bitAt, bitAt, Array.getD_eq_getD_getElem?, Array.getD_eq_getD_getElem?]
  by_cases hindex : bit / 8 < bytes.size
  · have hin : ¬(start ≤ bit / 8 ∧ bit / 8 < start + piece.length) := by omega
    rw [getElem?_overwrite _ _ _ _ hindex, if_neg hin]
  · have hsize := size_overwrite bytes start piece
    rw [Array.getElem?_eq_none (by omega), Array.getElem?_eq_none (by omega)]

theorem content_overwrite (region : Region) :
    (store.overwrite location piece).content region =
      if region = location.region then
        (store.content region).map fun value =>
          value.mapBytes fun bytes => ObjectPackage.overwrite bytes location.offset piece
      else store.content region := by
  obtain ⟨root, heap⟩ := store
  obtain ⟨target, offset⟩ := location
  cases target with
  | root =>
      cases region with
      | root => rfl
      | slot index => rfl
  | slot target =>
      cases region with
      | root => rfl
      | slot index =>
          simp only [Store.overwrite, content, Region.slot.injEq, Array.getElem?_modify]
          by_cases hsame : index = target
          · subst hsame
            rw [if_pos rfl, if_pos rfl]
            cases heap[index]? with
            | none => rfl
            | some value => cases value <;> rfl
          · rw [if_neg (Ne.symm hsame), if_neg hsame]

theorem change_overwrite (store : Store) (location : Location) (piece : List UInt8) :
    store.Change (store.overwrite location piece) (Range location piece.length) [] [] := by
  refine ⟨?_, by simp, by simp⟩
  intro region _ _
  rw [content_overwrite]
  split
  · next hregion =>
      cases store.content region with
      | none => exact .refl _
      | some value =>
          cases value with
          | elements bytes count =>
              refine .elements (size_overwrite _ _ _) fun bit hbit => ?_
              exact bitAt_overwrite_of_not_mem fun hin => hbit ⟨hregion, hin⟩
          | _ => exact .refl _
  · exact .refl _

theorem Room.content_overwrite (h : store.Room location piece.length) :
    ∃ bytes count, store.content location.region = some (.elements bytes count) ∧
      location.offset + piece.length ≤ bytes.size ∧
      (store.overwrite location piece).content location.region =
        some (.elements (ObjectPackage.overwrite bytes location.offset piece) count) := by
  obtain ⟨bytes, count, hcontent, hroom⟩ := h
  refine ⟨bytes, count, hcontent, hroom, ?_⟩
  rw [Store.content_overwrite, if_pos rfl, hcontent]
  rfl

theorem Room.bytes_overwrite (h : store.Room location piece.length) :
    (store.overwrite location piece).bytes location piece.length = .ok piece := by
  obtain ⟨bytes, count, -, hroom, hcontent⟩ := h.content_overwrite
  have hroom' : location.offset + piece.length ≤
      (ObjectPackage.overwrite bytes location.offset piece).size := by
    rw [size_overwrite]
    exact hroom
  refine bytes_eq_ok.mpr ⟨_, count, hcontent, hroom', ?_⟩
  apply List.ext_getElem
  · simp only [Array.length_toList, Array.size_extract]
    omega
  · intro index hleft hright
    rw [← List.getD_eq_getElem _ 0 hleft, ← List.getD_eq_getElem _ 0 hright,
      getD_extract hroom' hleft]
    have hindex : location.offset + index < bytes.size := by omega
    have hin : location.offset ≤ location.offset + index ∧
        location.offset + index < location.offset + piece.length := by omega
    rw [Array.getD_eq_getD_getElem?, getElem?_overwrite _ _ _ _ hindex, if_pos hin,
      Nat.add_sub_cancel_left, List.getD_eq_getElem?_getD]

end Overwrite

end Store

end ObjectPackage
