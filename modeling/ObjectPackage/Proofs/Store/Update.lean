/-
The basic updates of a store: each of them succeeds where there is room, and the change
it makes is known.  The heap never gets smaller, so a slot number that fits in the end
did so all along.
-/
import ObjectPackage.Proofs.Store.Change

namespace ObjectPackage

/-- The heap that is seen in a state does not get smaller, whatever the outcome. -/
def Grows {σ α : Type} (view : σ → Store) (action : ExceptT PropertyError (StateM σ) α) : Prop :=
  ∀ state, (view state).heap.size ≤ (view (runFrom state action).2).heap.size

namespace Grows

variable {σ α β : Type} {view : σ → Store}

theorem pure (value : α) : Grows view (Pure.pure value) :=
  fun _ => Nat.le_refl _

theorem throw (error : PropertyError) :
    Grows view (throw error : ExceptT PropertyError (StateM σ) α) :=
  fun _ => Nat.le_refl _

theorem bind {action : ExceptT PropertyError (StateM σ) α}
    {next : α → ExceptT PropertyError (StateM σ) β} (h : Grows view action)
    (hnext : ∀ value, Grows view (next value)) : Grows view (action >>= next) := by
  intro state
  have hfirst := h state
  rw [runFrom_bind]
  cases hrun : runFrom state action with
  | mk outcome middle =>
      rw [hrun] at hfirst
      cases outcome with
      | error error => exact hfirst
      | ok value => exact Nat.le_trans hfirst (hnext value middle)

theorem forM {items : List β} {action : β → ExceptT PropertyError (StateM σ) Unit}
    (h : ∀ item ∈ items, Grows view (action item)) : Grows view (items.forM action) := by
  induction items with
  | nil => exact pure ()
  | cons item rest ih =>
      exact (h item List.mem_cons_self).bind fun _ =>
        ih fun item hitem => h item (List.mem_cons_of_mem _ hitem)

end Grows

namespace Update

variable {α β : Type}

namespace Grows

open ObjectPackage.Grows

theorem fetch (query : Store → Except PropertyError α) : Grows id (Update.fetch query) := by
  intro store
  rw [Update.fetch, runFrom_bind_ok (runFrom_get _)]
  split <;> exact Nat.le_refl _

theorem write (location : Location) (piece : List UInt8) : Grows id (Update.write location piece) := by
  refine Grows.bind ((fetch _).bind fun _ => .pure _) fun _ => ?_
  intro store
  obtain ⟨root, heap⟩ := store
  simp only [runFrom_modify, Store.overwrite]
  split
  · exact Nat.le_refl _
  · simp

theorem setBool (location : Location) (mask : UInt32) (value : Bool) :
    Grows id (Update.setBool location mask value) :=
  (fetch _).bind fun _ => write location _

theorem setHandle (location : Location) (handle : Option Nat) :
    Grows id (Update.setHandle location handle) := by
  cases handle <;> exact write location _

theorem alloc (value : HeapValue) : Grows id (Update.alloc value) := by
  intro store
  obtain ⟨root, heap⟩ := store
  simp only [Update.alloc, runFrom_bind, runFrom_get, runFrom_modify, runFrom_pure, Store.setSlot]
  split <;> simp

theorem free (slot : Nat) : Grows id (Update.free slot) := by
  intro store
  obtain ⟨root, heap⟩ := store
  simp [Update.free, Store.free]

theorem ownElements (location : Location) (count pitch : Nat) :
    Grows id (Update.ownElements location count pitch) :=
  (alloc _).bind fun slot => (setHandle location (some slot)).bind fun _ => .pure slot

end Grows

variable {store : Store} {location : Location}

@[simp]
theorem runFrom_fetch (store : Store) (query : Store → Except PropertyError α) :
    runFrom store (fetch query) = (query store, store) := by
  rw [fetch, runFrom_bind_ok (runFrom_get _)]
  split
  · next value hvalue => rw [hvalue, runFrom_pure]
  · next error herror => rw [herror, runFrom_throw]

/-- A query of another store is settled before the update starts. -/
theorem fetch_ok (value : α) : (fetch fun _ => .ok value) = pure value := rfl

theorem runFrom_write {piece : List UInt8} (h : store.Room location piece.length) :
    runFrom store (write location piece) = (.ok (), store.overwrite location piece) := by
  obtain ⟨bytes, count, hcontent, hroom⟩ := h
  have henclosing := Store.enclosing_eq_ok.mpr ⟨count, hcontent, hroom⟩
  have hcheck : runFrom store (discard (fetch fun store =>
      store.enclosing location piece.length)) = (.ok (), store) := by
    change runFrom store ((fun _ => ()) <$> fetch _) = _
    rw [runFrom_map, runFrom_fetch, henclosing]
  rw [write, runFrom_bind_ok hcheck, runFrom_modify]

/-- Bytes that are written are there afterwards, and no other bits change. -/
theorem write_spec {piece : List UInt8} (h : store.Room location piece.length) :
    ∃ after, runFrom store (write location piece) = (.ok (), after) ∧
      store.Change after (Store.Range location piece.length) [] [] ∧
      after.bytes location piece.length = .ok piece :=
  ⟨_, runFrom_write h, Store.change_overwrite store location piece, h.bytes_overwrite⟩

theorem writeWord_spec {count : Nat} (h : store.Room location count) (value : Nat) :
    ∃ after, runFrom store (writeWord location count value) = (.ok (), after) ∧
      store.Change after (Store.Range location count) [] [] ∧
      after.bytes location count = .ok (littleEndian count value) := by
  have hspec := @write_spec store location (littleEndian count value)
  rw [length_littleEndian] at hspec
  exact hspec h

theorem setHandle_none_spec (h : store.Room location handleSize) :
    ∃ after, runFrom store (setHandle location none) = (.ok (), after) ∧
      store.Change after (Store.Range location handleSize) [] [] ∧
      after.handle location = .ok none := by
  obtain ⟨after, hrun, hchange, hbytes⟩ := writeWord_spec h 0
  exact ⟨after, hrun, hchange, Store.handle_eq_ok.mpr ⟨_, hbytes, rfl⟩⟩

theorem setHandle_some_spec (h : store.Room location handleSize) (slot : Nat) :
    ∃ after, runFrom store (setHandle location (some slot)) = (.ok (), after) ∧
      store.Change after (Store.Range location handleSize) [] [] ∧
      (slot + 1 < 2 ^ 64 → after.handle location = .ok (some slot)) := by
  obtain ⟨after, hrun, hchange, hbytes⟩ := writeWord_spec h (slot + 1)
  refine ⟨after, hrun, hchange, fun hslot => Store.handle_eq_ok.mpr ⟨_, hbytes, ?_⟩⟩
  rw [ofLittleEndian_littleEndian, Nat.mod_eq_of_lt (show slot + 1 < 256 ^ handleSize from hslot)]
  rfl

/-- The word that `setBool` stores. -/
def masked (word : Nat) (mask : UInt32) (value : Bool) : UInt32 :=
  if value then UInt32.ofNat word ||| mask else UInt32.ofNat word &&& ~~~mask

/-- It has the value in the bits of the mask and the old bits elsewhere. -/
theorem testBit_masked (word : Nat) (mask : UInt32) (value : Bool) {bit : Nat} (hbit : bit < 32) :
    (masked word mask value).toNat.testBit bit =
      if mask.toNat.testBit bit then value else word.testBit bit := by
  have hword : (UInt32.ofNat word).toNat.testBit bit = word.testBit bit := by
    rw [UInt32.toNat_ofNat', Nat.testBit_mod_two_pow, decide_eq_true hbit, Bool.true_and]
  rw [masked]
  cases value with
  | true =>
      rw [if_pos rfl, UInt32.toNat_or, Nat.testBit_or, hword]
      cases mask.toNat.testBit bit <;> simp
  | false =>
      rw [if_neg (by simp), UInt32.toNat_and, Nat.testBit_and, hword, testBit_complement mask hbit]
      cases mask.toNat.testBit bit <;> simp

/-- The bytes that `setBool` writes in place of those that it finds. -/
def maskedPiece (bytes : Array UInt8) (start : Nat) (mask : UInt32) (value : Bool) : List UInt8 :=
  littleEndian 4
    (masked (ofLittleEndian (bytes.extract start (start + 4)).toList) mask value).toNat

@[simp]
theorem length_maskedPiece (bytes : Array UInt8) (start : Nat) (mask : UInt32) (value : Bool) :
    (maskedPiece bytes start mask value).length = 4 :=
  length_littleEndian _ _

theorem bitAt_maskedPiece {bytes : Array UInt8} {start place : Nat} (mask : UInt32) (value : Bool)
    (hroom : start + 4 ≤ bytes.size) (hplace : place < 32) :
    bitAt (overwrite bytes start (maskedPiece bytes start mask value)) (8 * start + place) =
      if mask.toNat.testBit place then value else bitAt bytes (8 * start + place) := by
  have hdiv : (8 * start + place) / 8 - start = place / 8 := by omega
  have hmod : (8 * start + place) % 8 = place % 8 := by omega
  rw [Store.bitAt_overwrite_of_lt (by simpa using hroom) (by omega)
    (by rw [length_maskedPiece]; omega), hdiv, hmod, maskedPiece, testBit_littleEndian (by omega),
    testBit_masked _ mask value hplace, Store.testBit_word hroom (by omega)]

theorem setBool_spec {mask : UInt32} (h : store.Room location 4) (value : Bool) :
    ∃ after, runFrom store (setBool location mask value) = (.ok (), after) ∧
      store.Change after (Store.Masked location mask) [] [] ∧
      after.bool location mask = .ok (value && mask != 0) := by
  obtain ⟨bytes, count, hcontent, hroom⟩ := h
  let piece := maskedPiece bytes location.offset mask value
  have hbits {place : Nat} := @bitAt_maskedPiece bytes location.offset place mask value hroom
  have hrun : runFrom store (setBool location mask value) =
      (.ok (), store.overwrite location piece) := by
    rw [setBool, runFrom_bind, runFrom_fetch, Store.word_eq_ok.mpr
      ⟨_, Store.bytes_eq_ok.mpr ⟨bytes, count, hcontent, hroom, rfl⟩, rfl⟩]
    exact runFrom_write ⟨bytes, count, hcontent, hroom⟩
  have hafter : (store.overwrite location piece).content location.region =
      some (.elements (overwrite bytes location.offset piece) count) := by
    rw [Store.content_overwrite, if_pos rfl, hcontent]
    rfl
  refine ⟨_, hrun, ⟨?_, by simp, by simp⟩, ?_⟩
  · intro region _ _
    by_cases hregion : region = location.region
    · subst hregion
      rw [hcontent, hafter]
      refine .elements (size_overwrite _ _ _) fun bit hbit => ?_
      by_cases hin : 8 * location.offset ≤ bit ∧ bit < 8 * (location.offset + 4)
      · obtain ⟨place, rfl⟩ := Nat.exists_eq_add_of_le hin.1
        have hmask : ¬mask.toNat.testBit place = true :=
          fun hmask => hbit ⟨rfl, place, hmask, rfl⟩
        rw [hbits (by omega), if_neg hmask]
      · exact Store.bitAt_overwrite_of_not_mem (by simpa [piece] using hin)
    · rw [Store.content_overwrite, if_neg hregion]
      exact .refl _
  · refine Store.bool_eq_ok.mpr ⟨_, count, hafter, by simpa using hroom, ?_⟩
    rw [Bool.and_eq_true, bne_iff_ne, ne_zero_iff_testBit]
    constructor
    · rintro ⟨hvalue, place, hplace⟩
      exact ⟨place, hplace, by rw [hbits (lt_of_testBit hplace), if_pos hplace, hvalue]⟩
    · rintro ⟨place, hplace, hset⟩
      rw [hbits (lt_of_testBit hplace), if_pos hplace] at hset
      exact ⟨hset, place, hplace⟩

end Update

namespace Store

variable {store : Store} {slot : Nat} {value : HeapValue}

/-- The slot that is taken next is new, or has been given back. -/
theorem freeSlot_cases (store : Store) :
    store.freeSlot = store.heap.size ∨
      store.freeSlot < store.heap.size ∧ store.heap[store.freeSlot]? = some .free := by
  rw [freeSlot]
  cases hfound : store.heap.findIdx? HeapValue.isFree with
  | none => exact Or.inl rfl
  | some index =>
      obtain ⟨hindex, hfree, -⟩ := Array.findIdx?_eq_some_iff_getElem.mp hfound
      refine Or.inr ⟨hindex, ?_⟩
      rw [Option.getD_some, Array.getElem?_eq_getElem hindex]
      cases hvalue : store.heap[index] with
      | free => rfl
      | _ =>
          rw [hvalue] at hfree
          cases hfree

theorem freeSlot_le (store : Store) : store.freeSlot ≤ store.heap.size := by
  rcases store.freeSlot_cases with h | ⟨h, -⟩ <;> omega

theorem content_freeSlot (store : Store) : store.content (.slot store.freeSlot) = none := by
  rw [content]
  rcases store.freeSlot_cases with hsize | ⟨-, hfree⟩
  · rw [hsize, Array.getElem?_eq_none (Nat.le_refl _), Option.filter_none]
  · rw [hfree]
    rfl

theorem getElem?_setSlot (h : slot ≤ store.heap.size) :
    (store.setSlot slot value).heap[slot]? = some value := by
  obtain ⟨root, heap⟩ := store
  rcases Nat.eq_or_lt_of_le h with rfl | hlt
  · simp [setSlot]
  · simp [setSlot, Nat.ne_of_lt hlt, show slot < heap.size from hlt]

theorem content_setSlot_of_ne {region : Region} (h : region ≠ .slot slot) :
    (store.setSlot slot value).content region = store.content region := by
  obtain ⟨root, heap⟩ := store
  cases region with
  | root => rfl
  | slot other =>
      have hne : slot ≠ other := fun heq => h (heq ▸ rfl)
      have hheap : (setSlot slot value ⟨root, heap⟩).heap[other]? = heap[other]? := by
        simp only [setSlot]
        split
        · next hsize => rw [Array.getElem?_push, if_neg (hsize ▸ hne.symm)]
        · rw [Array.getElem?_setIfInBounds_ne hne]
      rw [content, content, hheap]

end Store

namespace Update

variable {store : Store} {location : Location}

/-- A value is put into a slot that was free. -/
theorem alloc_spec (store : Store) {value : HeapValue} (h : value ≠ .free) :
    ∃ slot after, runFrom store (alloc value) = (.ok slot, after) ∧
      store.Change after (fun _ _ => False) [] [slot] ∧
      after.content (.slot slot) = some value ∧ slot < after.heap.size := by
  have hstored := @Store.getElem?_setSlot store _ value store.freeSlot_le
  refine ⟨store.freeSlot, store.setSlot store.freeSlot value, rfl, ⟨?_, by simp, ?_⟩,
    Store.content_slot.mpr ⟨hstored, h⟩, (Array.getElem?_eq_some_iff.mp hstored).1⟩
  · intro region _ hregion
    rw [Store.content_setSlot_of_ne (by simpa [Region.Among] using hregion)]
    exact .refl _
  · intro slot hslot _
    rw [List.mem_singleton.mp hslot]
    exact store.content_freeSlot

theorem free_spec (store : Store) (slot : Nat) :
    ∃ after, runFrom store (free slot) = (.ok (), after) ∧
      store.Change after (fun _ _ => False) [slot] [] := by
  obtain ⟨root, heap⟩ := store
  refine ⟨_, rfl, ?_, ?_, by simp⟩
  · intro region hold _
    cases region with
    | root => exact .refl _
    | slot other =>
        simp only [Region.among_slot, List.mem_singleton] at hold
        simp only [Store.free, Store.content]
        rw [Array.getElem?_setIfInBounds_ne (Ne.symm hold)]
        exact .refl _
  · intro other hother _
    rw [List.mem_singleton.mp hother]
    simp only [Store.free, Store.content, Array.getElem?_setIfInBounds_self]
    split <;> rfl

/-- A location is given a new slot; its number fits when the heap does. -/
theorem own_spec (h : store.Room location handleSize) {value : HeapValue} (hvalue : value ≠ .free) :
    ∃ slot middle after, runFrom store (alloc value) = (.ok slot, middle) ∧
      runFrom middle (setHandle location (some slot)) = (.ok (), after) ∧
      store.Change after (Store.Range location handleSize) [] [slot] ∧
      after.content (.slot slot) = some value ∧
      (after.Fits → after.handle location = .ok (some slot)) := by
  obtain ⟨slot, middle, halloc, hfirst, hcontent, hlt⟩ := alloc_spec store hvalue
  have hregion : location.region ≠ .slot slot := by
    rintro hregion
    exact h.live (hregion ▸ hfirst.fresh slot (by simp) (by simp))
  have hroom := h.of_change hfirst (by simp)
  obtain ⟨after, hrun, hsecond, hhandle⟩ := setHandle_some_spec hroom slot
  have hgrows := Grows.setHandle location (some slot) middle
  rw [hrun] at hgrows
  refine ⟨slot, middle, after, halloc, hrun, ?_, ?_, ?_⟩
  · exact (hfirst.mono (by simp)).trans (hsecond.frameLeft [slot])
  · rw [hsecond.content_eq (by simp) (by simp [hcontent]) fun bit hbit => hregion hbit.1.symm]
    exact hcontent
  · intro hfits
    have hsize : after.heap.size < 2 ^ 64 := hfits
    have hsizes : middle.heap.size ≤ after.heap.size := hgrows
    exact hhandle (by omega)

theorem ownElements_spec (h : store.Room location handleSize) (count pitch : Nat) :
    ∃ slot after, runFrom store (ownElements location count pitch) = (.ok slot, after) ∧
      store.Change after (Store.Range location handleSize) [] [slot] ∧
      after.content (.slot slot) = some (.elements (Array.replicate (count * pitch) 0) count) ∧
      (after.Fits → after.handle location = .ok (some slot)) := by
  obtain ⟨slot, middle, after, halloc, hrun, hspec⟩ := own_spec h
    (show HeapValue.elements (Array.replicate (count * pitch) 0) count ≠ .free by simp)
  refine ⟨slot, after, ?_, hspec⟩
  rw [ownElements, runFrom_bind_ok halloc, runFrom_bind_ok hrun, runFrom_pure]

end Update

end ObjectPackage
