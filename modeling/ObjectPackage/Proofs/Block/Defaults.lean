/-
Blocks of default values.  What construction writes is zeros over zeros, so a block of
defaults without a base is zero bytes, and every element of it has the default value of its
type.
-/
import ObjectPackage.Proofs.Block.Make

namespace ObjectPackage

variable {α β : Type} {store : Store} {size : Nat}

/-- An action that leaves a store as it is, whether it fails or not. -/
def Update.Leaves (store : Store) (action : Update α) : Prop :=
  (runFrom store action).2 = store

namespace Update.Leaves

theorem pure (value : α) : Leaves store (Pure.pure value) := rfl

theorem bind {action : Update α} {next : α → Update β} (h : Leaves store action)
    (hnext : ∀ value, (runFrom store action).1 = .ok value → Leaves store (next value)) :
    Leaves store (action >>= next) := by
  rw [Leaves, runFrom_bind]
  cases hrun : runFrom store action with
  | mk outcome middle =>
      obtain rfl : middle = store := (congrArg Prod.snd hrun).symm.trans h
      cases outcome with
      | error error => rfl
      | ok value => exact hnext value (congrArg Prod.fst hrun)

theorem forM {items : List β} {action : β → Update Unit}
    (h : ∀ item ∈ items, Leaves store (action item)) : Leaves store (items.forM action) := by
  induction items with
  | nil => exact pure ()
  | cons item items ih =>
      obtain ⟨hfirst, hrest⟩ := List.forall_mem_cons.mp h
      exact hfirst.bind fun _ _ => ih hrest

theorem fetch (query : Store → Except PropertyError α) : Leaves store (Update.fetch query) := by
  rw [Leaves, runFrom_fetch]

/-- Zeros that are written over zeros change nothing. -/
theorem overwrite_zeros (size start length : Nat) :
    overwrite (Array.replicate size 0) start (List.replicate length 0) =
      Array.replicate size 0 := by
  induction length generalizing start with
  | zero => rfl
  | succ length ih => rw [List.replicate_succ, overwrite, Array.setIfInBounds_replicate_self, ih]

theorem zero (location : Location) (length : Nat) :
    Leaves (Store.zeroed size) (Update.zero location length) := by
  refine bind (bind (fetch _) fun _ _ => .pure _) fun _ _ => ?_
  rw [Leaves, runFrom_modify, Store.zeroed, Store.overwrite]
  split
  · rw [overwrite_zeros]
  · rfl

/-- A word of zeros has no bits to clear. -/
theorem clear (location : Location) (mask : UInt32) :
    Leaves (Store.zeroed size) (Update.setBool location mask false) := by
  refine (fetch _).bind fun word hword => ?_
  rw [runFrom_fetch, Store.word_eq_ok] at hword
  obtain ⟨piece, hpiece, rfl⟩ := hword
  obtain ⟨bytes, count, hcontent, hroom, rfl⟩ := Store.bytes_eq_ok.mp hpiece
  have hzeros : bytes = Array.replicate size 0 := by
    cases hregion : location.region with
    | root =>
        rw [hregion] at hcontent
        exact (HeapValue.elements.inj (Option.some.inj hcontent)).1.symm
    | slot index =>
        rw [hregion] at hcontent
        cases hcontent
  have hlength : min (location.offset + 4) size - location.offset = 4 := by
    rw [hzeros, Array.size_replicate] at hroom
    omega
  have hnone : ofLittleEndian (List.replicate 4 0) = 0 := rfl
  have hcleared : (UInt32.ofNat 0 &&& ~~~mask).toNat = 0 := by simp
  rw [hzeros, Array.extract_replicate, hlength, Array.toList_replicate, hnone]
  dsimp only
  rw [if_neg Bool.false_ne_true, hcleared]
  exact zero location 4

end Update.Leaves

/-- Construction leaves zeros. -/
theorem PropertyType.construct_leaves (location : Location) (mask : UInt32) (type : PropertyType) :
    Update.Leaves (Store.zeroed size) (construct location mask type) := by
  induction type using PropertyType.induction_on generalizing location mask with
  | scalar type hstorage =>
      rw [construct_zero _ _ (by simp [hstorage]) (by rintro rfl; cases hstorage)]
      exact .zero _ _
  | bits => exact .clear _ _
  | text =>
      rw [construct_zero _ _ (show storage .str ≠ .inline by decide) (by simp)]
      exact .zero _ _
  | inline type hstorage ih =>
      have hparts : Update.Leaves (Store.zeroed size) (type.parts.forM fun part =>
          construct (location.shift part.offset) part.mask part.type) :=
        .forM fun part hpart => ih part hpart _ _
      cases type with
      | struct layout =>
          rw [construct_struct]
          exact (Update.Leaves.zero _ _).bind fun _ _ => hparts
      | fixedArray element count =>
          rw [construct_fixedArray]
          exact hparts
      | _ => cases hstorage
  | container type hstorage _ =>
      rw [construct_zero _ _ (by simp [hstorage]) (by rintro rfl; cases hstorage)]
      exact .zero _ _

namespace Block

variable {layout : StructLayout} {block : Block}

/-- A block of defaults without a base is zero bytes and has no heap. -/
theorem newDefault_none_zeroed (h : newDefault layout none = .ok block) :
    block = ⟨layout, Store.zeroed (alignUp layout.size blockGrain)⟩ := by
  have hleaves : Update.Leaves (Store.zeroed (alignUp layout.size blockGrain))
      (forElements layout.properties constructElement) := by
    rw [forElements_eq]
    exact .forM fun element _ => PropertyType.construct_leaves _ _ _
  simp only [newDefault] at h
  rw [fill_eq, hleaves] at h
  obtain ⟨_, -, rfl⟩ := map_eq_ok.mp h
  rfl

/-- Such a block is sound, and its heap is empty. -/
theorem newDefault_none_start (hlayout : layout.Built) (h : newDefault layout none = .ok block) :
    (block.layout = layout ∧ block.store.Sound layout) ∧ block.store.heap.size = 0 := by
  have hheap : block.store.heap.size = 0 := by
    rw [newDefault_none_zeroed h]
    rfl
  refine ⟨newDefault_none_sound hlayout h ?_, hheap⟩
  rw [Store.Fits, hheap]
  decide

/-- Each of its elements has the default value of its type. -/
theorem newDefault_none_value (hlayout : layout.Built) (h : newDefault layout none = .ok block)
    {element : Property × Nat} (helement : element ∈ elementsOf layout.properties) :
    block.value element.1 element.2 = .ok element.1.type.defaultValue := by
  obtain rfl := newDefault_none_zeroed h
  obtain ⟨hproperty, hindex⟩ := mem_elementsOf.mp helement
  have hpart : elementPart element ∈ memberParts layout.properties := by
    rw [← map_elementPart]
    exact List.mem_map_of_mem helement
  have hinside := (memberParts_fitted hlayout.arranged).inside _ hpart
  have hblank := (blank_zeroed (alignUp layout.size blockGrain)).shift
    (Nat.le_trans hinside (le_alignUp _ _))
  rw [value_eq helement, ← shift_root]
  exact PropertyType.snapshot_of_holds
    (hblank.holds (property_resolved hlayout hproperty) element.1.mask)

end Block

end ObjectPackage
