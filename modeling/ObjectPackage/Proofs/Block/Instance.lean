/-
Instances.  An instance is a deep copy of the defaults that it is made from: the slots in
use are renamed one to one, every handle names the slot of that new name, and the root has
zeroes wherever no leaf is.
-/
import ObjectPackage.Proofs.Block.Inherit
import ObjectPackage.Proofs.Block.Lens
import ObjectPackage.Proofs.Layout.Geometry
import ObjectPackage.Proofs.Store.Duplicate

namespace ObjectPackage

/-- A place after the slots have got other names. -/
def Location.renamed (fresh : Nat → Nat) : Location → Location
  | ⟨.root, offset⟩ => .root offset
  | ⟨.slot slot, offset⟩ => .element (fresh slot) offset

theorem Location.Opposite.eq_renamed {pairs : List (Nat × Nat)} {fresh : Nat → Nat}
    {left right : Location} (h : Opposite pairs left right)
    (hfresh : ∀ pair ∈ pairs, fresh pair.1 = pair.2) : right = left.renamed fresh := by
  cases h with
  | root offset => rfl
  | @element slot slot' offset hpair =>
      rw [show slot' = fresh slot from (hfresh _ hpair).symm]
      rfl

/-- Pairs of different first slots are the graph of a renaming. -/
theorem exists_renaming {pairs : List (Nat × Nat)} (h : (pairs.map (·.1)).Nodup) :
    ∃ fresh : Nat → Nat, ∀ pair ∈ pairs, fresh pair.1 = pair.2 := by
  induction pairs with
  | nil => exact ⟨id, by simp⟩
  | cons pair rest ih =>
      obtain ⟨hnew, hrest⟩ := List.nodup_cons.mp h
      obtain ⟨fresh, hfresh⟩ := ih hrest
      refine ⟨Function.update fresh pair.1 pair.2, List.forall_mem_cons.mpr ⟨by simp, ?_⟩⟩
      intro other hother
      have hne : other.1 ≠ pair.1 := fun heq => hnew (List.mem_map.mpr ⟨other, hother, heq⟩)
      rw [Function.update_of_ne hne, hfresh other hother]

/-- A renaming of pairs of different slots is one to one. -/
theorem bijOn_of_renaming {pairs : List (Nat × Nat)} {fresh : Nat → Nat}
    (h : (pairs.map (·.2)).Nodup) (hfresh : ∀ pair ∈ pairs, fresh pair.1 = pair.2) :
    Set.BijOn fresh {slot | slot ∈ pairs.map (·.1)} {slot | slot ∈ pairs.map (·.2)} := by
  refine ⟨?_, ?_, ?_⟩
  · rintro slot hslot
    obtain ⟨pair, hpair, rfl⟩ := List.mem_map.mp hslot
    exact List.mem_map.mpr ⟨pair, hpair, (hfresh pair hpair).symm⟩
  · rintro slot hslot slot' hslot' heq
    obtain ⟨pair, hpair, rfl⟩ := List.mem_map.mp hslot
    obtain ⟨pair', hpair', rfl⟩ := List.mem_map.mp hslot'
    rw [hfresh pair hpair, hfresh pair' hpair'] at heq
    rw [List.inj_on_of_nodup_map h hpair hpair' heq]
  · rintro slot hslot
    obtain ⟨pair, hpair, rfl⟩ := List.mem_map.mp hslot
    exact ⟨pair.1, List.mem_map_of_mem hpair, hfresh pair hpair⟩

namespace Store

variable {store left right : Store} {type cell : PropertyType} {location cellAt : Location}

theorem CellOf.storage (h : store.CellOf type location cell cellAt) :
    cell.storage = .text ∨ cell.storage = .container := by
  induction h with
  | here h => exact h
  | part _ _ _ ih => exact ih
  | unit _ _ _ _ _ ih => exact ih

end Store

/-- No mask is needed to compare texts or containers. -/
theorem PropertyType.identical_mask {left right : Store} {leftAt rightAt : Location}
    {type : PropertyType} (h : type.storage = .text ∨ type.storage = .container)
    (mask mask' : UInt32) :
    identical left leftAt right rightAt mask type = identical left leftAt right rightAt mask' type := by
  cases type <;> first | rfl | simp [storage] at h

namespace Block

variable {block other : Block}

/-- The slots that a block has in use. -/
def live (block : Block) : Set Nat :=
  {slot | block.store.content (.slot slot) ≠ none}

theorem copyElements_eq (source : Store) (properties : List Property) :
    forElements properties (copyElement source) = (memberParts properties).forM fun part =>
      part.type.copy source ((Location.root 0).shift part.offset)
        ((Location.root 0).shift part.offset) part.mask := by
  rw [forElements_eq, ← map_elementPart]
  simp only [List.forM_eq_forM, List.forM_map]
  simp only [elementPart, shift_root]
  rfl

/-- Of a root of zeroes a copy of all elements leaves what no leaf covers. -/
theorem copyElements_root {source after : Store} {layout : StructLayout} {size : Nat}
    {outcome : Except PropertyError Unit}
    (hrun : runFrom (Store.zeroed size) ((memberParts layout.properties).forM fun part =>
      part.type.copy source ((Location.root 0).shift part.offset)
        ((Location.root 0).shift part.offset) part.mask) = (outcome, after)) :
    after.root.size = size ∧ ∀ bit, (∀ leaf ∈ layout.leaves, ¬leaf.Covers bit) →
      bitAt after.root bit = false := by
  have hconfined : Update.Confined ((memberParts layout.properties).forM fun part =>
      part.type.copy source ((Location.root 0).shift part.offset)
        ((Location.root 0).shift part.offset) part.mask)
      fun _ bit => ∃ leaf ∈ layout.leaves, leaf.Covers bit := by
    refine .forM fun part hpart => PropertyType.copy_confined.mono ?_
    rintro bit ⟨-, leaf, hleaf, hcovers⟩
    exact ⟨leaf, List.mem_flatMap.mpr ⟨part, hpart, hleaf⟩, hcovers⟩
  have hagree := hconfined (Store.zeroed size)
  rw [hrun] at hagree
  obtain ⟨bytes, hroot, hsize, hbits⟩ := HeapValue.Agree.elements_left hagree
  obtain ⟨rfl, -⟩ := HeapValue.elements.inj (Option.some.inj hroot)
  refine ⟨hsize.trans Array.size_replicate, fun bit hbit => ?_⟩
  rw [hbits bit fun ⟨leaf, hleaf, hcovers⟩ => hbit leaf hleaf hcovers]
  have hzero : (Store.zeroed size).root.getD (bit / 8) 0 = 0 := by
    change (Array.replicate size (0 : UInt8)).getD (bit / 8) 0 = 0
    rw [Array.getD_eq_getD_getElem?, Array.getElem?_replicate]
    split <;> rfl
  rw [bitAt, hzero]
  exact Nat.zero_testBit _

section Twins

variable {pairs : List (Nat × Nat)} {fresh : Nat → Nat}

/-- Where two blocks are twins, a cell of one is found in the other under the new names, and
what it names there has the same value. -/
theorem cell_renamed (hlayout : other.layout = block.layout)
    (htwins : block.store.TwinsAll other.store (.root 0) (.root 0)
      (memberParts block.layout.properties) pairs)
    (hfresh : ∀ pair ∈ pairs, fresh pair.1 = pair.2) {cell : PropertyType} {cellAt : Location}
    (hcell : block.Cell cell cellAt) :
    other.Cell cell (cellAt.renamed fresh) ∧
      (∃ handle, block.store.handle cellAt = .ok handle ∧
        other.store.handle (cellAt.renamed fresh) = .ok (handle.map fresh)) ∧
      cell.identical block.store cellAt other.store (cellAt.renamed fresh) elementMask =
        .ok true := by
  obtain ⟨part, hpart, hcell⟩ := hcell
  obtain ⟨first, hfirst, htwins⟩ := htwins.of_mem hpart
  obtain ⟨oppositeAt, mask, inner, hcell', hopposite, hinner, htwin⟩ :=
    htwins.cellOf hcell hfirst ((Location.Opposite.root 0).shift _)
  obtain rfl := hopposite.eq_renamed hfresh
  refine ⟨⟨part, by rwa [hlayout], hcell'⟩, ?_, ?_⟩
  · rcases htwin.handles hcell.storage with ⟨hleft, hright⟩ | ⟨pair, hpair, hleft, hright⟩
    · exact ⟨none, hleft, hright⟩
    · refine ⟨some pair.1, hleft, ?_⟩
      rw [hright, Option.map_some, hfresh pair (hinner pair hpair)]
  · obtain ⟨value, hholds, hholds'⟩ := htwin.holds
    obtain ⟨same, hsame, hiff⟩ := PropertyType.identical_of_holds hholds hholds'
    rw [PropertyType.identical_mask hcell.storage elementMask mask, hsame, hiff.mpr rfl]

theorem cell_of_renamed (hlayout : other.layout = block.layout)
    (htwins : block.store.TwinsAll other.store (.root 0) (.root 0)
      (memberParts block.layout.properties) pairs)
    (hfresh : ∀ pair ∈ pairs, fresh pair.1 = pair.2) {cell : PropertyType} {oppositeAt : Location}
    (hcell : other.Cell cell oppositeAt) :
    ∃ cellAt, block.Cell cell cellAt ∧ oppositeAt = cellAt.renamed fresh := by
  obtain ⟨part, hpart, hcell⟩ := hcell
  rw [hlayout] at hpart
  obtain ⟨first, hfirst, htwins⟩ := htwins.symm.of_mem hpart
  obtain ⟨cellAt, -, -, hcell', hopposite, -, -⟩ :=
    htwins.cellOf hcell hfirst ((Location.Opposite.root 0).shift _)
  have hback := hopposite.symm
  rw [List.map_map, Prod.swap_swap_eq, List.map_id] at hback
  exact ⟨cellAt, ⟨part, hpart, hcell'⟩, hback.eq_renamed hfresh⟩

theorem identical_of_twins (hlayout : other.layout = block.layout)
    (htwins : block.store.TwinsAll other.store (.root 0) (.root 0)
      (memberParts block.layout.properties) pairs) {element : Property × Nat}
    (helement : element ∈ elementsOf block.layout.properties) :
    block.identical element.1 element.2 other = .ok true := by
  obtain ⟨hproperty, hindex⟩ := mem_elementsOf.mp helement
  have hpart : elementPart element ∈ memberParts block.layout.properties := by
    rw [← map_elementPart]
    exact List.mem_map_of_mem helement
  obtain ⟨first, -, htwin⟩ := htwins.of_mem hpart
  obtain ⟨value, hholds, hholds'⟩ := htwin.holds
  obtain ⟨same, hsame, hiff⟩ := PropertyType.identical_of_holds hholds hholds'
  rw [identical, element_eq_ok.mpr ⟨contains_of_mem hproperty, hindex, rfl⟩,
    element_eq_ok.mpr ⟨by rw [hlayout]; exact contains_of_mem hproperty, hindex, rfl⟩]
  rw [elementPart, shift_root, hiff.mpr rfl] at hsame
  exact hsame

end Twins

/-- An instance of sound defaults is made for certain, and is a deep copy of them: it has the
same values; the slots in use are renamed one to one, so that each handle names a slot of its
own that has the same value; and of the root it has the leaves only. -/
theorem newInstance_duplicates {defaults : Block} (hlayout : defaults.layout.Built)
    (hsound : defaults.store.Sound defaults.layout) (hfits : defaults.store.Fits) :
    ∃ block fresh, newInstance defaults = .ok block ∧ block.layout = defaults.layout ∧
      block.store.Sound block.layout ∧ block.size = defaults.size ∧
      (∀ element ∈ elementsOf defaults.layout.properties,
        defaults.identical element.1 element.2 block = .ok true) ∧
      block.heapValues = defaults.heapValues ∧
      Set.BijOn fresh defaults.live block.live ∧
      (∀ cell cellAt, defaults.Cell cell cellAt → block.Cell cell (cellAt.renamed fresh) ∧
        (∃ handle, defaults.store.handle cellAt = .ok handle ∧
          block.store.handle (cellAt.renamed fresh) = .ok (handle.map fresh)) ∧
        cell.identical defaults.store cellAt block.store (cellAt.renamed fresh) elementMask =
          .ok true) ∧
      (∀ cell cellAt, block.Cell cell cellAt →
        ∃ origin, defaults.Cell cell origin ∧ cellAt = origin.renamed fresh) ∧
      ∀ bit, (∀ leaf ∈ defaults.layout.leaves, ¬leaf.Covers bit) →
        bitAt block.store.root bit = false := by
  obtain ⟨values, held, howns, hcomplete⟩ := hsound
  have hsound : defaults.store.Sound defaults.layout := ⟨values, held, howns, hcomplete⟩
  have hrenews := RenewsAll.twinned hlayout.spread howns.holds fun part hpart _ _ hvalue =>
    @PropertyType.copy_twinned _ _ _ ((Location.root 0).shift part.offset) _ _ _
      (hlayout.spread.resolved part hpart) (hlayout.spread.masked part hpart) hvalue
  have hblank := (blank_zeroed defaults.size).holdsAll hlayout.spread (inside_of_sound hsound)
  rw [newInstance, fill_eq]
  cases hrun : runFrom (Store.zeroed defaults.store.root.size)
      (forElements defaults.layout.properties (copyElement defaults.store)) with
  | mk outcome after =>
      have hheap : after.heap.size ≤ defaults.store.heap.size := by
        have hsize := (copyElements_buys hsound hrun).1
        simpa [Store.zeroed] using hsize
      rw [copyElements_eq] at hrun
      obtain ⟨values', slots, howns', hchange, rfl, pairs, rfl, rfl, htwins⟩ :=
        hrenews.renew hrun (Nat.lt_of_le_of_lt hheap hfits) hblank.owns fun _ => rfl
      have hcomplete' := hchange.complete fun slot hlive => absurd rfl hlive
      obtain ⟨fresh, hfresh⟩ := exists_renaming howns.nodup
      have hlive (slot : Nat) : slot ∈ pairs.map (·.1) ↔
          defaults.store.content (.slot slot) ≠ none :=
        ⟨howns.holds.live slot, hcomplete slot⟩
      have hlive' (slot : Nat) : slot ∈ pairs.map (·.2) ↔ after.content (.slot slot) ≠ none :=
        ⟨howns'.holds.live slot, hcomplete' slot⟩
      obtain ⟨hsize, hpadding⟩ := copyElements_root hrun
      have hsame : (⟨defaults.layout, after⟩ : Block).layout = defaults.layout := rfl
      refine ⟨⟨defaults.layout, after⟩, fresh, rfl, hsame, ⟨_, _, howns', hcomplete'⟩, hsize,
        fun _ => identical_of_twins hsame htwins, ?_, ?_,
        fun _ _ => cell_renamed hsame htwins hfresh, fun _ _ => cell_of_renamed hsame htwins hfresh,
        hpadding⟩
      · rw [heapValues, heapValues, Store.liveSlots_eq howns.nodup hlive,
          Store.liveSlots_eq howns'.nodup hlive', List.length_map, List.length_map]
      · have hbijective := bijOn_of_renaming howns'.nodup hfresh
        simp only [hlive, hlive'] at hbijective
        exact hbijective

end Block

namespace ArmedPawn

/-- The loaded pawn with all bits set in the word of its bools, of which two are bools. -/
def scuffed : Block :=
  ⟨layout, loaded.store.overwrite (.root 0) [255, 255, 255, 255]⟩

theorem scuffed_sound : scuffed.store.Sound scuffed.layout := by
  have hgun (offset slot : Nat) (text : String)
      (hhandle : scuffed.store.handle (.root offset) = .ok (some slot))
      (hcontent : scuffed.store.content (.slot slot) = some (.text text)) (mask : UInt32) :
      scuffed.store.Holds .str (.root offset) mask (.str text) [slot] := .text hhandle hcontent
  have hguns : scuffed.store.HoldsAll (.root 8) (PropertyType.fixedArray .str 3).parts
      [.str "bow", .str "axe", .str "rod"] ([0] ++ ([1] ++ ([2] ++ []))) :=
    .cons (hgun 8 0 "bow" (by decide +kernel) (by decide +kernel) _)
      (.cons (hgun 16 1 "axe" (by decide +kernel) (by decide +kernel) _)
        (.cons (hgun 24 2 "rod" (by decide +kernel) (by decide +kernel) _) .nil))
  have hroom : scuffed.store.Room (.root 8) (PropertyType.fixedArray .str 3).size :=
    ⟨scuffed.store.root, 0, rfl, by decide +kernel⟩
  have harmed : scuffed.store.bool (.root 0) 1 = .ok true := by decide +kernel
  have hhidden : scuffed.store.bool (.root 0) 2 = .ok true := by decide +kernel
  refine ⟨_, _, ⟨.cons (.bits harmed) (.cons (.bits hhidden) (.cons (.inline rfl hroom hguns) .nil)),
    by decide, by simp [Location.root, Region.Among]⟩, ?_⟩
  intro slot hlive
  have hsize : scuffed.store.heap.size = 3 := by decide +kernel
  by_contra hslot
  have hbound : 3 ≤ slot := by
    simp only [List.nil_append, List.append_nil, List.cons_append, List.mem_cons,
      List.not_mem_nil, or_false] at hslot
    omega
  apply hlive
  rw [Store.content, Array.getElem?_eq_none (by omega)]
  rfl

/-- The instance has guns of its own and none of the bits that are no bools. -/
theorem scuffed_duplicated : bitAt scuffed.store.root 7 = true ∧
    ∃ block fresh, Block.newInstance scuffed = .ok block ∧ block.heapValues = 3 ∧
      Set.BijOn fresh scuffed.live block.live ∧ bitAt block.store.root 7 = false := by
  have hcount : scuffed.heapValues = 3 := by decide +kernel
  obtain ⟨block, fresh, hmade, -, -, -, -, hvalues, hbijective, -, -, hpadding⟩ :=
    Block.newInstance_duplicates (catalogue.built _ (List.mem_singleton.mpr rfl)) scuffed_sound
      (by decide +kernel)
  refine ⟨by decide +kernel, block, fresh, hmade, hvalues.trans hcount, hbijective, hpadding 7 ?_⟩
  have hleaves : scuffed.layout.leaves = [⟨.bool, 0, 1⟩, ⟨.bool, 0, 2⟩, ⟨.str, 8, elementMask⟩,
    ⟨.str, 16, elementMask⟩, ⟨.str, 24, elementMask⟩] := rfl
  rw [hleaves]
  simp +decide [Part.Covers]

end ArmedPawn

end ObjectPackage
