/-
Heap ownership of blocks.  Every handle cell of a block is zero or names a slot that
holds what its type calls for, and every slot in use is named by exactly one cell, after
any operations with any outcomes.  No query or operation finds a handle dangling or a
location out of bounds.
-/
import ObjectPackage.Proofs.Block.Cells
import ObjectPackage.Proofs.Block.Make

namespace ObjectPackage

/-- Number of slots in use, counted slot by slot. -/
theorem Store.liveSlots_eq {store : Store} {slots : List Nat} (hnodup : slots.Nodup)
    (hlive : ∀ slot, slot ∈ slots ↔ store.content (.slot slot) ≠ none) :
    store.liveSlots = slots.length := by
  let used (slot : Nat) : Bool := !(store.heap.getD slot .free).isFree
  have hlist : store.heap.toList =
      (List.range store.heap.size).map fun slot => store.heap.getD slot .free := by
    apply List.ext_getElem
    · simp
    · intro index hleft hright
      have hindex : index < store.heap.size := by simpa using hleft
      simp [Array.getD, hindex]
  have hcount : store.liveSlots = ((List.range store.heap.size).filter used).length := by
    rw [liveSlots, ← Array.countP_toList, hlist, List.countP_map, List.countP_eq_length_filter]
    rfl
  rw [hcount]
  refine List.Perm.length_eq ((List.perm_ext_iff_of_nodup (List.nodup_range.filter _) hnodup).mpr ?_)
  intro slot
  rw [hlive, List.mem_filter, List.mem_range, content]
  by_cases hslot : slot < store.heap.size
  · cases hvalue : store.heap[slot] <;> simp [used, Array.getD, hslot, hvalue, HeapValue.isFree]
  · simp [hslot]

namespace Block

/-- The handle cells of a block: texts and containers in its properties, and in the
buffers that can be reached from them. -/
def Cell (block : Block) (cell : PropertyType) (cellAt : Location) : Prop :=
  ∃ part ∈ memberParts block.layout.properties,
    block.store.CellOf part.type ((Location.root 0).shift part.offset) cell cellAt

variable {block : Block} {layouts : List StructLayout}

section Queries

variable {property : Property} {index : Nat}

theorem holds_of_element (h : block.store.Sound block.layout)
    (hproperty : property ∈ block.layout.properties) (hindex : index < property.dimension) :
    ∃ value slots, block.store.Holds property.type (elementAt property index) property.mask value
      slots := by
  obtain ⟨values, slots, howns, -⟩ := h
  obtain ⟨value, -, first, -, hfirst⟩ := howns.holds.of_mem
    (mem_memberParts.mpr ⟨property, hproperty, mem_parts.mpr ⟨index, hindex, rfl⟩⟩)
  rw [shift_root] at hfirst
  exact ⟨value, first, hfirst⟩

end Queries

section Save

end Save

end Block

namespace TaggedPawn

/-- A pawn has a title and tags. -/
def fields : List LayoutField :=
  [.property "Title" .str 1 .empty, .property "Tags" (.array .str) 1 .empty]

def tags : Property := ⟨0, "Pawn", "Tags", .array .str, 1, .empty, 8, 0⟩

def layout : StructLayout :=
  ⟨"Pawn", none, [⟨0, "Pawn", "Title", .str, 1, .empty, 0, 0⟩, tags], 0, [], 16, 8⟩

theorem catalogue : Catalogue [layout] :=
  @Catalogue.build [] 0 "Pawn" none fields layout .empty nofun
    (by simp [fields, LayoutField.structs, PropertyType.structs]) nofun rfl

def defaults : Block := ⟨layout, .zeroed 16⟩

end TaggedPawn

end ObjectPackage
