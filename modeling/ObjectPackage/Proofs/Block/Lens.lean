/-
Storing and reading.  A value is stored if it has the shape of the property, and is then
read back laid over the value that was there.  Whatever comes of it, no other element
changes, be it in the same word or in a slot that is used again.
-/
import ObjectPackage.Proofs.Block.Ownership

namespace ObjectPackage

namespace Block

/-- A value that has the shape of the property is taken over the one that is held. -/
theorem setValue_takes {block : Block} (hlayout : block.layout.Built)
    (hsound : block.store.Sound block.layout) {property : Property}
    (hproperty : property ∈ block.layout.properties) {index : Nat}
    (hindex : index < property.dimension) {value : Value}
    (hfits : (block.setValue property index value).2.store.Fits) :
    (block.setValue property index value).2.layout = block.layout ∧
    (block.setValue property index value).2.store.Sound block.layout ∧
    ((block.setValue property index value).1 = .ok () ↔ property.type.admits value = true) ∧
    (∃ old owned new, block.store.Holds property.type (elementAt property index) property.mask old
        owned ∧
      (block.setValue property index value).2.value property index = .ok new ∧
      ((block.setValue property index value).1 = .ok () →
        new = property.type.overlay old value)) ∧
    ∀ other ∈ elementsOf block.layout.properties, other ≠ (property, index) →
      (block.setValue property index value).2.value other.1 other.2 =
        block.value other.1 other.2 := by
  have helement := mem_elementsOf.mpr ⟨hproperty, hindex⟩
  obtain ⟨old, owned, hholds⟩ := holds_of_element hsound hproperty hindex
  have hassign := @PropertyType.assign_assigns property.type (elementAt property index) property.mask
    (property_resolved hlayout hproperty) (element_masked hlayout hproperty hindex) value
  rw [setValue, element_eq_ok.mpr ⟨contains_of_mem hproperty, hindex, rfl⟩] at hfits ⊢
  obtain ⟨hsound', new, slots, htaken, hnew, hothers⟩ :=
    hsound.renew hlayout helement hassign rfl hfits
  exact ⟨rfl, hsound', htaken.ok_iff, ⟨old, owned, new, hholds, hnew,
    fun hok => htaken.takes_of_ok hok hholds⟩, hothers⟩

end Block

namespace ArmedPawn

/-- Two bools in one word, and a name for each of three guns. -/
def fields : List LayoutField :=
  [.property "Armed" .bool 1 .empty, .property "Hidden" .bool 1 .empty,
    .property "Guns" (.fixedArray .str 3) 1 .empty]

def armed : Property := ⟨0, "Pawn", "Armed", .bool, 1, .empty, 0, 1⟩

def hidden : Property := ⟨0, "Pawn", "Hidden", .bool, 1, .empty, 0, 2⟩

def guns : Property := ⟨0, "Pawn", "Guns", .fixedArray .str 3, 1, .empty, 8, 0⟩

def layout : StructLayout := ⟨"Pawn", none, [armed, hidden, guns], 0, [], 32, 8⟩

theorem catalogue : Catalogue [layout] :=
  @Catalogue.build [] 0 "Pawn" none fields layout .empty nofun
    (by simp [fields, LayoutField.structs, PropertyType.structs]) nofun rfl

def defaults : Block := ⟨layout, .zeroed 32⟩

def alert : Block := (defaults.setValue armed 0 (.bool true)).2

/-- A pawn with a word that is half set and with all three guns. -/
def loaded : Block :=
  (alert.setValue guns 0 (.array [.str "bow", .str "axe", .str "rod"])).2

theorem newDefault_eq : Block.newDefault layout none = .ok defaults := by
  have hfill : (Store.zeroed 32).update (Block.forElements layout.properties
      Block.constructElement) = (.ok (), .zeroed 32) := by decide
  change Block.fill layout 32 Block.constructElement = _
  rw [Block.fill, hfill]
  rfl

theorem alert_made : Block.Made [layout] alert :=
  .stored (.defaults (List.mem_singleton.mpr rfl) newDefault_eq (by decide))
    (List.mem_singleton.mpr rfl) (by simp [layout]) 0 _ (by decide)

theorem loaded_made : Block.Made [layout] loaded :=
  .stored alert_made (List.mem_singleton.mpr rfl) (by simp [layout]) 0 _ (by decide +kernel)

end ArmedPawn

end ObjectPackage
