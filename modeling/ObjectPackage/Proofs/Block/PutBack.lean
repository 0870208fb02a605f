/-
Values put back into blocks.  What was read from an element is stored exactly if the values
listed for hidden members have the shapes of the members that hide them.  Then everything
but hidden members is as it was read, so the value replaces the old one where nothing is
hidden.
-/
import ObjectPackage.Proofs.Block.Address
import ObjectPackage.Proofs.Block.Equality
import ObjectPackage.Proofs.Block.Lens
import ObjectPackage.Proofs.Store.PutBack

namespace ObjectPackage

namespace Block

/-- A value that was read from an element of a block is put back into that element of any
block of the layout.  Where nothing is hidden it is always stored and is the same afterwards;
where something is, it is stored if it has the shape of the property, and hidden members
stay.  No other element changes. -/
theorem setValue_putBack {block source : Block} (hlayout : block.layout.Built)
    (hsound : block.store.Sound block.layout) (hsame : source.layout = block.layout)
    (hsource : source.store.Sound source.layout) {property : Property}
    (hproperty : property ∈ block.layout.properties) {index : Nat}
    (hindex : index < property.dimension) :
    ∃ held given, block.value property index = .ok held ∧
      source.value property index = .ok given ∧
      ∀ outcome after, block.setValue property index given = (outcome, after) →
        after.store.Fits →
        (outcome = .ok () ↔ property.type.admits given = true) ∧
        (outcome = .ok () →
          after.value property index = .ok (property.type.putBack held given)) ∧
        (property.type.unhidden true = true → outcome = .ok () ∧
          after.value property index = .ok given ∧
          after.identical property index source = .ok true) ∧
        (given = held → property.type.unhidden false = true → outcome = .ok () →
          ∀ element ∈ elementsOf block.layout.properties,
            after.value element.1 element.2 = block.value element.1 element.2) ∧
        ∀ other ∈ elementsOf block.layout.properties, other ≠ (property, index) →
          after.value other.1 other.2 = block.value other.1 other.2 := by
  have helement := mem_elementsOf.mpr ⟨hproperty, hindex⟩
  have hproperty' : property ∈ source.layout.properties := hsame ▸ hproperty
  obtain ⟨held, owned, hheld⟩ := holds_of_element hsound hproperty hindex
  obtain ⟨given, slots, hgiven⟩ := holds_of_element hsource hproperty' hindex
  have hvalue : block.value property index = .ok held :=
    (value_eq helement).trans (PropertyType.snapshot_of_holds hheld)
  have hvalue' : source.value property index = .ok given :=
    (value_eq (mem_elementsOf.mpr ⟨hproperty', hindex⟩)).trans
      (PropertyType.snapshot_of_holds hgiven)
  refine ⟨held, given, hvalue, hvalue', fun outcome after hrun hfits => ?_⟩
  obtain ⟨hlayout', hsound', hok, ⟨old, _, new, hold, hnew, htaken⟩, hothers⟩ :=
    setValue_takes hlayout hsound hproperty hindex (show (block.setValue property index
      given).2.store.Fits by rw [hrun]; exact hfits)
  obtain rfl := hheld.unique hold
  rw [hrun] at hlayout' hsound' hok hnew htaken hothers
  -- what is held and what is given list all members
  have hkept := PropertyType.Kept.refl (PropertyType.Held.listed ⟨_, _, _, _, hheld⟩)
  have hlisted := PropertyType.Held.listed ⟨_, _, _, _, hgiven⟩
  have hback (h : outcome = .ok ()) :
      after.value property index = .ok (property.type.putBack held given) := by
    rw [hnew, htaken h, PropertyType.storedBack _ hkept hlisted (hok.mp h)]
  refine ⟨hok, hback, fun hunhidden => ?_, fun hown hunhidden h element helement' => ?_, hothers⟩
  · have h := hok.mpr (hlisted.admitted hunhidden)
    have hafter : after.value property index = .ok given := by
      rw [hback h, PropertyType.putBack_eq hunhidden hkept hlisted (by simp)]
    have hproperty'' : property ∈ after.layout.properties := hlayout' ▸ hproperty
    have hsound'' : after.store.Sound after.layout := hlayout' ▸ hsound'
    refine ⟨h, hafter, ?_⟩
    rw [identical_place hsound'' hsource hproperty'' hproperty' hindex, Place.identical_iff]
    have hleft := (value_eq (mem_elementsOf.mpr ⟨hproperty'', hindex⟩)).symm.trans hafter
    exact hleft.trans (PropertyType.snapshot_of_holds hgiven).symm
  · by_cases hother : element = (property, index)
    · rw [hother, hback h, hvalue,
        PropertyType.putBack_eq hunhidden hkept hlisted fun _ => hown.symm, hown]
    · exact hothers element helement' hother

end Block

namespace HiddenCount

def mixedCount : Property := ⟨0, "Mixed", "Count", .str, 1, .empty, 8, 0⟩

/-- A text hides the count of the base. -/
def mixed : StructLayout := ⟨"Mixed", some base, [baseCount, mixedCount], 1, [], 16, 8⟩

def counts : Property := ⟨0, "Holder", "Counts", .struct derived, 1, .empty, 0, 0⟩

def label : Property := ⟨0, "Holder", "Label", .struct mixed, 1, .empty, 16, 0⟩

def holderFields : List LayoutField :=
  [.property "Counts" (.struct derived) 1 .empty, .property "Label" (.struct mixed) 1 .empty]

def holder : StructLayout := ⟨"Holder", none, [counts, label], 0, [], 32, 8⟩

def layouts : List StructLayout := [holder, mixed, derived, base]

theorem layouts_catalogue : Catalogue layouts :=
  @Catalogue.build [mixed, derived, base] 0 "Holder" none holderFields holder
    (@Catalogue.build [derived, base] 0 "Mixed" (some base) [.property "Count" .str 1 .empty] mixed
      catalogue (by simp) (by simp [LayoutField.structs, PropertyType.structs])
      (by simp [base, derived, baseCount, derivedCount]) rfl)
    nofun (by simp [holderFields, LayoutField.structs, PropertyType.structs])
    (by simp [mixed, base, derived, baseCount, derivedCount, mixedCount]) rfl

def zeros : Block := ⟨holder, .zeroed 32⟩

/-- The entry of counts five and seven, and the end of the list. -/
def saved : List UInt8 := [1, 0x5a, 2, 8, 5, 0, 0, 0, 7, 0, 0, 0, 0]

def loaded : Block :=
  (zeros.loadProperties ⟨69, ⟨["None", "Counts", "Derived"]⟩, default⟩ ⟨0, saved⟩).2.1

theorem zeros_new : Block.newDefault holder none = .ok zeros := by
  have hfill : (Store.zeroed 32).update (Block.forElements holder.properties
      Block.constructElement) = (.ok (), .zeroed 32) := by decide
  change Block.fill holder 32 Block.constructElement = _
  rw [Block.fill, hfill]
  rfl

theorem zeros_made : Block.Made layouts zeros :=
  .defaults List.mem_cons_self zeros_new (by decide)

theorem loaded_made : Block.Made layouts loaded :=
  .loaded zeros_made _ _ (by decide)

theorem zeros_label : zeros.value label 0 =
    .ok (.struct [⟨"Count", [.int 0]⟩, ⟨"Count", [.str ""]⟩]) := by
  cbv

theorem loaded_store : loaded.store =
    ⟨#[5, 0, 0, 0, 0, 0, 0, 0, 7, 0, 0, 0, 0, 0, 0, 0, 0, 0, 0, 0, 0, 0, 0, 0, 0, 0, 0, 0, 0, 0, 0, 0],
      #[]⟩ := by decide

theorem loaded_counts : loaded.value counts 0 =
    .ok (.struct [⟨"Count", [.int 5]⟩, ⟨"Count", [.int 7]⟩]) := by
  rw [Block.value_eq (show (counts, 0) ∈ Block.elementsOf holder.properties by
    simp [Block.mem_elementsOf, holder, counts]), loaded_store]
  cbv

/-- What comes of storing the counts that were loaded. -/
def stored : Except PropertyError Unit × Block :=
  zeros.setValue counts 0 (.struct [⟨"Count", [.int 5]⟩, ⟨"Count", [.int 7]⟩])

/-- The label of a block is refused by that block, since its hidden count is not a text; and
when the counts of one block are stored in another one, the hidden count stays. -/
theorem label_refused : Block.Made layouts zeros ∧ Block.Made layouts loaded ∧
    zeros.value label 0 = .ok (.struct [⟨"Count", [.int 0]⟩, ⟨"Count", [.str ""]⟩]) ∧
    (zeros.setValue label 0 (.struct [⟨"Count", [.int 0]⟩, ⟨"Count", [.str ""]⟩])).1 =
      .error (.valueMismatch "str" "int") ∧
    loaded.value counts 0 = .ok (.struct [⟨"Count", [.int 5]⟩, ⟨"Count", [.int 7]⟩]) ∧
    stored.1 = .ok () ∧ stored.2.identical counts 0 loaded = .ok false :=
  ⟨zeros_made, loaded_made, zeros_label, by decide +kernel, loaded_counts, by decide +kernel,
    by decide +kernel⟩

/-- The count that is not hidden is seven then, the hidden one is zero, and the label is as
it was. -/
theorem counts_stored :
    stored.2.value counts 0 = .ok (.struct [⟨"Count", [.int 0]⟩, ⟨"Count", [.int 7]⟩]) ∧
      stored.2.value label 0 = zeros.value label 0 := by
  obtain ⟨hlayout, hsound⟩ := zeros_made.sound layouts_catalogue
  have hloaded := (loaded_made.sound layouts_catalogue).2
  obtain ⟨held, given, hheld, hgiven, hstored⟩ := @Block.setValue_putBack zeros loaded
    (layouts_catalogue.built _ hlayout) hsound rfl hloaded counts List.mem_cons_self 0 Nat.one_pos
  have hzeros : zeros.value counts 0 =
      .ok (.struct [⟨"Count", [.int 0]⟩, ⟨"Count", [.int 0]⟩]) := by cbv
  obtain rfl := Except.ok.inj (hzeros.symm.trans hheld)
  obtain rfl := Except.ok.inj (loaded_counts.symm.trans hgiven)
  obtain ⟨hok, hback, -, -, hothers⟩ := hstored stored.1 stored.2 Prod.mk.eta.symm
    (by decide +kernel)
  refine ⟨?_, hothers (label, 0) ?_ ?_⟩
  · rw [hback (by decide +kernel)]
    cbv
  · simp [Block.mem_elementsOf, zeros, holder, label]
  · simp [counts, label]

end HiddenCount

end ObjectPackage
