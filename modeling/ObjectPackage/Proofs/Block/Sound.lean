/-
Sound stores.  In the store of a block every element of every property owns its value,
and nothing else is in use.  An action on one element changes the value of that element
and of no other.
-/
import ObjectPackage.Block
import ObjectPackage.Proofs.Store.Query

namespace ObjectPackage

/-- The properties of a layout own their values, and these are all that is in use. -/
def Store.Sound (store : Store) (layout : StructLayout) : Prop :=
  ∃ values slots, store.OwnsAll (.root 0) (memberParts layout.properties) values slots ∧
    ∀ slot, store.content (.slot slot) ≠ none → slot ∈ slots

/-- A change that leaves nothing behind. -/
theorem Store.Change.complete {before after : Store} {touched : Region → Nat → Prop}
    {old new : List Nat} (h : before.Change after touched old new)
    (hcomplete : ∀ slot, before.content (.slot slot) ≠ none → slot ∈ old) :
    ∀ slot, after.content (.slot slot) ≠ none → slot ∈ new := by
  intro slot hlive
  by_contra hnew
  by_cases hold : slot ∈ old
  · exact hlive (h.released slot hold hnew)
  · have hkept := h.kept (.slot slot) (by simpa using hold) (by simpa using hnew)
    have hfree : before.content (.slot slot) = none := by
      by_contra hbefore
      exact hold (hcomplete slot hbefore)
    rw [hfree] at hkept
    exact hlive hkept.none

/-- The same values are read from all stores that hold them. -/
theorem Store.HoldsAll.snapshot_eq {before after : Store} {location : Location}
    {parts : List Part} {values : List Value} {slots slots' : List Nat}
    (h : before.HoldsAll location parts values slots)
    (h' : after.HoldsAll location parts values slots') : ∀ part ∈ parts,
      part.type.snapshot after (location.shift part.offset) part.mask =
        part.type.snapshot before (location.shift part.offset) part.mask := by
  induction parts generalizing values slots slots' with
  | nil => simp
  | cons first parts ih =>
      cases h with
      | cons hfirst hrest =>
          cases h' with
          | cons hfirst' hrest' =>
              intro part hpart
              rcases List.mem_cons.mp hpart with rfl | hpart
              · rw [PropertyType.snapshot_of_holds hfirst, PropertyType.snapshot_of_holds hfirst']
              · exact ih hrest hrest' part hpart

namespace Block

/-- The elements of some properties, in order. -/
def elementsOf (properties : List Property) : List (Property × Nat) :=
  properties.flatMap fun property =>
    (List.range property.dimension).map fun index => (property, index)

def elementPart (element : Property × Nat) : Part :=
  ⟨element.1.type, element.1.elementOffset element.2, element.1.mask⟩

theorem mem_elementsOf {properties : List Property} {property : Property} {index : Nat} :
    (property, index) ∈ elementsOf properties ↔
      property ∈ properties ∧ index < property.dimension := by
  simp [elementsOf]

theorem map_elementPart (properties : List Property) :
    (elementsOf properties).map elementPart = memberParts properties := by
  simp only [elementsOf, List.map_flatMap, List.map_map, memberParts]
  rfl

theorem shift_root (property : Property) (index : Nat) :
    (Location.root 0).shift (property.elementOffset index) = elementAt property index := by
  simp [Location.root, Location.shift, elementAt]

/-- A location is given out for an element of a contained property only. -/
theorem element_eq_ok {block : Block} {property : Property} {index : Nat} {location : Location} :
    block.element property index = .ok location ↔ block.layout.contains property = true ∧
      index < property.dimension ∧ location = elementAt property index := by
  rw [element, checkOwn]
  cases hcontains : block.layout.contains property with
  | false =>
      simp only [Bool.false_eq_true, if_false, false_and, iff_false]
      exact nofun
  | true =>
      simp only [if_true, true_and]
      change (if index < property.dimension then _ else _) = _ ↔ _
      split
      · next hindex => simp [hindex, eq_comm]
      · next hindex => simp [hindex]

theorem contains_of_mem {layout : StructLayout} {property : Property}
    (h : property ∈ layout.properties) : layout.contains property = true :=
  List.any_eq_true.mpr ⟨property, h, by simp [Property.sameDeclaration]⟩

theorem value_eq {block : Block} {property : Property} {index : Nat}
    (h : (property, index) ∈ elementsOf block.layout.properties) :
    block.value property index =
      property.type.snapshot block.store (elementAt property index) property.mask := by
  obtain ⟨hproperty, hindex⟩ := mem_elementsOf.mp h
  rw [value, element_eq_ok.mpr ⟨contains_of_mem hproperty, hindex, rfl⟩]
  rfl

end Block

variable {σ : Type} {view : σ → Store} {layout : StructLayout}

/-- An element that is renewed gets a value of its own, and other elements keep theirs. -/
theorem Store.Sound.renew {action : ExceptT PropertyError (StateM σ) Unit}
    {ensures : Ensures σ Value} (hlayout : layout.Built) {property : Property} {index : Nat}
    (helement : (property, index) ∈ Block.elementsOf layout.properties)
    (h : Renews view action property.type (Block.elementAt property index) property.mask False
      ensures) {state after : σ} {outcome : Except PropertyError Unit}
    (hrun : runFrom state action = (outcome, after)) (hfits : (view after).Fits)
    (hsound : (view state).Sound layout) :
    (view after).Sound layout ∧ ∃ value slots, ensures state outcome after value slots ∧
      Block.value ⟨layout, view after⟩ property index = .ok value ∧
      ∀ other ∈ Block.elementsOf layout.properties, other ≠ (property, index) →
        Block.value ⟨layout, view after⟩ other.1 other.2 =
          Block.value ⟨layout, view state⟩ other.1 other.2 := by
  obtain ⟨values, slots, howns, hcomplete⟩ := hsound
  obtain ⟨left, right, hsplit⟩ := List.append_of_mem helement
  have hparts : memberParts layout.properties = left.map Block.elementPart ++
      ([Block.elementPart (property, index)] ++ right.map Block.elementPart) := by
    rw [← Block.map_elementPart, hsplit, List.map_append, List.map_cons, List.singleton_append]
  have hspread := hlayout.spread
  rw [hparts] at howns hspread
  obtain ⟨front, rest, first, others, rfl, rfl, hfirst, hrest⟩ := howns.holds.split
  obtain ⟨inner, back, owned, last, rfl, rfl, howned, hlast⟩ := hrest.split
  rw [← Block.shift_root] at h
  obtain ⟨inner', owned', hfirst', howned', hlast', howns', hchange, value, rfl, hafter⟩ :=
    (RenewsAll.single h).around (by simpa using hspread) hrun hfits hfirst howned hlast
      (by simpa using howns.nodup) (by simpa using howns.apart) False.elim
  have hsound' : (view after).Sound layout := by
    rw [Store.Sound, hparts, ← List.append_assoc]
    refine ⟨_, _, howns', (hchange.frame first last).complete ?_⟩
    rw [List.append_assoc]
    exact hcomplete
  refine ⟨hsound', value, owned', hafter, ?_, ?_⟩
  · rw [Block.value_eq helement]
    obtain ⟨_, heq, hholds⟩ := Store.HoldsAll.single.mp howned'
    obtain rfl := List.cons.inj heq |>.1
    rw [← Block.shift_root]
    exact PropertyType.snapshot_of_holds hholds
  · intro other hother hne
    rw [Block.value_eq hother, Block.value_eq hother, ← Block.shift_root]
    rw [hsplit] at hother
    rcases List.mem_append.mp hother with hother | hother
    · exact hfirst.snapshot_eq hfirst' _ (List.mem_map_of_mem hother)
    · rcases List.mem_cons.mp hother with rfl | hother
      · exact absurd rfl hne
      · exact hlast.snapshot_eq hlast' _ (List.mem_map_of_mem hother)

end ObjectPackage
