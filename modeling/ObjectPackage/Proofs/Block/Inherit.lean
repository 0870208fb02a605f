/-
Blocks that are made for certain.  Default values and instances are made of every sound block
that they start from, in a heap that is no larger than its heap, and they hold what it holds.
-/
import ObjectPackage.Proofs.Block.RoundTrip
import ObjectPackage.Proofs.Store.Growth

namespace ObjectPackage

/-- Steps that all succeed come to an end, and each of them has ensured something of the value
that is held in its place. -/
theorem Chain.held {δ : Type} {ensures : δ → Ensures Store Value} {part : δ → Part}
    {sure : δ → Value → Prop} {items : List δ} {state after store : Store}
    {outcome : Except PropertyError Unit} {values : List Value} {slots owned : List Nat}
    {location : Location} (h : Chain ensures items state outcome after values slots)
    (hensures : ∀ item ∈ items, ∀ state outcome after value slots,
      ensures item state outcome after value slots → outcome = .ok () ∧ sure item value)
    (hholds : store.HoldsAll location (items.map part) values owned) :
    outcome = .ok () ∧ ∀ item ∈ items, ∃ value first, sure item value ∧
      store.Holds (part item).type (location.shift (part item).offset) (part item).mask value
        first := by
  induction h generalizing owned with
  | nil => exact ⟨rfl, by simp⟩
  | stop hitem => exact absurd (hensures _ List.mem_cons_self _ _ _ _ _ hitem).1 nofun
  | next hitem _ ih =>
      cases hholds with
      | cons hfirst hrest =>
          obtain ⟨-, hsure⟩ := hensures _ List.mem_cons_self _ _ _ _ _ hitem
          obtain ⟨hok, hothers⟩ :=
            ih (fun item hitem => hensures item (List.mem_cons_of_mem _ hitem)) hrest
          exact ⟨hok, List.forall_mem_cons.mpr ⟨⟨_, _, hsure, hfirst⟩, hothers⟩⟩

namespace Block

variable {layout : StructLayout} {size credit : Nat} {action : Property → Nat → Update Unit}
  {ensures : Property → Nat → Ensures Store Value} {block base : Block}

/-- A fill whose elements cannot fail makes a block. -/
theorem fill_ok (hlayout : layout.Built)
    (hinside : ∀ part ∈ memberParts layout.properties, part.offset + part.type.size ≤ size)
    (h : ∀ property ∈ layout.properties, ∀ index < property.dimension, Renews id
      (action property index) property.type (elementAt property index) property.mask True
      (ensures property index)) {sure : Property × Nat → Value → Prop}
    (hensures : ∀ element ∈ elementsOf layout.properties, ∀ state outcome after value slots,
      ensures element.1 element.2 state outcome after value slots →
        outcome = .ok () ∧ sure element value)
    (hbuys : Update.Buys (forElements layout.properties action) credit 0)
    (hcredit : credit < 2 ^ 64) :
    ∃ block, fill layout size action = .ok block ∧
      (block.layout = layout ∧ block.store.Sound layout) ∧ block.store.heap.size ≤ credit ∧
      ∀ element ∈ elementsOf layout.properties, ∃ value,
        block.value element.1 element.2 = .ok value ∧ sure element value := by
  rw [fill_eq]
  cases hrun : runFrom (Store.zeroed size) (forElements layout.properties action) with
  | mk outcome after =>
      have hheap : after.heap.size ≤ credit := by
        have hsize := (hbuys hrun).1
        simpa [Store.zeroed] using hsize
      obtain ⟨values, slots, howns, hcomplete, hchain⟩ :=
        fill_run hlayout hinside h hrun (Nat.lt_of_le_of_lt hheap hcredit)
      have hholds := howns.holds
      rw [← map_elementPart] at hholds
      obtain ⟨rfl, hheld⟩ := hchain.held hensures hholds
      refine ⟨⟨layout, after⟩, rfl, ⟨rfl, values, slots, howns, hcomplete⟩, hheap, ?_⟩
      intro element helement
      obtain ⟨value, first, hsure, hvalue⟩ := hheld element helement
      refine ⟨value, ?_, hsure⟩
      rw [value_eq helement, ← shift_root]
      exact PropertyType.snapshot_of_holds hvalue

/-- A copy of all elements of a block takes no more slots than the block has. -/
theorem copyElements_buys (hsource : block.store.Sound block.layout) :
    Update.Buys (forElements block.layout.properties (copyElement block.store))
      block.store.heap.size 0 := by
  obtain ⟨values, slots, howns, -⟩ := hsource
  have hholds := howns.holds
  rw [← map_elementPart] at hholds
  have hbuys : Update.Buys (forElements block.layout.properties (copyElement block.store))
      slots.length 0 := by
    rw [forElements_eq]
    refine hholds.buys fun element _ value first hfirst => ?_
    rw [elementPart, shift_root] at hfirst
    exact PropertyType.copy_buys hfirst _
  exact hbuys.mono howns.length_le

theorem constructElements_buys (properties : List Property) :
    Update.Buys (forElements properties constructElement) credit credit := by
  rw [forElements_eq]
  exact .forM fun element _ => PropertyType.construct_buys _ _ _

theorem forElements_append (first rest : List Property) (action : Property → Nat → Update Unit) :
    forElements (first ++ rest) action =
      (forElements first action >>= fun _ => forElements rest action) := by
  simp [forElements]

theorem inside_alignUp (hlayout : layout.Built) :
    ∀ part ∈ memberParts layout.properties,
      part.offset + part.type.size ≤ alignUp layout.size blockGrain := fun part hpart =>
  Nat.le_trans ((memberParts_fitted hlayout.arranged).inside part hpart) (le_alignUp _ _)

/-- Defaults without a base. -/
theorem newDefault_none_ok (hlayout : layout.Built) :
    ∃ block, newDefault layout none = .ok block ∧
      (block.layout = layout ∧ block.store.Sound layout) ∧ block.store.heap.size ≤ 0 := by
  obtain ⟨block, hmade, hsound, hheap, -⟩ := @fill_ok layout _ 0 constructElement _ hlayout
    (inside_alignUp hlayout)
    (fun _ hproperty _ hindex => constructElement_renews hlayout hproperty hindex)
    (fun _ _ => True) (fun _ _ _ _ _ _ _ h => ⟨h.1, trivial⟩) (constructElements_buys _)
    (by decide)
  exact ⟨block, hmade, hsound, hheap⟩

section Derived

variable (hbase : base.store.Sound base.layout) (hcontinues : layout.Continues base.layout)

include hbase hcontinues

theorem covers_of_continues : base.Covers layout where
  sound := hbase
  shared property hproperty hcontains := by
    obtain ⟨own, hproperties, hown⟩ := hcontinues
    rw [hproperties] at hproperty
    refine (List.mem_append.mp hproperty).resolve_right fun hmem => ?_
    rw [hown property hmem] at hcontains
    cases hcontains

theorem inherit_buys :
    Update.Buys (forElements layout.properties fun property =>
      if base.layout.contains property then copyElement base.store property
      else constructElement property) base.store.heap.size 0 := by
  obtain ⟨own, hproperties, hown⟩ := hcontinues
  have hcopied : (forElements base.layout.properties fun property =>
      if base.layout.contains property then copyElement base.store property
      else constructElement property) = forElements base.layout.properties (copyElement base.store) :=
    forElements_congr fun property hproperty => if_pos (contains_of_mem hproperty)
  have hmade : (forElements own fun property =>
      if base.layout.contains property then copyElement base.store property
      else constructElement property) = forElements own constructElement :=
    forElements_congr fun property hproperty => by rw [hown property hproperty]; rfl
  rw [hproperties, forElements_append, hcopied, hmade]
  exact (copyElements_buys hbase).bind fun _ => constructElements_buys _

/-- Defaults over a base hold what the base holds. -/
theorem newDefault_some_ok (hlayout : layout.Built) (hisA : layout.isA base.layout.name = true)
    (hfits : base.store.Fits) :
    ∃ block, newDefault layout (some base) = .ok block ∧
      (block.layout = layout ∧ block.store.Sound layout) ∧
      block.store.heap.size ≤ base.store.heap.size ∧
      ∀ element ∈ elementsOf layout.properties, base.layout.contains element.1 = true →
        block.value element.1 element.2 = base.value element.1 element.2 := by
  have hshared := (covers_of_continues hbase hcontinues).shared
  have hbuys := inherit_buys hbase hcontinues
  simp only [newDefault, if_pos hisA]
  obtain ⟨block, hmade, hsound, hheap, hvalues⟩ := @fill_ok layout _ base.store.heap.size
    (fun property => if base.layout.contains property then copyElement base.store property
      else constructElement property)
    (fun property index state outcome after value slots => outcome = .ok () ∧
      (base.layout.contains property = true → ∃ held, base.store.Holds property.type
        (elementAt property index) property.mask value held)) hlayout (inside_alignUp hlayout)
    (fun property hproperty index hindex => by
      split
      · next hcontains =>
          exact (copyElement_renews hlayout hproperty hindex hbase
            (hshared property hproperty hcontains)).mono id fun _ _ _ _ _ h => ⟨h.1, fun _ => h.2⟩
      · next hcontains =>
          exact (constructElement_renews hlayout hproperty hindex).mono id
            fun _ _ _ _ _ h => ⟨h.1, fun h => absurd h hcontains⟩)
    (fun element value => base.layout.contains element.1 = true → ∃ held, base.store.Holds
      element.1.type (elementAt element.1 element.2) element.1.mask value held)
    (fun _ _ _ _ _ _ _ h => h) hbuys hfits
  refine ⟨block, hmade, hsound, hheap, fun element helement hcontains => ?_⟩
  obtain ⟨value, hvalue, hsure⟩ := hvalues element helement
  obtain ⟨held, hheld⟩ := hsure hcontains
  obtain ⟨hproperty, hindex⟩ := mem_elementsOf.mp helement
  rw [hvalue, value_eq (mem_elementsOf.mpr ⟨hshared _ hproperty hcontains, hindex⟩)]
  exact (PropertyType.snapshot_of_holds hheld).symm

end Derived

/-- An instance holds what the defaults hold. -/
theorem newInstance_ok (hlayout : base.layout.Built) (hsound : base.store.Sound base.layout)
    (hfits : base.store.Fits) :
    ∃ block, newInstance base = .ok block ∧
      (block.layout = base.layout ∧ block.store.Sound base.layout) ∧
      ∀ element ∈ elementsOf base.layout.properties,
        block.value element.1 element.2 = base.value element.1 element.2 := by
  obtain ⟨block, hmade, -, hheap, -⟩ := @fill_ok base.layout base.store.root.size _
    (copyElement base.store) _ hlayout (inside_of_sound hsound)
    (fun _ hproperty _ hindex => copyElement_renews hlayout hproperty hindex hsound hproperty)
    (fun _ _ => True) (fun _ _ _ _ _ _ _ h => ⟨h.1, trivial⟩) (copyElements_buys hsound) hfits
  obtain ⟨hsame, hsound', hvalues⟩ :=
    newInstance_sound hlayout hsound hmade (Nat.lt_of_le_of_lt hheap hfits)
  exact ⟨block, hmade, ⟨hsame, hsound'⟩, hvalues⟩

end Block

end ObjectPackage
