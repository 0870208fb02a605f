/-
Blocks that come about.  A block starts as defaults or as an instance, and then values
are stored and property lists loaded, with any outcome; its store is sound all along,
and no operation on it blames the store.
-/
import ObjectPackage.Proofs.Block.Safe
import ObjectPackage.Proofs.Layout.Catalogue
import ObjectPackage.Proofs.Store.Duplicate

namespace ObjectPackage

namespace Block

theorem forElements_eq (properties : List Property) (action : Property → Nat → Update Unit) :
    forElements properties action =
      (elementsOf properties).forM fun element => action element.1 element.2 := by
  rw [forElements]
  induction properties with
  | nil => rfl
  | cons property rest ih =>
      have hrest : elementsOf (property :: rest) =
          (List.range property.dimension).map (fun index => (property, index)) ++
            elementsOf rest := rfl
      rw [List.forM_eq_forM, List.forM_cons, ← List.forM_eq_forM, ih, hrest]
      simp [forIndices]

theorem forElements_congr {properties : List Property} {action other : Property → Nat → Update Unit}
    (h : ∀ property ∈ properties, action property = other property) :
    forElements properties action = forElements properties other := by
  rw [forElements, forElements]
  induction properties with
  | nil => rfl
  | cons property rest ih =>
      obtain ⟨hfirst, hrest⟩ := List.forall_mem_cons.mp h
      have hnext := ih hrest
      simp only [List.forM_eq_forM, List.forM_cons] at hnext ⊢
      rw [hfirst, hnext]

theorem blank_zeroed (size : Nat) : (Store.zeroed size).Blank (.root 0) size := by
  refine Store.bytes_eq_ok.mpr ⟨Array.replicate size 0, 0, rfl, ?_, ?_⟩
  · simp [Location.root]
  · simp [Location.root]

variable {layout : StructLayout} {size : Nat} {action : Property → Nat → Update Unit}
  {ensures : Property → Nat → Ensures Store Value} {block : Block}

/-- However far a fill gets, the elements own their values, and nothing else is in use. -/
theorem fill_run (hlayout : layout.Built)
    (hinside : ∀ part ∈ memberParts layout.properties, part.offset + part.type.size ≤ size)
    (h : ∀ property ∈ layout.properties, ∀ index < property.dimension, Renews id
      (action property index) property.type (elementAt property index) property.mask True
      (ensures property index)) {outcome : Except PropertyError Unit} {after : Store}
    (hrun : runFrom (Store.zeroed size) (forElements layout.properties action) = (outcome, after))
    (hfits : after.Fits) :
    ∃ values slots, after.OwnsAll (.root 0) (memberParts layout.properties) values slots ∧
      (∀ slot, after.content (.slot slot) ≠ none → slot ∈ slots) ∧
      Chain (fun element => ensures element.1 element.2) (elementsOf layout.properties)
        (Store.zeroed size) outcome after values slots := by
  have hblanks := (blank_zeroed size).holdsAll hlayout.spread hinside
  have hrenews := @RenewsAll.forM _ id _ elementPart (fun element => action element.1 element.2)
    (.root 0) True (fun element => ensures element.1 element.2) (elementsOf layout.properties)
    (by rw [map_elementPart]; exact hlayout.spread) fun ⟨property, index⟩ helement => by
      obtain ⟨hproperty, hindex⟩ := mem_elementsOf.mp helement
      have helement := h property hproperty index hindex
      rw [← shift_root] at helement
      exact helement
  rw [map_elementPart, ← forElements_eq] at hrenews
  obtain ⟨values, slots, howns, hchange, hchain⟩ :=
    hrenews.renew hrun hfits hblanks.owns fun _ => rfl
  have hcomplete : ∀ slot, (Store.zeroed size).content (.slot slot) ≠ none →
      slot ∈ ([] : List Nat) := by
    intro slot hlive
    exact absurd rfl hlive
  exact ⟨values, slots, howns, hchange.complete hcomplete, hchain⟩

theorem fill_eq (layout : StructLayout) (size : Nat) (action : Property → Nat → Update Unit) :
    fill layout size action =
      (runFrom (Store.zeroed size) (forElements layout.properties action)).1.map fun _ =>
        ⟨layout, (runFrom (Store.zeroed size) (forElements layout.properties action)).2⟩ := by
  have hupdate : (Store.zeroed size).update (forElements layout.properties action) =
      runFrom (Store.zeroed size) (forElements layout.properties action) := rfl
  rw [fill, hupdate]
  cases runFrom (Store.zeroed size) (forElements layout.properties action) with
  | mk outcome after => cases outcome <;> rfl

/-- A block that is filled element by element is sound. -/
theorem fill_sound (hlayout : layout.Built)
    (hinside : ∀ part ∈ memberParts layout.properties, part.offset + part.type.size ≤ size)
    (h : ∀ property ∈ layout.properties, ∀ index < property.dimension, Renews id
      (action property index) property.type (elementAt property index) property.mask True
      (ensures property index))
    (hfill : fill layout size action = .ok block) (hfits : block.store.Fits) :
    block.layout = layout ∧ block.store.Sound layout ∧ ∃ values slots,
      block.store.OwnsAll (.root 0) (memberParts layout.properties) values slots ∧
      Chain (fun element => ensures element.1 element.2) (elementsOf layout.properties)
        (Store.zeroed size) (.ok ()) block.store values slots := by
  rw [fill_eq] at hfill
  cases hrun : runFrom (Store.zeroed size) (forElements layout.properties action) with
  | mk outcome after =>
      rw [hrun] at hfill
      obtain ⟨_, houtcome, rfl⟩ := map_eq_ok.mp hfill
      obtain rfl : outcome = .ok () := houtcome
      obtain ⟨values, slots, howns, hcomplete, hchain⟩ := fill_run hlayout hinside h hrun hfits
      exact ⟨rfl, ⟨values, slots, howns, hcomplete⟩, values, slots, howns, hchain⟩

theorem constructElement_renews (hlayout : layout.Built) {property : Property}
    (hproperty : property ∈ layout.properties) {index : Nat} (hindex : index < property.dimension) :
    Renews id (constructElement property index) property.type (elementAt property index)
      property.mask True (Defaults property.type) :=
  PropertyType.construct_renews (property_resolved hlayout hproperty)
    (element_masked hlayout hproperty hindex)

theorem copyElement_renews (hlayout : layout.Built) {property : Property}
    (hproperty : property ∈ layout.properties) {index : Nat} (hindex : index < property.dimension)
    {source : Store} {origin : StructLayout} (hsource : source.Sound origin)
    (hmember : property ∈ origin.properties) :
    Renews id (copyElement source property index) property.type (elementAt property index)
      property.mask True (Copies source property.type (elementAt property index) property.mask) := by
  obtain ⟨values, slots, howns, -⟩ := hsource
  have hpart : (⟨property.type, property.elementOffset index, property.mask⟩ : Part) ∈
      memberParts origin.properties :=
    mem_memberParts.mpr ⟨property, hmember, mem_parts.mpr ⟨index, hindex, rfl⟩⟩
  obtain ⟨value, -, held, -, hholds⟩ := howns.holds.of_mem hpart
  rw [shift_root] at hholds
  exact PropertyType.copy_renews (property_resolved hlayout hproperty)
    (element_masked hlayout hproperty hindex) hholds

theorem newDefault_none_sound (hlayout : layout.Built) (h : newDefault layout none = .ok block)
    (hfits : block.store.Fits) : block.layout = layout ∧ block.store.Sound layout := by
  have hinside : ∀ part ∈ memberParts layout.properties,
      part.offset + part.type.size ≤ alignUp layout.size blockGrain := fun part hpart =>
    Nat.le_trans ((memberParts_fitted hlayout.arranged).inside part hpart) (le_alignUp _ _)
  obtain ⟨hsame, hsound, -⟩ := fill_sound hlayout hinside
    (fun _ hproperty _ hindex => constructElement_renews hlayout hproperty hindex) h hfits
  exact ⟨hsame, hsound⟩

/-- Properties of the base keep the values they have there. -/
theorem newDefault_some_sound (hlayout : layout.Built) {base : Block}
    (hbase : base.store.Sound base.layout)
    (hmember : ∀ property ∈ layout.properties, base.layout.contains property = true →
      property ∈ base.layout.properties)
    (h : newDefault layout (some base) = .ok block) (hfits : block.store.Fits) :
    block.layout = layout ∧ block.store.Sound layout := by
  have hinside : ∀ part ∈ memberParts layout.properties,
      part.offset + part.type.size ≤ alignUp layout.size blockGrain := fun part hpart =>
    Nat.le_trans ((memberParts_fitted hlayout.arranged).inside part hpart) (le_alignUp _ _)
  simp only [newDefault] at h
  split at h
  · obtain ⟨hsame, hsound, -⟩ := @fill_sound _ _ _ (fun _ _ _ outcome _ _ _ => outcome = .ok ()) _
      hlayout hinside (fun property hproperty index hindex => by
        split
        · next hcontains =>
            exact (copyElement_renews hlayout hproperty hindex hbase
              (hmember property hproperty hcontains)).mono id fun _ _ _ _ _ h => h.1
        · exact (constructElement_renews hlayout hproperty hindex).mono id fun _ _ _ _ _ h => h.1)
      h hfits
    exact ⟨hsame, hsound⟩
  · cases h

theorem inside_of_sound (h : block.store.Sound block.layout) :
    ∀ part ∈ memberParts block.layout.properties,
      part.offset + part.type.size ≤ block.store.root.size := by
  intro part hpart
  obtain ⟨values, slots, howns, -⟩ := h
  obtain ⟨value, -, held, -, hholds⟩ := howns.holds.of_mem hpart
  obtain ⟨bytes, count, hcontent, hroom⟩ := hholds.room
  obtain ⟨rfl, -⟩ := HeapValue.elements.inj (Option.some.inj hcontent)
  simpa [Location.root, Location.shift] using hroom

/-- A block that is filled with copies has the values of the block that they are made from. -/
theorem fill_copies {source : Block} (hlayout : source.layout.Built)
    (hsource : source.store.Sound source.layout)
    (hinside : ∀ part ∈ memberParts source.layout.properties, part.offset + part.type.size ≤ size)
    (h : fill source.layout size (copyElement source.store) = .ok block)
    (hfits : block.store.Fits) :
    block.layout = source.layout ∧ block.store.Sound source.layout ∧
      ∀ element ∈ elementsOf source.layout.properties,
        block.value element.1 element.2 = source.value element.1 element.2 := by
  obtain ⟨hsame, hsound, values, slots, howns, hchain⟩ := fill_sound hlayout hinside
    (fun _ hproperty _ hindex => copyElement_renews hlayout hproperty hindex hsource hproperty)
    h hfits
  have hcopies : Chain (fun element => Copies source.store (elementPart element).type
      ((Location.root 0).shift (elementPart element).offset) (elementPart element).mask)
      (elementsOf source.layout.properties) (Store.zeroed size) (.ok ()) block.store values
      slots := by
    simp only [elementPart, shift_root]
    exact hchain
  obtain ⟨-, held, hheld⟩ := hcopies.copies
  rw [map_elementPart] at hheld
  refine ⟨hsame, hsound, fun element helement => ?_⟩
  have hpart := hheld.snapshot_eq howns.holds (elementPart element) (by
    rw [← map_elementPart]
    exact List.mem_map_of_mem helement)
  rw [value_eq (by rwa [hsame]), value_eq helement, ← shift_root]
  exact hpart

theorem newInstance_sound {defaults : Block} (hlayout : defaults.layout.Built)
    (hdefaults : defaults.store.Sound defaults.layout) (h : newInstance defaults = .ok block)
    (hfits : block.store.Fits) :
    block.layout = defaults.layout ∧ block.store.Sound defaults.layout ∧
      ∀ element ∈ elementsOf defaults.layout.properties,
        block.value element.1 element.2 = defaults.value element.1 element.2 :=
  fill_copies hlayout hdefaults (inside_of_sound hdefaults) h hfits

/-- A base of the same layout is copied as a whole. -/
theorem newDefault_same {base : Block} (hlayout : base.layout.Built)
    (hbase : base.store.Sound base.layout) (h : newDefault base.layout (some base) = .ok block)
    (hfits : block.store.Fits) :
    block.layout = base.layout ∧ block.store.Sound base.layout ∧
      ∀ element ∈ elementsOf base.layout.properties,
        block.value element.1 element.2 = base.value element.1 element.2 := by
  have hinside : ∀ part ∈ memberParts base.layout.properties,
      part.offset + part.type.size ≤ alignUp base.layout.size blockGrain := fun part hpart =>
    Nat.le_trans ((memberParts_fitted hlayout.arranged).inside part hpart) (le_alignUp _ _)
  simp only [newDefault] at h
  split at h
  · have hcopies : forElements base.layout.properties (copyElement base.store) =
        forElements base.layout.properties fun property =>
          if base.layout.contains property then copyElement base.store property
          else constructElement property :=
      forElements_congr fun property hproperty => by rw [if_pos (contains_of_mem hproperty)]
    refine fill_copies hlayout hbase hinside ?_ hfits
    rw [fill, hcopies]
    exact h
  · cases h

theorem not_internal_of_element {property : Property} {index : Nat} {error : PropertyError}
    (h : block.element property index = .error error) : ¬error.Internal := by
  rw [element, checkOwn] at h
  split at h
  · change (if index < property.dimension then _ else _) = _ at h
    split at h
    · cases h
    · obtain rfl := Except.error.inj h
      exact id
  · obtain rfl := Except.error.inj h
    exact id

/-- Storing a value keeps a store sound. -/
theorem setValue_sound (hlayout : block.layout.Built) (hsound : block.store.Sound block.layout)
    {property : Property} (hmember : block.layout.contains property = true →
      property ∈ block.layout.properties) (index : Nat) (value : Value)
    (hfits : (block.setValue property index value).2.store.Fits) :
    (block.setValue property index value).2.layout = block.layout ∧
      (block.setValue property index value).2.store.Sound block.layout ∧
      ∀ error, (block.setValue property index value).1 = .error error → ¬error.Internal := by
  rw [setValue] at hfits ⊢
  cases helement : block.element property index with
  | error error =>
      refine ⟨rfl, hsound, ?_⟩
      rintro _ herror
      obtain rfl := Except.error.inj herror
      exact not_internal_of_element helement
  | ok location =>
      obtain ⟨hcontains, hindex, rfl⟩ := element_eq_ok.mp helement
      have hproperty := hmember hcontains
      have hsafe := Safe.of_renews hlayout hproperty hindex
        (PropertyType.assign_renews (property_resolved hlayout hproperty)
          (element_masked hlayout hproperty hindex) value)
      rw [helement] at hfits
      exact ⟨rfl, hsafe.sound hsound hfits, fun error herror =>
        hsafe.blameless hsound (Prod.ext herror rfl) hfits⟩

theorem loadProperties_sound (package : Package) (cursor : Cursor) (hlayout : block.layout.Built)
    (hsound : block.store.Sound block.layout)
    (hfits : (block.loadProperties package cursor).2.1.store.Fits) :
    (block.loadProperties package cursor).2.1.layout = block.layout ∧
      (block.loadProperties package cursor).2.1.store.Sound block.layout ∧
      ∀ error, (block.loadProperties package cursor).1 = .error error → ¬error.Internal := by
  have hsafe := @properties_safe block.layout package hlayout
  exact ⟨rfl, @Safe.sound _ _ _ _ _ hsafe ⟨block.store, cursor⟩ hsound hfits, fun error herror =>
    @Safe.blameless _ _ _ _ _ hsafe ⟨block.store, cursor⟩ error _ hsound (Prod.ext herror rfl)
      hfits⟩

/-- Blocks of the layouts of a catalogue that were made and changed in any way, whether
the changes succeeded or not.  Properties of all layouts may be tried on a block. -/
inductive Made (layouts : List StructLayout) : Block → Prop
  | defaults {layout : StructLayout} {block : Block} (hlayout : layout ∈ layouts)
      (h : newDefault layout none = .ok block) (hfits : block.store.Fits) : Made layouts block
  | derived {layout : StructLayout} {base block : Block} (hlayout : layout ∈ layouts)
      (hbase : Made layouts base) (h : newDefault layout (some base) = .ok block)
      (hfits : block.store.Fits) : Made layouts block
  | copied {defaults block : Block} (hdefaults : Made layouts defaults)
      (h : newInstance defaults = .ok block) (hfits : block.store.Fits) : Made layouts block
  | stored {block : Block} {layout : StructLayout} {property : Property} (hblock : Made layouts block)
      (hlayout : layout ∈ layouts) (hproperty : property ∈ layout.properties) (index : Nat)
      (value : Value) (hfits : (block.setValue property index value).2.store.Fits) :
      Made layouts (block.setValue property index value).2
  | loaded {block : Block} (hblock : Made layouts block) (package : Package) (cursor : Cursor)
      (hfits : (block.loadProperties package cursor).2.1.store.Fits) :
      Made layouts (block.loadProperties package cursor).2.1

/-- The store of every block that was made is sound. -/
theorem Made.sound {layouts : List StructLayout} (hlayouts : Catalogue layouts)
    (h : Made layouts block) : block.layout ∈ layouts ∧ block.store.Sound block.layout := by
  induction h with
  | defaults hlayout h hfits =>
      obtain ⟨rfl, hsound⟩ := newDefault_none_sound (hlayouts.built _ hlayout) h hfits
      exact ⟨hlayout, hsound⟩
  | derived hlayout _ h hfits ih =>
      obtain ⟨rfl, hsound⟩ := newDefault_some_sound (hlayouts.built _ hlayout) ih.2
        (fun _ hproperty => hlayouts.mem_of_contains hlayout ih.1 hproperty) h hfits
      exact ⟨hlayout, hsound⟩
  | copied _ h hfits ih =>
      obtain ⟨hsame, hsound, -⟩ := newInstance_sound (hlayouts.built _ ih.1) ih.2 h hfits
      rw [hsame]
      exact ⟨ih.1, hsound⟩
  | stored _ hlayout hproperty index value hfits ih =>
      obtain ⟨hsame, hsound, -⟩ := setValue_sound (hlayouts.built _ ih.1) ih.2
        (hlayouts.mem_of_contains hlayout ih.1 hproperty) index value hfits
      rw [hsame]
      exact ⟨ih.1, hsound⟩
  | loaded _ package cursor hfits ih =>
      obtain ⟨hsame, hsound, -⟩ :=
        loadProperties_sound package cursor (hlayouts.built _ ih.1) ih.2 hfits
      rw [hsame]
      exact ⟨ih.1, hsound⟩

end Block

end ObjectPackage
