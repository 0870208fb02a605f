/-
Blocks that come back as a whole.  No property of their layout is transient, so everything
that they hold is saved, and is loaded again over a block that has the defaults.
-/
import ObjectPackage.Proofs.Block.Inherit

namespace ObjectPackage

/-- A layout whose blocks come back as a whole. -/
structure StructLayout.Kept (layout : StructLayout) : Prop where
  storable : layout.Storable
  lasting : ∀ property ∈ layout.properties, property.flags.has .transient = false

namespace StructLayout

variable {layout base : StructLayout}

theorem Kept.saved (h : layout.Kept) : layout.saved = Block.elementsOf layout.properties := by
  rw [StructLayout.saved, List.filter_eq_self.mpr]
  intro property hproperty
  rw [h.lasting property hproperty]
  rfl

theorem Kept.of_continues (h : layout.Kept) (hcontinues : layout.Continues base) : base.Kept := by
  obtain ⟨own, hproperties, -⟩ := hcontinues
  have hmem : ∀ property ∈ base.properties, property ∈ layout.properties := by
    intro property hproperty
    rw [hproperties]
    exact List.mem_append_left _ hproperty
  have hdistinct := h.storable.distinct
  rw [hproperties, List.pairwise_append] at hdistinct
  exact ⟨⟨fun property hproperty => h.storable.named property (hmem property hproperty),
    hdistinct.1,
    fun property hproperty => h.storable.single property (hmem property hproperty),
    fun property hproperty => h.storable.short property (hmem property hproperty),
    fun property hproperty => h.storable.countable property (hmem property hproperty)⟩,
    fun property hproperty => h.lasting property (hmem property hproperty)⟩

end StructLayout

/-- A sound block of the same layout with the same values. -/
structure Block.Matches (block other : Block) : Prop where
  layout : block.layout = other.layout
  sound : block.store.Sound block.layout
  values : ∀ element ∈ Block.elementsOf other.layout.properties,
    block.value element.1 element.2 = other.value element.1 element.2

namespace Block

variable {block other : Block}

theorem Matches.identical (h : block.Matches other) (hother : other.store.Sound other.layout) :
    ∀ element ∈ elementsOf other.layout.properties,
      block.identical element.1 element.2 other = .ok true := by
  intro element helement
  obtain ⟨hproperty, hindex⟩ := mem_elementsOf.mp helement
  obtain ⟨same, hsame, hiff⟩ := identical_eq h.sound hother (by rwa [h.layout]) hproperty hindex
  rw [hsame, hiff.mpr (h.values element helement).symm]

/-- Instances hold what defaults hold. -/
theorem Matches.newInstance (h : block.Matches other) (hlayout : other.layout.Built)
    (hfits : block.store.Fits) : ∃ copy, block.newInstance = .ok copy ∧ copy.Matches other := by
  obtain ⟨hsame, hsound, hvalues⟩ := h
  obtain ⟨copy, hcopy, ⟨hcopyLayout, hcopySound⟩, hcopyValues⟩ :=
    @newInstance_ok block (by rwa [hsame]) hsound hfits
  refine ⟨copy, hcopy, hcopyLayout.trans hsame, by rwa [hcopyLayout], fun element helement => ?_⟩
  rw [hcopyValues element (by rwa [hsame]), hvalues element helement]

/-- All that was saved of a block is loaded, under any later table of names, over a block that
has the values of the defaults. -/
theorem saved_returns {target : Block} {defaults : Option Block} {package : Package}
    {names : NameTable} {count : Nat} {state : SaveState} (hlayout : block.layout.Built)
    (hkept : block.layout.Kept) (hsound : block.store.Sound block.layout)
    (hdefaults : ∀ other ∈ defaults, other.Covers block.layout)
    (hportable : ∀ property index value, (property, index) ∈ elementsOf block.layout.properties →
      block.value property index = .ok value →
      property.type.Portable package value ∧ (property.type.encode value).length < 2 ^ 32)
    (hsave : block.saveProperties defaults names = (.ok count, state))
    (hgrows : state.names.Grows package.names) (hsize : package.names.size ≤ 2 ^ 31)
    (htarget : target.layout = block.layout ∧ target.store.Sound block.layout)
    (hcopied : ∀ other ∈ defaults, ∀ element ∈ elementsOf block.layout.properties,
      other.layout.contains element.1 = true →
        target.value element.1 element.2 = other.value element.1 element.2) (pos : Nat)
    (hcredit : target.store.heap.size + state.output.size < 2 ^ 64) :
    ∃ loaded, target.loadProperties package ⟨pos, state.output.toList⟩ =
        (.ok ⟨count, []⟩, loaded, ⟨pos + state.output.size, []⟩) ∧ loaded.Matches block := by
  have hnames : state.names.size ≤ 2 ^ 32 :=
    Nat.le_trans hgrows.size_le (Nat.le_trans hsize (by decide))
  obtain ⟨-, written, rest, houtput, hwritten, htotal⟩ := saveProperties_run hsave hnames
  obtain ⟨rfl, hselected, id, hid, rfl⟩ := htotal count rfl
  have hlength : (written.flatMap Written.bytes ++ Encode.name id).length = state.output.size := by
    rw [← houtput, Array.length_toList]
  -- all slots that the list takes are paid for by its bytes
  have hspent := loadProperties_heap package target
    ⟨pos, written.flatMap Written.bytes ++ Encode.name id⟩
  obtain ⟨loaded, hload, ⟨hsame, hloaded⟩, hvalues, -⟩ := load_written hlayout hkept.storable hsound
    hdefaults (fun property index value helement => hportable property index value
      (by rwa [← hkept.saved])) hsize
    (fun entry hentry => ⟨(hwritten entry hentry).1.mono hgrows, (hwritten entry hentry).2⟩)
    hselected (hid.mono hgrows) htarget hcopied pos [] (by
      rw [List.append_nil]
      exact Nat.lt_of_le_of_lt hspent (by rwa [hlength]))
  rw [List.append_nil, hlength, ← houtput] at hload
  exact ⟨loaded, hload, hsame, by rwa [hsame], fun element helement =>
    hvalues element (hkept.saved.symm ▸ helement)⟩

end Block

end ObjectPackage
