/-
Round trips.  What is saved of a block, next to defaults, brings a copy of the defaults to the
values of the block.
-/
import ObjectPackage.Proofs.Block.Address
import ObjectPackage.Proofs.Block.Overlay

namespace ObjectPackage

/-- A layout whose blocks come back from what is saved of them.  No property has the name of
the terminator or is hidden by another one, bools that are saved are not arrays, indices fit a
header, and units of containers take bytes. -/
structure StructLayout.Storable (layout : StructLayout) : Prop where
  named : ∀ property ∈ layout.properties, sameName property.name noneName = false
  distinct : layout.properties.Pairwise fun left right => left.alike right = false
  single : ∀ property ∈ layout.properties, property.flags.has .transient = false →
    property.type = .bool → property.dimension ≤ 1
  short : ∀ property ∈ layout.properties, property.dimension ≤ 2 ^ 30
  countable : ∀ property ∈ layout.properties, property.type.countable = true

theorem Property.alike_comm (left right : Property) : left.alike right = right.alike left := by
  rw [alike, alike, sameName_comm, Bool.beq_comm]

/-- Nothing behind a property hides it. -/
theorem StructLayout.Storable.resolve? {layout : StructLayout} (h : layout.Storable)
    {block : Block} {names : NameTable} {entry : Written} (hvalid : entry.Valid block names)
    (hproperty : entry.property ∈ layout.properties) :
    layout.resolve? names entry.header = some entry.property := by
  obtain ⟨front, back, hsplit⟩ := List.append_of_mem hproperty
  rw [hvalid.resolve? hproperty]
  refine getLast?_alike hsplit fun other hother => ?_
  have hdistinct := h.distinct
  rw [hsplit, List.pairwise_append, List.pairwise_cons] at hdistinct
  rw [Property.alike_comm]
  exact hdistinct.2.1.1 other hother

theorem mem_saved {layout : StructLayout} {property : Property} {index : Nat} :
    (property, index) ∈ layout.saved ↔ property ∈ layout.properties ∧
      property.flags.has .transient = false ∧ index < property.dimension := by
  rw [StructLayout.saved, Block.mem_elementsOf, List.mem_filter, and_assoc]
  simp

namespace Block

variable {block other : Block} {property : Property} {index : Nat}

/-- Every element has a value that is held in the store. -/
theorem value_held (hsound : block.store.Sound block.layout)
    (hproperty : property ∈ block.layout.properties) (hindex : index < property.dimension) :
    ∃ value, block.value property index = .ok value ∧ property.type.Held value := by
  obtain ⟨value, slots, hholds⟩ := holds_of_element hsound hproperty hindex
  refine ⟨value, ?_, _, _, _, _, hholds⟩
  rw [value_eq (mem_elementsOf.mpr ⟨hproperty, hindex⟩)]
  exact PropertyType.snapshot_of_holds hholds

/-- Elements compare equal when they have the same value. -/
theorem identical_eq (hsound : block.store.Sound block.layout)
    (hother : other.store.Sound other.layout) (hproperty : property ∈ block.layout.properties)
    (hproperty' : property ∈ other.layout.properties) (hindex : index < property.dimension) :
    ∃ same, block.identical property index other = .ok same ∧
      (same = true ↔ other.value property index = block.value property index) := by
  obtain ⟨value, slots, hholds⟩ := holds_of_element hsound hproperty hindex
  obtain ⟨value', slots', hholds'⟩ := holds_of_element hother hproperty' hindex
  obtain ⟨same, hsame, hiff⟩ := PropertyType.identical_of_holds hholds hholds'
  refine ⟨same, ?_, ?_⟩
  · rw [identical, element_eq_ok.mpr ⟨contains_of_mem hproperty, hindex, rfl⟩,
      element_eq_ok.mpr ⟨contains_of_mem hproperty', hindex, rfl⟩]
    exact hsame
  · rw [value_eq (mem_elementsOf.mpr ⟨hproperty, hindex⟩),
      value_eq (mem_elementsOf.mpr ⟨hproperty', hindex⟩),
      PropertyType.snapshot_of_holds hholds, PropertyType.snapshot_of_holds hholds', hiff,
      Except.ok.injEq, eq_comm]

/-- The block is sound, and where its layout contains a property of the other one, the property
is its own. -/
structure Covers (block : Block) (layout : StructLayout) : Prop where
  sound : block.store.Sound block.layout
  shared : ∀ property ∈ layout.properties, block.layout.contains property = true →
    property ∈ block.layout.properties

end Block

/-- An action that does not fail. -/
def Succeeds {ε σ α : Type} (action : ExceptT ε (StateM σ) α) : Prop :=
  ∀ state, ∃ value after, runFrom state action = (.ok value, after)

namespace Succeeds

variable {ε σ α β : Type}

theorem pure (value : α) : Succeeds (Pure.pure value : ExceptT ε (StateM σ) α) :=
  fun state => ⟨value, state, rfl⟩

theorem bind {action : ExceptT ε (StateM σ) α} {next : α → ExceptT ε (StateM σ) β}
    (h : Succeeds action) (hnext : ∀ value, Succeeds (next value)) : Succeeds (action >>= next) := by
  intro state
  obtain ⟨value, middle, hfirst⟩ := h state
  obtain ⟨result, after, hlast⟩ := hnext value middle
  exact ⟨result, after, (runFrom_bind_ok hfirst next).trans hlast⟩

theorem foldlM {items : List β} {step : α → β → ExceptT ε (StateM σ) α}
    (h : ∀ value, ∀ item ∈ items, Succeeds (step value item)) (value : α) :
    Succeeds (items.foldlM step value) := by
  induction items generalizing value with
  | nil => exact .pure value
  | cons item items ih =>
      exact (h value item List.mem_cons_self).bind fun next =>
        ih (fun value item hitem => h value item (List.mem_cons_of_mem _ hitem)) next

end Succeeds

namespace Save

variable {block : Block} {defaults : Option Block} {property : Property} {index : Nat}

theorem element_succeeds (hsound : block.store.Sound block.layout)
    (hstorable : block.layout.Storable) (helement : (property, index) ∈ block.layout.saved) :
    Succeeds (Save.element block property index) := by
  obtain ⟨hproperty, htransient, hindex⟩ := mem_saved.mp helement
  have hsingle : ¬(property.type.isBool = true ∧ 1 < property.dimension) := by
    rintro ⟨hbool, hdimension⟩
    have hone := hstorable.single property hproperty htransient
      (PropertyType.eq_bool_of_isBool hbool)
    omega
  obtain ⟨value, hvalue, -⟩ := Block.value_held hsound hproperty hindex
  have hpayload : ∃ payload, Save.payload block property index = .ok payload := by
    rw [Save.payload, hvalue]
    simp only [bind, Except.bind]
    split <;> exact ⟨_, rfl⟩
  obtain ⟨⟨payload, boolValue⟩, hpayload⟩ := hpayload
  intro state
  obtain ⟨header, names, hheader, -, -, harrayIndex, -⟩ :=
    header_run state property index payload.length boolValue
  have hshort := hstorable.short property hproperty
  obtain ⟨trail, htrail⟩ := @Header.trail_ok header (by
    rw [harrayIndex, UInt32.toNat_ofNat_of_lt' (show index < 2 ^ 32 by omega)]
    simp only [Encode.maxArrayIndex]
    omega)
  rw [Save.element, if_neg hsingle, hpayload, runFrom_bind_ok (runFrom_ofExcept state _)]
  dsimp only
  rw [runFrom_bind_ok hheader, runFrom_bind_ok (runFrom_emit _ _), htrail]
  exact ⟨_, _, rfl⟩

/-- A default is there and has the value of the element; a block without the property of the
element has no value for it. -/
theorem isDefault_eq (hsound : block.store.Sound block.layout)
    (hdefaults : ∀ other ∈ defaults, other.Covers block.layout)
    (helement : (property, index) ∈ block.layout.saved) :
    ∃ same, isDefault block defaults property index = .ok same ∧
      (same = true ↔ ∃ other ∈ defaults,
        other.value property index = block.value property index) := by
  obtain ⟨hproperty, -, hindex⟩ := mem_saved.mp helement
  cases defaults with
  | none => exact ⟨false, rfl, by simp⟩
  | some other =>
      have hcovers := hdefaults other rfl
      rw [isDefault]
      by_cases hcontains : other.layout.contains property = true
      · obtain ⟨same, hsame, hiff⟩ := Block.identical_eq hsound hcovers.sound hproperty
          (hcovers.shared property hproperty hcontains) hindex
        refine ⟨same, ?_, by simpa using hiff⟩
        rw [if_pos hcontains]
        exact hsame
      · obtain ⟨value, hvalue, -⟩ := Block.value_held hsound hproperty hindex
        refine ⟨false, if_neg hcontains, fun h => absurd h Bool.false_ne_true, ?_⟩
        rintro ⟨_, hother, hequal⟩
        obtain rfl := Option.some.inj hother
        obtain ⟨location, hlocation, -⟩ := bind_eq_ok.mp (hequal.trans hvalue)
        exact absurd (Block.element_eq_ok.mp hlocation).1 hcontains

/-- What is saved differs from the default next to it, if there is one. -/
theorem differs_eq (hsound : block.store.Sound block.layout)
    (hdefaults : ∀ other ∈ defaults, other.Covers block.layout)
    (helement : (property, index) ∈ block.layout.saved) :
    differs block defaults (property, index) =
      defaults.all fun other => block.identical property index other != .ok true := by
  obtain ⟨hproperty, -, hindex⟩ := mem_saved.mp helement
  cases defaults with
  | none => rfl
  | some other =>
      have hcovers := hdefaults other rfl
      rw [differs, isDefault, Option.all_some]
      by_cases hcontains : other.layout.contains property = true
      · obtain ⟨same, hidentical, -⟩ := Block.identical_eq hsound hcovers.sound hproperty
          (hcovers.shared property hproperty hcontains) hindex
        rw [if_pos hcontains, hidentical]
        cases same <;> rfl
      · have hidentical : block.identical property index other ≠ .ok true := by
          intro hidentical
          obtain ⟨_, -, hidentical⟩ := bind_eq_ok.mp hidentical
          obtain ⟨location, hlocation, -⟩ := bind_eq_ok.mp hidentical
          exact hcontains (Block.element_eq_ok.mp hlocation).1
        rw [if_neg hcontains, bne_iff_ne.mpr hidentical]
        rfl

/-- A block is saved without failure. -/
theorem properties_succeeds (hsound : block.store.Sound block.layout)
    (hstorable : block.layout.Storable)
    (hdefaults : ∀ other ∈ defaults, other.Covers block.layout) :
    Succeeds (Save.properties block defaults) := by
  refine (Succeeds.foldlM (fun written property hproperty => ?_) 0).bind fun written =>
    Succeeds.bind (fun state => ⟨_, _, runFrom_intern state _⟩) fun id =>
      Succeeds.bind (fun state => ⟨_, _, runFrom_emit state _⟩) fun _ => .pure written
  refine Succeeds.bind ?_ fun _ => .pure _
  rw [Save.property]
  cases htransient : property.flags.has .transient with
  | true => exact .pure 0
  | false =>
      refine Succeeds.foldlM (fun written index hindex => ?_) 0
      have helement : (property, index) ∈ block.layout.saved :=
        mem_saved.mpr ⟨hproperty, htransient, List.mem_range.mp hindex⟩
      obtain ⟨same, hsame, -⟩ := isDefault_eq hsound hdefaults helement
      rw [hsame]
      refine Succeeds.bind (fun state => ⟨_, _, runFrom_ofExcept state _⟩) fun same => ?_
      split
      · exact .pure written
      · exact (element_succeeds hsound hstorable helement).bind fun _ => .pure _

end Save

/-- An entry is taken from a payload that is as long as its header declares. -/
theorem Decoder.takes_entry {package : Package} {property : Property} {header : Header}
    {payload : List UInt8} {value : Value} (hindex : header.arrayIndex.toNat < property.dimension)
    (h : (property.type.decodeEntry package property.name header).Takes payload value)
    (hsize : header.tag = .bool ∨ payload.length = header.size.toNat) :
    (Decoder.entry package property header).Takes payload value := by
  intro pos rest
  have hcheck : Load.checkSize property header (pos + payload.length - pos) = .ok () := by
    rw [Load.checkSize, if_neg]
    rintro ⟨htag, hlength⟩
    rcases hsize with hbool | hsize
    · exact htag hbool
    · omega
  rw [Load.runFrom_decodeEntry hindex, h pos rest]
  dsimp only [Except.bind]
  rw [hcheck]
  rfl

namespace Written

variable {block : Block} {package : Package} {entry : Written}

/-- The payload of an entry is the value of its element, or the header is. -/
theorem Valid.takes_payload (h : entry.Valid block package.names) {value : Value}
    (hvalue : block.value entry.property entry.index = .ok value)
    (hheld : entry.property.type.Held value) (hcountable : entry.property.type.countable = true)
    (hportable : entry.property.type.Portable package value) :
    (entry.property.type.decodeEntry package entry.property.name entry.header).Takes entry.payload
        value ∧
      (entry.header.tag = .bool ∨ entry.payload = entry.property.type.encode value) := by
  have hpayload := h.payload
  have hcheck : entry.property.type.checkEntry package entry.property.name entry.header =
      .ok () := by
    refine PropertyType.checkEntry_ok h.describes.tag fun layout hlayout id hid => ?_
    obtain ⟨id', hid', hname⟩ := h.describes.structNamed layout hlayout
    obtain rfl := Option.some.inj (hid.symm.trans hid')
    exact hname
  rw [Save.payload, hvalue] at hpayload
  simp only [bind, Except.bind] at hpayload
  rw [PropertyType.decodeEntry, hcheck]
  dsimp only
  split at hpayload
  · next set hbool =>
      obtain ⟨hnone, hset⟩ := Prod.mk.inj (Except.ok.inj hpayload)
      rw [← hnone, hset, hbool]
      exact ⟨.pure _, .inl (h.describes.tag.trans (by rw [hbool]; rfl))⟩
  · next hother =>
      obtain ⟨hbytes, -⟩ := Prod.mk.inj (Except.ok.inj hpayload)
      have hkind : ¬entry.property.type.isBool = true := by
        intro hbool
        have hbool := PropertyType.eq_bool_of_isBool hbool
        rw [hbool] at hheld
        obtain ⟨store, location, mask, slots, hholds⟩ := hheld
        obtain ⟨set, -, hset, -⟩ := Store.holds_bool.mp hholds
        exact hother set hbool hset
      rw [if_neg hkind, ← hbytes]
      refine ⟨fun pos rest => ?_, .inr rfl⟩
      rw [Decoder.runFrom_inProperty,
        PropertyType.takes_decode ⟨hcountable, hportable, hheld⟩ pos rest]
      rfl

/-- The entry of an element is read as the value that the element has in the block. -/
theorem Valid.takes_item (h : entry.Valid block package.names)
    (hsound : block.store.Sound block.layout) (hstorable : block.layout.Storable)
    (helement : entry.element ∈ block.layout.saved)
    (hportable : ∀ value, block.value entry.property entry.index = .ok value →
      entry.property.type.Portable package value ∧
        (entry.property.type.encode value).length < 2 ^ 32) :
    ∃ value, block.value entry.property entry.index = .ok value ∧
      (Decoder.item package block.layout entry.header).Takes entry.payload
        (.loaded entry.property entry.index value) := by
  obtain ⟨hproperty, -, hindex⟩ := mem_saved.mp helement
  obtain ⟨value, hvalue, hheld⟩ := Block.value_held hsound hproperty hindex
  obtain ⟨hfits, hlength⟩ := hportable value hvalue
  obtain ⟨htakes, hpayload⟩ :=
    h.takes_payload hvalue hheld (hstorable.countable _ hproperty) hfits
  have hshort := hstorable.short _ hproperty
  have harrayIndex : entry.header.arrayIndex.toNat = entry.index := by
    rw [h.index, UInt32.toNat_ofNat_of_lt' (show entry.index < 2 ^ 32 by omega)]
  refine ⟨value, hvalue, ?_⟩
  rw [Decoder.item, hstorable.resolve? h hproperty, ← harrayIndex]
  refine (Decoder.takes_entry (by rwa [harrayIndex]) htakes ?_).map _
  refine hpayload.imp_right fun hbytes => ?_
  rw [h.size, hbytes, UInt32.toNat_ofNat_of_lt' hlength]

end Written

/-- An entry of a list brings the element of a saved one to the value it has in the block. -/
def Written.Carried (block : Block) (entry : Written) (item : Entry) : Prop :=
  ∃ value, block.value entry.property entry.index = .ok value ∧
    item = .loaded entry.property entry.index value

/-- The bytes of a saved entry are read as an entry for a layout. -/
def Written.ReadAs (package : Package) (layout : StructLayout) (entry : Written) (item : Entry) :
    Prop :=
  (Header.read package.names).Takes entry.head (some entry.header) ∧
    (Decoder.item package layout entry.header).Takes entry.payload item

/-- Saved entries stand one after the other in their bytes. -/
theorem Entries.of_written {package : Package} {layout : StructLayout} {written : List Written}
    {entries : List Entry} (h : List.Forall₂ (Written.ReadAs package layout) written entries)
    (pos : Nat) (rest : List UInt8) :
    Entries package layout ⟨pos, written.flatMap Written.bytes ++ rest⟩ entries
      ⟨pos + (written.flatMap Written.bytes).length, rest⟩ := by
  induction h generalizing pos with
  | nil => exact .nil
  | @cons entry item written entries hfirst _ ih =>
      have hhead := hfirst.1 pos (entry.payload ++ (written.flatMap Written.bytes ++ rest))
      have hitem := hfirst.2 (pos + entry.head.length) (written.flatMap Written.bytes ++ rest)
      have hrest := ih (pos + entry.head.length + entry.payload.length)
      simp only [List.flatMap_cons, Written.bytes, List.append_assoc, List.length_append,
        ← Nat.add_assoc] at hrest ⊢
      exact .cons hhead hitem hrest

namespace Block

variable {block : Block} {defaults : Option Block}

/-- The blocks that a saved list is loaded into: blocks of default values, or copies of the
defaults that it was saved against. -/
inductive Fresh (layout : StructLayout) : Option Block → Block → Prop
  | blank {target : Block} (h : newDefault layout none = .ok target) : Fresh layout none target
  | derived {defaults target : Block} (h : newDefault layout (some defaults) = .ok target) :
      Fresh layout (some defaults) target
  | copied {defaults target : Block} (h : newInstance defaults = .ok target) :
      Fresh layout (some defaults) target

theorem Fresh.sound {layout : StructLayout} {target : Block} (h : Fresh layout defaults target)
    (hlayout : layout.Built)
    (hdefaults : ∀ other ∈ defaults, other.layout = layout ∧ other.store.Sound other.layout)
    (hfits : target.store.Fits) :
    target.layout = layout ∧ target.store.Sound layout ∧ ∀ other ∈ defaults,
      ∀ element ∈ elementsOf layout.properties,
        target.value element.1 element.2 = other.value element.1 element.2 := by
  cases h with
  | blank h =>
      obtain ⟨hsame, hsound⟩ := newDefault_none_sound hlayout h hfits
      exact ⟨hsame, hsound, by rintro _ ⟨⟩⟩
  | derived h =>
      obtain ⟨rfl, hother⟩ := hdefaults _ rfl
      obtain ⟨hsame, hsound, hvalues⟩ := newDefault_same hlayout hother h hfits
      refine ⟨hsame, hsound, ?_⟩
      rintro _ ⟨⟩
      exact hvalues
  | copied h =>
      obtain ⟨rfl, hother⟩ := hdefaults _ rfl
      obtain ⟨hsame, hsound, hvalues⟩ := newInstance_sound hlayout hother h hfits
      refine ⟨hsame, hsound, ?_⟩
      rintro _ ⟨⟩
      exact hvalues

/-- Saved entries and the items that are read from them. -/
theorem written_items {package : Package} {written : List Written}
    (hsound : block.store.Sound block.layout) (hstorable : block.layout.Storable)
    (hwritten : ∀ entry ∈ written, entry.Valid block package.names ∧
      entry.element ∈ block.layout.saved)
    (hsize : package.names.size ≤ 2 ^ 31)
    (hportable : ∀ property index value, (property, index) ∈ block.layout.saved →
      block.value property index = .ok value →
      property.type.Portable package value ∧ (property.type.encode value).length < 2 ^ 32) :
    ∃ entries, List.Forall₂ (fun entry item => entry.ReadAs package block.layout item ∧
      entry.Carried block item) written entries := by
  induction written with
  | nil => exact ⟨[], .nil⟩
  | cons entry written ih =>
      obtain ⟨⟨hvalid, helement⟩, hrest⟩ := List.forall_mem_cons.mp hwritten
      obtain ⟨entries, hentries⟩ := ih hrest
      obtain ⟨hproperty, -, hindex⟩ := mem_saved.mp helement
      obtain ⟨value, hvalue, hitem⟩ := hvalid.takes_item hsound hstorable helement fun value hvalue =>
        hportable entry.property entry.index value helement hvalue
      have hhead := Header.takes_encode (hvalid.saved hindex (hstorable.named _ hproperty)) hsize
        hvalid.head
      exact ⟨_ :: entries, .cons ⟨⟨hhead, hitem⟩, value, hvalue, rfl⟩ hentries⟩

/-- Entries leave those elements alone that they are not for. -/
theorem settle_unwritten {written : List Written} {entries : List Entry}
    (h : List.Forall₂ (Written.Carried block) written entries)
    {element : Property × Nat} (hleft : element ∉ written.map Written.element)
    (before : Except PropertyError Value) : Entry.settle entries element before = before := by
  induction h generalizing before with
  | nil => rfl
  | cons hfirst _ ih =>
      obtain ⟨value, -, rfl⟩ := hfirst
      rw [List.map_cons, List.mem_cons, not_or] at hleft
      rw [Entry.settle_cons, Entry.settle_other hleft.1, ih hleft.2]

/-- Entries with the values of a block bring the elements that they are for to its values. -/
theorem settle_written {written : List Written} {entries : List Entry}
    (h : List.Forall₂ (Written.Carried block) written entries)
    {element : Property × Nat} (hmem : element ∈ written.map Written.element)
    (before : Except PropertyError Value) :
    Entry.settle entries element before = block.value element.1 element.2 := by
  induction h generalizing before with
  | nil => exact absurd hmem List.not_mem_nil
  | @cons entry item written entries hfirst hrest ih =>
      obtain ⟨value, hvalue, rfl⟩ := hfirst
      rw [Entry.settle_cons]
      by_cases hagain : element ∈ written.map Written.element
      · exact ih hagain _
      · obtain rfl := (List.mem_cons.mp hmem).resolve_right hagain
        rw [settle_unwritten hrest hagain]
        exact (Entry.settle_loaded _ _ _).trans hvalue.symm

/-- All that is saved of a block comes back: an element has an entry or its default. -/
theorem settle_saved {target : Block} {written : List Written} {entries : List Entry}
    (h : List.Forall₂ (Written.Carried block) written entries)
    (hselected : written.map Written.element =
      block.layout.saved.filter (Save.differs block defaults))
    (hsound : block.store.Sound block.layout)
    (hdefaults : ∀ other ∈ defaults, other.Covers block.layout)
    {element : Property × Nat} (helement : element ∈ block.layout.saved)
    (hcopied : ∀ other ∈ defaults, other.layout.contains element.1 = true →
      target.value element.1 element.2 = other.value element.1 element.2) :
    Entry.settle entries element (target.value element.1 element.2) =
      block.value element.1 element.2 := by
  by_cases hwritten : element ∈ written.map Written.element
  · exact settle_written h hwritten _
  · rw [settle_unwritten h hwritten]
    rw [hselected, List.mem_filter, not_and, Bool.not_eq_true] at hwritten
    obtain ⟨same, hsame, hiff⟩ := Save.isDefault_eq hsound hdefaults helement
    have hdefault := hwritten helement
    rw [Save.differs, hsame, Bool.not_eq_false'] at hdefault
    obtain ⟨other, hother, hequal⟩ := hiff.mp hdefault
    obtain ⟨hproperty, -, hindex⟩ := mem_saved.mp helement
    obtain ⟨value, hvalue, -⟩ := value_held hsound hproperty hindex
    obtain ⟨location, hlocation, -⟩ := bind_eq_ok.mp (hequal.trans hvalue)
    rw [hcopied other hother (element_eq_ok.mp hlocation).1, hequal]

theorem report_items {written : List Written} {entries : List Entry}
    (h : List.Forall₂ (Written.Carried block) written entries) :
    Entry.loadedCount entries = written.length ∧ Entry.skippedNames entries = [] := by
  induction h with
  | nil => exact ⟨rfl, rfl⟩
  | cons hfirst _ ih =>
      obtain ⟨value, -, rfl⟩ := hfirst
      obtain ⟨hloaded, hskipped⟩ := ih
      constructor
      · rw [Entry.loadedCount, List.countP_cons, List.length_cons, ← hloaded]
        rfl
      · rw [Entry.skippedNames, List.filterMap_cons, ← hskipped]
        rfl

/-- Saved entries are loaded, wherever they stand, under any later table of names.  A block that
holds the defaults where it shares a property with them gets the values that were saved, and
keeps the others. -/
theorem load_written {target : Block} {package : Package} {written : List Written} {id : NameId}
    (hlayout : block.layout.Built) (hstorable : block.layout.Storable)
    (hsound : block.store.Sound block.layout)
    (hdefaults : ∀ other ∈ defaults, other.Covers block.layout)
    (hportable : ∀ property index value, (property, index) ∈ block.layout.saved →
      block.value property index = .ok value →
      property.type.Portable package value ∧ (property.type.encode value).length < 2 ^ 32)
    (hsize : package.names.size ≤ 2 ^ 31)
    (hwritten : ∀ entry ∈ written, entry.Valid block package.names ∧
      entry.element ∈ block.layout.saved)
    (hselected : written.map Written.element =
      block.layout.saved.filter (Save.differs block defaults))
    (hid : package.names.Names id noneName)
    (htarget : target.layout = block.layout ∧ target.store.Sound block.layout)
    (hcopied : ∀ other ∈ defaults, ∀ element ∈ elementsOf block.layout.properties,
      other.layout.contains element.1 = true →
        target.value element.1 element.2 = other.value element.1 element.2) (pos : Nat)
    (suffix : List UInt8) (hfits : (target.loadProperties package
      ⟨pos, written.flatMap Written.bytes ++ (Encode.name id ++ suffix)⟩).2.1.store.Fits) :
    ∃ loaded, target.loadProperties package
        ⟨pos, written.flatMap Written.bytes ++ (Encode.name id ++ suffix)⟩ =
      (.ok ⟨written.length, []⟩, loaded,
        ⟨pos + (written.flatMap Written.bytes ++ Encode.name id).length, suffix⟩) ∧
      (loaded.layout = block.layout ∧ loaded.store.Sound block.layout) ∧
      (∀ element ∈ block.layout.saved,
        loaded.value element.1 element.2 = block.value element.1 element.2) ∧
      ∀ element ∈ elementsOf block.layout.properties, element ∉ block.layout.saved →
        loaded.value element.1 element.2 = target.value element.1 element.2 := by
  obtain ⟨htargetLayout, htargetSound⟩ := htarget
  obtain ⟨entries, hentries⟩ := written_items hsound hstorable hwritten hsize hportable
  have hvalues : List.Forall₂ (Written.Carried block) written entries :=
    hentries.imp fun _ _ h => h.2
  have hstream := Entries.of_written (hentries.imp fun _ _ h => h.1) pos (Encode.name id ++ suffix)
  rw [← htargetLayout] at hstream htargetSound
  obtain ⟨loaded, hload, hsame, hloadedSound, hsettle⟩ :=
    loadProperties_of_entries (by rwa [htargetLayout]) htargetSound hstream
      (Header.takes_terminator hid (sameName_self _) hsize _ suffix) hfits
  obtain ⟨hloaded, hskipped⟩ := report_items hvalues
  rw [htargetLayout] at hsame hloadedSound hsettle
  refine ⟨loaded, ?_, ⟨hsame, hloadedSound⟩, fun element helement => ?_, fun element hmem hleft => ?_⟩
  · rw [hload, hloaded, hskipped, List.length_append, Nat.add_assoc]
  · obtain ⟨hproperty, -, hindex⟩ := mem_saved.mp helement
    have hmem := mem_elementsOf.mpr ⟨hproperty, hindex⟩
    rw [hsettle element hmem]
    exact settle_saved hvalues hselected hsound hdefaults helement fun other hother =>
      hcopied other hother element hmem
  · rw [hsettle element hmem, settle_unwritten hvalues]
    intro hwas
    obtain ⟨entry, hentry, rfl⟩ := List.mem_map.mp hwas
    exact hleft (hwritten entry hentry).2

/-- The round trip.  Of a block of a storable layout, each element that is not transient and not
identical to its default is saved as one entry, in the order of the layout.  The bytes are
loaded, whatever follows them, under the table of names that the save has left, into a fresh
block: all entries are known, the stream is left behind the list, and the elements that are not
transient are those of the block again, while transient ones are left alone. -/
theorem roundTrip {target : Block} {package : Package} (hlayout : block.layout.Built)
    (hstorable : block.layout.Storable) (hsound : block.store.Sound block.layout)
    (hdefaults : ∀ other ∈ defaults, other.layout = block.layout ∧
      other.store.Sound other.layout)
    (hportable : ∀ property index value, (property, index) ∈ block.layout.saved →
      block.value property index = .ok value →
      property.type.Portable package value ∧ (property.type.encode value).length < 2 ^ 32)
    (hsize : (block.saveProperties defaults package.names).2.names.size ≤ 2 ^ 31)
    (htarget : Fresh block.layout defaults target) (hfits : target.store.Fits) :
    ∃ (names : NameTable) (written : List Written) (terminator : List UInt8),
      block.saveProperties defaults package.names =
        (.ok written.length, ⟨names, (written.flatMap Written.bytes ++ terminator).toArray⟩) ∧
      (∀ entry ∈ written, entry.Valid block names ∧
        (Header.read names).Takes entry.head (some entry.header)) ∧
      written.map Written.element = block.layout.saved.filter (fun element =>
        defaults.all fun other =>
          block.identical element.1 element.2 other != .ok true) ∧
      ∀ pos suffix,
        (target.loadProperties { package with names := names }
          ⟨pos, written.flatMap Written.bytes ++ (terminator ++ suffix)⟩).2.1.store.Fits →
        ∃ loaded, target.loadProperties { package with names := names }
            ⟨pos, written.flatMap Written.bytes ++ (terminator ++ suffix)⟩ =
          (.ok ⟨written.length, []⟩, loaded,
            ⟨pos + (written.flatMap Written.bytes ++ terminator).length, suffix⟩) ∧
          (∀ element ∈ block.layout.saved,
            loaded.value element.1 element.2 = block.value element.1 element.2 ∧
            block.identical element.1 element.2 loaded = .ok true) ∧
          ∀ element ∈ elementsOf block.layout.properties, element ∉ block.layout.saved →
            loaded.value element.1 element.2 = target.value element.1 element.2 := by
  have hcovers : ∀ other ∈ defaults, other.Covers block.layout := fun other hother => by
    obtain ⟨hsame, hother⟩ := hdefaults other hother
    exact ⟨hother, fun _ hproperty _ => by rwa [hsame]⟩
  obtain ⟨total, after, hsaved⟩ :=
    Save.properties_succeeds hsound hstorable hcovers ⟨package.names, #[]⟩
  have hsave : block.saveProperties defaults package.names = (.ok total, after) := hsaved
  rw [hsave] at hsize
  obtain ⟨hgrows, written, terminator, houtput, hwritten, htotal⟩ :=
    saveProperties_run hsave (Nat.le_trans hsize (by decide))
  obtain ⟨rfl, hselected, id, hid, rfl⟩ := htotal total rfl
  obtain ⟨htargetLayout, htargetSound, hcopied⟩ := htarget.sound hlayout hdefaults hfits
  have hmono (type : PropertyType) (value : Value) : type.Portable package value →
      type.Portable { package with names := after.names } value :=
    @PropertyType.Portable.mono package { package with names := after.names } hgrows.size_le rfl
      type value
  refine ⟨after.names, written, Encode.name id, ?_, ?_, ?_, ?_⟩
  · rw [hsave, ← houtput]
  · intro entry hentry
    obtain ⟨hvalid, helement⟩ := hwritten entry hentry
    obtain ⟨hproperty, -, hindex⟩ := mem_saved.mp helement
    exact ⟨hvalid, Header.takes_encode
      (hvalid.saved hindex (hstorable.named _ hproperty)) hsize hvalid.head⟩
  · rw [hselected]
    exact List.filter_congr fun element helement => Save.differs_eq hsound hcovers helement
  · intro pos suffix hloadFits
    obtain ⟨loaded, hload, ⟨hsame, hloadedSound⟩, hback, hleft⟩ :=
      @load_written block defaults target { package with names := after.names } written id hlayout
        hstorable hsound hcovers (fun property index value helement hvalue => by
          obtain ⟨hfits, hlength⟩ := hportable property index value helement hvalue
          exact ⟨hmono _ _ hfits, hlength⟩) hsize hwritten hselected hid
        ⟨htargetLayout, htargetSound⟩
        (fun other hother element helement _ => hcopied other hother element helement) pos suffix
        hloadFits
    refine ⟨loaded, hload, fun element helement => ⟨hback element helement, ?_⟩, hleft⟩
    obtain ⟨hproperty, -, hindex⟩ := mem_saved.mp helement
    have hproperty' : element.1 ∈ loaded.layout.properties := by rwa [hsame]
    obtain ⟨same, hidentical, hiff⟩ := identical_eq hsound (by rwa [hsame]) hproperty
      hproperty' hindex
    rw [hidentical, hiff.mpr (hback element helement)]

end Block

namespace TaggedPawn

def title : Property := ⟨0, "Pawn", "Title", .str, 1, .empty, 0, 0⟩

/-- A pawn with a title and a tag. -/
def titled : Block :=
  ((defaults.setValue title 0 (.str "a")).2.setValue tags 0 (.array [.str "b"])).2

theorem titled_made : Block.Made [layout] titled :=
  have hlayout : layout ∈ [layout] := List.mem_singleton.mpr rfl
  .stored (.stored (.defaults hlayout rfl (by decide)) hlayout (by simp [layout, title]) 0 _
    (by decide +kernel)) hlayout (by simp [layout]) 0 _ (by decide +kernel)

theorem storable : layout.Storable where
  named := by decide
  distinct := by decide
  single := by simp [layout, tags]
  short := by simp [layout, tags]
  countable := by decide

/-- A package with no names but the one of the terminator. -/
def unnamed : Package := ⟨69, ⟨["None"]⟩, default⟩

/-- Both values of the titled pawn go through thirteen bytes. -/
theorem titled_roundTrip : ∃ loaded,
    defaults.loadProperties ⟨69, ⟨["None", "Title", "Tags"]⟩, default⟩
        ⟨0, [1, 0x5d, 3, 2, 97, 0, 2, 0x29, 1, 2, 98, 0, 0]⟩ = (.ok ⟨2, []⟩, loaded, ⟨13, []⟩) ∧
      loaded.value title 0 = .ok (.str "a") ∧ loaded.value tags 0 = .ok (.array [.str "b"]) := by
  have hlayout : layout.Built := catalogue.built _ (List.mem_singleton.mpr rfl)
  have hsound : titled.store.Sound layout := (titled_made.sound catalogue).2
  have hdefaults : ∀ other ∈ some defaults, other.layout = layout ∧
      other.store.Sound other.layout := by
    rintro _ hsome
    obtain rfl := Option.some.inj hsome
    exact ⟨rfl, (@Block.newDefault_none_sound layout defaults hlayout rfl (by decide)).2⟩
  have htitle : titled.value title 0 = .ok (.str "a") := by cbv
  have htags : titled.value tags 0 = .ok (.array [.str "b"]) := by cbv
  have hportable : ∀ property index value, (property, index) ∈ layout.saved →
      titled.value property index = .ok value →
      property.type.Portable unnamed value ∧ (property.type.encode value).length < 2 ^ 32 := by
    intro property index value helement hvalue
    have hsaved : layout.saved = [(title, 0), (tags, 0)] := rfl
    rw [hsaved, List.mem_pair] at helement
    rcases helement with helement | helement <;> obtain ⟨rfl, rfl⟩ := Prod.mk.inj helement
    · obtain rfl := Except.ok.inj (htitle.symm.trans hvalue)
      refine ⟨?_, by decide +kernel⟩
      rw [title, PropertyType.Portable]
      decide +kernel
    · obtain rfl := Except.ok.inj (htags.symm.trans hvalue)
      refine ⟨?_, by decide +kernel⟩
      rw [tags, PropertyType.Portable]
      refine ⟨by decide +kernel, fun item hitem => ?_⟩
      obtain rfl := List.mem_singleton.mp hitem
      rw [PropertyType.Portable]
      decide +kernel
  obtain ⟨names, written, terminator, hsave, -, -, hload⟩ :=
    @Block.roundTrip titled (some defaults) defaults unnamed hlayout storable hsound hdefaults
      hportable (by decide +kernel) (.copied rfl) (by decide +kernel)
  have hsaved : titled.saveProperties (some defaults) unnamed.names =
      (.ok 2, ⟨⟨["None", "Title", "Tags"]⟩,
        #[1, 0x5d, 3, 2, 97, 0, 2, 0x29, 1, 2, 98, 0, 0]⟩) := by decide +kernel
  obtain ⟨hcount, hstate⟩ := Prod.mk.inj (hsaved.symm.trans hsave)
  obtain ⟨rfl, hbytes⟩ := SaveState.mk.inj hstate
  have hlist : written.flatMap Written.bytes ++ terminator =
      [1, 0x5d, 3, 2, 97, 0, 2, 0x29, 1, 2, 98, 0, 0] := (congrArg Array.toList hbytes).symm
  obtain ⟨loaded, hloaded, hback, -⟩ := hload 0 [] (by
    rw [List.append_nil, hlist]
    decide +kernel)
  rw [List.append_nil, hlist, ← Except.ok.inj hcount] at hloaded
  have hmem : (title, 0) ∈ layout.saved ∧ (tags, 0) ∈ layout.saved :=
    ⟨List.mem_cons_self, List.mem_cons_of_mem _ List.mem_cons_self⟩
  exact ⟨loaded, hloaded, (hback _ hmem.1).1.trans htitle, (hback _ hmem.2).1.trans htags⟩

end TaggedPawn

end ObjectPackage
