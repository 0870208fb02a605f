/-
What is accepted can be saved.  The values that a list brings to a block are decoded from its
bytes, and the others are defaults; both refer to names and objects of the package alone.  So
every block that some list was loaded into is saved without failure, and comes back from it.
-/
import ObjectPackage.Proofs.Block.Defaults
import ObjectPackage.Proofs.Block.Kept
import ObjectPackage.Proofs.Store.Accepted

namespace ObjectPackage

variable {package : Package} {layout : StructLayout} {property : Property} {header : Header}
  {cursor next stop : Cursor} {value : Value}

/-- The value of an entry can be saved: its header declares less than `2 ^ 32` bytes. -/
theorem Decoder.entry_portable
    (h : runFrom cursor (Decoder.entry package property header) = (.ok value, next)) :
    property.type.Portable package value := by
  by_cases hindex : header.arrayIndex.toNat < property.dimension
  · rw [Load.runFrom_decodeEntry hindex] at h
    cases hdecode : runFrom cursor (property.type.decodeEntry package property.name header) with
    | mk outcome after =>
        rw [hdecode] at h
        obtain ⟨hchecked, rfl⟩ := Prod.mk.inj h
        obtain ⟨found, rfl, hsized⟩ := bind_eq_ok.mp hchecked
        obtain ⟨_, hsize, rfl⟩ := map_eq_ok.mp hsized
        rcases PropertyType.decodeEntry_cases hdecode with ⟨hbool, rfl⟩ | ⟨htag, hvalue⟩
        · rw [hbool]
          trivial
        · have hconsumed : after.pos - cursor.pos = header.size.toNat := by
            by_contra hne
            rw [Load.checkSize, if_pos ⟨htag, hne⟩] at hsize
            cases hsize
          obtain ⟨used, hused, hpos, -⟩ := PropertyType.relocates_decode package _ hvalue
          have hdeclared := header.size.toNat_lt
          refine PropertyType.decode_portable hvalue ?_
          rw [hused, List.length_append]
          omega
  · rw [Decoder.entry, if_pos (Nat.le_of_not_lt hindex)] at h
    cases h

/-- So can the values of all entries that are loaded. -/
theorem Entries.portable {entries : List Entry} {index : Nat}
    (h : Entries package layout cursor entries stop)
    (hentry : .loaded property index value ∈ entries) : property.type.Portable package value := by
  induction h with
  | nil => cases hentry
  | cons _ hitem _ ih =>
      rcases List.mem_cons.mp hentry with rfl | hentry
      · rw [Decoder.item] at hitem
        split at hitem
        · obtain ⟨found, hfound, hsame⟩ := runFrom_map_eq_ok.mp hitem
          obtain ⟨rfl, -, rfl⟩ := Entry.loaded.inj hsame
          exact Decoder.entry_portable hfound
        · obtain ⟨_, _, -, hskipped⟩ := runFrom_bind_eq_ok.mp hitem
          cases (Prod.mk.inj hskipped).1
      · exact ih hentry

/-- The terminator of a list is a name. -/
theorem Terminated.names (h : Terminated package cursor next) : 0 < package.names.size := by
  obtain ⟨id, _, hid, -⟩ := runFrom_bind_eq_ok.mp h
  exact Nat.lt_of_le_of_lt (Nat.zero_le _) (Read.name_index_lt hid)

namespace Block

variable {blank loaded : Block} {final : Cursor} {report : LoadReport}

/-- All values of a block of defaults that a list was loaded into can be saved. -/
theorem accepted_portable (hlayout : layout.Built) (hblank : newDefault layout none = .ok blank)
    (hlength : cursor.rest.length < 2 ^ 64)
    (hload : blank.loadProperties package cursor = (.ok report, loaded, final)) :
    (loaded.layout = layout ∧ loaded.store.Sound layout) ∧
      ∀ element ∈ elementsOf layout.properties, ∃ value,
        loaded.value element.1 element.2 = .ok value ∧
          element.1.type.Portable package value ∧ element.1.type.Held value := by
  obtain ⟨⟨rfl, hsound⟩, hheap⟩ := newDefault_none_start hlayout hblank
  have hspent := loadProperties_heap package blank cursor
  rw [hload, hheap, Nat.zero_add] at hspent
  have hfits : loaded.store.Fits := Nat.lt_of_le_of_lt hspent hlength
  obtain ⟨hsame, hloaded, -⟩ := loadProperties_sound package cursor hlayout hsound (by rwa [hload])
  rw [hload] at hsame hloaded
  obtain ⟨entries, stop, hentries, hended⟩ := loadProperties_ended hlayout hsound hload hfits
  obtain ⟨layout, store⟩ := loaded
  obtain rfl : layout = blank.layout := hsame
  refine ⟨⟨rfl, hloaded⟩, fun element helement => ?_⟩
  obtain ⟨hproperty, hindex⟩ := mem_elementsOf.mp helement
  obtain ⟨value, hvalue, hheld⟩ := value_held hloaded hproperty hindex
  refine ⟨value, hvalue, ?_, hheld⟩
  cases hended with
  | terminated hstop hvalues =>
      have hsettle := hvalue.symm.trans (hvalues element helement)
      rcases Entry.settle_cases entries element (blank.store.valueOf blank.layout element) with
        ⟨found, hentry, hfound⟩ | hkept
      · obtain rfl := Except.ok.inj (hsettle.trans hfound)
        exact hentries.portable hentry
      · have hdefault := newDefault_none_value hlayout hblank helement
        obtain rfl := Except.ok.inj ((hsettle.trans hkept).trans hdefault)
        exact PropertyType.defaultValue_portable hstop.names _

/-- What is accepted can be saved.  A list may be made in any way: if it is loaded into a block of
defaults, then all names anywhere in the block are in the table and all objects are what a
reference is resolved to; the block is saved, alone or next to the defaults; and what is saved,
while its table keeps within the range of an index and its bytes within that of a position, brings
a block of defaults to the same values. -/
theorem accepted_resaved (hlayout : layout.Built) (hkept : layout.Kept)
    (hblank : newDefault layout none = .ok blank) (hlength : cursor.rest.length < 2 ^ 64)
    (hload : blank.loadProperties package cursor = (.ok report, loaded, final))
    (hpayload : ∀ element ∈ elementsOf layout.properties, ∀ value,
      loaded.value element.1 element.2 = .ok value →
        (element.1.type.encode value).length < 2 ^ 32)
    {defaults : Option Block} (hdefaults : ∀ other ∈ defaults, other = blank) :
    (∀ element ∈ elementsOf layout.properties, ∃ value,
      loaded.value element.1 element.2 = .ok value ∧
        ∀ inner : Value, inner.Inside value → inner.Known package) ∧
    ∃ count state, loaded.saveProperties defaults package.names = (.ok count, state) ∧
      (state.names.size ≤ 2 ^ 31 → state.output.size < 2 ^ 64 →
        ∃ again, blank.loadProperties { package with names := state.names }
            ⟨0, state.output.toList⟩ = (.ok ⟨count, []⟩, again, ⟨state.output.size, []⟩) ∧
          ∀ element ∈ elementsOf layout.properties,
            again.identical element.1 element.2 loaded = .ok true) := by
  obtain ⟨⟨rfl, hsound⟩, hvalues⟩ := accepted_portable hlayout hblank hlength hload
  obtain ⟨⟨hsame, hstart⟩, hheap⟩ := newDefault_none_start hlayout hblank
  have hcovers : ∀ other ∈ defaults, other.Covers loaded.layout := by
    intro other hother
    obtain rfl := hdefaults other hother
    exact ⟨by rwa [hsame], fun _ hproperty _ => by rwa [hsame]⟩
  obtain ⟨count, state, hrun⟩ :=
    Save.properties_succeeds hsound hkept.storable hcovers ⟨package.names, #[]⟩
  have hsave : loaded.saveProperties defaults package.names = (.ok count, state) := hrun
  refine ⟨fun element helement => ?_, count, state, hsave, fun hsize houtput => ?_⟩
  · obtain ⟨value, hvalue, hportable, hheld⟩ := hvalues element helement
    exact ⟨value, hvalue, hportable.known hheld⟩
  · obtain ⟨hgrows, -⟩ := saveProperties_run hsave (Nat.le_trans hsize (by decide))
    have hportable : ∀ property index value,
        (property, index) ∈ elementsOf loaded.layout.properties →
        loaded.value property index = .ok value →
        property.type.Portable { package with names := state.names } value ∧
          (property.type.encode value).length < 2 ^ 32 := by
      intro property index value helement hvalue
      obtain ⟨found, hfound, hportable, -⟩ := hvalues (property, index) helement
      obtain rfl := Except.ok.inj (hfound.symm.trans hvalue)
      refine ⟨?_, hpayload (property, index) helement found hvalue⟩
      exact @PropertyType.Portable.mono package { package with names := state.names }
        hgrows.size_le rfl property.type found hportable
    obtain ⟨again, hagain, hmatches⟩ := saved_returns hlayout hkept hsound hcovers hportable hsave
      (.refl _) hsize ⟨hsame, hstart⟩ (fun other hother element _ _ => by
        rw [hdefaults other hother]) 0 (by omega)
    rw [Nat.zero_add] at hagain
    exact ⟨again, hagain, hmatches.identical hsound⟩

end Block

namespace TaggedPawn

/-- A title whose size takes four bytes, a ghost, and another title. -/
def crooked : List UInt8 :=
  [1, 0x7d, 3, 0, 0, 0, 2, 97, 0, 2, 1, 255, 1, 0x5d, 3, 2, 98, 0, 0]

def retold : Block :=
  (defaults.loadProperties haunted ⟨0, crooked⟩).2.1

/-- Of the crooked list seven straight bytes are left, for the title that was loaded last. -/
theorem crooked_resaved : ∃ again,
    retold.saveProperties (some defaults) haunted.names =
      (.ok 1, ⟨haunted.names, #[1, 0x5d, 3, 2, 98, 0, 0]⟩) ∧
    defaults.loadProperties haunted ⟨0, [1, 0x5d, 3, 2, 98, 0, 0]⟩ =
      (.ok ⟨1, []⟩, again, ⟨7, []⟩) ∧
    again.identical title 0 retold = .ok true := by
  have hlayout : layout.Built := catalogue.built _ (List.mem_singleton.mpr rfl)
  have helements : Block.elementsOf layout.properties = [(title, 0), (tags, 0)] := rfl
  have htitle : (retold.value title 0).map (fun value => (title.type.encode value).length) =
      .ok 3 := by decide +kernel
  have htags : (retold.value tags 0).map (fun value => (tags.type.encode value).length) =
      .ok 1 := by decide +kernel
  have hpayload : ∀ element ∈ Block.elementsOf layout.properties, ∀ value,
      retold.value element.1 element.2 = .ok value →
        (element.1.type.encode value).length < 2 ^ 32 := by
    intro element helement value hvalue
    rw [helements, List.mem_pair] at helement
    rcases helement with rfl | rfl
    · rw [hvalue] at htitle
      exact Nat.lt_of_le_of_lt (Nat.le_of_eq (Except.ok.inj htitle)) (by decide)
    · rw [hvalue] at htags
      exact Nat.lt_of_le_of_lt (Nat.le_of_eq (Except.ok.inj htags)) (by decide)
  have hread : (defaults.loadProperties haunted ⟨0, crooked⟩).1 = .ok ⟨2, ["Ghost"]⟩ := by
    decide +kernel
  have hfinal : (defaults.loadProperties haunted ⟨0, crooked⟩).2.2 = ⟨19, []⟩ := by decide +kernel
  have hload : defaults.loadProperties haunted ⟨0, crooked⟩ =
      (.ok ⟨2, ["Ghost"]⟩, retold, ⟨19, []⟩) := by
    rw [← hread, ← hfinal, retold]
  obtain ⟨-, count, state, hsave, hback⟩ := Block.accepted_resaved hlayout
    ⟨storable, by decide⟩ (rfl : Block.newDefault layout none = .ok defaults) (by decide) hload
    hpayload (show ∀ other ∈ some defaults, other = defaults by simp)
  have hsaved : retold.saveProperties (some defaults) haunted.names =
      (.ok 1, ⟨haunted.names, #[1, 0x5d, 3, 2, 98, 0, 0]⟩) := by decide +kernel
  obtain ⟨hcount, rfl⟩ := Prod.mk.inj (hsaved.symm.trans hsave)
  obtain rfl := Except.ok.inj hcount
  obtain ⟨again, hagain, hsame⟩ := hback (by decide) (by decide)
  exact ⟨again, hsaved, hagain, hsame (title, 0) (by rw [helements]; exact List.mem_cons_self)⟩

end TaggedPawn

end ObjectPackage
