/-
Releases.  A value that is released gives back the slots that can be reached from it, every text
and buffer inside of a buffer before the buffer itself, and leaves a default value.  No other
slot is given back, and of what stays no bit is changed but those of the leaves of the value.
-/
import ObjectPackage.Proofs.Block.RoundTrip
import ObjectPackage.Proofs.Store.Duplicate
import ObjectPackage.Proofs.Store.Site

namespace ObjectPackage

namespace Store

variable {store : Store} {parts : List Part} {type : PropertyType} {location : Location}
  {mask : UInt32}

theorem CellOf.of_text {cell : PropertyType} {cellAt : Location}
    (h : store.CellOf .str location cell cellAt) : cellAt = location := by
  cases h with
  | here => rfl
  | part hstorage => cases hstorage
  | unit hstorage => cases hstorage

/-- All slots below the one that is taken next are in use. -/
theorem lt_freeSlot {lower : Nat} (h : lower < store.freeSlot) :
    store.content (.slot lower) ≠ none := by
  have hused : ∃ value, store.heap[lower]? = some value ∧ value ≠ .free := by
    rw [freeSlot] at h
    cases hfound : store.heap.findIdx? HeapValue.isFree with
    | none =>
        rw [hfound] at h
        obtain ⟨value, hvalue⟩ := Option.ne_none_iff_exists'.mp
          (show store.heap[lower]? ≠ none by simpa using h)
        have hnone := Array.findIdx?_eq_none_iff.mp hfound value (Array.mem_of_getElem? hvalue)
        exact ⟨value, hvalue, by rintro rfl; simp [HeapValue.isFree] at hnone⟩
    | some index =>
        rw [hfound] at h
        obtain ⟨hindex, -, hbelow⟩ := Array.findIdx?_eq_some_iff_getElem.mp hfound
        have hlower := hbelow lower h
        refine ⟨_, Array.getElem?_eq_getElem (Nat.lt_trans h hindex), fun hfree => ?_⟩
        rw [hfree] at hlower
        simp [HeapValue.isFree] at hlower
  obtain ⟨value, hvalue, hne⟩ := hused
  rw [content_slot.mpr ⟨hvalue, hne⟩]
  exact Option.some_ne_none value

/-- A new value is put into the lowest free slot, and nothing else changes. -/
theorem alloc_lowest (store : Store) {value : HeapValue} (h : value ≠ .free) :
    ∃ slot after, store.update (Update.alloc value) = (.ok slot, after) ∧
      store.content (.slot slot) = none ∧
      (∀ lower < slot, store.content (.slot lower) ≠ none) ∧
      after.content (.slot slot) = some value ∧
      ∀ region ≠ .slot slot, after.content region = store.content region := by
  obtain ⟨slot, after, hrun, hchange, hcontent, -⟩ := Update.alloc_spec store h
  have hslot : slot = store.freeSlot := (Except.ok.inj (Prod.mk.inj hrun).1).symm
  refine ⟨slot, after, hrun, hchange.fresh slot (by simp) (by simp), ?_, hcontent, ?_⟩
  · exact fun lower hlower => lt_freeSlot (hslot ▸ hlower)
  · intro region hregion
    exact (hchange.kept region (by simp) (by simpa [Region.Among] using hregion)).eq (by simp)

/-- Releasing a value of a well-formed store succeeds and gives back the slots that it reaches
and no others.  Slots that other cells name stay in use, and a slot that the value does not lie
in stays as it is; in regions that stay, no bit changes but those of the leaves.  A default value
is left in a store that is well-formed again, and the next slot that is taken is the lowest of
those that are not in use. -/
theorem release_exact (hstore : store.WellFormed parts)
    (hsite : store.Site parts type location mask) :
    ∃ after, store.update (type.release location mask) = (.ok (), after) ∧
      (∀ slot, store.content (.slot slot) ≠ none ∧ after.content (.slot slot) = none ↔
        store.Reaches type location slot) ∧
      (∀ cell cellAt slot, store.Cell parts cell cellAt → ¬store.CellOf type location cell cellAt →
        store.handle cellAt = .ok (some slot) → after.content (.slot slot) ≠ none ∧
          (location.region ≠ .slot slot →
            after.content (.slot slot) = store.content (.slot slot))) ∧
      (∀ region, after.content region ≠ none →
        HeapValue.Agree (type.Touched location mask region) (store.content region)
          (after.content region)) ∧
      after.Holds type location mask type.defaultValue [] ∧
      type.snapshot after location mask = .ok type.defaultValue ∧
      after.WellFormed parts ∧
      ∀ value ≠ .free, ∃ slot last, after.update (Update.alloc value) = (.ok slot, last) ∧
        after.content (.slot slot) = none ∧
        (∀ lower < slot, after.content (.slot lower) ≠ none) ∧
        last.content (.slot slot) = some value ∧
        ∀ region ≠ .slot slot, last.content region = after.content region := by
  obtain ⟨hresolved, hmask⟩ := hsite.resolved hstore.spread
  obtain ⟨value, slots, howns, hexchange⟩ := hsite.owns hstore
  obtain ⟨after, hrun, hdefault, hchange⟩ := PropertyType.release_releases hresolved hmask howns
  have hkept {region : Region} (hregion : ¬region.Among slots) :
      HeapValue.Agree (type.Touched location mask region) (store.content region)
        (after.content region) := hchange.kept region hregion Region.not_among_nil
  -- contents that agree are both there or both not
  have hlive {slot : Nat} (hslot : slot ∉ slots) :
      after.content (.slot slot) = none ↔ store.content (.slot slot) = none := by
    have hagree := hkept (mt Region.among_slot.mp hslot)
    generalize store.content (.slot slot) = old, after.content (.slot slot) = new at hagree
    cases hagree <;> simp
  refine ⟨after, hrun, fun slot => ?_, fun cell cellAt slot hcell hother hhandle => ?_,
    fun region hregion => ?_, hdefault, PropertyType.snapshot_of_holds hdefault,
    hexchange hdefault.owns hchange, fun value => after.alloc_lowest⟩
  · rw [howns.holds.reaches]
    constructor
    · rintro ⟨hused, hfree⟩
      by_contra hslot
      exact hused ((hlive hslot).mp hfree)
    · exact fun hslot => ⟨howns.holds.live slot hslot, hchange.released slot hslot List.not_mem_nil⟩
  · have hslot : slot ∉ slots := by
      intro hslot
      obtain ⟨cell', cellAt', hcell', hhandle'⟩ := howns.holds.named hslot
      obtain ⟨rfl, rfl⟩ := hstore.names_once hcell hhandle (hsite.cell_of hcell') hhandle'
      exact hother hcell'
    refine ⟨(hlive hslot).not.mpr (hstore.live hcell hhandle), fun hregion => ?_⟩
    exact (hkept (mt Region.among_slot.mp hslot)).eq fun bit hbit => hregion hbit.1.symm
  · refine hkept ?_
    rintro ⟨slot, hslot, rfl⟩
    exact hregion (hchange.released slot hslot List.not_mem_nil)

end Store

namespace TaggedPawn

/-- The tags of a pawn give back their buffer and the tag in it.  The title is left alone, and
the slot of the buffer is the next one to be taken. -/
theorem tags_released : ∃ after,
    titled.store.update (tags.type.release (.root 8) tags.mask) = (.ok (), after) ∧
      after.content (.slot 0) = some (.text "a") ∧ after.content (.slot 1) = none ∧
      after.content (.slot 2) = none ∧
      ∃ last, after.update (.alloc (.text "c")) = (.ok 1, last) := by
  have hlayout : titled.layout = layout :=
    List.mem_singleton.mp (titled_made.sound catalogue).1
  have hmember (property : Property) (hproperty : property ∈ layout.properties)
      (hindex : 0 < property.dimension) :
      ⟨property.type, property.elementOffset 0, property.mask⟩ ∈
        memberParts titled.layout.properties := by
    rw [hlayout]
    exact mem_memberParts.mpr ⟨property, hproperty, mem_parts.mpr ⟨0, hindex, rfl⟩⟩
  have hbuffer : titled.store.handle (.root 8) = .ok (some 1) := by decide +kernel
  have hcount : titled.store.count 1 = .ok 1 := by decide +kernel
  have htag : titled.store.handle (.element 1 0) = .ok (some 2) := by decide +kernel
  have htitle : titled.store.handle (.root 0) = .ok (some 0) := by decide +kernel
  obtain ⟨after, hrun, hfreed, hothers, -, -, -, -, hnext⟩ :=
    Store.release_exact (titled_made.wellFormed catalogue)
      (.root (hmember tags (by simp [layout]) (by decide)))
  have hfirst := ((hfreed 1).mpr ⟨_, _, .here (Or.inr rfl), hbuffer⟩).2
  have hsecond := ((hfreed 2).mpr ⟨_, _, .unit rfl hbuffer hcount
    (mem_elementParts.mpr ⟨0, by decide, rfl⟩) (.here (Or.inl rfl)), htag⟩).2
  have hkept : after.content (.slot 0) = some (.text "a") := by
    refine ((hothers .str (.root 0) 0 ⟨_, hmember title (by simp [layout, title])
      (by decide), .here (Or.inl rfl)⟩ (fun hcell => ?_) htitle).2 (by decide)).trans
        (by decide +kernel)
    cases hcell with
    | part hstorage => cases hstorage
    | unit _ hhandle _ hpart hcell =>
        obtain ⟨index, -, rfl⟩ := mem_elementParts.mp hpart
        have hplace := hcell.of_text
        cases hplace
  refine ⟨after, hrun, hkept, hfirst, hsecond, ?_⟩
  obtain ⟨slot, last, halloc, hfree, hbelow, -⟩ := hnext (.text "c") (by simp)
  have hslot : slot = 1 := by
    by_contra hne
    rcases Nat.lt_or_gt_of_ne hne with hlt | hgt
    · obtain rfl : slot = 0 := by omega
      rw [hkept] at hfree
      cases hfree
    · exact hbelow 1 hgt hfirst
  exact ⟨last, hslot ▸ halloc⟩

end TaggedPawn

end ObjectPackage
