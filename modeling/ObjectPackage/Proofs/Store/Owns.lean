/-
Ownership.  A location owns its value when no slot is owned twice and none of them is
the region it lies in itself.  A run of parts can be taken out, changed by whatever
keeps to it, and put back: the other parts still own what they owned.
-/
import ObjectPackage.Proofs.Store.Holds

namespace ObjectPackage

/-- Parts of resolved types that have no bit in common. -/
structure Spread (parts : List Part) : Prop where
  apart : parts.Pairwise Part.Apart
  resolved : ∀ part ∈ parts, part.type.Resolved
  masked : ∀ part ∈ parts, part.type = .bool → part.mask ≠ 0

namespace Spread

variable {parts more : List Part} {part : Part}

theorem left (h : Spread (parts ++ more)) : Spread parts :=
  ⟨(List.pairwise_append.mp h.apart).1, fun part hpart => h.resolved part (by simp [hpart]),
    fun part hpart => h.masked part (by simp [hpart])⟩

theorem right (h : Spread (parts ++ more)) : Spread more :=
  ⟨(List.pairwise_append.mp h.apart).2.1, fun part hpart => h.resolved part (by simp [hpart]),
    fun part hpart => h.masked part (by simp [hpart])⟩

theorem apart_of_append (h : Spread (parts ++ more)) {other : Part} (hpart : part ∈ parts)
    (hother : other ∈ more) : part.Apart other :=
  (List.pairwise_append.mp h.apart).2.2 part hpart other hother

end Spread

theorem PropertyType.Resolved.spread {type : PropertyType} (h : type.Resolved) :
    Spread type.parts :=
  ⟨h.parts_fitted.apart, fun _ hpart => h.of_mem_parts hpart, h.parts_fitted.masked⟩

theorem PropertyType.Resolved.unit_spread {type : PropertyType} (h : type.Resolved)
    (count : Nat) : Spread (type.unitParts count) :=
  ⟨(h.unitParts_fitted count).apart, fun _ hpart => h.of_mem_unitParts hpart,
    (h.unitParts_fitted count).masked⟩

theorem StructLayout.Built.spread {layout : StructLayout} (h : layout.Built) :
    Spread (memberParts layout.properties) := by
  have hfitted := memberParts_fitted h.arranged
  refine ⟨hfitted.apart, fun part hpart => ?_, hfitted.masked⟩
  obtain ⟨member, hmember, hpart⟩ := mem_memberParts.mp hpart
  obtain ⟨_, _, rfl⟩ := mem_parts.mp hpart
  exact (h.arranged.placed member hmember).resolved

/-- The bits between the ends of a value, inner padding included. -/
def PropertyType.Reached (type : PropertyType) (location : Location) (mask : UInt32)
    (region : Region) (bit : Nat) : Prop :=
  region = location.region ∧ (⟨type, location.offset, mask⟩ : Part).Covers bit

/-- Leaves lie between the ends of a value. -/
theorem PropertyType.reached_of_touched {type : PropertyType} {location : Location}
    {mask : UInt32} {region : Region} {bit : Nat} (hresolved : type.Resolved)
    (h : type.Touched location mask region bit) : type.Reached location mask region bit := by
  obtain ⟨hregion, leaf, hleaf, hlow, hhigh, hmask⟩ := h
  refine ⟨hregion, ?_⟩
  by_cases hinline : type.storage = .inline
  · have hbounds := PropertyType.leaves_bounds hresolved _ _ leaf hleaf
    refine ⟨by simp only; omega, by simp only; omega, ?_⟩
    rintro rfl
    cases hinline
  · rw [PropertyType.leaves_of_ne_inline hinline, List.mem_singleton] at hleaf
    subst hleaf
    exact ⟨hlow, hhigh, hmask⟩

namespace Part

variable {left right : Part} {location : Location} {region : Region} {bit : Nat}

def Reached (location : Location) (part : Part) (region : Region) (bit : Nat) : Prop :=
  part.type.Reached (location.shift part.offset) part.mask region bit

theorem Apart.not_reached (h : left.Apart right) (hbit : left.Reached location region bit) :
    ¬right.Reached location region bit := by
  rintro ⟨-, hlow', hhigh', hmask'⟩
  obtain ⟨-, hlow, hhigh, hmask⟩ := hbit
  simp only [Location.shift] at hlow hhigh hmask hlow' hhigh' hmask'
  rcases h with h | h | ⟨hleft, hright, hoffset, hmasks⟩
  · omega
  · omega
  · rw [← hoffset] at hmask'
    exact not_testBit_of_and_eq_zero hmasks (hmask hleft) (hmask' hright)

theorem reached_of_touched {part : Part} (hresolved : part.type.Resolved)
    (h : part.Touched location region bit) : part.Reached location region bit :=
  PropertyType.reached_of_touched hresolved h

theorem Apart.not_touched (h : left.Apart right) (hleft : left.type.Resolved)
    (hright : right.type.Resolved) (hbit : left.Touched location region bit) :
    ¬right.Touched location region bit :=
  fun hbit' => h.not_reached (reached_of_touched hleft hbit) (reached_of_touched hright hbit')

end Part

/-- The bits of the leaves of some parts. -/
def touchedBy (location : Location) (parts : List Part) (region : Region) (bit : Nat) : Prop :=
  ∃ part ∈ parts, part.Touched location region bit

theorem touchedBy.region {location : Location} {parts : List Part} {region : Region} {bit : Nat}
    (h : touchedBy location parts region bit) : region = location.region :=
  h.choose_spec.2.1

namespace Store

/-- A location holds a value and shares no slot, neither inside the value nor with the
region the location is in. -/
structure Owns (store : Store) (type : PropertyType) (location : Location) (mask : UInt32)
    (value : Value) (slots : List Nat) : Prop where
  holds : store.Holds type location mask value slots
  nodup : slots.Nodup
  apart : ¬location.region.Among slots

structure OwnsAll (store : Store) (location : Location) (parts : List Part)
    (values : List Value) (slots : List Nat) : Prop where
  holds : store.HoldsAll location parts values slots
  nodup : slots.Nodup
  apart : ¬location.region.Among slots

variable {before after : Store} {location : Location} {touched : Region → Nat → Prop}
  {old new : List Nat}

/-- A value that a change does not reach is held as before. -/
theorem Holds.of_change {type : PropertyType} {mask : UInt32} {value : Value} {slots : List Nat}
    (h : before.Holds type location mask value slots) (hchange : before.Change after touched old new)
    (hregion : ¬location.region.Among old)
    (hslots : ∀ slot ∈ slots, slot ∉ old ∧ ∀ bit, ¬touched (.slot slot) bit)
    (hbits : ∀ bit, type.Touched location mask location.region bit →
      ¬touched location.region bit) : after.Holds type location mask value slots := by
  have hnew := hchange.not_among_new hregion h.room.live
  refine h.of_agree (hchange.kept location.region hregion hnew) hbits fun slot hslot => ?_
  obtain ⟨hold, hfree⟩ := hslots slot hslot
  exact hchange.content_eq hold (h.live slot hslot) hfree

/-- Parts that a change does not reach are held as before. -/
theorem HoldsAll.of_change {parts : List Part} {values : List Value} {slots : List Nat}
    (h : before.HoldsAll location parts values slots) (hchange : before.Change after touched old new)
    (hregion : ¬location.region.Among old)
    (hslots : ∀ slot ∈ slots, slot ∉ old ∧ ∀ bit, ¬touched (.slot slot) bit)
    (hbits : ∀ part ∈ parts, ∀ bit, part.Touched location location.region bit →
      ¬touched location.region bit) : after.HoldsAll location parts values slots :=
  h.imp fun part hpart _ _ hsub hfirst => hfirst.of_change hchange hregion
    (fun slot hslot => hslots slot (hsub slot hslot)) (hbits part hpart)

theorem ownsAll_single {part : Part} {values : List Value} {slots : List Nat} :
    before.OwnsAll location [part] values slots ↔ ∃ value, values = [value] ∧
      before.Owns part.type (location.shift part.offset) part.mask value slots := by
  constructor
  · rintro ⟨hholds, hnodup, hapart⟩
    obtain ⟨value, rfl, hvalue⟩ := HoldsAll.single.mp hholds
    exact ⟨value, rfl, hvalue, hnodup, hapart⟩
  · rintro ⟨value, rfl, hholds, hnodup, hapart⟩
    exact ⟨HoldsAll.single.mpr ⟨value, rfl, hholds⟩, hnodup, hapart⟩

/-- When the value in the middle is changed by something that keeps to it, the parts
around it still own what they owned. -/
theorem OwnsAll.replace {left right parts : List Part} {front back inner : List Value}
    {first owned owned' last : List Nat} (hfirst : before.HoldsAll location left front first)
    (hlast : before.HoldsAll location right back last)
    (hnodup : (first ++ owned ++ last).Nodup)
    (hapart : ¬location.region.Among (first ++ owned ++ last))
    (hafter : after.OwnsAll location parts inner owned')
    (hchange : before.Change after touched owned owned')
    (hregion : ∀ region bit, touched region bit → region = location.region)
    (hbits : ∀ part ∈ left ++ right, ∀ bit, part.Touched location location.region bit →
      ¬touched location.region bit) :
    after.HoldsAll location left front first ∧ after.HoldsAll location right back last ∧
      after.OwnsAll location (left ++ parts ++ right) (front ++ inner ++ back)
        (first ++ owned' ++ last) := by
  simp only [Region.among_append, not_or] at hapart
  obtain ⟨⟨hapartFirst, hapartOwned⟩, hapartLast⟩ := hapart
  obtain ⟨hnodupFront, hnodupLast, hdisjointLast⟩ := List.nodup_append.mp hnodup
  obtain ⟨hnodupFirst, hnodupOwned, hdisjointFirst⟩ := List.nodup_append.mp hnodupFront
  have hfree {slots : List Nat} (hslots : ¬location.region.Among slots) :
      ∀ slot ∈ slots, ∀ bit, ¬touched (.slot slot) bit :=
    fun slot hslot bit hbit => hslots ⟨slot, hslot, (hregion _ _ hbit).symm⟩
  have hfirst' := hfirst.of_change hchange hapartOwned
    (fun slot hslot => ⟨fun hmem => hdisjointFirst slot hslot slot hmem rfl,
      hfree hapartFirst slot hslot⟩) fun part hpart => hbits part (by simp [hpart])
  have hlast' := hlast.of_change hchange hapartOwned
    (fun slot hslot => ⟨fun hmem => hdisjointLast slot (by simp [hmem]) slot hslot rfl,
      hfree hapartLast slot hslot⟩) fun part hpart => hbits part (by simp [hpart])
  -- slots that were taken were free, so no other part owns them
  have hnew : ∀ slot ∈ owned', slot ∉ first ∧ slot ∉ last := by
    intro slot hslot
    refine ⟨fun hmem => ?_, fun hmem => ?_⟩
    · exact hfirst.live slot hmem (hchange.fresh slot hslot fun hold =>
        hdisjointFirst slot hmem slot hold rfl)
    · exact hlast.live slot hmem (hchange.fresh slot hslot fun hold =>
        hdisjointLast slot (by simp [hold]) slot hmem rfl)
  refine ⟨hfirst', hlast', (hfirst'.append hafter.holds).append hlast', ?_, ?_⟩
  · refine List.nodup_append.mpr ⟨List.nodup_append.mpr ⟨hnodupFirst, hafter.nodup, ?_⟩,
      hnodupLast, ?_⟩
    · rintro slot hslot other hother rfl
      exact (hnew slot hother).1 hslot
    · rintro slot hslot other hother rfl
      rcases List.mem_append.mp hslot with hslot | hslot
      · exact hdisjointLast slot (by simp [hslot]) slot hother rfl
      · exact (hnew slot hslot).2 hother
  · simp only [Region.among_append, not_or]
    exact ⟨⟨hapartFirst, hafter.apart⟩, hapartLast⟩

end Store

end ObjectPackage
