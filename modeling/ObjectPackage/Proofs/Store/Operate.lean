/-
The operations on values in terms of parts.  What an operation does to a struct or a
fixed array is what it does to each part in turn, and likewise for the buffer of a
container, so that statements about operations are proved for five ways of storing a
value and not for twelve types.
-/
import ObjectPackage.Proofs.Layout.Parts
import ObjectPackage.Store.Payload

namespace ObjectPackage

namespace PropertyType

section Traverse

variable {m : Type → Type} [Monad m] [LawfulMonad m]

theorem forM_memberParts {action : Part → m Unit} {run : List Property → m Unit}
    (hnil : run [] = pure ())
    (hcons : ∀ member rest, run (member :: rest) = do
      forIndices member.dimension fun index =>
        action ⟨member.type, member.elementOffset index, member.mask⟩
      run rest) (members : List Property) :
    run members = (memberParts members).forM action := by
  induction members with
  | nil => exact hnil
  | cons member rest ih =>
      rw [hcons, ih, memberParts_cons]
      simp [forIndices, Property.parts]

theorem forM_elementParts (element : PropertyType) (count : Nat) (action : Part → m Unit) :
    (forIndices count fun index => action ⟨element, index * element.pitch, elementMask⟩) =
      (elementParts element count).forM action := by
  simp [forIndices, elementParts]

theorem forM_entryParts (key value : PropertyType) (count : Nat) (action : Part → m Unit) :
    (forIndices count fun index => do
      action ⟨key, index * key.entryPitch value, elementMask⟩
      action ⟨value, index * key.entryPitch value + key.entryValueOffset value, elementMask⟩) =
      (entryParts key value count).forM action := by
  rw [entryParts, forIndices]
  induction List.range count with
  | nil => rfl
  | cons index rest ih =>
      simp only [List.forM_eq_forM] at ih
      simp [entryPair, ih]

end Traverse

@[simp]
theorem Location.element_shift (slot offset : Nat) :
    (Location.element slot 0).shift offset = .element slot offset := by
  simp [Location.element, Location.shift]

section Equations

variable (location : Location) (mask : UInt32)

theorem construct_struct (layout : StructLayout) :
    construct location mask (.struct layout) =
      (Update.zero location layout.size >>= fun _ => (memberParts layout.properties).forM fun part =>
        construct (location.shift part.offset) part.mask part.type) := by
  obtain ⟨_, _, properties, _, _, size, _⟩ := layout
  rw [construct, @forM_memberParts _ _ _ (fun part =>
    construct (location.shift part.offset) part.mask part.type) (constructMembers location)]
  · rfl
  · rintro ⟨_, _, _, _, _, _, _, _⟩ rest
    rfl

theorem construct_fixedArray (element : PropertyType) (count : Nat) :
    construct location mask (.fixedArray element count) =
      (elementParts element count).forM fun part =>
        construct (location.shift part.offset) part.mask part.type := by
  rw [← forM_elementParts, construct]

theorem construct_zero {type : PropertyType} (hinline : type.storage ≠ .inline)
    (hbool : type ≠ .bool) : construct location mask type = Update.zero location type.size := by
  cases type with
  | bool => exact absurd rfl hbool
  | struct layout => exact absurd rfl hinline
  | fixedArray element count => exact absurd rfl hinline
  | _ => rfl

theorem release_scalar {type : PropertyType} (h : type.storage = .scalar) :
    release location mask type = Update.zero location type.size := by
  cases type <;> first | rfl | cases h

theorem release_inline {type : PropertyType} (h : type.storage = .inline) :
    release location mask type = type.parts.forM fun part =>
      release (location.shift part.offset) part.mask part.type := by
  cases type with
  | struct layout =>
      obtain ⟨_, _, properties, _, _, size, _⟩ := layout
      rw [release, @forM_memberParts _ _ _ (fun part =>
        release (location.shift part.offset) part.mask part.type) (releaseMembers location)]
      · rfl
      · rfl
      · rintro ⟨_, _, _, _, _, _, _, _⟩ rest
        rfl
  | fixedArray element count => rw [parts, ← forM_elementParts, release]
  | _ => cases h

theorem release_container {type : PropertyType} (h : type.storage = .container) :
    release location mask type = (do
      match ← Update.fetch fun store => store.container? location with
      | none => pure ()
      | some (slot, count) =>
          (type.unitParts count).forM fun part =>
            release (.element slot part.offset) part.mask part.type
          Update.free slot
      Update.setHandle location none) := by
  cases type with
  | array element =>
      rw [release]
      simp only [unitParts, ← forM_elementParts] <;> rfl
  | map key value =>
      rw [release]
      simp only [unitParts, ← forM_entryParts] <;> rfl
  | _ => cases h

variable (source : Store) (origin : Location)

theorem copy_scalar {type : PropertyType} (h : type.storage = .scalar) :
    copy source origin location mask type =
      (Update.fetch (fun _ => source.bytes origin type.size) >>= Update.write location) := by
  cases type <;> first | rfl | cases h

theorem copy_inline {type : PropertyType} (h : type.storage = .inline) :
    copy source origin location mask type = type.parts.forM fun part =>
      copy source (origin.shift part.offset) (location.shift part.offset) part.mask part.type := by
  cases type with
  | struct layout =>
      obtain ⟨_, _, properties, _, _, size, _⟩ := layout
      rw [copy, @forM_memberParts _ _ _ (fun part =>
        copy source (origin.shift part.offset) (location.shift part.offset) part.mask part.type)
        (copyMembers source origin location)]
      · rfl
      · rfl
      · rintro ⟨_, _, _, _, _, _, _, _⟩ rest
        rfl
  | fixedArray element count => rw [parts, ← forM_elementParts, copy]
  | _ => cases h

theorem copy_container {type : PropertyType} (h : type.storage = .container) :
    copy source origin location mask type = (do
      match ← Update.fetch fun _ => source.container? origin with
      | none => Update.setHandle location none
      | some (old, count) =>
          let slot ← Update.ownElements location count type.unitPitch
          (type.unitParts count).forM fun part =>
            copy source (.element old part.offset) (.element slot part.offset) part.mask
              part.type) := by
  cases type with
  | array element =>
      rw [copy]
      simp only [unitParts, unitPitch, ← forM_elementParts] <;> rfl
  | map key value =>
      rw [copy]
      simp only [unitParts, unitPitch, ← forM_entryParts] <;> rfl
  | _ => cases h

variable (package : Package)

theorem load_inline {type : PropertyType} (h : type.storage = .inline) :
    load package location mask type = type.parts.forM fun part =>
      load package (location.shift part.offset) part.mask part.type := by
  cases type with
  | struct layout =>
      obtain ⟨_, _, properties, _, _, size, _⟩ := layout
      rw [load, @forM_memberParts _ _ _ (fun part =>
        load package (location.shift part.offset) part.mask part.type)
        (loadMembers package location)]
      · rfl
      · rfl
      · rintro ⟨_, _, _, _, _, _, _, _⟩ rest
        rfl
  | fixedArray element count => rw [parts, ← forM_elementParts, load]
  | _ => cases h

theorem load_container {type : PropertyType} (h : type.storage = .container) :
    load package location mask type = (do
      let count ← Load.count
      Load.update (release location mask type)
      let slot ← Load.update (Update.ownElements location count type.unitPitch)
      (type.unitParts count).forM fun part =>
        load package (.element slot part.offset) part.mask part.type) := by
  cases type with
  | array element =>
      rw [load]
      simp only [unitParts, unitPitch, ← forM_elementParts]
  | map key value =>
      rw [load]
      simp only [unitParts, unitPitch, ← forM_entryParts]
  | _ => cases h

end Equations

end PropertyType

end ObjectPackage
