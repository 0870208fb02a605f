/-
Loading is local.  The bytes that a value is loaded from leave the same store behind at any
other place of a stream, as long as there are no fewer bytes after them.
-/
import ObjectPackage.Proofs.Store.Load
import ObjectPackage.Proofs.Stream.Relocate

namespace ObjectPackage

variable {α β : Type}

namespace Decoder

theorem relocates_read {action : Read α} (h : Relocates action action) :
    Relocates (read action) (read action) := by
  intro cursor value next hrun
  rw [runFrom_read] at hrun
  split at hrun
  · next result last hinner =>
      obtain ⟨hvalue, rfl⟩ := Prod.mk.inj hrun
      obtain rfl := Except.ok.inj hvalue
      obtain ⟨used, hused, hpos, hother⟩ := h hinner
      refine ⟨used, hused, hpos, fun pos rest hrest => ?_⟩
      rw [runFrom_read, hother pos rest hrest]
  · cases hrun

/-- A count that is accepted is accepted before more bytes, too. -/
theorem relocates_count : Relocates count count := by
  refine (relocates_read Read.relocates_index).bind fun found => ?_
  intro cursor value next hrun
  simp only [runFrom_bind, runFrom_get] at hrun
  split at hrun
  · cases hrun
  · next henough =>
      obtain ⟨hvalue, rfl⟩ := Prod.mk.inj hrun
      refine ⟨[], rfl, rfl, fun pos rest hrest => ?_⟩
      have henough' : ¬(found.toInt < 0 ∨
          (rest.take found.toInt.toNat).length < found.toInt.toNat) := by
        rw [List.length_take] at henough ⊢
        omega
      simp only [runFrom_bind, runFrom_get, List.nil_append, if_neg henough']
      rw [← hvalue]
      rfl

end Decoder

namespace PropertyType

variable {package : Package}

theorem relocates_decodeAll {types : List PropertyType}
    (h : ∀ type ∈ types, Relocates (type.decode package) (type.decode package)) :
    Relocates (decodeAll package types) (decodeAll package types) := by
  induction types with
  | nil => exact .pure []
  | cons type types ih =>
      obtain ⟨hfirst, hrest⟩ := List.forall_mem_cons.mp h
      exact hfirst.bind fun value => (ih hrest).map _

/-- A value is the same value at another place. -/
theorem relocates_decode (package : Package) (type : PropertyType) :
    Relocates (type.decode package) (type.decode package) := by
  induction type using PropertyType.induction_on with
  | scalar type hstorage =>
      cases type with
      | byte => exact (Decoder.relocates_read Read.relocates_u8).map _
      | int => exact (Decoder.relocates_read Read.relocates_u32).map _
      | float => exact (Decoder.relocates_read Read.relocates_u32).map _
      | name => exact (Decoder.relocates_read (Read.relocates_name _)).map _
      | object _ => exact (Decoder.relocates_read (Read.relocates_handle _)).map _
      | classRef _ => exact (Decoder.relocates_read (Read.relocates_handle _)).map _
      | _ => cases hstorage
  | bits => exact (Decoder.relocates_read Read.relocates_u8).map _
  | text => exact (Decoder.relocates_read Read.relocates_string).map _
  | inline type hstorage ih =>
      rw [decode_inline hstorage]
      refine (relocates_decodeAll fun inner hinner => ?_).map _
      obtain ⟨part, hpart, rfl⟩ := List.mem_map.mp hinner
      exact ih part hpart
  | container type hstorage ih =>
      rw [decode_container hstorage]
      refine Decoder.relocates_count.bind fun count => (relocates_decodeAll fun inner hinner => ?_).map _
      obtain ⟨part, hpart, rfl⟩ := List.mem_map.mp hinner
      exact ih count part hpart

end PropertyType

namespace Load

/-- An action on a store as a decoder that makes a store, too. -/
def upon (store : Store) (action : Load α) : Decoder (α × Store) := fun cursor =>
  match runFrom ⟨store, cursor⟩ action with
  | (.ok value, after) => (.ok (value, after.store), after.cursor)
  | (.error error, after) => (.error error, after.cursor)

theorem runFrom_upon (store : Store) (action : Load α) (cursor : Cursor) :
    runFrom cursor (upon store action) =
      match runFrom ⟨store, cursor⟩ action with
      | (.ok value, after) => (.ok (value, after.store), after.cursor)
      | (.error error, after) => (.error error, after.cursor) := rfl

theorem runFrom_upon_eq_ok {store after : Store} {action : Load α} {cursor next : Cursor}
    {value : α} : runFrom cursor (upon store action) = (.ok (value, after), next) ↔
      runFrom ⟨store, cursor⟩ action = (.ok value, ⟨after, next⟩) := by
  rw [runFrom_upon]
  cases runFrom ⟨store, cursor⟩ action with
  | mk result last =>
      obtain ⟨store', cursor'⟩ := last
      cases result <;> simp [and_assoc]

/-- Wherever the bytes stand, the store comes to the same. -/
def Local (action : Load α) : Prop :=
  ∀ store, Relocates (upon store action) (upon store action)

namespace Local

theorem pure (value : α) : Local (Pure.pure value) := fun store =>
  Relocates.pure (value, store)

theorem fail (error : PropertyError) : Local (throw error : Load α) := fun _ =>
  Relocates.throw error

theorem bind {action : Load α} {next : α → Load β} (h : Local action)
    (hnext : ∀ value, Local (next value)) : Local (action >>= next) := by
  intro store
  have hupon : upon store (action >>= next) =
      upon store action >>= fun found => upon found.2 (next found.1) := by
    refine runFrom_ext fun cursor => ?_
    rw [runFrom_upon, runFrom_bind, runFrom_bind, runFrom_upon]
    cases runFrom ⟨store, cursor⟩ action with
    | mk result middle => cases result <;> rfl
  rw [hupon]
  exact (h store).bind fun found => hnext found.1 found.2

theorem of_mirrors {action : Load α} {decoder : Decoder α} (hmirrors : Mirrors action decoder)
    (h : Relocates decoder decoder) : Local action := by
  intro store
  have hupon : upon store action = (·, store) <$> decoder := by
    refine runFrom_ext fun cursor => ?_
    rw [runFrom_upon, hmirrors, runFrom_map]
    cases runFrom cursor decoder with
    | mk result next => cases result <;> rfl
  rw [hupon]
  exact h.map _

theorem read {action : Read α} (h : Relocates action action) : Local (read action) :=
  of_mirrors (mirrors_read action) (Decoder.relocates_read h)

theorem update (action : Update α) : Local (update action) := by
  intro store
  have hrun (cursor : Cursor) : runFrom ⟨store, cursor⟩ (Load.update action) =
      ((runFrom store action).1, ⟨(runFrom store action).2, cursor⟩) := by
    obtain ⟨after, hafter, hstore, hcursor⟩ := lifts_update action ⟨store, cursor⟩
    obtain ⟨store', cursor'⟩ := after
    obtain rfl : store' = _ := hstore
    obtain rfl : cursor' = cursor := hcursor
    exact hafter
  have hupon : upon store (Load.update action) = match runFrom store action with
      | (.ok value, after) => Pure.pure (value, after)
      | (.error error, _) => MonadExcept.throw error := by
    refine runFrom_ext fun cursor => ?_
    rw [runFrom_upon, hrun]
    cases runFrom store action with
    | mk result after => cases result <;> rfl
  rw [hupon]
  cases runFrom store action with
  | mk result after =>
      cases result with
      | ok value => exact .pure _
      | error error => exact .throw _

theorem forM {γ : Type} {items : List γ} {action : γ → Load PUnit}
    (h : ∀ item ∈ items, Local (action item)) : Local (items.forM action) := by
  induction items with
  | nil => exact .pure _
  | cons item items ih =>
      obtain ⟨hfirst, hrest⟩ := List.forall_mem_cons.mp h
      exact hfirst.bind fun _ => ih hrest

end Local

end Load

/-- A value that was loaded is loaded from its bytes anywhere. -/
theorem PropertyType.load_local (package : Package) (location : Location) (mask : UInt32)
    (type : PropertyType) : (load package location mask type).Local := by
  induction type using PropertyType.induction_on generalizing location mask with
  | scalar type hstorage =>
      have hword {β : Type} {action : Read β} (h : Relocates action action)
          (next : β → Update Unit) :
          (Load.read action >>= fun found => Load.update (next found)).Local :=
        (Load.Local.read h).bind fun _ => .update _
      cases type with
      | byte => exact hword Read.relocates_u8 _
      | int => exact hword Read.relocates_u32 _
      | float => exact hword Read.relocates_u32 _
      | name => exact hword (Read.relocates_name _) _
      | object _ => exact hword (Read.relocates_handle _) _
      | classRef _ => exact hword (Read.relocates_handle _) _
      | _ => cases hstorage
  | bits => exact (Load.Local.read Read.relocates_u8).bind fun _ => .update _
  | text =>
      exact (Load.Local.read Read.relocates_string).bind fun _ =>
        (Load.Local.update _).bind fun _ => .update _
  | inline type hstorage ih =>
      rw [load_inline _ _ _ hstorage]
      exact .forM fun part hpart => ih part hpart _ _
  | container type hstorage ih =>
      rw [load_container _ _ _ hstorage]
      exact (Load.Local.of_mirrors Load.mirrors_count Decoder.relocates_count).bind fun count =>
        (Load.Local.update _).bind fun _ => (Load.Local.update _).bind fun _ =>
          .forM fun part hpart => ih count part hpart _ _

end ObjectPackage
