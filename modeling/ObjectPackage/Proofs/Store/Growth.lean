/-
Growth of heaps.  A copy takes as many slots as the value it copies, and a load takes at most
one slot for each byte that it uses up, so the slots of a block are bounded by the bytes of
the streams that it came from.
-/
import ObjectPackage.Proofs.Store.Lifecycle
import ObjectPackage.Proofs.Store.Relocate
import ObjectPackage.Proofs.Tagged.Entry

namespace ObjectPackage

variable {σ α β : Type} {view : σ → Store} {input : σ → Nat} {credit left more : Nat}

/-- Each new slot is paid for with a unit of the input or of the credit.  Where the action
succeeds, this much is left over. -/
def Pays (view : σ → Store) (input : σ → Nat) (action : ExceptT PropertyError (StateM σ) α)
    (credit left : Nat) : Prop :=
  ∀ ⦃state outcome after⦄, runFrom state action = (outcome, after) →
    (view after).heap.size ≤ (view state).heap.size + input state + credit ∧
      ∀ value, outcome = .ok value →
        (view after).heap.size + input after + left ≤
          (view state).heap.size + input state + credit

namespace Pays

variable {action : ExceptT PropertyError (StateM σ) α}

theorem pure (value : α) : Pays view input (Pure.pure value) credit credit := by
  intro state outcome after hrun
  obtain ⟨rfl, rfl⟩ := Prod.mk.inj hrun
  exact ⟨by omega, fun _ _ => Nat.le_refl _⟩

theorem throw (error : PropertyError) :
    Pays view input (throw error : ExceptT PropertyError (StateM σ) α) credit left := by
  intro state outcome after hrun
  obtain ⟨rfl, rfl⟩ := Prod.mk.inj hrun
  exact ⟨by omega, nofun⟩

/-- What the first action leaves over pays for the second. -/
theorem bind {next : α → ExceptT PropertyError (StateM σ) β}
    (h : Pays view input action credit left) (hnext : ∀ value, Pays view input (next value) left more) :
    Pays view input (action >>= next) credit more := by
  intro state outcome after hrun
  rcases runFrom_bind_cases hrun with ⟨error, rfl, hfirst⟩ | ⟨value, middle, hfirst, hlast⟩
  · exact ⟨(h hfirst).1, nofun⟩
  · have hmiddle := (h hfirst).2 value rfl
    obtain ⟨hsize, hleft⟩ := hnext value hlast
    refine ⟨by omega, fun result hresult => ?_⟩
    have hresult := hleft result hresult
    omega

/-- Credit that is not needed is left over. -/
theorem frame (h : Pays view input action credit left) (more : Nat) :
    Pays view input action (credit + more) (left + more) := by
  intro state outcome after hrun
  obtain ⟨hsize, hleft⟩ := h hrun
  refine ⟨by omega, fun value hvalue => ?_⟩
  have hvalue := hleft value hvalue
  omega

theorem mono (h : Pays view input action credit left) (hle : credit ≤ more) :
    Pays view input action more left := by
  intro state outcome after hrun
  obtain ⟨hsize, hleft⟩ := h hrun
  refine ⟨by omega, fun value hvalue => ?_⟩
  have hvalue := hleft value hvalue
  omega

theorem forM {items : List β} {action : β → ExceptT PropertyError (StateM σ) Unit}
    (h : ∀ item ∈ items, Pays view input (action item) credit credit) :
    Pays view input (items.forM action) credit credit := by
  induction items with
  | nil => exact pure ()
  | cons item rest ih =>
      exact (h item List.mem_cons_self).bind fun _ =>
        ih fun item hitem => h item (List.mem_cons_of_mem _ hitem)

/-- Another error may be reported when an action fails. -/
theorem recast {report : PropertyError → PropertyError} (h : Pays view input action credit left) :
    Pays view input (tryCatch action fun error => MonadExcept.throw (report error)) credit left := by
  intro state outcome after hrun
  rw [runFrom_tryCatch] at hrun
  split at hrun
  · next value middle hfirst =>
      obtain ⟨rfl, rfl⟩ := Prod.mk.inj hrun
      exact h hfirst
  · next error middle hfirst =>
      obtain ⟨rfl, rfl⟩ := Prod.mk.inj hrun
      exact ⟨(h hfirst).1, nofun⟩

end Pays

namespace Update

/-- An update has no input to pay with. -/
def Buys (action : Update α) (credit left : Nat) : Prop :=
  Pays id (fun _ => 0) action credit left

namespace Buys

/-- An update that leaves the size of the heap alone. -/
theorem of_size {action : Update α}
    (h : ∀ store, (runFrom store action).2.heap.size = store.heap.size) :
    Buys action credit credit := by
  intro store outcome after hrun
  have hsize : after.heap.size = store.heap.size := by
    rw [← h store, hrun]
  exact ⟨by simp only [id]; omega, fun _ _ => by simp only [id]; omega⟩

theorem fetch (query : Store → Except PropertyError α) : Buys (Update.fetch query) credit credit :=
  .of_size fun store => by rw [runFrom_fetch]

theorem write (location : Location) (piece : List UInt8) :
    Buys (Update.write location piece) credit credit := by
  refine Pays.bind ((fetch _).bind fun _ => .pure _) fun _ => of_size ?_
  rintro ⟨root, heap⟩
  simp only [runFrom_modify, Store.overwrite]
  split
  · rfl
  · simp

theorem setBool (location : Location) (mask : UInt32) (value : Bool) :
    Buys (Update.setBool location mask value) credit credit :=
  (fetch _).bind fun _ => write location _

theorem setHandle (location : Location) (handle : Option Nat) :
    Buys (Update.setHandle location handle) credit credit := by
  cases handle <;> exact write location _

theorem free (slot : Nat) : Buys (Update.free slot) credit credit :=
  .of_size fun ⟨root, heap⟩ => by simp [Update.free, Store.free]

theorem alloc (value : HeapValue) : Buys (Update.alloc value) (credit + 1) credit := by
  rintro ⟨root, heap⟩ outcome after hrun
  simp only [Update.alloc, runFrom_bind, runFrom_get, runFrom_modify, runFrom_pure,
    Store.setSlot] at hrun
  obtain ⟨-, rfl⟩ := Prod.mk.inj hrun
  have hsize : (if Store.freeSlot ⟨root, heap⟩ = heap.size then heap.push value
      else heap.setIfInBounds (Store.freeSlot ⟨root, heap⟩) value).size ≤ heap.size + 1 := by
    split <;> simp
  simp only [id]
  exact ⟨by omega, fun _ _ => by omega⟩

theorem ownText (location : Location) (text : String) :
    Buys (Update.ownText location text) (credit + 1) credit := by
  rw [Update.ownText]
  split
  · exact (setHandle location none).mono (Nat.le_succ credit)
  · exact (alloc _).bind fun slot => setHandle location (some slot)

theorem ownElements (location : Location) (count pitch : Nat) :
    Buys (Update.ownElements location count pitch) (credit + 1) credit :=
  (alloc _).bind fun slot => (setHandle location (some slot)).bind fun _ => .pure slot

end Buys

end Update

namespace PropertyType

open Update

variable {source : Store} {type : PropertyType} {location origin : Location} {mask : UInt32}

theorem release_buys (location : Location) (mask : UInt32) (type : PropertyType) :
    Buys (release location mask type) credit credit := by
  induction type using PropertyType.induction_on generalizing location mask with
  | scalar type hstorage =>
      rw [release_scalar _ _ hstorage]
      exact .write _ _
  | bits => exact .setBool _ _ _
  | text =>
      rw [release]
      refine (Buys.fetch _).bind fun handle => ?_
      cases handle with
      | none => exact Buys.setHandle _ _
      | some slot => exact (Buys.free slot).bind fun _ => Buys.setHandle _ _
  | inline type hstorage ih =>
      rw [release_inline _ _ hstorage]
      exact .forM fun part hpart => ih part hpart _ _
  | container type hstorage ih =>
      rw [release_container _ _ hstorage]
      refine (Buys.fetch _).bind fun found => ?_
      cases found with
      | none => exact Buys.setHandle _ _
      | some pair =>
          exact (Pays.forM fun part hpart => ih pair.2 part hpart _ _).bind fun _ =>
            (Buys.free _).bind fun _ => Buys.setHandle _ _

theorem construct_buys (location : Location) (mask : UInt32) (type : PropertyType) :
    Buys (construct location mask type) credit credit := by
  induction type using PropertyType.induction_on generalizing location mask with
  | scalar type hstorage =>
      rw [construct_zero _ _ (by simp [hstorage]) (by rintro rfl; cases hstorage)]
      exact .write _ _
  | bits => exact .setBool _ _ _
  | text =>
      rw [construct_zero _ _ (show storage .str ≠ .inline by decide) (by simp)]
      exact .write _ _
  | inline type hstorage ih =>
      have hparts : Buys (type.parts.forM fun part =>
          construct (location.shift part.offset) part.mask part.type) credit credit :=
        .forM fun part hpart => ih part hpart _ _
      cases type with
      | struct layout =>
          rw [construct_struct]
          exact (Buys.write _ _).bind fun _ => hparts
      | fixedArray element count =>
          rw [construct_fixedArray]
          exact hparts
      | _ => cases hstorage
  | container type hstorage _ =>
      rw [construct_zero _ _ (by simp [hstorage]) (by rintro rfl; cases hstorage)]
      exact .write _ _

end PropertyType

/-- Items are copied for the slots of their parts. -/
theorem Store.HoldsAll.buys {δ : Type} {part : δ → Part} {source : Store} {origin : Location}
    {action : δ → Update Unit} {items : List δ} {values : List Value} {slots : List Nat}
    (h : source.HoldsAll origin (items.map part) values slots)
    (hcopy : ∀ item ∈ items, ∀ value first, source.Holds (part item).type
      (origin.shift (part item).offset) (part item).mask value first →
        Update.Buys (action item) first.length 0) :
    Update.Buys (items.forM action) slots.length 0 := by
  induction items generalizing values slots with
  | nil =>
      cases h
      exact .pure ()
  | cons item items ih =>
      cases h with
      | @cons _ _ _ value values first rest hfirst hrest =>
          -- the credit for the slots of later items is put aside
          have hitem := (hcopy item List.mem_cons_self value first hfirst).frame rest.length
          rw [Nat.zero_add, ← List.length_append] at hitem
          exact hitem.bind fun _ =>
            ih hrest fun item hitem => hcopy item (List.mem_cons_of_mem _ hitem)

/-- A copy of a value takes as many slots as the value. -/
theorem PropertyType.copy_buys {source : Store} {type : PropertyType} {origin : Location}
    {mask : UInt32} {value : Value} {held : List Nat}
    (h : source.Holds type origin mask value held) (location : Location) :
    Update.Buys (copy source origin location mask type) held.length 0 := by
  induction type using PropertyType.induction_on generalizing origin location mask value held with
  | scalar type hstorage =>
      obtain ⟨piece, -, -, rfl⟩ := (Store.holds_scalar hstorage).mp h
      rw [copy_scalar _ _ _ _ hstorage]
      exact (Update.Buys.fetch _).bind fun _ => Update.Buys.write _ _
  | bits =>
      obtain ⟨set, -, -, rfl⟩ := Store.holds_bool.mp h
      exact (Update.Buys.fetch _).bind fun _ => Update.Buys.setBool _ _ _
  | text =>
      rw [copy]
      rcases Store.holds_str.mp h with ⟨hhandle, -, rfl⟩ | ⟨slot, text, hhandle, hcontent, -, rfl⟩
      · rw [hhandle, Update.fetch_ok, pure_bind]
        exact .setHandle _ _
      · rw [hhandle, Update.fetch_ok, pure_bind]
        exact (Update.Buys.fetch _).bind fun text =>
          (Update.Buys.alloc _).bind fun slot => Update.Buys.setHandle _ _
  | inline type hstorage ih =>
      obtain ⟨-, values, -, hparts⟩ := (Store.holds_inline hstorage).mp h
      rw [copy_inline _ _ _ _ hstorage]
      rw [← List.map_id' type.parts] at hparts
      exact hparts.buys fun part hpart value first hfirst => ih part hpart hfirst _
  | container type hstorage ih =>
      rw [copy_container _ _ _ _ hstorage]
      rcases (Store.holds_container hstorage).mp h with ⟨hhandle, -, rfl⟩ |
        ⟨old, count, values, inner, hbuffer, hunits, -, rfl⟩
      · rw [Store.container?_none hhandle, Update.fetch_ok, pure_bind]
        exact .setHandle _ _
      · rw [hbuffer.container?, Update.fetch_ok, pure_bind]
        refine (Update.Buys.ownElements _ _ _).bind fun slot => ?_
        rw [← List.map_id' (type.unitParts count)] at hunits
        refine hunits.buys fun part hpart value first hfirst => ?_
        rw [Location.element_shift] at hfirst
        exact ih count part hpart hfirst _

/-- Slots that are owned are places of the heap, each owned once. -/
theorem Store.OwnsAll.length_le {store : Store} {location : Location} {parts : List Part}
    {values : List Value} {slots : List Nat} (h : store.OwnsAll location parts values slots) :
    slots.length ≤ store.heap.size := by
  have hsub : slots ⊆ List.range store.heap.size := by
    intro slot hslot
    have hlive := h.holds.live slot hslot
    rw [Store.content] at hlive
    rw [List.mem_range]
    by_contra hout
    rw [Array.getElem?_eq_none (Nat.le_of_not_lt hout)] at hlive
    exact hlive rfl
  have hlength := (h.nodup.subperm hsub).length_le
  rwa [List.length_range] at hlength

theorem Read.uses_string : Read.string.Uses 1 := by
  refine uses_position.bind fun start => uses_index.bind fun length => show Uses _ 0 from ?_
  dsimp only
  split
  · exact .pure _
  · split
    · refine ((uses_bytes _).mono (Nat.zero_le _)).bind fun text => show Uses _ 0 from ?_
      split
      · exact .pure _
      · exact .throw _
    · refine ((uses_units _).mono (Nat.zero_le _)).bind fun text => show Uses _ 0 from ?_
      split
      · split
        · exact .pure _
        · exact .throw _
      · exact .throw _

namespace Load

/-- A load pays with the bytes of its stream. -/
def Spends (action : Load α) (credit left : Nat) : Prop :=
  Pays Filling.store (fun state => state.cursor.rest.length) action credit left

theorem get_spends : Spends (get : Load Filling) credit credit := by
  intro state outcome after hrun
  obtain ⟨rfl, rfl⟩ := Prod.mk.inj hrun
  exact ⟨by omega, fun _ _ => Nat.le_refl _⟩

namespace Spends

/-- A reader leaves the heap alone, and the bytes that it uses up are left over as credit. -/
theorem of_mirrors {action : Load α} {decoder : Decoder α} (hmirrors : Mirrors action decoder)
    {count : Nat} (h : ∀ cursor value next, runFrom cursor decoder = (.ok value, next) →
      next.rest.length + count ≤ cursor.rest.length) :
    Spends action credit (credit + count) := by
  intro state outcome after hrun
  rw [hmirrors] at hrun
  cases hdecoder : runFrom state.cursor decoder with
  | mk result next =>
      rw [hdecoder] at hrun
      obtain ⟨rfl, rfl⟩ := Prod.mk.inj hrun
      refine ⟨by dsimp only; omega, fun value hvalue => ?_⟩
      have hcount := h state.cursor value next (hvalue ▸ hdecoder)
      dsimp only
      omega

theorem read {action : Read α} {count : Nat} (h : action.Uses count) :
    Spends (Load.read action) credit (credit + count) := by
  refine .of_mirrors (mirrors_read action) fun cursor value next hrun => ?_
  rw [Decoder.runFrom_read] at hrun
  split at hrun
  · next found last hinner =>
      obtain ⟨-, rfl⟩ := Prod.mk.inj hrun
      exact h cursor found last hinner
  · cases hrun

theorem scan {action : Read α} (h : Relocates action action) :
    Spends (Load.read action) credit credit := by
  have huses : action.Uses 0 := fun _ _ _ hrun => h.length_le hrun
  exact read huses

/-- The count of a container takes a byte. -/
theorem count : Spends Load.count credit (credit + 1) := by
  refine (read Read.uses_index).bind fun found => get_spends.bind fun state => ?_
  dsimp only
  split
  · exact .throw _
  · exact .pure _

theorem update {action : Update α} (h : Update.Buys action credit left) :
    Spends (Load.update action) credit left := by
  intro state outcome after hrun
  obtain ⟨last, hlast, hstore, hcursor⟩ := lifts_update action state
  obtain ⟨rfl, rfl⟩ := Prod.mk.inj (hlast.symm.trans hrun)
  obtain ⟨hsize, hleft⟩ := h (rfl : runFrom state.store action = _)
  simp only [id] at hsize hleft
  simp only [hstore, hcursor]
  change (runFrom state.store action).2.heap.size ≤ _ at hsize
  refine ⟨by omega, fun value hvalue => ?_⟩
  have hvalue : (runFrom state.store action).2.heap.size + 0 + left ≤ _ := hleft value hvalue
  omega

end Spends

end Load

/-- Loading takes at most one slot for each byte. -/
theorem PropertyType.load_spends (package : Package) (location : Location) (mask : UInt32)
    (type : PropertyType) : (load package location mask type).Spends 0 0 := by
  induction type using PropertyType.induction_on generalizing location mask with
  | scalar type hstorage =>
      have hword {β : Type} {action : Read β} (h : Relocates action action) (target : Location)
          (piece : β → List UInt8) :
          (Load.read action >>= fun found =>
            Load.update (Update.write target (piece found))).Spends 0 0 :=
        (Load.Spends.scan h).bind fun _ => Load.Spends.update (.write _ _)
      cases type with
      | byte => exact hword Read.relocates_u8 _ _
      | int => exact hword Read.relocates_u32 _ _
      | float => exact hword Read.relocates_u32 _ _
      | name => exact hword (Read.relocates_name _) _ _
      | object _ => exact hword (Read.relocates_handle _) _ _
      | classRef _ => exact hword (Read.relocates_handle _) _ _
      | _ => cases hstorage
  | bits => exact (Load.Spends.scan Read.relocates_u8).bind fun _ =>
      Load.Spends.update (.setBool _ _ _)
  | text =>
      exact (Load.Spends.read Read.uses_string).bind fun text =>
        (Load.Spends.update (release_buys _ _ _)).bind fun _ => Load.Spends.update (.ownText _ _)
  | inline type hstorage ih =>
      rw [load_inline _ _ _ hstorage]
      exact .forM fun part hpart => ih part hpart _ _
  | container type hstorage ih =>
      rw [load_container _ _ _ hstorage]
      exact Load.Spends.count.bind fun count =>
        (Load.Spends.update (release_buys _ _ _)).bind fun _ =>
          (Load.Spends.update (.ownElements _ _ _)).bind fun slot =>
            .forM fun part hpart => ih count part hpart _ _

namespace Load

variable {package : Package}

theorem loadEntry_spends (type : PropertyType) (property : String) (header : Header)
    (location : Location) (mask : UInt32) :
    (type.loadEntry package property header location mask).Spends 0 0 := by
  rw [PropertyType.loadEntry_eq]
  split
  · exact .throw _
  · split
    · exact .update (.setBool _ _ _)
    · exact (type.load_spends package location mask).recast

theorem entry_spends (property : Property) (header : Header) :
    (entry package property header).Spends 0 0 := by
  by_cases hindex : header.arrayIndex.toNat < property.dimension
  · intro state outcome after hrun
    rw [runFrom_entry hindex] at hrun
    obtain ⟨rfl, rfl⟩ := Prod.mk.inj hrun
    obtain ⟨hsize, hleft⟩ := loadEntry_spends property.type property.name header
      (Block.elementAt property header.arrayIndex.toNat) property.mask (rfl : runFrom state _ = _)
    refine ⟨hsize, fun value hvalue => ?_⟩
    cases hstored : (runFrom state (property.type.loadEntry package property.name header
        (Block.elementAt property header.arrayIndex.toNat) property.mask)).1 with
    | error error =>
        rw [hstored] at hvalue
        cases hvalue
    | ok stored => exact hleft stored hstored
  · rw [entry, if_pos (Nat.le_of_not_lt hindex)]
    exact .throw _

theorem entries_spends (layout : StructLayout) (budget : Nat) (report : LoadReport) :
    (entries package layout budget report).Spends 0 0 := by
  induction budget generalizing report with
  | zero => exact .pure report
  | succ budget ih =>
      rw [entries]
      refine (Spends.scan (Header.relocates_read _)).bind fun found => ?_
      cases found with
      | none => exact .pure report
      | some header =>
          dsimp only
          split
          · exact (entry_spends _ header).bind fun _ => ih _
          · exact (Spends.scan (Read.relocates_skip _)).recast.bind fun _ => ih _

end Load

/-- A list takes no more slots than it has bytes, whether it is loaded or refused. -/
theorem Block.loadProperties_heap (package : Package) (block : Block) (cursor : Cursor) :
    (block.loadProperties package cursor).2.1.store.heap.size ≤
      block.store.heap.size + cursor.rest.length := by
  have hspends : (Load.properties package block.layout).Spends 0 0 :=
    Load.get_spends.bind fun _ => Load.entries_spends _ _ _
  cases hrun : runFrom ⟨block.store, cursor⟩ (Load.properties package block.layout) with
  | mk outcome after =>
      have hafter : (block.loadProperties package cursor).2.1.store = after.store := by
        rw [loadProperties, Filling.run, ← runFrom, hrun]
      rw [hafter]
      exact (hspends hrun).1

end ObjectPackage
