/-
Making and releasing values.  Neither can fail on a value that is owned: a release leaves
a value that owns nothing, and a new value is made out of such a value.
-/
import ObjectPackage.Proofs.Store.Blank
import ObjectPackage.Proofs.Store.Operate
import ObjectPackage.Proofs.Store.Renew

namespace ObjectPackage

variable {σ : Type} {view : σ → Store} {type : PropertyType} {location : Location}
  {mask : UInt32}

/-- Parts renewed inside a value renew the value. -/
theorem RenewsAll.inline {action : ExceptT PropertyError (StateM σ) Unit} {fresh : Prop}
    {ensures : Ensures σ (List Value)} (hresolved : type.Resolved)
    (hstorage : type.storage = .inline)
    (h : RenewsAll view action type.parts location fresh ensures) :
    Renews view action type location mask fresh fun state outcome after value slots =>
      ∃ values, value = type.gather values ∧ ensures state outcome after values slots := by
  refine ⟨h.grows, ?_⟩
  intro state outcome after hrun hfits value slots howns hslots
  obtain ⟨hroom, values, rfl, hparts⟩ := (Store.holds_inline hstorage).mp howns.holds
  obtain ⟨values', slots', howns', hchange, hafter⟩ :=
    h.renew hrun hfits ⟨hparts, howns.nodup, howns.apart⟩ hslots
  refine ⟨_, slots', ⟨.inline hstorage (hroom.of_change hchange howns.apart) howns'.holds,
    howns'.nodup, howns'.apart⟩, hchange.mono ?_, values', rfl, hafter⟩
  rintro region bit ⟨part, hpart, hregion, hlow, hhigh, -⟩
  have hinside := hresolved.parts_fitted.inside part hpart
  refine Or.inl ⟨hregion, ?_, ?_, ?_⟩
  · simp only [Location.shift] at hlow ⊢
    omega
  · simp only [Location.shift] at hhigh ⊢
    omega
  · rintro rfl
    cases hstorage

/-- The action succeeds with the default value, which owns nothing. -/
def Defaults (type : PropertyType) : Ensures Store Value :=
  fun _ outcome _ value slots => outcome = .ok () ∧ value = type.defaultValue ∧ slots = []

theorem Chain.defaults {parts : List Part} {state after : Store}
    {outcome : Except PropertyError Unit} {values : List Value} {slots : List Nat}
    (h : Chain (fun part => Defaults part.type) parts state outcome after values slots) :
    outcome = .ok () ∧ values = parts.map (·.type.defaultValue) ∧ slots = [] := by
  induction h with
  | nil => exact ⟨rfl, rfl, rfl⟩
  | stop hpart => exact absurd hpart.1 nofun
  | next hpart _ ih =>
      obtain ⟨-, rfl, rfl⟩ := hpart
      obtain ⟨hok, rfl, rfl⟩ := ih
      exact ⟨hok, rfl, rfl⟩

namespace Store

variable {store after : Store} {slot count : Nat} {value : Value} {values : List Value}
  {slots : List Nat} {parts : List Part}

theorem container?_none (h : store.handle location = .ok none) :
    store.container? location = .ok none := by
  rw [container?, h]
  rfl

theorem Buffer.container? (h : store.Buffer type location slot count) :
    store.container? location = .ok (some (slot, count)) := by
  obtain ⟨bytes, hcontent, -⟩ := h.content
  rw [Store.container?, h.handle]
  change (do .ok (some (slot, ← store.count slot))) = _
  rw [count_eq_ok.mpr ⟨bytes, hcontent⟩]
  rfl

/-- An action gives back the slots of a value and leaves the default. -/
def Releases (action : Update Unit) (type : PropertyType) (location : Location)
    (mask : UInt32) : Prop :=
  ∀ {store : Store} {value : Value} {slots : List Nat}, store.Owns type location mask value slots →
    ∃ after, runFrom store action = (.ok (), after) ∧
      after.Holds type location mask type.defaultValue [] ∧
      store.Change after (type.Touched location mask) slots []

/-- Parts that are released one after the other do not disturb each other. -/
theorem releases_forM {action : Part → Update Unit} (hspread : Spread parts)
    (haction : ∀ part ∈ parts,
      Releases (action part) part.type (location.shift part.offset) part.mask)
    (h : store.OwnsAll location parts values slots) :
    ∃ after, runFrom store (parts.forM action) = (.ok (), after) ∧
      after.HoldsAll location parts (parts.map (·.type.defaultValue)) [] ∧
      store.Change after (touchedBy location parts) slots [] := by
  induction parts generalizing store values slots with
  | nil =>
      have hnil := h.holds
      cases hnil
      exact ⟨store, rfl, .nil, .refl _ _ _⟩
  | cons part rest ih =>
      have hspread' : Spread ([part] ++ rest) := hspread
      have hhead : part ∈ [part] := List.mem_singleton_self part
      have hapart {other : Part} (hother : other ∈ rest) {bit : Nat}
          (hbit : part.Touched location location.region bit) :
          ¬other.Touched location location.region bit :=
        (hspread'.apart_of_append hhead hother).not_touched (hspread'.left.resolved part hhead)
          (hspread'.right.resolved other hother) hbit
      obtain ⟨hholds, hnodup, hregion⟩ := h
      cases hholds with
      | @cons _ _ _ _ _ first last hfirst hrest =>
          obtain ⟨hnodupFirst, hnodupLast, -⟩ := List.nodup_append.mp hnodup
          obtain ⟨hregionFirst, hregionLast⟩ := not_or.mp (mt Region.among_append.mpr hregion)
          obtain ⟨middle, hrun, hdefault, hchange⟩ :=
            haction part List.mem_cons_self ⟨hfirst, hnodupFirst, hregionFirst⟩
          have hfreed : middle.OwnsAll location [part] [part.type.defaultValue] [] :=
            ownsAll_single.mpr ⟨_, rfl, hdefault.owns⟩
          obtain ⟨-, hrest', -⟩ := @OwnsAll.replace _ _ location _ [] rest [part] [] _ _ [] first
            [] last .nil hrest (by simpa using hnodup) (by simpa using hregion) hfreed hchange
            (fun _ _ hbit => hbit.1) fun other hother bit hbit hbit' => hapart hother hbit' hbit
          obtain ⟨after, hrun', hdefaults, hchange'⟩ := ih hspread'.right
            (fun other hother => haction other (List.mem_cons_of_mem _ hother))
            ⟨hrest', hnodupLast, hregionLast⟩
          have hkept := hdefault.of_change hchange' hregionLast (by simp)
            fun bit hbit ⟨other, hother, hbit'⟩ => hapart hother hbit hbit'
          have hearlier : store.Change middle (touchedBy location (part :: rest)) (first ++ last)
              last :=
            (hchange.frame [] last).mono fun _ _ hbit => Or.inl ⟨part, List.mem_cons_self, hbit⟩
          have hlater : middle.Change after (touchedBy location (part :: rest)) last [] :=
            hchange'.mono fun _ _ ⟨other, hother, hbit⟩ =>
              Or.inl ⟨other, List.mem_cons_of_mem part hother, hbit⟩
          refine ⟨after, ?_, .cons hkept hdefaults, hearlier.trans hlater⟩
          rw [List.forM_eq_forM, List.forM_cons, runFrom_bind_ok hrun]
          exact hrun'

/-- The handle of a text or a container is cleared; before, some slots have been given back. -/
theorem handle_released (hstorage : type.storage = .text ∨ type.storage = .container)
    {middle : Store} (hroom : middle.Room location type.size)
    (hchange : store.Change middle (type.Touched location mask) slots []) :
    ∃ after, runFrom middle (Update.setHandle location none) = (.ok (), after) ∧
      after.Holds type location mask type.defaultValue [] ∧
      store.Change after (type.Touched location mask) slots [] := by
  obtain ⟨after, hrun, hcleared, -, hholds⟩ := Update.noHandle_spec hstorage hroom mask
  exact ⟨after, hrun, hholds, hchange.trans hcleared⟩

end Store

namespace PropertyType

open Store

/-- What is owned is given back, and nothing else. -/
theorem release_releases (hresolved : type.Resolved) (hmask : type = .bool → mask ≠ 0) :
    Releases (release location mask type) type location mask := by
  induction type using PropertyType.induction_on generalizing location mask with
  | scalar type hstorage =>
      intro store value slots howns
      obtain ⟨_, -, -, rfl⟩ := (holds_scalar hstorage).mp howns.holds
      have hbool : type ≠ .bool := PropertyType.ne_bool (by simp [hstorage])
      have hroom := howns.room
      rw [← @List.length_replicate _ type.size (0 : UInt8)] at hroom
      obtain ⟨after, hrun, hchange, hbytes⟩ := Update.write_spec hroom
      rw [List.length_replicate] at hchange hbytes
      rw [release_scalar _ _ hstorage]
      refine ⟨after, hrun, Blank.holds hresolved hbytes mask, hchange.mono fun _ _ hbit => ?_⟩
      exact Or.inl (touched_of_range (by simp [hstorage]) hbool rfl hbit)
  | bits =>
      intro store value slots howns
      obtain ⟨_, -, -, rfl⟩ := holds_bool.mp howns.holds
      obtain ⟨after, hrun, hchange, hset⟩ := @Update.setBool_spec _ _ mask howns.room false
      exact ⟨after, hrun, .bits hset, hchange.mono fun _ _ hbit => Or.inl (touched_bool.mpr hbit)⟩
  | text =>
      intro store value slots howns
      rw [release, runFrom_bind, Update.runFrom_fetch]
      rcases holds_str.mp howns.holds with
        ⟨hhandle, -, rfl⟩ | ⟨slot, text, hhandle, -, -, rfl⟩
      · rw [hhandle]
        exact handle_released (Or.inl rfl) howns.room (.refl _ _ _)
      · obtain ⟨middle, hfree, hchange⟩ := Update.free_spec store slot
        rw [hhandle]
        simp only [runFrom_bind_ok hfree]
        exact handle_released (Or.inl rfl) (howns.room.of_change hchange howns.apart)
          (hchange.mono (by simp))
  | inline type hstorage ih =>
      intro store value slots howns
      obtain ⟨hroom, values, -, hparts⟩ := (holds_inline hstorage).mp howns.holds
      obtain ⟨after, hrun, hdefaults, hchange⟩ := releases_forM hresolved.spread
        (fun part hpart => ih part hpart (hresolved.of_mem_parts hpart)
          (hresolved.spread.masked part hpart)) ⟨hparts, howns.nodup, howns.apart⟩
      rw [release_inline _ _ hstorage]
      refine ⟨after, hrun, ?_, hchange.mono fun _ _ hbit =>
        Or.inl ((touched_inline hstorage).mpr hbit)⟩
      rw [← gather_defaults hstorage]
      exact .inline hstorage (hroom.of_change hchange howns.apart) hdefaults
  | container type hstorage ih =>
      intro store value slots howns
      rw [release_container _ _ hstorage, runFrom_bind, Update.runFrom_fetch]
      rcases howns.container hstorage with ⟨hhandle, -, rfl⟩ |
        ⟨slot, count, values, inner, hbuffer, hslot, hapart, hinner, -, rfl⟩
      · rw [container?_none hhandle]
        exact handle_released (Or.inr hstorage) howns.room (.refl _ _ _)
      · obtain ⟨middle, hrun, -, hchange⟩ := releases_forM (hresolved.unit_spread count)
          (fun part hpart => ih count part hpart (hresolved.of_mem_unitParts hpart)
            ((hresolved.unit_spread count).masked part hpart)) hinner
        simp only [Location.element_shift] at hrun
        obtain ⟨last, hfree, hfreed⟩ := Update.free_spec middle slot
        -- what is changed in the buffer is gone when the buffer is
        have hunits : store.Change middle (type.Touched location mask) (slot :: inner) [slot] :=
          (hchange.frameLeft [slot]).mono fun region bit htouched => by
            obtain ⟨part, -, hbit⟩ := htouched
            exact Or.inr (Or.inr (by rw [hbit.1]; simp [Location.shift, Location.element]))
        have hgone : store.Change last (type.Touched location mask) (slot :: inner) [] :=
          hunits.trans (hfreed.mono (by simp))
        rw [hbuffer.container?]
        simp only [runFrom_bind_ok hrun, runFrom_bind_ok hfree]
        exact handle_released (Or.inr hstorage) (howns.room.of_change hgone hapart) hgone

end PropertyType

/-- A container is given a buffer, and the units in it, which are defaults at first, are
renewed.  The buffer is the first of the slots that it owns. -/
theorem Renews.container_buffer {keeps : σ → σ → Prop} {own : ExceptT PropertyError (StateM σ) Nat}
    {fill : Nat → ExceptT PropertyError (StateM σ) Unit} {count : Nat}
    {ensures : Nat → Ensures σ (List Value)} (hresolved : type.Resolved)
    (hstorage : type.storage = .container)
    (hown : Lifts view keeps own (Update.ownElements location count type.unitPitch))
    (hfill : ∀ slot, RenewsAll view (fill slot) (type.unitParts count) (.element slot 0) True
      (ensures slot)) :
    Renews view (own >>= fill) type location mask True fun state outcome after value slots =>
      ∃ slot middle values inner, keeps state middle ∧
        (view middle).HoldsAll (.element slot 0) (type.unitParts count)
          ((type.unitParts count).map (·.type.defaultValue)) [] ∧
        value = type.gather values ∧ slots = slot :: inner ∧
        (view after).Buffer type location slot count ∧
        ensures slot middle outcome after values inner := by
  refine ⟨(hown.grows (Update.Grows.ownElements _ _ _)).bind fun slot => (hfill slot).grows, ?_⟩
  intro state outcome after hrun hfits value slots howns hslots
  obtain rfl := hslots trivial
  obtain ⟨slot, bought, hrunOwn, hchange, hapart, hbuffer, hblanks⟩ :=
    Update.ownElements_owns hresolved hstorage howns.room mask count
  obtain ⟨middle, hlift, hview, hkeeps⟩ := hown state
  rw [hrunOwn] at hlift hview
  obtain rfl := hview
  rw [runFrom_bind_ok hlift] at hrun
  have hgrows := (hfill slot).grows middle
  rw [hrun] at hgrows
  have hfits' : (view middle).Fits := Nat.lt_of_le_of_lt hgrows hfits
  obtain ⟨values, inner, hunits, hchange', hafter⟩ :=
    (hfill slot).renew hrun hfits hblanks fun _ => rfl
  have htouched (region : Region) (bit : Nat)
      (hbit : reachedBy (.element slot 0) (type.unitParts count) region bit) :
      region = .slot slot := hbit.region
  obtain ⟨howns', hrefill⟩ := @Store.Buffer.refill _ _ _ _ mask _ _ _ _ _ _ (hbuffer hfits') hapart
    (by simp) hchange' htouched hstorage hunits
  exact ⟨_, slot :: inner, howns', hchange.trans hrefill, slot, middle, values, inner, hkeeps,
    hblanks.holds, rfl, rfl, (hbuffer hfits').of_change hapart (by simp) hchange' htouched, hafter⟩

theorem Renews.container {keeps : σ → σ → Prop} {own : ExceptT PropertyError (StateM σ) Nat}
    {fill : Nat → ExceptT PropertyError (StateM σ) Unit} {count : Nat}
    {ensures : Nat → Ensures σ (List Value)} (hresolved : type.Resolved)
    (hstorage : type.storage = .container)
    (hown : Lifts view keeps own (Update.ownElements location count type.unitPitch))
    (hfill : ∀ slot, RenewsAll view (fill slot) (type.unitParts count) (.element slot 0) True
      (ensures slot)) :
    Renews view (own >>= fill) type location mask True fun state outcome after value _ =>
      ∃ slot middle values inner, keeps state middle ∧
        (view middle).HoldsAll (.element slot 0) (type.unitParts count)
          ((type.unitParts count).map (·.type.defaultValue)) [] ∧
        value = type.gather values ∧ ensures slot middle outcome after values inner := by
  refine (Renews.container_buffer hresolved hstorage hown hfill).mono id ?_
  rintro _ _ _ _ _ ⟨slot, middle, values, inner, hkeeps, hblanks, hvalue, -, -, hafter⟩
  exact ⟨slot, middle, values, inner, hkeeps, hblanks, hvalue, hafter⟩

theorem Renews.of_update {action : Update Unit} {fresh : Prop} {ensures : Ensures Store Value}
    (hgrows : Grows id action)
    (h : ∀ {store : Store} {outcome : Except PropertyError Unit} {after : Store},
      runFrom store action = (outcome, after) → after.Fits →
      ∀ {value : Value} {slots : List Nat}, store.Owns type location mask value slots →
      (fresh → slots = []) → ∃ value' slots', after.Owns type location mask value' slots' ∧
        store.Change after (type.Reached location mask) slots slots' ∧
        ensures store outcome after value' slots') :
    Renews id action type location mask fresh ensures :=
  ⟨hgrows, h⟩

/-- An update that always succeeds renews a value if it does so wherever it ends. -/
theorem Renews.of_ok {action : Update Unit} {fresh : Prop} {ensures : Ensures Store Value}
    (hgrows : Grows id action)
    (h : ∀ {store : Store} {value : Value} {slots : List Nat},
      store.Owns type location mask value slots → (fresh → slots = []) →
      ∃ after, runFrom store action = (.ok (), after) ∧ (after.Fits →
        ∃ value' slots', after.Owns type location mask value' slots' ∧
          store.Change after (type.Reached location mask) slots slots' ∧
          ensures store (.ok ()) after value' slots')) :
    Renews id action type location mask fresh ensures := by
  refine .of_update hgrows ?_
  intro store outcome after hrun hfits value slots howns hslots
  obtain ⟨after', hrun', hafter⟩ := h howns hslots
  obtain ⟨rfl, rfl⟩ := Prod.mk.inj (hrun'.symm.trans hrun)
  exact hafter hfits

namespace PropertyType

theorem write_renews (hstorage : type.storage = .scalar) {piece : List UInt8}
    (hlength : piece.length = type.size) :
    Renews id (Update.write location piece) type location mask False
      fun _ outcome after value slots => outcome = .ok () ∧ value = type.scalar piece ∧
        slots = [] ∧ after.bytes location type.size = .ok piece := by
  refine .of_ok (Update.Grows.write _ _) fun howns _ => ?_
  obtain ⟨_, -, -, rfl⟩ := (Store.holds_scalar hstorage).mp howns.holds
  have hbool : type ≠ .bool := PropertyType.ne_bool (by simp [hstorage])
  have hroom := howns.room
  rw [← hlength] at hroom
  obtain ⟨after, hrun, hchange, hbytes⟩ := Update.write_spec hroom
  rw [hlength] at hchange hbytes
  refine ⟨after, hrun, fun _ => ⟨_, [], (Store.Holds.scalar hstorage hbytes).owns,
    hchange.mono ?_, rfl, rfl, rfl, hbytes⟩⟩
  exact fun _ _ hbit => Or.inl (reached_of_range hbool hbit)

theorem setBool_renews (hmask : mask ≠ 0) (set : Bool) :
    Renews id (Update.setBool location mask set) .bool location mask False
      fun _ outcome after value slots => outcome = .ok () ∧ value = .bool set ∧
        slots = [] ∧ after.bool location mask = .ok set := by
  refine .of_ok (Update.Grows.setBool _ _ _) fun howns _ => ?_
  obtain ⟨_, -, -, rfl⟩ := Store.holds_bool.mp howns.holds
  obtain ⟨after, hrun, hchange, hset⟩ := @Update.setBool_spec _ _ mask howns.room set
  rw [bne_iff_ne.mpr hmask, Bool.and_true] at hset
  refine ⟨after, hrun, fun _ => ⟨_, [], (Store.Holds.bits hset).owns, hchange.mono ?_, rfl, rfl,
    rfl, hset⟩⟩
  exact fun _ _ hbit => Or.inl (reached_of_masked hbit)

/-- A text or a container is left without a slot. -/
theorem noHandle_renews (hresolved : type.Resolved)
    (hstorage : type.storage = .text ∨ type.storage = .container) :
    Renews id (Update.setHandle location none) type location mask True
      fun _ outcome after value slots => outcome = .ok () ∧ value = type.defaultValue ∧
        slots = [] ∧ after.handle location = .ok none := by
  refine .of_ok (Update.Grows.setHandle _ _) fun howns hslots => ?_
  obtain rfl := hslots trivial
  obtain ⟨after, hrun, hchange, hnone, hholds⟩ := Update.noHandle_spec hstorage howns.room mask
  refine ⟨after, hrun, fun _ => ⟨_, [], hholds.owns, hchange.mono ?_, rfl, rfl, rfl, hnone⟩⟩
  exact fun _ _ hbit => Or.inl (reached_of_touched hresolved hbit)

/-- A text is given a slot of its own. -/
theorem newText_renews (text : String) :
    Renews id (do Update.setHandle location (some (← Update.alloc (.text text)))) .str location mask
      True fun _ outcome after value slots => outcome = .ok () ∧ value = .str text ∧
        ∃ slot, slots = [slot] ∧ after.handle location = .ok (some slot) ∧
          after.content (.slot slot) = some (.text text) := by
  refine .of_ok ((Update.Grows.alloc _).bind fun _ => Update.Grows.setHandle _ _)
    fun howns hslots => ?_
  obtain rfl := hslots trivial
  obtain ⟨slot, middle, after, halloc, hrun, hchange, hcontent, hhandle⟩ :=
    Update.own_spec howns.room (show HeapValue.text text ≠ .free by simp)
  refine ⟨after, (runFrom_bind_ok halloc _).trans hrun, fun hfits => ?_⟩
  have hholds : after.Holds .str location mask (.str text) [slot] := .text (hhandle hfits) hcontent
  refine ⟨_, [slot], ⟨hholds, List.nodup_singleton _, ?_⟩, hchange.mono ?_, rfl, rfl, slot, rfl,
    hhandle hfits, hcontent⟩
  · exact hchange.not_among_new (by simp) howns.room.live
  · exact fun _ _ hbit => Or.inl (@reached_of_range .str _ _ nofun _ _ hbit)

theorem ownText_renews (text : String) :
    Renews id (Update.ownText location text) .str location mask True fun _ outcome _ value _ =>
      outcome = .ok () ∧ value = .str text := by
  rw [Update.ownText]
  split
  · next hempty =>
      refine (@noHandle_renews .str _ _ nofun (Or.inl rfl)).mono id ?_
      rintro _ _ _ _ _ ⟨rfl, rfl, -⟩
      rw [String.isEmpty_iff.mp hempty]
      exact ⟨rfl, rfl⟩
  · refine (newText_renews text).mono id ?_
    rintro _ _ _ _ _ ⟨rfl, rfl, -⟩
    exact ⟨rfl, rfl⟩

theorem release_grows : Grows id (release location mask type) := by
  induction type using PropertyType.induction_on generalizing location mask with
  | scalar type hstorage =>
      rw [release_scalar _ _ hstorage]
      exact Update.Grows.write _ _
  | bits => exact Update.Grows.setBool _ _ _
  | text =>
      rw [release]
      refine (Update.Grows.fetch _).bind fun handle => ?_
      cases handle with
      | none => exact Update.Grows.setHandle _ _
      | some slot => exact (Update.Grows.free slot).bind fun _ => Update.Grows.setHandle _ _
  | inline type hstorage ih =>
      rw [release_inline _ _ hstorage]
      exact .forM fun part hpart => ih part hpart
  | container type hstorage ih =>
      rw [release_container _ _ hstorage]
      refine (Update.Grows.fetch _).bind fun found => ?_
      cases found with
      | none => exact Update.Grows.setHandle _ _
      | some pair =>
          refine (Grows.forM fun part hpart => ih pair.2 part hpart).bind fun _ => ?_
          exact (Update.Grows.free pair.1).bind fun _ => Update.Grows.setHandle _ _

theorem release_renews (hresolved : type.Resolved) (hmask : type = .bool → mask ≠ 0) :
    Renews id (release location mask type) type location mask False (Defaults type) := by
  refine .of_ok release_grows fun howns _ => ?_
  obtain ⟨after, hrun, hdefault, hchange⟩ := release_releases hresolved hmask howns
  refine ⟨after, hrun, fun _ => ⟨_, [], hdefault.owns, hchange.mono ?_, rfl, rfl, rfl⟩⟩
  exact fun _ _ hbit => Or.inl (reached_of_touched hresolved hbit)

/-- The old value is released before a new one is made. -/
theorem release_then_renews {keeps : σ → σ → Prop}
    {action next : ExceptT PropertyError (StateM σ) Unit} {ensures : Ensures σ Value}
    (hresolved : type.Resolved) (hmask : type = .bool → mask ≠ 0)
    (haction : Lifts view keeps action (release location mask type))
    (hnext : Renews view next type location mask True ensures) :
    Renews view (action >>= fun _ => next) type location mask False
      fun state outcome after value slots =>
        ∃ middle, keeps state middle ∧ ensures middle outcome after value slots := by
  have hrelease := haction.renews (release_renews hresolved hmask)
  refine (hrelease.bind hnext fun _ _ _ _ h _ => h.2.2.2).mono id ?_
  rintro _ _ _ _ _ (⟨error, rfl, -, hok, -⟩ | ⟨middle, _, _, ⟨hkeeps, -⟩, hafter⟩)
  · cases hok
  · exact ⟨middle, hkeeps, hafter⟩

/-- Zero bytes are a default value. -/
theorem zero_renews (hresolved : type.Resolved) (hbool : type ≠ .bool) :
    Renews id (Update.zero location type.size) type location mask True (Defaults type) := by
  refine .of_ok (Update.Grows.write _ _) fun {store} _ _ howns hslots => ?_
  obtain rfl := hslots trivial
  have hroom := howns.room
  obtain ⟨after, hrun, hchange, hbytes⟩ :=
    @Update.write_spec store location (List.replicate type.size 0) (by simpa using hroom)
  rw [List.length_replicate] at hchange hbytes
  have hholds := Store.Blank.holds hresolved hbytes mask
  refine ⟨after, hrun, fun _ => ⟨_, [], hholds.owns, hchange.mono ?_, rfl, rfl, rfl⟩⟩
  exact fun _ _ hbit => Or.inl (reached_of_range hbool hbit)

theorem construct_renews (hresolved : type.Resolved) (hmask : type = .bool → mask ≠ 0) :
    Renews id (construct location mask type) type location mask True (Defaults type) := by
  induction type using PropertyType.induction_on generalizing location mask with
  | scalar type hstorage =>
      rw [construct_zero _ _ (by simp [hstorage]) (by rintro rfl; cases hstorage)]
      exact zero_renews hresolved (by rintro rfl; cases hstorage)
  | bits =>
      refine (setBool_renews (hmask rfl) false).mono False.elim ?_
      rintro _ _ _ _ _ ⟨hok, hvalue, hslots, -⟩
      exact ⟨hok, hvalue, hslots⟩
  | text =>
      rw [construct_zero _ _ (show storage .str ≠ .inline by decide) nofun]
      exact zero_renews hresolved nofun
  | inline type hstorage ih =>
      have hparts := (RenewsAll.forParts hresolved.spread fun part hpart =>
        @ih part hpart (location.shift part.offset) part.mask (hresolved.of_mem_parts hpart)
          (hresolved.spread.masked part hpart)).mono id fun _ _ _ _ _ => Chain.defaults
      have hinline : Renews id (type.parts.forM fun part =>
          construct (location.shift part.offset) part.mask part.type) type location mask True
          (Defaults type) := by
        refine (hparts.inline hresolved hstorage).mono id ?_
        rintro _ _ _ _ _ ⟨_, rfl, hok, rfl, hslots⟩
        exact ⟨hok, gather_defaults hstorage, hslots⟩
      cases type with
      | struct layout =>
          rw [construct_struct]
          refine ((zero_renews hresolved nofun).bind hinline fun _ _ _ _ h _ => h.2.2).mono id ?_
          rintro _ _ _ _ _ (⟨error, rfl, hok, -⟩ | ⟨_, _, _, -, h⟩)
          · cases hok
          · exact h
      | fixedArray element count =>
          rw [construct_fixedArray]
          exact hinline
      | _ => cases hstorage
  | container type hstorage _ =>
      rw [construct_zero _ _ (by simp [hstorage]) (by rintro rfl; cases hstorage)]
      exact zero_renews hresolved (by rintro rfl; cases hstorage)

end PropertyType

end ObjectPackage
