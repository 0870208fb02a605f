/-
Loading.  What the stream holds decides the value, the outcome and where loading stops,
whatever the location held before.  A stream may end or be refused anywhere, between the
release of an old value and the last element of a new one; even then the location owns
what it holds, and the error names the stream and never the store.
-/
import ObjectPackage.Proofs.Store.Assign
import ObjectPackage.Proofs.Store.Decode

namespace ObjectPackage

variable {α : Type} {type : PropertyType} {location : Location} {mask : UInt32} {fresh : Prop}

section Blame

theorem Decoder.read_blameless (action : Read α) : Blameless (Decoder.read action) := by
  intro cursor error next h
  rw [Decoder.runFrom_read] at h
  split at h
  · cases h
  · obtain ⟨herror, -⟩ := Prod.mk.inj h
    obtain rfl := Except.error.inj herror
    exact id

theorem Decoder.count_blameless : Blameless Decoder.count := by
  refine (read_blameless _).bind fun found => Blameless.bind (fun _ _ _ h => by cases h) fun cursor => ?_
  dsimp only
  split
  · exact .fail id
  · exact .pure _

theorem PropertyType.decodeAll_blameless {package : Package} {types : List PropertyType}
    (h : ∀ type ∈ types, Blameless (type.decode package)) :
    Blameless (decodeAll package types) := by
  induction types with
  | nil => exact .pure _
  | cons type types ih =>
      obtain ⟨hfirst, hrest⟩ := List.forall_mem_cons.mp h
      exact hfirst.bind fun value => (ih hrest).bind fun values => .pure _

/-- What is wrong with a stream is never the store. -/
theorem PropertyType.decode_blameless (package : Package) (type : PropertyType) :
    Blameless (type.decode package) := by
  induction type using PropertyType.induction_on with
  | scalar type hstorage =>
      obtain ⟨β, action, form, -, -, hdecode, -⟩ := scalar_form package (.root 0) 0 hstorage
      rw [hdecode, map_eq_pure_bind]
      exact (Decoder.read_blameless action).bind fun found => .pure _
  | bits =>
      rw [decode, map_eq_pure_bind]
      exact (Decoder.read_blameless _).bind fun found => .pure _
  | text =>
      rw [decode, map_eq_pure_bind]
      exact (Decoder.read_blameless _).bind fun found => .pure _
  | inline type hstorage ih =>
      rw [decode_inline hstorage, map_eq_pure_bind]
      refine (decodeAll_blameless fun inner hinner => ?_).bind fun values => .pure _
      obtain ⟨part, hpart, rfl⟩ := List.mem_map.mp hinner
      exact ih part hpart
  | container type hstorage ih =>
      rw [decode_container hstorage]
      refine Decoder.count_blameless.bind fun count => ?_
      rw [map_eq_pure_bind]
      refine (decodeAll_blameless fun inner hinner => ?_).bind fun values => .pure _
      obtain ⟨part, hpart, rfl⟩ := List.mem_map.mp hinner
      exact ih count part hpart

end Blame

namespace Load

/-- The action does to the cursor what a decoder does, and keeps the store. -/
def Mirrors (action : Load α) (decoder : Decoder α) : Prop :=
  ∀ state, runFrom state action =
    ((runFrom state.cursor decoder).1, ⟨state.store, (runFrom state.cursor decoder).2⟩)

theorem mirrors_read (action : Read α) : Mirrors (read action) (Decoder.read action) := by
  intro state
  rw [read, runFrom_bind_ok (runFrom_get _), Decoder.runFrom_read]
  cases hrun : runFrom state.cursor action with
  | mk result cursor =>
      have hread : state.cursor.read action = (result, cursor) := hrun
      rw [hread, runFrom_bind_ok (runFrom_set _ _)]
      cases result <;> rfl

theorem mirrors_count : Mirrors count Decoder.count := by
  intro state
  rw [count, Decoder.count, runFrom_bind, runFrom_bind, mirrors_read]
  cases runFrom state.cursor (Decoder.read Read.index) with
  | mk result cursor =>
      cases result with
      | error error => rfl
      | ok value =>
          simp only [runFrom_bind, runFrom_get]
          split <;> rfl

/-- An update leaves the cursor where it is. -/
theorem lifts_update (action : Update α) :
    Lifts Filling.store (fun state after => after.cursor = state.cursor) (update action) action := by
  intro state
  refine ⟨⟨(runFrom state.store action).2, state.cursor⟩, ?_, rfl, rfl⟩
  rw [update, runFrom_bind_ok (runFrom_get _)]
  refine (runFrom_bind_ok (runFrom_set _ _) _).trans ?_
  change runFrom _ _ = ((action state.store).1, (⟨(action state.store).2, state.cursor⟩ : Filling))
  cases (action state.store).1 <;> rfl

/-- The stream decides the value and where its bytes end, or that there is none. -/
def Decodes {β : Type} (decoder : Decoder β) : Ensures Filling β :=
  fun state outcome after value _ =>
    outcome = (runFrom state.cursor decoder).1.map (fun _ => ()) ∧
      after.cursor = (runFrom state.cursor decoder).2 ∧
      ∀ decoded, (runFrom state.cursor decoder).1 = .ok decoded → value = decoded

namespace Decodes

variable {β γ : Type} {decoder : Decoder β} {state after : Filling}
  {outcome : Except PropertyError Unit} {value : β} {slots : List Nat}

theorem map (f : β → γ) (h : Decodes decoder state outcome after value slots) :
    Decodes (f <$> decoder) state outcome after (f value) slots := by
  obtain ⟨houtcome, hcursor, hvalue⟩ := h
  rw [Decodes, runFrom_map]
  cases hrun : runFrom state.cursor decoder with
  | mk result cursor =>
      rw [hrun] at houtcome hcursor hvalue
      cases result with
      | error error => exact ⟨houtcome, hcursor, nofun⟩
      | ok found =>
          refine ⟨houtcome, hcursor, fun decoded hdecoded => ?_⟩
          rw [hvalue found rfl]
          exact Except.ok.inj hdecoded

/-- Only the cursor of the first state matters. -/
theorem of_cursor {middle : Filling} (h : Decodes decoder middle outcome after value slots)
    (hcursor : middle.cursor = state.cursor) :
    Decodes decoder state outcome after value slots := by
  rw [Decodes, ← hcursor]
  exact h

/-- An orderly decoder is loaded in an orderly way. -/
theorem orderly (h : Decodes decoder state outcome after value slots) (hdecoder : Blameless decoder) :
    Orderly Filling β state outcome after value slots := by
  rintro error rfl
  obtain ⟨houtcome, -, -⟩ := h
  cases hrun : runFrom state.cursor decoder with
  | mk result cursor =>
      rw [hrun] at houtcome
      cases result with
      | ok found => cases houtcome
      | error cause =>
          obtain rfl := Except.error.inj houtcome
          exact hdecoder _ _ _ hrun

theorem of_pure (hcursor : after.cursor = state.cursor) (houtcome : outcome = .ok ()) :
    Decodes (pure value) state outcome after value slots :=
  ⟨houtcome, hcursor, fun _ hdecoded => Except.ok.inj hdecoded⟩

end Decodes

/-- What was read decides how the value is renewed. -/
theorem Mirrors.renews {action : Load α} {decoder : Decoder α} {next : α → Load Unit}
    {rest : α → Decoder Value} (h : Mirrors action decoder)
    (hnext : ∀ found, Renews Filling.store (next found) type location mask fresh
      (Decodes (rest found))) :
    Renews Filling.store (action >>= next) type location mask fresh (Decodes (decoder >>= rest)) := by
  have hgrows : Grows Filling.store action := fun state => by rw [h]
  refine ⟨hgrows.bind fun found => (hnext found).grows, ?_⟩
  intro state outcome after hrun hfits value slots howns hslots
  rw [runFrom_bind, h] at hrun
  cases hdecoder : runFrom state.cursor decoder with
  | mk result cursor =>
      simp only [hdecoder] at hrun
      cases result with
      | error error =>
          obtain ⟨rfl, rfl⟩ := Prod.mk.inj hrun
          refine ⟨value, slots, howns, .refl _ _ _, ?_⟩
          rw [Decodes, runFrom_bind_error hdecoder]
          exact ⟨rfl, rfl, nofun⟩
      | ok found =>
          obtain ⟨value', slots', howns', hchange, hafter⟩ :=
            (hnext found).renew hrun hfits howns hslots
          refine ⟨value', slots', howns', hchange, ?_⟩
          rw [Decodes, runFrom_bind_ok hdecoder]
          exact hafter

theorem update_renews {action : Update Unit} {ensures : Ensures Store Value}
    (h : Renews id action type location mask fresh ensures) :
    Renews Filling.store (update action) type location mask fresh
      fun state outcome after value slots => after.cursor = state.cursor ∧
        ensures state.store outcome after.store value slots :=
  (lifts_update action).renews h

end Load

/-- Parts are decoded in turn. -/
theorem Chain.decodes {package : Package} {parts : List Part} {state after : Filling}
    {outcome : Except PropertyError Unit} {values : List Value} {slots : List Nat}
    (h : Chain (fun part => Load.Decodes (part.type.decode package)) parts state outcome after
      values slots) :
    Load.Decodes (PropertyType.decodeAll package (parts.map Part.type)) state outcome after values
      slots := by
  induction h with
  | nil => exact .of_pure rfl rfl
  | @stop part parts state after error value values first rest hpart =>
      obtain ⟨houtcome, hcursor, -⟩ := hpart
      rw [Load.Decodes, List.map_cons, PropertyType.decodeAll, runFrom_bind]
      cases hrun : runFrom state.cursor (part.type.decode package) with
      | mk result cursor =>
          rw [hrun] at houtcome hcursor
          cases result with
          | error cause => exact ⟨houtcome, hcursor, by rintro _ ⟨⟩⟩
          | ok found => cases houtcome
  | @next part parts state middle after outcome value values first slots hpart _ ih =>
      obtain ⟨houtcome, hcursor, hvalue⟩ := hpart
      rw [Load.Decodes, List.map_cons, PropertyType.decodeAll, runFrom_bind]
      cases hrun : runFrom state.cursor (part.type.decode package) with
      | mk result cursor =>
          rw [hrun] at houtcome hcursor hvalue
          cases result with
          | error cause => cases houtcome
          | ok found =>
              obtain rfl := hvalue found rfl
              have hrest : Load.Decodes _ ⟨state.store, cursor⟩ _ _ _ _ := ih.of_cursor hcursor
              exact hrest.map (value :: ·)

namespace PropertyType

/-- Loading does to a location what the stream says. -/
theorem load_decodes (package : Package) (hresolved : type.Resolved)
    (hmask : type = .bool → mask ≠ 0) :
    Renews Filling.store (load package location mask type) type location mask False
      (Load.Decodes (type.decode package)) := by
  induction type using PropertyType.induction_on generalizing location mask with
  | scalar type hstorage =>
      obtain ⟨β, action, form, hlength, hload, hdecode, -⟩ :=
        scalar_form package location mask hstorage
      rw [hload, hdecode, map_eq_pure_bind]
      refine (Load.mirrors_read action).renews fun found => ?_
      refine (Load.update_renews (write_renews hstorage (hlength found))).mono id ?_
      rintro _ _ _ _ _ ⟨hcursor, hok, rfl, -⟩
      exact .of_pure hcursor hok
  | bits =>
      rw [load, decode, map_eq_pure_bind]
      refine (Load.mirrors_read Read.u8).renews fun found => ?_
      refine (Load.update_renews (setBool_renews (hmask rfl) (found != 0))).mono id ?_
      rintro _ _ _ _ _ ⟨hcursor, hok, rfl, -⟩
      exact .of_pure hcursor hok
  | text =>
      rw [load, decode, map_eq_pure_bind]
      refine (Load.mirrors_read Read.string).renews fun text => ?_
      refine (release_then_renews hresolved hmask (Load.lifts_update _)
        (Load.update_renews (ownText_renews text))).mono id ?_
      rintro _ _ _ _ _ ⟨middle, hmiddle, hcursor, hok, rfl⟩
      exact .of_pure (hcursor.trans hmiddle) hok
  | inline type hstorage ih =>
      rw [load_inline _ _ _ hstorage, decode_inline hstorage]
      have hparts := RenewsAll.forParts hresolved.spread fun part hpart =>
        @ih part hpart (location.shift part.offset) part.mask (hresolved.of_mem_parts hpart)
          (hresolved.spread.masked part hpart)
      refine (hparts.inline hresolved hstorage).mono id ?_
      rintro state outcome after _ slots ⟨values, rfl, hchain⟩
      exact hchain.decodes.map type.gather
  | container type hstorage ih =>
      rw [load_container _ _ _ hstorage, decode_container hstorage]
      have hfill (count slot : Nat) := @RenewsAll.forParts _ Filling.store
        (fun part => load package (.element slot part.offset) part.mask part.type) (.element slot 0)
        True (fun part => Load.Decodes (part.type.decode package)) _ (hresolved.unit_spread count)
        fun part hpart => by
          rw [Location.element_shift]
          exact (@ih count part hpart (.element slot part.offset) part.mask
            (hresolved.of_mem_unitParts hpart)
            ((hresolved.unit_spread count).masked part hpart)).mono False.elim fun _ _ _ _ _ h => h
      refine Load.mirrors_count.renews fun count => ?_
      refine (release_then_renews hresolved hmask (Load.lifts_update _)
        (.container hresolved hstorage (Load.lifts_update _) (hfill count))).mono id ?_
      rintro state outcome after _ slots
        ⟨middle, hmiddle, slot, start, values, inner, hstart, -, rfl, hchain⟩
      have hvalues := (hchain.decodes.map type.gather).of_cursor (hstart.trans hmiddle)
      exact hvalues

end PropertyType

end ObjectPackage
