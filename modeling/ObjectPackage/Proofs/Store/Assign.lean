/-
Assignment.  A value that fits is taken over the one that is there.  A value that does
not fit is refused, perhaps after a part of it was stored; either way the location owns
what it holds, and the refusal names the value and never the store.
-/
import ObjectPackage.Proofs.Store.Overlay
import ObjectPackage.Proofs.Store.Query

namespace ObjectPackage

/-- Errors that a store reports about itself. -/
def PropertyError.Internal : PropertyError → Prop
  | .danglingHandle _ => True
  | .outOfBounds _ _ _ => True
  | _ => False

section Blame

variable {σ α β : Type}

/-- Failures are never blamed on the store. -/
def Blameless (action : ExceptT PropertyError (StateM σ) α) : Prop :=
  ∀ state error after, runFrom state action = (.error error, after) → ¬error.Internal

namespace Blameless

theorem pure (value : α) : Blameless (Pure.pure value : ExceptT PropertyError (StateM σ) α) := by
  intro state error after h
  cases h

theorem fail {error : PropertyError} (h : ¬error.Internal) :
    Blameless (throw error : ExceptT PropertyError (StateM σ) α) := by
  intro state other after hrun
  obtain ⟨herror, -⟩ := Prod.mk.inj hrun
  exact Except.error.inj herror ▸ h

theorem bind {action : ExceptT PropertyError (StateM σ) α}
    {next : α → ExceptT PropertyError (StateM σ) β} (h : Blameless action)
    (hnext : ∀ value, Blameless (next value)) : Blameless (action >>= next) := by
  intro state error after hrun
  rcases runFrom_bind_cases hrun with ⟨cause, hcause, hfirst⟩ | ⟨value, middle, -, hlast⟩
  · obtain rfl := Except.error.inj hcause
    exact h state error after hfirst
  · exact hnext value middle error after hlast

theorem foldlM {step : β → α → ExceptT PropertyError (StateM σ) β}
    {items : List α} (h : ∀ total, ∀ item ∈ items, Blameless (step total item)) (total : β) :
    Blameless (items.foldlM step total) := by
  induction items generalizing total with
  | nil => exact .pure total
  | cons item rest ih =>
      exact (h total item List.mem_cons_self).bind fun total =>
        ih (fun total item hitem => h total item (List.mem_cons_of_mem _ hitem)) total

end Blameless

end Blame

/-- Whatever goes wrong, it is not the store. -/
def Orderly (σ α : Type) : Ensures σ α :=
  fun _ outcome _ _ _ => ∀ error, outcome = .error error → ¬error.Internal

/-- A value that fits is taken over what the first state holds, and any other one is
refused, for which the store is not to blame. -/
inductive Taken {α : Type} (held : Store → α → List Nat → Prop) (fits : Bool)
    (takes : α → α → Prop) (state : Store) : Except PropertyError Unit → Store → α → List Nat → Prop
  | stored {after : Store} {new : α} {slots : List Nat} (hfits : fits = true)
      (htakes : ∀ old owned, held state old owned → takes old new) :
      Taken held fits takes state (.ok ()) after new slots
  | refused {error : PropertyError} {after : Store} {new : α} {slots : List Nat}
      (hfits : fits = false) (herror : ¬error.Internal) :
      Taken held fits takes state (.error error) after new slots

namespace Taken

variable {α : Type} {held : Store → α → List Nat → Prop} {fits : Bool} {takes : α → α → Prop}
  {state after : Store} {outcome : Except PropertyError Unit} {new : α} {slots : List Nat}

theorem orderly (h : Taken held fits takes state outcome after new slots) :
    Orderly Store α state outcome after new slots := by
  rintro _ rfl
  cases h with
  | refused _ herror => exact herror

theorem ok_iff (h : Taken held fits takes state outcome after new slots) :
    outcome = .ok () ↔ fits = true := by
  cases h with
  | stored hfits => simp [hfits]
  | refused hfits => simp [hfits]

theorem takes_of_ok {old : α} {owned : List Nat}
    (h : Taken held fits takes state outcome after new slots) (hok : outcome = .ok ())
    (hold : held state old owned) : takes old new := by
  subst hok
  cases h with
  | stored _ htakes => exact htakes old owned hold

/-- The outcome says as much about another value, if that is taken when this one is. -/
theorem imp {β : Type} {held' : Store → β → List Nat → Prop} {takes' : β → β → Prop}
    {state' after' : Store} {new' : β} {slots' : List Nat}
    (h : Taken held fits takes state outcome after new slots)
    (himp : (∀ old owned, held state old owned → takes old new) →
      ∀ old owned, held' state' old owned → takes' old new') :
    Taken held' fits takes' state' outcome after' new' slots' := by
  cases h with
  | stored hfits htakes => exact .stored hfits (himp htakes)
  | refused hfits herror => exact .refused hfits herror

end Taken

/-- An action takes a value over the one at a location if it fits. -/
abbrev Assigns (action : Update Unit) (type : PropertyType) (location : Location) (mask : UInt32)
    (fits : Bool) (change : Value → Value) : Prop :=
  Renews id action type location mask False
    (Taken (·.Holds type location mask) fits fun old new => new = change old)

/-- As `Assigns`, for all parts at a location. -/
abbrev AssignsAll (action : Update Unit) (parts : List Part) (location : Location) (fits : Bool)
    (takes : List Value → List Value → Prop) : Prop :=
  RenewsAll id action parts location False (Taken (·.HoldsAll location parts) fits takes)

variable {type : PropertyType} {location : Location} {mask : UInt32}

theorem Assigns.throw {error : PropertyError} (h : ¬error.Internal) (change : Value → Value) :
    Assigns (throw error) type location mask false change := by
  refine ⟨.throw error, fun hrun _ _ _ howns _ => ?_⟩
  obtain ⟨rfl, rfl⟩ := Prod.mk.inj hrun
  exact ⟨_, _, howns, .refl _ _ _, .refused rfl h⟩

/-- What was there before does not matter to an action that makes a value anew. -/
theorem Assigns.of_released {next : Update Unit} {fits : Bool} {new : Value}
    (hresolved : type.Resolved) (hmask : type = .bool → mask ≠ 0)
    (h : Renews id next type location mask True
      (Taken (fun _ _ _ => True) fits fun _ value => value = new)) :
    Assigns (PropertyType.release location mask type >>= fun _ => next) type location mask fits
      fun _ => new := by
  refine (PropertyType.release_then_renews hresolved hmask (.refl _) h).mono id ?_
  rintro _ _ _ value _ ⟨_, -, htaken⟩
  exact htaken.imp fun hvalue _ _ _ => hvalue value [] trivial

namespace AssignsAll

variable {parts : List Part} {fits fits' : Bool} {takes takes' : List Value → List Value → Prop}

theorem mono {action : Update Unit} (h : AssignsAll action parts location fits takes)
    (hfits : fits' = fits)
    (htakes : ∀ old new, old.length = parts.length → takes old new → takes' old new) :
    AssignsAll action parts location fits' takes' := by
  subst hfits
  refine RenewsAll.mono h id fun _ _ _ _ _ htaken => htaken.imp fun h old owned hold => ?_
  exact htakes old _ hold.length_eq (h old owned hold)

theorem pure (htakes : ∀ values, takes values values) :
    AssignsAll (pure ()) parts location true takes := by
  refine ⟨.pure (), fun hrun _ _ _ howns _ => ?_⟩
  obtain ⟨rfl, rfl⟩ := Prod.mk.inj hrun
  refine ⟨_, _, howns, .refl _ _ _, .stored rfl fun old _ hold => ?_⟩
  obtain rfl := howns.holds.unique hold
  exact htakes _

theorem throw {error : PropertyError} (h : ¬error.Internal) :
    AssignsAll (throw error) parts location false takes := by
  refine ⟨.throw error, fun hrun _ _ _ howns _ => ?_⟩
  obtain ⟨rfl, rfl⟩ := Prod.mk.inj hrun
  exact ⟨_, _, howns, .refl _ _ _, .refused rfl h⟩

/-- Values that are taken one after the other fit if each of them does. -/
theorem bind {action next : Update Unit} (h : AssignsAll action parts location fits takes)
    (hnext : AssignsAll next parts location fits' takes') :
    AssignsAll (action >>= fun _ => next) parts location (fits && fits')
      fun old new => ∃ middle, takes old middle ∧ takes' middle new := by
  refine (RenewsAll.bind h hnext).mono id ?_
  rintro state outcome after new slots
    (⟨error, rfl, hfirst⟩ | ⟨middle, values, owned, hheld, hfirst, hlast⟩)
  · cases hfirst with
    | refused hfits herror => exact .refused (by rw [hfits, Bool.false_and]) herror
  · cases hfirst with
    | stored hfits htakes =>
        rw [hfits, Bool.true_and]
        exact hlast.imp fun htakes' old inner hold =>
          ⟨values, htakes old inner hold, htakes' values owned hheld⟩

/-- A value is taken over the one of the parts at an index. -/
theorem of_part {action : Update Unit} {part : Part} {index : Nat} {change : Value → Value}
    (hspread : Spread parts) (hpart : parts[index]? = some part)
    (h : Assigns action part.type (location.shift part.offset) part.mask fits change) :
    AssignsAll action parts location fits fun old new => new = old.modify index change := by
  obtain ⟨left, right, rfl, rfl⟩ : ∃ left right, parts = left ++ part :: right ∧
      left.length = index := by
    obtain ⟨hindex, rfl⟩ := List.getElem?_eq_some_iff.mp hpart
    refine ⟨parts.take index, parts.drop (index + 1), ?_, List.length_take_of_le hindex.le⟩
    rw [← List.drop_eq_getElem_cons, List.take_append_drop]
  refine ⟨h.grows, ?_⟩
  intro state outcome after hrun hfits values slots howns _
  obtain ⟨front, rest, first, others, rfl, rfl, hfirst, hrest⟩ := howns.holds.split
  obtain ⟨inner, back, owned, last, rfl, rfl, howned, hlast⟩ :=
    @Store.HoldsAll.split _ _ _ _ [part] right hrest
  obtain ⟨value, rfl, hvalue⟩ := Store.HoldsAll.single.mp howned
  have hspread' : Spread (left ++ [part] ++ right) := by simpa using hspread
  obtain ⟨inner', owned', -, -, -, howns', hchange, new, rfl, htaken⟩ :=
    (RenewsAll.single h).around hspread' hrun hfits hfirst howned hlast
      (by simpa using howns.nodup) (by simpa using howns.apart) nofun
  have hchange' := @Store.Change.reachedBy _ _ _ _ (left ++ part :: right) _ _
    (hchange.frame first last) (by simp)
  refine ⟨_, _, by simpa using howns', by simpa using hchange',
    htaken.imp fun htakes old _ hold => ?_⟩
  obtain rfl := howns.holds.unique hold
  rw [htakes value owned hvalue, ← hfirst.length_eq]
  simp [List.modify_eq_take_drop]

/-- Values taken over the parts of a value make one that is taken over it. -/
theorem inline {action : Update Unit} {change : Value → Value} (hresolved : type.Resolved)
    (hstorage : type.storage = .inline) (h : AssignsAll action type.parts location fits takes)
    (hchange : ∀ old new, takes old new → type.gather new = change (type.gather old)) :
    Assigns action type location mask fits change := by
  refine (RenewsAll.inline hresolved hstorage h).mono id ?_
  rintro state outcome after _ slots ⟨values, rfl, htaken⟩
  refine htaken.imp fun htakes old owned hold => ?_
  obtain ⟨-, before, rfl, hparts⟩ := (Store.holds_inline hstorage).mp hold
  exact hchange before values (htakes before owned hparts)

/-- A container is made anew of values that are taken over defaults. -/
theorem container {count : Nat} {fill : Nat → Update Unit} {new : Value}
    (hresolved : type.Resolved) (hmask : type = .bool → mask ≠ 0)
    (hstorage : type.storage = .container)
    (hfill : ∀ slot, AssignsAll (fill slot) (type.unitParts count) (.element slot 0) fits takes)
    (hnew : ∀ values, takes ((type.unitParts count).map (·.type.defaultValue)) values →
      type.gather values = new) :
    Assigns (PropertyType.release location mask type >>= fun _ =>
      Update.ownElements location count type.unitPitch >>= fill) type location mask fits
      fun _ => new := by
  refine Assigns.of_released hresolved hmask ((Renews.container hresolved hstorage (.refl _)
    fun slot => RenewsAll.mono (hfill slot) False.elim fun _ _ _ _ _ h => h).mono id ?_)
  rintro _ _ _ _ _ ⟨slot, middle, values, inner, -, hdefaults, rfl, htaken⟩
  exact htaken.imp fun htakes _ _ _ => hnew values (htakes _ _ hdefaults)

end AssignsAll

namespace PropertyType

/-- A scalar is overwritten, or a value of another kind is refused. -/
theorem assign_scalar (hstorage : type.storage = .scalar) (value : Value) :
    (type.admits value = true ∧ ∃ piece, piece.length = type.size ∧ type.scalar piece = value ∧
      assign location mask type value = Update.write location piece) ∨
    (type.admits value = false ∧
      assign location mask type value = throw (.valueMismatch type.kind value.kind)) := by
  cases type <;> cases value
  case byte.byte number =>
    exact Or.inl ⟨rfl, [number], rfl, congrArg Value.byte (uint8_ofLittleEndian number), rfl⟩
  case int.int number =>
    exact Or.inl ⟨rfl, _, length_littleEndian _ _,
      congrArg (fun word : UInt32 => Value.int word.toInt32)
        (uint32_ofLittleEndian number.toUInt32), rfl⟩
  case float.float bits =>
    exact Or.inl ⟨rfl, _, length_littleEndian _ _,
      congrArg Value.float (uint32_ofLittleEndian bits), rfl⟩
  case name.name id =>
    exact Or.inl ⟨rfl, _, length_littleEndian _ _,
      congrArg (fun word => Value.name ⟨word⟩) (uint32_ofLittleEndian id.val), rfl⟩
  case object.object handle =>
    exact Or.inl ⟨rfl, _, length_littleEndian _ _,
      congrArg (fun bits => Value.object ⟨bits⟩) (uint64_ofLittleEndian handle.bits), rfl⟩
  case classRef.object handle =>
    exact Or.inl ⟨rfl, _, length_littleEndian _ _,
      congrArg (fun bits => Value.object ⟨bits⟩) (uint64_ofLittleEndian handle.bits), rfl⟩
  all_goals first
    | exact Or.inr ⟨rfl, rfl⟩
    | cases hstorage

/-- Values are assigned to the parts as they are to a location. -/
abbrev AssignsParts (parts : List Part) (location : Location) : Prop :=
  ∀ part ∈ parts, ∀ value, Assigns (assign (location.shift part.offset) part.mask part.type value)
    part.type (location.shift part.offset) part.mask (part.type.admits value)
    (part.type.overlay · value)

variable {parts : List Part} {place : Nat → Location} {base count : Nat}

/-- Values are stored one after the other, each in a part of its own type. -/
theorem assignAll_assigns (hspread : Spread parts) (hassign : AssignsParts parts location)
    (hplace : ∀ index < count, ∃ part, parts[base + index]? = some part ∧ part.type = type ∧
      part.mask = mask ∧ location.shift part.offset = place index)
    {values : List Value} {index : Nat} (hcount : index + values.length ≤ count) :
    AssignsAll (assignAll type place mask index values) parts location (type.admitsAll values)
      fun old new => new = old.modifyTailIdx (base + index) (overlayAll type · values) := by
  induction values generalizing index with
  | nil =>
      refine AssignsAll.pure fun values => ?_
      simp only [overlayAll_nil]
      exact (List.modifyTailIdx_id _ _).symm
  | cons value rest ih =>
      rw [List.length_cons] at hcount
      obtain ⟨part, hpart, rfl, rfl, hshift⟩ := hplace index (by omega)
      have hfirst := AssignsAll.of_part hspread hpart
        (hassign part (List.mem_of_getElem? hpart) value)
      rw [assignAll, ← hshift]
      refine (hfirst.bind (ih (by omega))).mono rfl ?_
      rintro old _ - ⟨_, rfl, rfl⟩
      exact overlayAll_step part.type value rest (base + index) old

theorem getElem?_elementParts {element : PropertyType} {index : Nat} (h : index < count) :
    (elementParts element count)[0 + index]? =
      some ⟨element, index * element.pitch, elementMask⟩ := by
  simp [elementParts, h]

theorem getElem?_memberParts {members more : List Property} {member : Property} {index : Nat}
    (h : index < member.dimension) :
    (memberParts (members ++ member :: more))[(memberParts members).length + index]? =
      some ⟨member.type, member.elementOffset index, member.mask⟩ := by
  have hindex : index < member.parts.length := by simpa [Property.parts] using h
  rw [memberParts, List.flatMap_append, ← memberParts, ← memberParts, memberParts_cons,
    List.getElem?_append_right (Nat.le_add_right _ _), Nat.add_sub_cancel_left,
    List.getElem?_append_left hindex]
  simp [Property.parts, h]

theorem assignMembers_assigns {layout : StructLayout}
    (hspread : Spread (memberParts layout.properties))
    (hassign : AssignsParts (memberParts layout.properties) location) (members : List MemberValue) :
    AssignsAll (assignMembers layout location members) (memberParts layout.properties) location
      (admitsMembers layout members) fun old new => gatherMembers layout.properties new =
        overlayMembers layout (gatherMembers layout.properties old) members := by
  induction members with
  | nil => exact .pure fun _ => rfl
  | cons member rest ih =>
      obtain ⟨memberName, values⟩ := member
      rw [assignMembers, admitsMembers]
      cases hfind : layout.findProperty? memberName with
      | none =>
          have hthrow : AssignsAll (throw (.foreignProperty memberName layout.name))
              (memberParts layout.properties) location false fun _ _ => False := .throw id
          exact (hthrow.bind ih).mono rfl fun _ _ _ ⟨_, h, _⟩ => h.elim
      | some property =>
          simp only
          split
          · next hcount =>
              have hthrow : AssignsAll (throw (.indexOutOfRange memberName (values.length - 1)
                  property.dimension)) (memberParts layout.properties) location false
                  fun _ _ => False := .throw id
              refine hthrow.mono ?_ fun _ _ _ h => h.elim
              simp [Nat.not_le.mpr hcount]
          · next hcount =>
              obtain ⟨front, back, hsplit, hname, hback⟩ := lastNamed_split hfind
              have hplace : ∀ index < property.dimension, ∃ part,
                  (memberParts layout.properties)[(memberParts front).length + index]? = some part ∧
                    part.type = property.type ∧ part.mask = property.mask ∧
                    location.shift part.offset = location.shift (property.elementOffset index) := by
                intro index hindex
                rw [hsplit]
                exact ⟨_, getElem?_memberParts hindex, rfl, rfl, rfl⟩
              have hfirst := assignAll_assigns hspread hassign hplace
                (show 0 + values.length ≤ property.dimension by omega)
              refine (hfirst.bind ih).mono (by simp [Nat.not_lt.mp hcount]) ?_
              rintro old new hold ⟨middle, rfl, hnew⟩
              rw [hnew, overlayMembers, hfind]
              simp only [Nat.add_zero]
              rw [hsplit] at hold ⊢
              rw [gatherMembers_overlay hname hback (Nat.not_lt.mp hcount) hold]

theorem getElem?_entryParts {key entry : PropertyType} {index : Nat} (h : index < count) :
    (entryParts key entry count)[2 * index]? =
        some ⟨key, index * entryPitch key entry, elementMask⟩ ∧
      (entryParts key entry count)[2 * index + 1]? =
        some ⟨entry, index * entryPitch key entry + entryValueOffset key entry, elementMask⟩ := by
  have hindices (indices : List Nat) (place : Nat) :
      (indices.flatMap (entryPair key entry))[2 * place]? =
          indices[place]?.map (fun index => ⟨key, index * entryPitch key entry, elementMask⟩) ∧
        (indices.flatMap (entryPair key entry))[2 * place + 1]? =
          indices[place]?.map (fun index =>
            ⟨entry, index * entryPitch key entry + entryValueOffset key entry, elementMask⟩) := by
    induction indices generalizing place with
    | nil => exact ⟨rfl, rfl⟩
    | cons first rest ih =>
        cases place with
        | zero => exact ⟨rfl, rfl⟩
        | succ place => exact ih place
  have hplace := hindices (List.range count) index
  rwa [List.getElem?_range h] at hplace

theorem assignEntries_assigns {key entry : PropertyType} {slot : Nat}
    (hspread : Spread (entryParts key entry count))
    (hassign : AssignsParts (entryParts key entry count) (.element slot 0))
    {entries : List EntryValue} {index : Nat} (hcount : index + entries.length ≤ count) :
    AssignsAll (assignEntries key entry slot index entries) (entryParts key entry count)
      (.element slot 0) (admitsEntries key entry entries) fun old new => gatherEntries new =
        (gatherEntries old).modifyTailIdx index (overlayEntries key entry · entries) := by
  induction entries generalizing index with
  | nil =>
      refine .pure fun values => ?_
      simp only [overlayEntries_nil]
      exact (List.modifyTailIdx_id _ _).symm
  | cons item rest ih =>
      obtain ⟨entryKey, entryValue⟩ := item
      rw [List.length_cons] at hcount
      obtain ⟨hkey, hvalue⟩ := @getElem?_entryParts count key entry index (by omega)
      have hfirst := AssignsAll.of_part hspread hkey
        (hassign _ (List.mem_of_getElem? hkey) entryKey)
      have hsecond := AssignsAll.of_part hspread hvalue
        (hassign _ (List.mem_of_getElem? hvalue) entryValue)
      rw [Location.element_shift] at hfirst hsecond
      rw [assignEntries]
      refine (hfirst.bind (hsecond.bind (ih (by omega)))).mono ?_ ?_
      · rw [admitsEntries, Bool.and_assoc]
      · rintro old new - ⟨_, rfl, _, rfl, hnew⟩
        rw [hnew, gatherEntries_modify]
        exact overlayEntries_step key entry ⟨entryKey, entryValue⟩ rest index _

/-- A value is taken over the one at a location exactly if it has the shape of its type. -/
theorem assign_assigns (hresolved : type.Resolved) (hmask : type = .bool → mask ≠ 0)
    (value : Value) :
    Assigns (assign location mask type value) type location mask (type.admits value)
      (type.overlay · value) := by
  induction type using PropertyType.induction_on generalizing location mask value with
  | scalar type hstorage =>
      rcases @assign_scalar type location mask hstorage value with
        ⟨hadmits, piece, hlength, hvalue, h⟩ | ⟨hadmits, h⟩
      · rw [h, hadmits]
        refine (write_renews hstorage hlength).mono id ?_
        rintro _ _ _ _ _ ⟨rfl, rfl, -⟩
        exact .stored rfl fun old _ _ => hvalue.trans
          (overlay_leaf (by simp [hstorage]) (by simp [hstorage]) old value).symm
      · rw [h, hadmits]
        exact .throw id _
  | bits =>
      cases value with
      | bool set =>
          refine (setBool_renews (hmask rfl) set).mono id ?_
          rintro _ _ _ _ _ ⟨rfl, rfl, -⟩
          exact .stored rfl fun _ _ _ => rfl
      | _ => exact .throw id _
  | text =>
      cases value with
      | str text =>
          have hown : Renews id (Update.ownText location text) .str location mask True
              (Taken (fun _ _ _ => True) true fun _ value => value = .str text) := by
            refine (ownText_renews text).mono id ?_
            rintro _ _ _ _ _ ⟨rfl, rfl⟩
            exact .stored rfl fun _ _ _ => rfl
          rw [assign]
          exact Assigns.of_released hresolved hmask hown
      | _ => exact .throw id _
  | inline type hstorage ih =>
      have hassign : AssignsParts type.parts location := fun part hpart value =>
        ih part hpart (hresolved.of_mem_parts hpart) (hresolved.spread.masked part hpart) value
      cases type with
      | struct layout =>
          cases value with
          | struct members =>
              refine (assignMembers_assigns hresolved.spread hassign members).inline hresolved
                hstorage fun old new hnew => ?_
              exact congrArg Value.struct hnew
          | _ => exact .throw id _
      | fixedArray element count =>
          cases value with
          | array items =>
              rw [assign, admits]
              split
              · next hcount =>
                  rw [decide_eq_false (Nat.not_le.mpr hcount)]
                  exact .throw id _
              · next hcount =>
                  rw [decide_eq_true (Nat.not_lt.mp hcount), Bool.true_and]
                  have hplace : ∀ index < count, ∃ part,
                      (elementParts element count)[0 + index]? = some part ∧ part.type = element ∧
                        part.mask = elementMask ∧
                        location.shift part.offset = location.shift (index * element.pitch) :=
                    fun index hindex => ⟨_, getElem?_elementParts hindex, rfl, rfl, rfl⟩
                  have hall := assignAll_assigns hresolved.spread hassign hplace
                    (show 0 + items.length ≤ count by omega)
                  refine hall.inline hresolved hstorage ?_
                  rintro old _ rfl
                  rfl
          | _ => exact .throw id _
      | _ => cases hstorage
  | container type hstorage ih =>
      have hassign (slot count : Nat) : AssignsParts (type.unitParts count) (.element slot 0) :=
        fun part hpart value => ih count part hpart (hresolved.of_mem_unitParts hpart)
          ((hresolved.unit_spread count).masked part hpart) value
      cases type with
      | array element =>
          cases value with
          | array items =>
              rw [assign, admits]
              have hplace (slot : Nat) : ∀ index < items.length, ∃ part,
                  (elementParts element items.length)[0 + index]? = some part ∧
                    part.type = element ∧ part.mask = elementMask ∧
                    (Location.element slot 0).shift part.offset =
                      .element slot (index * element.pitch) :=
                fun index hindex => ⟨_, getElem?_elementParts hindex, rfl, rfl,
                  Location.element_shift _ _⟩
              refine AssignsAll.container hresolved hmask hstorage (fun slot =>
                assignAll_assigns (hresolved.unit_spread _) (hassign slot _) (hplace slot)
                  (Nat.zero_add _).le) ?_
              rintro _ rfl
              rw [unitParts, map_default_elements]
              rfl
          | _ => exact .throw id _
      | map key entry =>
          cases value with
          | map entries =>
              rw [assign, admits]
              refine AssignsAll.container hresolved hmask hstorage (fun slot =>
                assignEntries_assigns (hresolved.unit_spread _) (hassign slot _)
                  (Nat.zero_add _).le) ?_
              intro values hvalues
              rw [unitParts, gatherEntries_defaults] at hvalues
              exact congrArg Value.map hvalues
          | _ => exact .throw id _
      | _ => cases hstorage

theorem assign_renews (hresolved : type.Resolved) (hmask : type = .bool → mask ≠ 0)
    (value : Value) :
    Renews id (assign location mask type value) type location mask False (Orderly Store Value) :=
  (assign_assigns hresolved hmask value).mono id fun _ _ _ _ _ => Taken.orderly

end PropertyType

end ObjectPackage
