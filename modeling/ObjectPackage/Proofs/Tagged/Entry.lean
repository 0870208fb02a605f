/-
Entries of property lists.  What an entry stands for is decided by its header, the
property it is for and the payload: a bool is in the header, any other value in the
payload, which has to have the size that the header declares.
-/
import ObjectPackage.Proofs.NameTable
import ObjectPackage.Proofs.Store.Load
import ObjectPackage.Tagged.PropertyList

namespace ObjectPackage

/-- The old error is as much to blame as the one that names the property. -/
theorem PropertyError.internal_of_inProperty {name : String} {error : PropertyError}
    (h : (error.inProperty name).Internal) : error.Internal := by
  cases error with
  | stream cause => cases h
  | _ => exact h

/-- An action that ends where another one does may report something else. -/
theorem Renews.reported {σ : Type} {view : σ → Store} {type : PropertyType} {location : Location}
    {mask : UInt32} {fresh : Prop} {action other : ExceptT PropertyError (StateM σ) Unit}
    {ensures : Ensures σ Value} (h : Renews view action type location mask fresh ensures)
    (report : σ → Except PropertyError Unit → σ → Except PropertyError Unit)
    (hother : ∀ state, runFrom state other =
      (report state (runFrom state action).1 (runFrom state action).2, (runFrom state action).2)) :
    Renews view other type location mask fresh fun state outcome after value slots =>
      ∃ inner, outcome = report state inner after ∧ ensures state inner after value slots := by
  refine ⟨fun state => ?_, ?_⟩
  · rw [hother]
    exact h.grows state
  · intro state outcome after hrun hfits value slots howns hslots
    rw [hother] at hrun
    obtain ⟨rfl, rfl⟩ := Prod.mk.inj hrun
    obtain ⟨value', slots', howns', hchange, hafter⟩ := h.renew rfl hfits howns hslots
    exact ⟨value', slots', howns', hchange, _, rfl, hafter⟩

namespace Decoder

variable {α : Type}

/-- Failures are reported for a property. -/
def inProperty (property : String) (action : Decoder α) : Decoder α :=
  tryCatch action fun error => throw (error.inProperty property)

theorem runFrom_inProperty (property : String) (action : Decoder α) (cursor : Cursor) :
    runFrom cursor (inProperty property action) =
      ((runFrom cursor action).1.mapError (·.inProperty property), (runFrom cursor action).2) := by
  rw [inProperty, runFrom_tryCatch]
  cases runFrom cursor action with
  | mk outcome after => cases outcome <;> rfl

theorem inProperty_blameless {property : String} {action : Decoder α} (h : Blameless action) :
    Blameless (inProperty property action) := by
  intro cursor error after hrun
  rw [runFrom_inProperty] at hrun
  cases hinner : runFrom cursor action with
  | mk outcome next =>
      rw [hinner] at hrun
      cases outcome with
      | ok value => cases hrun
      | error cause =>
          obtain rfl := Except.error.inj (Prod.mk.inj hrun).1
          exact fun hinternal => h _ _ _ hinner (PropertyError.internal_of_inProperty hinternal)

end Decoder

namespace PropertyType

variable {type : PropertyType} {location : Location} {mask : UInt32} {package : Package}
  {header : Header} {property : String}

theorem eq_bool_of_isBool (h : type.isBool = true) : type = .bool := by
  cases type <;> first | rfl | cases h

theorem eq_bool_of_accepts (h : type.accepts .bool = true) : type = .bool := by
  cases type <;> first | rfl | cases h

/-- Whether a header may stand before a value of a type. -/
def checkEntry (package : Package) (property : String) (header : Header) (type : PropertyType) :
    Except PropertyError Unit :=
  if !type.accepts header.tag then .error (.typeMismatch property type.tag header.tag)
  else
    match type.struct?, header.structName with
    | some layout, some id =>
        let found := (package.names.get? id).getD "?"
        if !sameName found layout.name then .error (.structMismatch property layout.name found)
        else .ok ()
    | _, _ => .ok ()

/-- The value behind a header. -/
def decodeEntry (package : Package) (property : String) (header : Header) (type : PropertyType) :
    Decoder Value :=
  match checkEntry package property header type with
  | .error error => throw error
  | .ok () =>
      if type.isBool then return .bool header.boolValue
      else Decoder.inProperty property (type.decode package)

theorem checkEntry_blameless : ∀ error, checkEntry package property header type = .error error →
    ¬error.Internal := by
  intro error h
  rw [checkEntry] at h
  split at h
  · obtain rfl := Except.error.inj h
    exact id
  · split at h
    · dsimp only at h
      split at h
      · obtain rfl := Except.error.inj h
        exact id
      · cases h
    · cases h

theorem decodeEntry_blameless (package : Package) (property : String) (header : Header)
    (type : PropertyType) : Blameless (type.decodeEntry package property header) := by
  rw [decodeEntry]
  split
  · next error herror => exact .fail (checkEntry_blameless error herror)
  · split
    · exact .pure _
    · exact Decoder.inProperty_blameless (decode_blameless package type)

theorem loadEntry_eq : loadEntry package property header location mask type =
    match checkEntry package property header type with
    | .error error => throw error
    | .ok () =>
        if type.isBool then Load.update (Update.setBool location mask header.boolValue)
        else tryCatch (type.load package location mask) fun error =>
          throw (error.inProperty property) := by
  rw [loadEntry, checkEntry]
  cases type.accepts header.tag with
  | false => rfl
  | true =>
      cases type.struct? with
      | none => rfl
      | some layout =>
          cases header.structName with
          | none => rfl
          | some id =>
              cases hsame : sameName ((package.names.get? id).getD "?") layout.name with
              | false => simp [hsame]
              | true => simp [hsame]

/-- The element gets the value that the entry stands for. -/
theorem loadEntry_decodes (hresolved : type.Resolved) (hmask : type = .bool → mask ≠ 0) :
    Renews Filling.store (loadEntry package property header location mask type) type location mask
      False (Load.Decodes (type.decodeEntry package property header)) := by
  rw [loadEntry_eq, decodeEntry]
  split
  · next error _ =>
      refine ⟨.throw error, fun hrun _ _ _ howns _ => ?_⟩
      obtain ⟨rfl, rfl⟩ := Prod.mk.inj hrun
      exact ⟨_, _, howns, .refl _ _ _, rfl, rfl, nofun⟩
  · split
    · next hbool =>
        obtain rfl := eq_bool_of_isBool hbool
        refine (Load.update_renews (setBool_renews (hmask rfl) header.boolValue)).mono id ?_
        rintro _ _ _ _ _ ⟨hcursor, hok, rfl, -⟩
        exact .of_pure hcursor hok
    · refine ((load_decodes package hresolved hmask).reported
        (fun _ outcome _ => outcome.mapError (·.inProperty property)) fun state => ?_).mono id ?_
      · rw [runFrom_tryCatch]
        cases runFrom state (type.load package location mask) with
        | mk outcome after => cases outcome <;> rfl
      · rintro state _ after value slots ⟨_, rfl, rfl, hcursor, hvalue⟩
        rw [Load.Decodes, Decoder.runFrom_inProperty]
        cases hinner : runFrom state.cursor (type.decode package) with
        | mk result next =>
            rw [hinner] at hcursor hvalue
            cases result with
            | error cause => exact ⟨rfl, hcursor, by rintro _ ⟨⟩⟩
            | ok found => exact ⟨rfl, hcursor, hvalue⟩

theorem accepts_tag (type : PropertyType) : type.accepts type.tag = true := by
  cases type <;> rfl

theorem accepts_of_checkEntry (h : type.checkEntry package property header = .ok ()) :
    type.accepts header.tag = true := by
  rw [checkEntry] at h
  split at h
  · cases h
  · next haccepts => simpa using haccepts

/-- A bool is in the header, any other value is behind it. -/
theorem decodeEntry_cases {cursor next : Cursor} {value : Value}
    (h : runFrom cursor (type.decodeEntry package property header) = (.ok value, next)) :
    type = .bool ∧ value = .bool header.boolValue ∨
      header.tag ≠ .bool ∧ runFrom cursor (type.decode package) = (.ok value, next) := by
  rw [decodeEntry] at h
  split at h
  · cases h
  · next hcheck =>
      split at h
      · next hbool =>
          obtain ⟨hvalue, -⟩ := Prod.mk.inj h
          exact .inl ⟨eq_bool_of_isBool hbool, (Except.ok.inj hvalue).symm⟩
      · next hother =>
          have htag : header.tag ≠ .bool := by
            intro htag
            have haccepts := accepts_of_checkEntry hcheck
            rw [htag] at haccepts
            exact hother (by rw [eq_bool_of_accepts haccepts]; rfl)
          rw [Decoder.runFrom_inProperty] at h
          cases hdecode : runFrom cursor (type.decode package) with
          | mk outcome after =>
              rw [hdecode] at h
              obtain ⟨hvalue, rfl⟩ := Prod.mk.inj h
              cases outcome with
              | error error => cases hvalue
              | ok found =>
                  obtain rfl := Except.ok.inj hvalue
                  exact .inr ⟨htag, rfl⟩

/-- A header with the tag of the type, and with the name of its struct if it is one, is
accepted. -/
theorem checkEntry_ok (htag : header.tag = type.tag)
    (hstruct : ∀ layout ∈ type.struct?, ∀ id ∈ header.structName,
      package.names.Names id layout.name) :
    checkEntry package property header type = .ok () := by
  have haccepts : (!type.accepts header.tag) = false := by rw [htag, accepts_tag]; rfl
  rw [checkEntry]
  simp only [haccepts, Bool.false_eq_true, if_false]
  split
  · next layout id hlayout hid =>
      obtain ⟨text, htext, hsame⟩ := hstruct layout hlayout id hid
      simp [htext, hsame]
  · rfl

end PropertyType

/-- Whether a payload is as long as declared; a bool is declared to be any long. -/
def Load.checkSize (property : Property) (header : Header) (consumed : Nat) :
    Except PropertyError Unit :=
  if header.tag ≠ .bool ∧ consumed ≠ header.size.toNat then
    .error (.sizeMismatch property.name header.size.toNat consumed)
  else .ok ()

/-- The value of an entry for a property, whose array index has to be one of its own and
whose payload has to be as long as declared. -/
def Decoder.entry (package : Package) (property : Property) (header : Header) : Decoder Value := do
  let index := header.arrayIndex.toNat
  if property.dimension ≤ index then
    throw (.indexOutOfRange property.name index property.dimension)
  let start := (← get).pos
  let value ← property.type.decodeEntry package property.name header
  let consumed := (← get).pos - start
  if header.tag ≠ .bool ∧ consumed ≠ header.size.toNat then
    throw (.sizeMismatch property.name header.size.toNat consumed)
  return value

namespace Load

variable {package : Package} {property : Property} {header : Header}

theorem entry_blameless (package : Package) (property : Property) (header : Header) :
    Blameless (Decoder.entry package property header) := by
  rw [Decoder.entry]
  split
  · exact .fail id
  · refine Blameless.bind (fun _ _ _ h => by cases h) fun start => ?_
    refine (PropertyType.decodeEntry_blameless _ _ _ _).bind fun value => ?_
    refine Blameless.bind (fun _ _ _ h => by cases h) fun last => ?_
    dsimp only
    split
    · exact .fail id
    · exact .pure _

/-- An entry whose index is not one of the property is refused at once. -/
theorem runFrom_entry_outside (h : property.dimension ≤ header.arrayIndex.toNat) (state : Filling) :
    runFrom state (entry package property header) =
      (.error (.indexOutOfRange property.name header.arrayIndex.toNat property.dimension), state) := by
  rw [entry, if_pos h]
  rfl

theorem runFrom_entry (h : header.arrayIndex.toNat < property.dimension) (state : Filling) :
    runFrom state (entry package property header) =
      let stored := runFrom state (property.type.loadEntry package property.name header
        (Block.elementAt property header.arrayIndex.toNat) property.mask)
      (stored.1.bind fun _ => checkSize property header (stored.2.cursor.pos - state.cursor.pos),
        stored.2) := by
  rw [entry, if_neg (Nat.not_le_of_lt h), runFrom_bind_ok (runFrom_get _), runFrom_bind]
  cases runFrom state (property.type.loadEntry package property.name header
    (Block.elementAt property header.arrayIndex.toNat) property.mask) with
  | mk outcome after =>
      cases outcome with
      | error error => rfl
      | ok _ =>
          dsimp only
          rw [runFrom_bind_ok (runFrom_get _), Except.bind, checkSize]
          split <;> rfl

theorem runFrom_decodeEntry (h : header.arrayIndex.toNat < property.dimension) (cursor : Cursor) :
    runFrom cursor (Decoder.entry package property header) =
      let decoded := runFrom cursor (property.type.decodeEntry package property.name header)
      (decoded.1.bind fun value =>
        (checkSize property header (decoded.2.pos - cursor.pos)).map fun _ => value,
        decoded.2) := by
  rw [Decoder.entry, if_neg (Nat.not_le_of_lt h), runFrom_bind_ok (runFrom_get _), runFrom_bind]
  cases runFrom cursor (property.type.decodeEntry package property.name header) with
  | mk outcome next =>
      cases outcome with
      | error error => rfl
      | ok value =>
          dsimp only
          rw [runFrom_bind_ok (runFrom_get _), Except.bind, checkSize]
          split <;> rfl

/-- The element that an entry is for gets the value of the entry. -/
theorem entry_decodes (hindex : header.arrayIndex.toNat < property.dimension)
    (hresolved : property.type.Resolved) (hmask : property.type = .bool → property.mask ≠ 0) :
    Renews Filling.store (entry package property header) property.type
      (Block.elementAt property header.arrayIndex.toNat) property.mask False
      (Decodes (Decoder.entry package property header)) := by
  have hload := @PropertyType.loadEntry_decodes property.type
    (Block.elementAt property header.arrayIndex.toNat) property.mask package header property.name
    hresolved hmask
  -- the size of the payload is checked when the store is done with
  refine (hload.reported (fun state outcome after => outcome.bind fun _ =>
    checkSize property header (after.cursor.pos - state.cursor.pos)) (runFrom_entry hindex)).mono
      id ?_
  rintro state _ after value slots ⟨_, rfl, rfl, hcursor, hvalue⟩
  rw [Decodes, runFrom_decodeEntry hindex, hcursor]
  cases hinner : runFrom state.cursor (property.type.decodeEntry package property.name header) with
  | mk result next =>
      rw [hinner] at hvalue
      cases result with
      | error cause => exact ⟨rfl, rfl, by rintro _ ⟨⟩⟩
      | ok found =>
          cases hcheck : checkSize property header (next.pos - state.cursor.pos) with
          | error cause => simp [Except.map, Except.bind, hcheck]
          | ok _ => simp [Except.map, Except.bind, hcheck, hvalue found rfl]

end Load

end ObjectPackage
