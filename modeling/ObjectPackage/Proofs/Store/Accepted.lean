/-
What is read can be written.  A value that was decoded refers to names and objects of the
package alone, and its texts and counts fit the forms that they are saved in; so does the
default of every type, as long as there is a name at all.
-/
import ObjectPackage.Proofs.Store.Relocate
import ObjectPackage.Proofs.Stream.Text

namespace ObjectPackage

/-- A handle that is read is what some reference is resolved to. -/
theorem Read.handle_resolved {objects : ObjectTable} {cursor next : Cursor} {found : ObjectHandle}
    (h : runFrom cursor (Read.handle objects) = (.ok found, next)) :
    ∃ reference, objects.resolve reference = .ok found := by
  obtain ⟨reference, middle, -, hrest⟩ := runFrom_bind_eq_ok.mp h
  split at hrest
  · next other hresolve =>
      obtain ⟨hfound, -⟩ := Prod.mk.inj hrest
      obtain rfl := Except.ok.inj hfound
      exact ⟨reference, hresolve⟩
  · cases hrest

namespace PropertyType

variable {package : Package} {type : PropertyType} {types : List PropertyType}
  {values : List Value} {count : Nat}

section Gather

theorem forall_of_replicate {α β : Type} {R : α → β → Prop} {item : α} {others : List β}
    (h : List.Forall₂ R (List.replicate count item) others) : ∀ other ∈ others, R item other := by
  induction others generalizing count with
  | nil => exact nofun
  | cons other others ih =>
      cases count with
      | zero => cases h
      | succ count =>
          obtain ⟨hfirst, hrest⟩ := List.forall₂_cons.mp h
          exact List.forall_mem_cons.mpr ⟨hfirst, ih hrest⟩

theorem portableMembers_of_parts {members : List Property}
    (h : List.Forall₂ (Portable package) ((memberParts members).map Part.type) values) :
    PortableMembers package members (gatherMembers members values) := by
  induction members generalizing values with
  | nil => trivial
  | cons member rest ih =>
      rw [memberTypes] at h
      have htake := List.forall₂_take member.dimension h
      have hdrop := List.forall₂_drop member.dimension h
      rw [List.take_left' List.length_replicate] at htake
      rw [List.drop_left' List.length_replicate] at hdrop
      have hmember := forall_of_replicate htake
      have hrest := ih hdrop
      obtain ⟨_, _, _, _, _, _, _, _⟩ := member
      exact ⟨hmember, hrest⟩

theorem entries_of_parts {R : PropertyType → Value → Prop} {key value : PropertyType}
    (h : List.Forall₂ R (List.replicate count [key, value]).flatten values) :
    ∀ entry ∈ gatherEntries values, R key entry.key ∧ R value entry.value := by
  induction count generalizing values with
  | zero =>
      cases h
      exact nofun
  | succ count ih =>
      obtain ⟨first, others, hfirst, hothers, rfl⟩ := List.forall₂_cons_left_iff.mp h
      obtain ⟨second, others, hsecond, hrest, rfl⟩ := List.forall₂_cons_left_iff.mp hothers
      exact List.forall_mem_cons.mpr ⟨⟨hfirst, hsecond⟩, ih hrest⟩

/-- A value whose parts are portable is portable. -/
theorem portable_of_parts (hstorage : type.storage = .inline)
    (h : List.Forall₂ (Portable package) (type.parts.map Part.type) values) :
    type.Portable package (type.gather values) := by
  cases type with
  | struct layout =>
      obtain ⟨_, _, properties, _, _, _, _⟩ := layout
      exact portableMembers_of_parts h
  | fixedArray element count =>
      rw [parts, elementTypes] at h
      exact forall_of_replicate h
  | _ => cases hstorage

/-- So is a container whose units are, unless there are too many. -/
theorem portable_of_units (hstorage : type.storage = .container) (hcount : count < 2 ^ 31)
    (h : List.Forall₂ (Portable package) ((type.unitParts count).map Part.type) values) :
    type.Portable package (type.gather values) := by
  have hlength := length_of_held h
  cases type with
  | array element =>
      have hitems : values.length = count := by simpa [unitParts, elementParts] using hlength
      rw [unitParts, elementTypes] at h
      exact ⟨hitems ▸ hcount, forall_of_replicate h⟩
  | map key value =>
      rw [unitParts, length_entryParts] at hlength
      rw [unitParts, entryTypes] at h
      exact ⟨(length_gatherEntries hlength).symm ▸ hcount, entries_of_parts h⟩
  | _ => cases hstorage

end Gather

/-- The default of a name is the first one, and the default of an object is none. -/
theorem defaultValue_portable (hnames : 0 < package.names.size) (type : PropertyType) :
    type.Portable package type.defaultValue := by
  induction type using PropertyType.induction_on with
  | scalar type hstorage =>
      cases type with
      | name => exact ⟨hnames, by decide⟩
      | object _ => exact ⟨.null, rfl⟩
      | classRef _ => exact ⟨.null, rfl⟩
      | byte => trivial
      | int => trivial
      | float => trivial
      | _ => cases hstorage
  | bits => trivial
  | text => exact show (utf16Units "").length + 1 < 2 ^ 31 by decide
  | inline type hstorage ih =>
      rw [← gather_defaults hstorage]
      refine portable_of_parts hstorage ?_
      rw [List.forall₂_map_left_iff, List.forall₂_map_right_iff, List.forall₂_same]
      exact ih
  | container type hstorage _ =>
      have hnone : type.unitParts 0 = [] := by cases type <;> rfl
      rw [← gather_nil hstorage]
      have hunits : List.Forall₂ (Portable package) ((type.unitParts 0).map Part.type) [] := by
        rw [hnone]
        exact .nil
      exact portable_of_units hstorage (by decide) hunits

section Decode

variable {cursor next : Cursor}

theorem runFrom_read_eq_ok {α : Type} {action : Read α} {value : α}
    (h : runFrom cursor (Decoder.read action) = (.ok value, next)) :
    runFrom cursor action = (.ok value, next) := by
  rw [Decoder.runFrom_read] at h
  cases hrun : runFrom cursor action with
  | mk result last =>
      rw [hrun] at h
      cases result with
      | ok found => simpa using h
      | error error => cases h

theorem count_fits (h : runFrom cursor Decoder.count = (.ok count, next)) :
    count < 2 ^ 31 := by
  obtain ⟨found, middle, -, hrest⟩ := runFrom_bind_eq_ok.mp h
  have hfound := found.toInt_lt
  simp only [runFrom_bind, runFrom_get] at hrest
  split at hrest
  · cases hrest
  · next hrange =>
      obtain ⟨hcount, -⟩ := Prod.mk.inj hrest
      obtain rfl := Except.ok.inj hcount
      omega

/-- Values that are decoded from less than `2 ^ 32` bytes are each decoded from less. -/
theorem decodeAll_portable
    (ih : ∀ type ∈ types, ∀ ⦃cursor value next⦄,
      runFrom cursor (type.decode package) = (.ok value, next) →
      cursor.rest.length < next.rest.length + 2 ^ 32 → type.Portable package value)
    (h : runFrom cursor (decodeAll package types) = (.ok values, next))
    (hshort : cursor.rest.length < next.rest.length + 2 ^ 32) :
    List.Forall₂ (Portable package) types values := by
  induction types generalizing cursor values with
  | nil =>
      obtain ⟨hvalues, -⟩ := Prod.mk.inj h
      obtain rfl := Except.ok.inj hvalues
      exact .nil
  | cons type types ihtypes =>
      obtain ⟨hfirst, hothers⟩ := List.forall_mem_cons.mp ih
      obtain ⟨value, middle, hvalue, hrest⟩ := runFrom_bind_eq_ok.mp h
      obtain ⟨others, hvalues, rfl⟩ := runFrom_map_eq_ok.mp hrest
      have hlength := (relocates_decode package type).length_le hvalue
      have hmore := (relocates_decodeAll fun type _ => relocates_decode package type).length_le
        hvalues
      exact .cons (hfirst hvalue (by omega)) (ihtypes hothers hvalues (by omega))

/-- A value that was decoded from less than `2 ^ 32` bytes can be saved. -/
theorem decode_portable {value : Value}
    (h : runFrom cursor (type.decode package) = (.ok value, next))
    (hshort : cursor.rest.length < next.rest.length + 2 ^ 32) : type.Portable package value := by
  induction type using PropertyType.induction_on generalizing cursor value next with
  | scalar type hstorage =>
      cases type with
      | name =>
          obtain ⟨id, hid, rfl⟩ := runFrom_map_eq_ok.mp h
          exact Read.name_index_range (runFrom_read_eq_ok hid)
      | object _ =>
          obtain ⟨handle, hhandle, rfl⟩ := runFrom_map_eq_ok.mp h
          exact Read.handle_resolved (runFrom_read_eq_ok hhandle)
      | classRef _ =>
          obtain ⟨handle, hhandle, rfl⟩ := runFrom_map_eq_ok.mp h
          exact Read.handle_resolved (runFrom_read_eq_ok hhandle)
      | byte =>
          obtain ⟨byte, -, rfl⟩ := runFrom_map_eq_ok.mp h
          trivial
      | int =>
          obtain ⟨word, -, rfl⟩ := runFrom_map_eq_ok.mp h
          trivial
      | float =>
          obtain ⟨bits, -, rfl⟩ := runFrom_map_eq_ok.mp h
          trivial
      | _ => cases hstorage
  | bits =>
      obtain ⟨byte, -, rfl⟩ := runFrom_map_eq_ok.mp h
      trivial
  | text =>
      obtain ⟨text, htext, rfl⟩ := runFrom_map_eq_ok.mp h
      exact Read.string_fits (runFrom_read_eq_ok htext) hshort
  | inline type hstorage ih =>
      rw [decode_inline hstorage] at h
      obtain ⟨values, hvalues, rfl⟩ := runFrom_map_eq_ok.mp h
      refine portable_of_parts hstorage (decodeAll_portable (fun inner hinner => ?_) hvalues hshort)
      obtain ⟨part, hpart, rfl⟩ := List.mem_map.mp hinner
      exact fun _ _ _ => ih part hpart
  | container type hstorage ih =>
      rw [decode_container hstorage] at h
      obtain ⟨count, middle, hcount, hrest⟩ := runFrom_bind_eq_ok.mp h
      obtain ⟨values, hvalues, rfl⟩ := runFrom_map_eq_ok.mp hrest
      have hlength := Decoder.relocates_count.length_le hcount
      refine portable_of_units hstorage (count_fits hcount)
        (decodeAll_portable (fun inner hinner => ?_) hvalues (by omega))
      obtain ⟨part, hpart, rfl⟩ := List.mem_map.mp hinner
      exact fun _ _ _ => ih count part hpart

end Decode

end PropertyType

namespace Value

/-- A value stands in another one, at any depth. -/
inductive Inside (part : Value) : Value → Prop
  | self : Inside part part
  | item {items : List Value} {item : Value} (hitem : item ∈ items) (h : Inside part item) :
      Inside part (.array items)
  | key {entries : List EntryValue} {entry : EntryValue} (hentry : entry ∈ entries)
      (h : Inside part entry.key) : Inside part (.map entries)
  | value {entries : List EntryValue} {entry : EntryValue} (hentry : entry ∈ entries)
      (h : Inside part entry.value) : Inside part (.map entries)
  | member {members : List MemberValue} {member : MemberValue} {value : Value}
      (hmember : member ∈ members) (hvalue : value ∈ member.values) (h : Inside part value) :
      Inside part (.struct members)

/-- A name is in the table of the package, and an object is what a reference is resolved to,
which is no object for the reference to none. -/
def Known (package : Package) : Value → Prop
  | .name id => id.index < package.names.size
  | .object handle => ∃ reference, package.objects.resolve reference = .ok handle
  | _ => True

theorem mem_of_mem_gatherMembers {members : List Property} {values : List Value}
    {member : MemberValue} (hmember : member ∈ PropertyType.gatherMembers members values)
    {value : Value} (hvalue : value ∈ member.values) : value ∈ values := by
  induction members generalizing values with
  | nil => cases hmember
  | cons first rest ih =>
      rcases List.mem_cons.mp hmember with rfl | hmember
      · exact List.mem_of_mem_take hvalue
      · exact List.mem_of_mem_drop (ih hmember)

theorem mem_of_mem_gatherEntries {values : List Value} {entry : EntryValue}
    (hentry : entry ∈ PropertyType.gatherEntries values) :
    entry.key ∈ values ∧ entry.value ∈ values := by
  fun_induction PropertyType.gatherEntries values with
  | case1 key value rest ih =>
      rcases List.mem_cons.mp hentry with rfl | hentry
      · exact ⟨List.mem_cons_self, List.mem_cons_of_mem _ List.mem_cons_self⟩
      · obtain ⟨hkey, hvalue⟩ := ih hentry
        exact ⟨List.mem_cons_of_mem _ (List.mem_cons_of_mem _ hkey),
          List.mem_cons_of_mem _ (List.mem_cons_of_mem _ hvalue)⟩
  | case2 => cases hentry

/-- What stands in a value that is made of others is that value or stands in one of them. -/
theorem Inside.of_gather {type : PropertyType} {values : List Value} {part : Value}
    (h : part.Inside (type.gather values)) :
    part = type.gather values ∨ ∃ value ∈ values, part.Inside value := by
  cases type with
  | struct layout =>
      cases h with
      | self => exact .inl rfl
      | member hmember hvalue h => exact .inr ⟨_, mem_of_mem_gatherMembers hmember hvalue, h⟩
  | map key value =>
      cases h with
      | self => exact .inl rfl
      | key hentry h => exact .inr ⟨_, (mem_of_mem_gatherEntries hentry).1, h⟩
      | value hentry h => exact .inr ⟨_, (mem_of_mem_gatherEntries hentry).2, h⟩
  | _ =>
      cases h with
      | self => exact .inl rfl
      | item hitem h => exact .inr ⟨_, hitem, h⟩

theorem known_gather (package : Package) (type : PropertyType) (values : List Value) :
    Known package (type.gather values) := by
  cases type <;> trivial

end Value

namespace PropertyType

variable {package : Package} {type : PropertyType}

theorem Portable.known_all {parts : List Part} {values : List Value}
    (hportable : List.Forall₂ (Portable package) (parts.map Part.type) values)
    (hheld : List.Forall₂ Held (parts.map Part.type) values)
    (ih : ∀ part ∈ parts, ∀ ⦃value⦄, part.type.Portable package value → Held part.type value →
      ∀ inner : Value, inner.Inside value → inner.Known package) :
    ∀ value ∈ values, ∀ inner : Value, inner.Inside value → inner.Known package := by
  induction parts generalizing values with
  | nil =>
      cases hheld
      exact nofun
  | cons part parts ihparts =>
      obtain ⟨hfirst, hothers⟩ := List.forall_mem_cons.mp ih
      cases hheld with
      | cons hheld hrest =>
          cases hportable with
          | cons hportable hportables =>
              exact List.forall_mem_cons.mpr
                ⟨hfirst hportable hheld, ihparts hportables hrest hothers⟩

/-- Names and objects anywhere in a portable value are those of the package. -/
theorem Portable.known {value : Value} (h : type.Portable package value) (hheld : type.Held value) :
    ∀ inner : Value, inner.Inside value → inner.Known package := by
  induction type using PropertyType.induction_on generalizing value with
  | scalar type hstorage =>
      obtain ⟨store, location, mask, slots, hholds⟩ := hheld
      obtain ⟨bytes, -, rfl, -⟩ := (Store.holds_scalar hstorage).mp hholds
      intro inner hinner
      cases type with
      | name =>
          cases hinner
          exact h.1
      | object _ =>
          cases hinner
          exact h
      | classRef _ =>
          cases hinner
          exact h
      | byte =>
          cases hinner
          trivial
      | int =>
          cases hinner
          trivial
      | float =>
          cases hinner
          trivial
      | _ => cases hstorage
  | bits =>
      obtain ⟨store, location, mask, slots, hholds⟩ := hheld
      obtain ⟨set, -, rfl, -⟩ := Store.holds_bool.mp hholds
      rintro _ ⟨⟩
      trivial
  | text =>
      obtain ⟨store, location, mask, slots, hholds⟩ := hheld
      obtain ⟨text, -, rfl⟩ := hholds.ownedText
      rintro _ ⟨⟩
      trivial
  | inline type hstorage ih =>
      obtain ⟨values, rfl, hparts⟩ := hheld.inline hstorage
      intro inner hinner
      rcases hinner.of_gather with rfl | ⟨value, hvalue, hinner⟩
      · exact Value.known_gather package type values
      · exact Portable.known_all (portable_inline hstorage (length_of_held hparts) h) hparts
          (fun part hpart _ => ih part hpart) value hvalue inner hinner
  | container type hstorage ih =>
      obtain ⟨count, values, rfl, hunits⟩ := hheld.container hstorage
      intro inner hinner
      rcases hinner.of_gather with rfl | ⟨value, hvalue, hinner⟩
      · exact Value.known_gather package type values
      · exact Portable.known_all (portable_container hstorage (length_of_held hunits) h).2 hunits
          (fun part hpart _ => ih count part hpart) value hvalue inner hinner

end PropertyType

end ObjectPackage
