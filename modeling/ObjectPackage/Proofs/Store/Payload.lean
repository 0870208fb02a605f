/-
Saved values.  The bytes of a value are those of its parts in order, behind a count
where there is a buffer.  Which values come back from their bytes is a matter of the
tables of the package and of the room for counts.
-/
import ObjectPackage.Proofs.Store.Query
import ObjectPackage.Proofs.Stream.Codec
import ObjectPackage.Store.Payload

namespace ObjectPackage

namespace PropertyType

mutual

/-- The fewest bytes that values of a type are saved as. -/
def leastSize : PropertyType → Nat
  | .int | .float => 4
  | .struct ⟨_, _, properties, _, _, _, _⟩ => leastMembers properties
  | .fixedArray element count => count * element.leastSize
  | _ => 1

def leastMembers : List Property → Nat
  | [] => 0
  | ⟨_, _, _, type, dimension, _, _, _⟩ :: rest =>
      dimension * type.leastSize + leastMembers rest

end

mutual

/-- Units of arrays and maps take at least one byte each, anywhere in a type. -/
def countable : PropertyType → Bool
  | .struct ⟨_, _, properties, _, _, _, _⟩ => countableMembers properties
  | .fixedArray element _ => element.countable
  | .array element => 0 < element.leastSize && element.countable
  | .map key value =>
      0 < key.leastSize + value.leastSize && (key.countable && value.countable)
  | _ => true

def countableMembers : List Property → Bool
  | [] => true
  | ⟨_, _, _, type, _, _, _, _⟩ :: rest => type.countable && countableMembers rest

end

mutual

/-- Names are in the table of a package, handles are of its objects, and counts fit. -/
def Portable (package : Package) : PropertyType → Value → Prop
  | _, .name id => id.index < package.names.size ∧ id.index < 2 ^ 31
  | _, .object handle => ∃ reference, package.objects.resolve reference = .ok handle
  | _, .str text => (utf16Units text).length + 1 < 2 ^ 31
  | .struct ⟨_, _, properties, _, _, _, _⟩, .struct members =>
      PortableMembers package properties members
  | .fixedArray element _, .array items => ∀ item ∈ items, element.Portable package item
  | .array element, .array items =>
      items.length < 2 ^ 31 ∧ ∀ item ∈ items, element.Portable package item
  | .map key value, .map entries =>
      entries.length < 2 ^ 31 ∧ ∀ entry ∈ entries,
        key.Portable package entry.key ∧ value.Portable package entry.value
  | _, _ => True

def PortableMembers (package : Package) : List Property → List MemberValue → Prop
  | ⟨_, _, _, type, _, _, _, _⟩ :: properties, member :: members =>
      (∀ value ∈ member.values, type.Portable package value) ∧
        PortableMembers package properties members
  | _, _ => True

end

/-- The bytes of values of some types, one after the other. -/
def encodeAll (types : List PropertyType) (values : List Value) : List UInt8 :=
  (types.zipWith encode values).flatten

variable {package : Package} {type : PropertyType} {types : List PropertyType}
  {values : List Value} {count : Nat}

theorem encodeAll_append {more : List PropertyType} {values' : List Value}
    (hlength : types.length = values.length) :
    encodeAll (types ++ more) (values ++ values') =
      encodeAll types values ++ encodeAll more values' := by
  rw [encodeAll, List.zipWith_append hlength, List.flatten_append]
  rfl

theorem encodeAll_replicate (hlength : values.length = count) :
    encodeAll (List.replicate count type) values = values.flatMap type.encode := by
  induction values generalizing count with
  | nil =>
      subst hlength
      rfl
  | cons value rest ih =>
      subst hlength
      have hrest := ih rfl
      rw [List.flatMap_cons, ← hrest]
      rfl

theorem memberTypes (member : Property) (rest : List Property) :
    (memberParts (member :: rest)).map Part.type =
      List.replicate member.dimension member.type ++ (memberParts rest).map Part.type := by
  rw [memberParts_cons, List.map_append, Property.parts, List.map_map]
  congr 1
  rw [List.eq_replicate_iff]
  simp

theorem elementTypes (element : PropertyType) (count : Nat) :
    (elementParts element count).map Part.type = List.replicate count element := by
  rw [elementParts, List.map_map, List.eq_replicate_iff]
  simp

theorem entryTypes (key value : PropertyType) (count : Nat) :
    (entryParts key value count).map Part.type =
      (List.replicate count [key, value]).flatten := by
  rw [entryParts, List.map_flatMap, List.flatMap]
  congr 1
  rw [List.eq_replicate_iff]
  simp [entryPair]

/-- The values of a member come first, those of the other members after them. -/
theorem length_member {member : Property} {rest : List Property}
    (hlength : values.length = (memberParts (member :: rest)).length) :
    (values.take member.dimension).length = member.dimension ∧
      (values.drop member.dimension).length = (memberParts rest).length := by
  rw [memberParts_cons, List.length_append, Property.parts, List.length_map,
    List.length_range] at hlength
  rw [List.length_take, List.length_drop]
  omega

theorem encodeMembers_gather {members : List Property}
    (hlength : values.length = (memberParts members).length) :
    encodeMembers members (gatherMembers members values) =
      encodeAll ((memberParts members).map Part.type) values := by
  induction members generalizing values with
  | nil => rfl
  | cons member rest ih =>
      obtain ⟨htake, hdrop⟩ := length_member hlength
      rw [memberTypes, ← List.take_append_drop member.dimension values,
        encodeAll_append (by rw [List.length_replicate, htake]), encodeAll_replicate htake,
        ← ih hdrop, List.take_append_drop]
      obtain ⟨_, _, _, _, _, _, _, _⟩ := member
      rfl

theorem exists_pair (hlength : values.length = 2 * (count + 1)) :
    ∃ first second rest, values = first :: second :: rest ∧ rest.length = 2 * count := by
  rcases values with _ | ⟨first, _ | ⟨second, rest⟩⟩
  · simp at hlength
  · simp only [List.length_cons, List.length_nil] at hlength
    omega
  · simp only [List.length_cons] at hlength
    exact ⟨first, second, rest, rfl, by omega⟩

theorem length_gatherEntries (hlength : values.length = 2 * count) :
    (gatherEntries values).length = count := by
  induction count generalizing values with
  | zero =>
      obtain rfl := List.length_eq_zero_iff.mp hlength
      rfl
  | succ count ih =>
      obtain ⟨first, second, rest, rfl, hrest⟩ := exists_pair hlength
      rw [gatherEntries, List.length_cons, ih hrest]

theorem encodeEntries_gather {key value : PropertyType} (hlength : values.length = 2 * count) :
    (gatherEntries values).flatMap (fun entry => key.encode entry.key ++ value.encode entry.value) =
      encodeAll (List.replicate count [key, value]).flatten values := by
  induction count generalizing values with
  | zero =>
      obtain rfl := List.length_eq_zero_iff.mp hlength
      rfl
  | succ count ih =>
      obtain ⟨first, second, rest, rfl, hrest⟩ := exists_pair hlength
      rw [gatherEntries, List.flatMap_cons, ih hrest, List.replicate_succ, List.append_assoc]
      rfl

/-- A value that lies inline is saved as its parts. -/
theorem encode_inline (hstorage : type.storage = .inline)
    (hlength : values.length = type.parts.length) :
    type.encode (type.gather values) = encodeAll (type.parts.map Part.type) values := by
  cases type with
  | struct layout =>
      obtain ⟨_, _, properties, _, _, _, _⟩ := layout
      exact encodeMembers_gather hlength
  | fixedArray element count =>
      rw [parts, elementTypes, encodeAll_replicate (by simpa [parts, elementParts] using hlength)]
      rfl
  | _ => cases hstorage

/-- A container is saved as the number of its units and their parts. -/
theorem encode_container (hstorage : type.storage = .container)
    (hlength : values.length = (type.unitParts count).length) :
    type.encode (type.gather values) =
      Encode.index (Int32.ofNat count) ++ encodeAll ((type.unitParts count).map Part.type) values := by
  cases type with
  | array element =>
      have hcount : values.length = count := by simpa [unitParts, elementParts] using hlength
      rw [unitParts, elementTypes, encodeAll_replicate hcount, ← hcount]
      rfl
  | map key value =>
      have hcount : values.length = 2 * count := by rw [hlength, unitParts, length_entryParts]
      rw [unitParts, entryTypes, ← encodeEntries_gather hcount, ← length_gatherEntries hcount]
      rfl
  | _ => cases hstorage

section Portable

theorem portable_replicate (hlength : values.length = count)
    (h : ∀ value ∈ values, type.Portable package value) :
    List.Forall₂ (Portable package) (List.replicate count type) values := by
  induction values generalizing count with
  | nil =>
      subst hlength
      exact .nil
  | cons value rest ih =>
      subst hlength
      exact .cons (h value List.mem_cons_self)
        (ih rfl fun value hvalue => h value (List.mem_cons_of_mem _ hvalue))

theorem portableMembers_gather {members : List Property}
    (hlength : values.length = (memberParts members).length)
    (h : PortableMembers package members (gatherMembers members values)) :
    List.Forall₂ (Portable package) ((memberParts members).map Part.type) values := by
  induction members generalizing values with
  | nil =>
      obtain rfl := List.length_eq_zero_iff.mp hlength
      exact .nil
  | cons member rest ih =>
      obtain ⟨htake, hdrop⟩ := length_member hlength
      rw [memberTypes, ← List.take_append_drop member.dimension values]
      obtain ⟨_, _, _, _, _, _, _, _⟩ := member
      exact List.rel_append (portable_replicate htake h.1) (ih hdrop h.2)

theorem portableEntries_gather {key value : PropertyType} (hlength : values.length = 2 * count)
    (h : ∀ entry ∈ gatherEntries values,
      key.Portable package entry.key ∧ value.Portable package entry.value) :
    List.Forall₂ (Portable package) (List.replicate count [key, value]).flatten values := by
  induction count generalizing values with
  | zero =>
      obtain rfl := List.length_eq_zero_iff.mp hlength
      exact .nil
  | succ count ih =>
      obtain ⟨first, second, rest, rfl, hrest⟩ := exists_pair hlength
      obtain ⟨hkey, hvalue⟩ := h ⟨first, second⟩ List.mem_cons_self
      exact .cons hkey (.cons hvalue (ih hrest fun entry hentry =>
        h entry (List.mem_cons_of_mem _ hentry)))

theorem portable_inline (hstorage : type.storage = .inline)
    (hlength : values.length = type.parts.length) (h : type.Portable package (type.gather values)) :
    List.Forall₂ (Portable package) (type.parts.map Part.type) values := by
  cases type with
  | struct layout =>
      obtain ⟨_, _, properties, _, _, _, _⟩ := layout
      exact portableMembers_gather hlength h
  | fixedArray element count =>
      rw [parts, elementTypes]
      exact portable_replicate (by simpa [parts, elementParts] using hlength) h
  | _ => cases hstorage

theorem portable_container (hstorage : type.storage = .container)
    (hlength : values.length = (type.unitParts count).length)
    (h : type.Portable package (type.gather values)) :
    count < 2 ^ 31 ∧
      List.Forall₂ (Portable package) ((type.unitParts count).map Part.type) values := by
  cases type with
  | array element =>
      have hcount : values.length = count := by simpa [unitParts, elementParts] using hlength
      obtain ⟨hfits, hall⟩ := h
      rw [unitParts, elementTypes]
      exact ⟨hcount ▸ hfits, portable_replicate hcount hall⟩
  | map key value =>
      have hcount : values.length = 2 * count := by rw [hlength, unitParts, length_entryParts]
      obtain ⟨hfits, hall⟩ := h
      rw [length_gatherEntries hcount] at hfits
      rw [unitParts, entryTypes]
      exact ⟨hfits, portableEntries_gather hcount hall⟩
  | _ => cases hstorage

/-- More names do no harm. -/
theorem Portable.mono {next : Package} (hnames : package.names.size ≤ next.names.size)
    (hobjects : package.objects = next.objects) (type : PropertyType) (value : Value) :
    type.Portable package value → type.Portable next value := by
  refine @Portable.induct
    (fun type value => type.Portable package value → type.Portable next value)
    (fun members values => PortableMembers package members values →
      PortableMembers next members values) ?_ ?_ ?_ ?_ ?_ ?_ ?_ ?_ ?_ ?_ type value
  · intro type id h
    simp only [Portable] at h ⊢
    exact ⟨Nat.lt_of_lt_of_le h.1 hnames, h.2⟩
  · intro type handle h
    simp only [Portable] at h ⊢
    rwa [← hobjects]
  · intro type text h
    simp only [Portable] at h ⊢
    exact h
  · intro _ _ _ _ _ _ _ _ ih h
    simp only [Portable] at h ⊢
    exact ih h
  · intro element count items ih h
    simp only [Portable] at h ⊢
    exact fun item hitem => ih item (h item hitem)
  · intro element items ih h
    simp only [Portable] at h ⊢
    exact ⟨h.1, fun item hitem => ih item (h.2 item hitem)⟩
  · intro key value entries ihkey ihvalue h
    simp only [Portable] at h ⊢
    exact ⟨h.1, fun entry hentry => ⟨ihkey entry (h.2 entry hentry).1,
      ihvalue entry (h.2 entry hentry).2⟩⟩
  · intro type value hname hobject htext hstruct hfixed harray hmap _
    unfold Portable
    split
    · exact (hname _ rfl).elim
    · exact (hobject _ rfl).elim
    · exact (htext _ rfl).elim
    · exact (hstruct _ _ _ _ _ _ _ _ rfl rfl).elim
    · exact (hfixed _ _ _ rfl rfl).elim
    · exact (harray _ _ rfl rfl).elim
    · exact (hmap _ _ _ rfl rfl).elim
    · trivial
  · intro _ _ _ _ _ _ _ _ _ _ _ ihtype ihrest h
    simp only [PortableMembers] at h ⊢
    exact ⟨fun value hvalue => ihtype value (h.1 value hvalue), ihrest h.2⟩
  · intro members values hmember _
    unfold PortableMembers
    split
    · exact (hmember _ _ _ _ _ _ _ _ _ _ _ rfl rfl).elim
    · trivial
end Portable

section Countable

theorem countable_member {members : List Property} (h : countableMembers members = true)
    {member : Property} (hmember : member ∈ members) : member.type.countable = true := by
  induction members with
  | nil => cases hmember
  | cons first rest ih =>
      obtain ⟨_, _, _, _, _, _, _, _⟩ := first
      obtain ⟨hfirst, hrest⟩ := Bool.and_eq_true_iff.mp h
      rcases List.mem_cons.mp hmember with rfl | hmember
      · exact hfirst
      · exact ih hrest hmember

theorem countable_parts (hstorage : type.storage = .inline) (h : type.countable = true) :
    ∀ part ∈ type.parts, part.type.countable = true := by
  intro part hpart
  cases type with
  | struct layout =>
      obtain ⟨_, _, properties, _, _, _, _⟩ := layout
      obtain ⟨member, hmember, hpart⟩ := mem_memberParts.mp hpart
      obtain ⟨_, _, rfl⟩ := mem_parts.mp hpart
      exact countable_member h hmember
  | fixedArray element count =>
      obtain ⟨_, _, rfl⟩ := mem_elementParts.mp hpart
      exact h
  | _ => cases hstorage

/-- The units of a container are countable, and none of them is saved as nothing. -/
theorem countable_unitParts (hstorage : type.storage = .container) (h : type.countable = true) :
    (∀ part ∈ type.unitParts count, part.type.countable = true) ∧
      count ≤ (((type.unitParts count).map Part.type).map leastSize).sum := by
  cases type with
  | array element =>
      obtain ⟨hleast, helement⟩ := Bool.and_eq_true_iff.mp h
      have hleast : 0 < element.leastSize := of_decide_eq_true hleast
      refine ⟨fun part hpart => ?_, ?_⟩
      · obtain ⟨_, _, rfl⟩ := mem_elementParts.mp hpart
        exact helement
      · rw [unitParts, elementTypes, List.map_replicate, List.sum_replicate]
        exact Nat.le_mul_of_pos_right count hleast
  | map key value =>
      obtain ⟨hleast, hboth⟩ := Bool.and_eq_true_iff.mp h
      obtain ⟨hkey, hvalue⟩ := Bool.and_eq_true_iff.mp hboth
      have hleast : 0 < key.leastSize + value.leastSize := of_decide_eq_true hleast
      refine ⟨fun part hpart => ?_, ?_⟩
      · obtain ⟨_, _, hpart⟩ := mem_entryParts.mp hpart
        simp only [entryPair, List.mem_cons, List.not_mem_nil, or_false] at hpart
        rcases hpart with rfl | rfl
        · exact hkey
        · exact hvalue
      · rw [unitParts, entryTypes, List.map_flatten, List.sum_flatten, List.map_replicate,
          List.map_replicate, List.sum_replicate]
        refine Nat.le_mul_of_pos_right count ?_
        simpa using hleast
  | _ => cases hstorage

end Countable

section Least

theorem length_index_pos (value : Int32) : 1 ≤ (Encode.index value).length :=
  Nat.le_add_left 1 _

theorem leastMembers_eq (members : List Property) :
    leastMembers members = (((memberParts members).map Part.type).map leastSize).sum := by
  induction members with
  | nil => rfl
  | cons member rest ih =>
      rw [memberTypes, List.map_append, List.sum_append, List.map_replicate, List.sum_replicate, ← ih]
      obtain ⟨_, _, _, _, _, _, _, _⟩ := member
      rfl

theorem leastSize_inline (hstorage : type.storage = .inline) :
    type.leastSize = ((type.parts.map Part.type).map leastSize).sum := by
  cases type with
  | struct layout =>
      obtain ⟨_, _, properties, _, _, _, _⟩ := layout
      exact leastMembers_eq properties
  | fixedArray element count =>
      rw [parts, elementTypes, List.map_replicate, List.sum_replicate]
      rfl
  | _ => cases hstorage

theorem leastSum_le (h : List.Forall₂ (fun type value => leastSize type ≤ (type.encode value).length)
    types values) : (types.map leastSize).sum ≤ (encodeAll types values).length := by
  induction h with
  | nil => exact Nat.le_refl _
  | @cons type value types values hfirst hrest ih =>
      have hbytes : encodeAll (type :: types) (value :: values) =
          type.encode value ++ encodeAll types values := rfl
      rw [List.map_cons, List.sum_cons, hbytes, List.length_append]
      exact Nat.add_le_add hfirst ih

/-- The value is held somewhere. -/
def Held (type : PropertyType) (value : Value) : Prop :=
  ∃ (store : Store) (location : Location) (mask : UInt32) (slots : List Nat),
    store.Holds type location mask value slots

theorem held_all {store : Store} {location : Location} {parts : List Part} {slots : List Nat}
    (h : store.HoldsAll location parts values slots) :
    List.Forall₂ Held (parts.map Part.type) values := by
  induction parts generalizing values slots with
  | nil =>
      cases h
      exact .nil
  | cons part parts ih =>
      cases h with
      | cons hfirst hrest => exact .cons ⟨store, _, _, _, hfirst⟩ (ih hrest)

theorem Held.inline {value : Value} (h : Held type value) (hstorage : type.storage = .inline) :
    ∃ values, value = type.gather values ∧ List.Forall₂ Held (type.parts.map Part.type) values := by
  obtain ⟨store, location, mask, slots, hholds⟩ := h
  obtain ⟨-, values, rfl, hparts⟩ := (Store.holds_inline hstorage).mp hholds
  exact ⟨values, rfl, held_all hparts⟩

theorem Held.container {value : Value} (h : Held type value) (hstorage : type.storage = .container) :
    ∃ count values, value = type.gather values ∧
      List.Forall₂ Held ((type.unitParts count).map Part.type) values := by
  obtain ⟨store, location, mask, slots, hholds⟩ := h
  obtain ⟨slot, count, values, inner, -, hunits, rfl⟩ := hholds.units hstorage
  exact ⟨count, values, rfl, held_all hunits⟩

theorem length_of_held {parts : List Part} {R : PropertyType → Value → Prop}
    (h : List.Forall₂ R (parts.map Part.type) values) : values.length = parts.length := by
  rw [← h.length_eq, List.length_map]

theorem leastSize_le {value : Value} (h : Held type value) :
    type.leastSize ≤ (type.encode value).length := by
  induction type using PropertyType.induction_on generalizing value with
  | scalar type hstorage =>
      obtain ⟨store, location, mask, slots, hholds⟩ := h
      obtain ⟨bytes, -, rfl, -⟩ := (Store.holds_scalar hstorage).mp hholds
      cases type with
      | byte => exact Nat.le_refl 1
      | int => exact Nat.le_of_eq (length_littleEndian 4 _).symm
      | float => exact Nat.le_of_eq (length_littleEndian 4 _).symm
      | name => exact length_index_pos _
      | object _ => exact length_index_pos _
      | classRef _ => exact length_index_pos _
      | _ => cases hstorage
  | bits =>
      obtain ⟨store, location, mask, slots, hholds⟩ := h
      obtain ⟨set, -, rfl, -⟩ := Store.holds_bool.mp hholds
      exact Nat.le_refl 1
  | text =>
      obtain ⟨store, location, mask, slots, hholds⟩ := h
      obtain ⟨text, -, rfl⟩ := hholds.ownedText
      change 1 ≤ (Encode.string text).length
      rw [Encode.string]
      split
      · exact length_index_pos 0
      · split
        · rw [List.length_append]
          exact Nat.le_trans (length_index_pos _) (Nat.le_add_right _ _)
        · rw [List.length_append]
          exact Nat.le_trans (length_index_pos _) (Nat.le_add_right _ _)
  | inline type hstorage ih =>
      obtain ⟨values, rfl, hparts⟩ := h.inline hstorage
      rw [encode_inline hstorage (length_of_held hparts), leastSize_inline hstorage]
      refine leastSum_le (List.forall₂_iff_zip.mpr ⟨hparts.length_eq, fun htype => ?_⟩)
      obtain ⟨part, hpart, rfl⟩ := List.mem_map.mp (List.of_mem_zip htype).1
      exact ih part hpart (List.forall₂_zip hparts htype)
  | container type hstorage _ =>
      obtain ⟨count, values, rfl, hunits⟩ := h.container hstorage
      have hleast : type.leastSize = 1 := by cases type <;> first | rfl | cases hstorage
      rw [encode_container hstorage (length_of_held hunits), hleast, List.length_append]
      exact Nat.le_trans (length_index_pos _) (Nat.le_add_right _ _)

end Least

/-- The value comes back from the bytes it is saved as. -/
structure Savable (package : Package) (type : PropertyType) (value : Value) : Prop where
  countable : type.countable = true
  portable : type.Portable package value
  held : Held type value

theorem savable_all {parts : List Part} (hcountable : ∀ part ∈ parts, part.type.countable = true)
    (hportable : List.Forall₂ (Portable package) (parts.map Part.type) values)
    (hheld : List.Forall₂ Held (parts.map Part.type) values) :
    List.Forall₂ (Savable package) (parts.map Part.type) values := by
  refine List.forall₂_iff_zip.mpr ⟨hheld.length_eq, fun hpair => ?_⟩
  obtain ⟨part, hpart, rfl⟩ := List.mem_map.mp (List.of_mem_zip hpair).1
  exact ⟨hcountable part hpart, List.forall₂_zip hportable hpair, List.forall₂_zip hheld hpair⟩

theorem Savable.inline {value : Value} (h : Savable package type value)
    (hstorage : type.storage = .inline) : ∃ values, value = type.gather values ∧
      List.Forall₂ (Savable package) (type.parts.map Part.type) values := by
  obtain ⟨values, rfl, hparts⟩ := h.held.inline hstorage
  refine ⟨values, rfl, savable_all (countable_parts hstorage h.countable) ?_ hparts⟩
  exact portable_inline hstorage (length_of_held hparts) h.portable

theorem Savable.container {value : Value} (h : Savable package type value)
    (hstorage : type.storage = .container) : ∃ count values, value = type.gather values ∧
      count < 2 ^ 31 ∧ count ≤ (encodeAll ((type.unitParts count).map Part.type) values).length ∧
      List.Forall₂ (Savable package) ((type.unitParts count).map Part.type) values := by
  obtain ⟨count, values, rfl, hunits⟩ := h.held.container hstorage
  obtain ⟨hcountable, hcount⟩ := @countable_unitParts _ count hstorage h.countable
  obtain ⟨hfits, hportable⟩ := portable_container hstorage (length_of_held hunits) h.portable
  refine ⟨count, values, rfl, hfits, Nat.le_trans hcount (leastSum_le ?_),
    savable_all hcountable hportable hunits⟩
  exact hunits.imp fun _ _ => leastSize_le

end PropertyType

end ObjectPackage
