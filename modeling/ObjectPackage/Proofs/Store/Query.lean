/-
Reading values back.  A location that holds a value yields it, and two locations compare
equal exactly when they hold the same value.  No query of a value that is held fails.
-/
import ObjectPackage.Proofs.Store.Lifecycle

namespace ObjectPackage

namespace Store

variable {store left right : Store} {type : PropertyType} {location leftAt rightAt : Location}
  {parts : List Part} {values values' : List Value} {slots slots' : List Nat} {slot count : Nat}

theorem container_none (h : store.handle location = .ok none) :
    store.container location = .ok (0, 0) := by
  rw [container, container?_none h]
  rfl

theorem Buffer.container (h : store.Buffer type location slot count) :
    store.container location = .ok (slot, count) := by
  rw [Store.container, h.container?]
  rfl

/-- A container without a buffer is read as one of no units. -/
theorem Holds.units {mask : UInt32} {value : Value}
    (h : store.Holds type location mask value slots) (hstorage : type.storage = .container) :
    ∃ slot count values inner, store.container location = .ok (slot, count) ∧
      store.HoldsAll (.element slot 0) (type.unitParts count) values inner ∧
      value = type.gather values := by
  rcases (holds_container hstorage).mp h with ⟨hhandle, rfl, -⟩ |
    ⟨slot, count, values, inner, hbuffer, hunits, rfl, -⟩
  · refine ⟨0, 0, [], [], container_none hhandle, ?_, rfl⟩
    have hparts : type.unitParts 0 = [] := by cases type <;> rfl
    rw [hparts]
    exact .nil
  · exact ⟨slot, count, values, inner, hbuffer.container, hunits, rfl⟩

theorem Holds.ownedText {mask : UInt32} {value : Value}
    (h : store.Holds .str location mask value slots) :
    ∃ text, store.ownedText location = .ok text ∧ value = .str text := by
  rcases holds_str.mp h with ⟨hhandle, rfl, -⟩ | ⟨slot, text, hhandle, hcontent, rfl, -⟩
  · exact ⟨"", by rw [Store.ownedText, hhandle]; rfl, rfl⟩
  · refine ⟨text, ?_, rfl⟩
    rw [Store.ownedText, hhandle]
    exact text_eq_ok.mpr hcontent

/-- Parts are read in turn. -/
theorem HoldsAll.mapM {query : Part → Except PropertyError Value}
    (h : store.HoldsAll location parts values slots)
    (hquery : ∀ part ∈ parts, ∀ value first,
      store.Holds part.type (location.shift part.offset) part.mask value first →
        query part = .ok value) : parts.mapM query = .ok values := by
  induction parts generalizing values slots with
  | nil =>
      cases h
      rfl
  | cons part parts ih =>
      cases h with
      | cons hfirst hrest =>
          have hparts := ih hrest fun part hpart => hquery part (List.mem_cons_of_mem _ hpart)
          rw [List.mapM_cons, hquery part List.mem_cons_self _ _ hfirst, hparts]
          rfl

/-- Parts are compared in turn, up to the first that differs. -/
theorem HoldsAll.allM {query : Part → Except PropertyError Bool}
    (hleft : left.HoldsAll leftAt parts values slots)
    (hright : right.HoldsAll rightAt parts values' slots')
    (hquery : ∀ part ∈ parts, ∀ first second inner inner',
      left.Holds part.type (leftAt.shift part.offset) part.mask first inner →
      right.Holds part.type (rightAt.shift part.offset) part.mask second inner' →
      ∃ same, query part = .ok same ∧ (same = true ↔ first = second)) :
    ∃ same, parts.allM query = .ok same ∧ (same = true ↔ values = values') := by
  induction parts generalizing values values' slots slots' with
  | nil =>
      cases hleft
      cases hright
      exact ⟨true, rfl, by simp⟩
  | cons part parts ih =>
      cases hleft with
      | cons hfirst hrest =>
          cases hright with
          | cons hfirst' hrest' =>
              obtain ⟨same, hsame, hiff⟩ := hquery part List.mem_cons_self _ _ _ _ hfirst hfirst'
              obtain ⟨others, hothers, hiff'⟩ := ih hrest hrest'
                fun part hpart => hquery part (List.mem_cons_of_mem _ hpart)
              rw [List.allM_cons, hsame]
              cases same with
              | false => exact ⟨false, rfl, by simp [← hiff]⟩
              | true => exact ⟨others, hothers, by simp [hiff', hiff.mp rfl]⟩

end Store

namespace PropertyType

variable {store left right : Store} {type : PropertyType} {location leftAt rightAt : Location}
  {mask : UInt32} {value value' : Value} {values values' : List Value} {slots slots' : List Nat}

section Snapshot

theorem snapshotMembers_of_holds {members : List Property}
    (hquery : ∀ part ∈ memberParts members, ∀ value first,
      store.Holds part.type (location.shift part.offset) part.mask value first →
        snapshot store (location.shift part.offset) part.mask part.type = .ok value)
    (h : store.HoldsAll location (memberParts members) values slots) :
    snapshotMembers store location members = .ok (gatherMembers members values) := by
  induction members generalizing values slots with
  | nil => rfl
  | cons member rest ih =>
      rw [memberParts_cons] at h hquery
      obtain ⟨front, back, _, _, rfl, rfl, hfront, hback⟩ := h.split
      have hlength : front.length = member.dimension := by
        rw [hfront.length_eq, Property.parts, List.length_map, List.length_range]
      have hmember := hfront.mapM fun part hpart => hquery part (List.mem_append_left _ hpart)
      have hrest := ih (fun part hpart => hquery part (List.mem_append_right _ hpart)) hback
      obtain ⟨realm, owner, name, type, dimension, flags, offset, memberMask⟩ := member
      rw [Property.parts, List.mapM_map] at hmember
      have helements : ((List.range dimension).mapM fun index => type.snapshot store
          (location.shift (Property.elementOffset ⟨realm, owner, name, type, dimension, flags, offset,
            memberMask⟩ index)) memberMask) = .ok front := hmember
      rw [snapshotMembers, helements, hrest, gatherMembers, List.take_left' hlength,
        List.drop_left' hlength]
      rfl

theorem snapshotEntries_of_holds {key entry : PropertyType} {indices : List Nat}
    (hquery : ∀ part ∈ indices.flatMap (entryPair key entry), ∀ value first,
      store.Holds part.type (location.shift part.offset) part.mask value first →
        snapshot store (location.shift part.offset) part.mask part.type = .ok value)
    (h : store.HoldsAll location (indices.flatMap (entryPair key entry)) values slots) :
    (indices.mapM fun index => do
      return (⟨← key.snapshot store (location.shift (index * entryPitch key entry)) elementMask,
        ← entry.snapshot store (location.shift (index * entryPitch key entry +
          entryValueOffset key entry)) elementMask⟩ : EntryValue)) =
      .ok (gatherEntries values) := by
  induction indices generalizing values slots with
  | nil =>
      cases h
      rfl
  | cons index rest ih =>
      rw [List.flatMap_cons] at h hquery
      obtain ⟨_, back, _, _, rfl, rfl, hpair, hback⟩ := h.split
      have hrest := ih (fun part hpart => hquery part (List.mem_append_right _ hpart)) hback
      cases hpair with
      | cons hkey hpair =>
          cases hpair with
          | cons hvalue hnil =>
              cases hnil
              have hkey' := hquery _ (by simp [entryPair]) _ _ hkey
              have hvalue' := hquery _ (by simp [entryPair]) _ _ hvalue
              simp only at hkey' hvalue'
              rw [List.mapM_cons, hkey', hvalue', hrest]
              rfl

/-- The value that a location holds is read back. -/
theorem snapshot_of_holds (h : store.Holds type location mask value slots) :
    snapshot store location mask type = .ok value := by
  induction type using PropertyType.induction_on generalizing location mask value slots with
  | scalar type hstorage =>
      obtain ⟨piece, hpiece, rfl, rfl⟩ := (Store.holds_scalar hstorage).mp h
      have hword := Store.word_eq_ok.mpr ⟨piece, hpiece, rfl⟩
      cases type <;> first
        | (simp only [size, handleSize] at hword; simp only [snapshot, hword]; rfl)
        | cases hstorage
  | bits =>
      obtain ⟨set, hset, rfl, rfl⟩ := Store.holds_bool.mp h
      rw [snapshot, hset]
      rfl
  | text =>
      obtain ⟨text, htext, rfl⟩ := h.ownedText
      rw [snapshot, htext]
      rfl
  | inline type hstorage ih =>
      obtain ⟨-, values, rfl, hparts⟩ := (Store.holds_inline hstorage).mp h
      have hquery : ∀ part ∈ type.parts, ∀ value first,
          store.Holds part.type (location.shift part.offset) part.mask value first →
            snapshot store (location.shift part.offset) part.mask part.type = .ok value :=
        fun part hpart _ _ => ih part hpart
      cases type with
      | struct layout =>
          obtain ⟨name, base, properties, ownStart, nested, size, alignment⟩ := layout
          rw [snapshot, snapshotMembers_of_holds hquery hparts]
          rfl
      | fixedArray element count =>
          have hall := hparts.mapM hquery
          rw [parts, elementParts, List.mapM_map] at hall
          rw [snapshot]
          exact congrArg (Except.map Value.array) hall
      | _ => cases hstorage
  | container type hstorage ih =>
      obtain ⟨slot, count, values, inner, hcontainer, hunits, rfl⟩ := h.units hstorage
      have hquery : ∀ part ∈ type.unitParts count, ∀ value first,
          store.Holds part.type ((Location.element slot 0).shift part.offset) part.mask value first →
            snapshot store ((Location.element slot 0).shift part.offset) part.mask part.type =
              .ok value :=
        fun part hpart _ _ => ih count part hpart
      cases type with
      | array element =>
          have hall := hunits.mapM hquery
          rw [unitParts, elementParts, List.mapM_map] at hall
          simp only [Location.element_shift] at hall
          rw [snapshot, hcontainer]
          exact congrArg (Except.map Value.array) hall
      | map key entry =>
          have hall := snapshotEntries_of_holds hquery hunits
          simp only [Location.element_shift] at hall
          rw [snapshot, hcontainer]
          exact congrArg (Except.map Value.map) hall
      | _ => cases hstorage

end Snapshot

section Identical

theorem allM_append {α : Type} (query : α → Except PropertyError Bool) (first second : List α) :
    (first ++ second).allM query = (do
      if ← first.allM query then second.allM query else return false) := by
  induction first with
  | nil => rfl
  | cons item rest ih =>
      rw [List.cons_append, List.allM_cons, List.allM_cons, ih]
      cases query item with
      | error error => rfl
      | ok same => cases same <;> rfl

theorem allM_map {α β : Type} (f : α → β) (query : β → Except PropertyError Bool)
    (items : List α) : (items.map f).allM query = items.allM (query ∘ f) := by
  induction items with
  | nil => rfl
  | cons item rest ih => rw [List.map_cons, List.allM_cons, List.allM_cons, ih]; rfl

theorem identicalMembers_eq (members : List Property) :
    identicalMembers left leftAt right rightAt members =
      (memberParts members).allM fun part => identical left (leftAt.shift part.offset) right
        (rightAt.shift part.offset) part.mask part.type := by
  induction members with
  | nil => rfl
  | cons member rest ih =>
      obtain ⟨realm, owner, name, type, dimension, flags, offset, memberMask⟩ := member
      rw [memberParts_cons, allM_append, Property.parts, allM_map, ← ih, identicalMembers]
      rfl

theorem identical_scalar (hstorage : type.storage = .scalar) :
    identical left leftAt right rightAt mask type = (do
      return (← left.bytes leftAt type.size) == (← right.bytes rightAt type.size)) := by
  cases type <;> first | rfl | cases hstorage

theorem identical_inline (hstorage : type.storage = .inline) :
    identical left leftAt right rightAt mask type =
      type.parts.allM fun part => identical left (leftAt.shift part.offset) right
        (rightAt.shift part.offset) part.mask part.type := by
  cases type with
  | struct layout =>
      obtain ⟨name, base, properties, ownStart, nested, size, alignment⟩ := layout
      rw [identical, identicalMembers_eq]
      rfl
  | fixedArray element count =>
      rw [identical, parts, elementParts, allM_map]
      rfl
  | _ => cases hstorage

theorem entries_allM (query : Part → Except PropertyError Bool) (key entry : PropertyType)
    (indices : List Nat) :
    (indices.allM fun index => do
      let same ← query ⟨key, index * entryPitch key entry, elementMask⟩
      if !same then return false
      query ⟨entry, index * entryPitch key entry + entryValueOffset key entry, elementMask⟩) =
      (indices.flatMap (entryPair key entry)).allM query := by
  induction indices with
  | nil => rfl
  | cons index rest ih =>
      rw [List.flatMap_cons, allM_append, ← ih, List.allM_cons, entryPair, List.allM_cons,
        List.allM_cons]
      cases query ⟨key, index * entryPitch key entry, elementMask⟩ with
      | error error => rfl
      | ok same =>
          cases same with
          | false => rfl
          | true =>
              cases query ⟨entry, index * entryPitch key entry + entryValueOffset key entry,
                elementMask⟩ with
              | error error => rfl
              | ok same => cases same <;> rfl

theorem identical_container (hstorage : type.storage = .container) :
    identical left leftAt right rightAt mask type = (do
      let (leftSlot, count) ← left.container leftAt
      let (rightSlot, rightCount) ← right.container rightAt
      if count ≠ rightCount then return false
      (type.unitParts count).allM fun part => identical left (.element leftSlot part.offset) right
        (.element rightSlot part.offset) part.mask part.type) := by
  cases type with
  | array element =>
      simp only [identical, unitParts, elementParts, allM_map]
      rfl
  | map key entry =>
      simp only [identical, unitParts, entryParts, ← entries_allM]
  | _ => cases hstorage

theorem gatherMembers_inj {members : List Property}
    (hlength : values.length = (memberParts members).length)
    (hlength' : values'.length = (memberParts members).length)
    (h : gatherMembers members values = gatherMembers members values') : values = values' := by
  induction members generalizing values values' with
  | nil =>
      rw [memberParts_nil, List.length_nil] at hlength hlength'
      rw [List.eq_nil_of_length_eq_zero hlength, List.eq_nil_of_length_eq_zero hlength']
  | cons member rest ih =>
      have hparts : member.parts.length = member.dimension := by
        rw [Property.parts, List.length_map, List.length_range]
      rw [memberParts_cons, List.length_append, hparts] at hlength hlength'
      simp only [gatherMembers, List.cons.injEq, MemberValue.mk.injEq, true_and] at h
      rw [← List.take_append_drop member.dimension values,
        ← List.take_append_drop member.dimension values', h.1,
        ih (by rw [List.length_drop]; omega) (by rw [List.length_drop]; omega) h.2]

theorem length_entryParts (key entry : PropertyType) (count : Nat) :
    (entryParts key entry count).length = 2 * count := by
  simp [entryParts, List.length_flatMap, entryPair, Nat.mul_comm]

theorem gatherEntries_inj {count count' : Nat} (hlength : values.length = 2 * count)
    (hlength' : values'.length = 2 * count')
    (h : gatherEntries values = gatherEntries values') : values = values' := by
  induction count generalizing values values' count' with
  | zero =>
      obtain rfl := List.eq_nil_of_length_eq_zero hlength
      match values', hlength', h with
      | [], _, _ => rfl
      | [_], hodd, _ => simp at hodd; omega
      | _ :: _ :: _, _, hcons => cases hcons
  | succ count ih =>
      match values, values', hlength, hlength', h with
      | [], _, hzero, _, _ => simp at hzero
      | [_], _, hodd, _, _ => simp at hodd; omega
      | _ :: _ :: _, [], _, _, hnil => cases hnil
      | _ :: _ :: _, [_], _, hodd, _ => simp at hodd; omega
      | key :: entry :: rest, key' :: entry' :: rest', hcount, hcount', hcons =>
          simp only [gatherEntries, List.cons.injEq, EntryValue.mk.injEq] at hcons
          simp only [List.length_cons] at hcount hcount'
          obtain ⟨⟨rfl, rfl⟩, hrest⟩ := hcons
          rw [@ih rest rest' (count' - 1) (by omega) (by omega) hrest]

/-- The values of the parts can be told from what they are gathered into. -/
theorem gather_inj_inline (hstorage : type.storage = .inline)
    (hlength : values.length = type.parts.length) (hlength' : values'.length = type.parts.length) :
    type.gather values = type.gather values' ↔ values = values' := by
  refine ⟨fun h => ?_, fun h => by rw [h]⟩
  cases type with
  | struct layout => exact gatherMembers_inj hlength hlength' (Value.struct.inj h)
  | fixedArray element count => exact Value.array.inj h
  | _ => cases hstorage

theorem gather_inj_container (hstorage : type.storage = .container) {count count' : Nat}
    (hlength : values.length = (type.unitParts count).length)
    (hlength' : values'.length = (type.unitParts count').length) :
    type.gather values = type.gather values' ↔ count = count' ∧ values = values' := by
  have hcount {first second : Nat}
      (h : (type.unitParts first).length = (type.unitParts second).length) : first = second := by
    cases type with
    | array element => simpa [unitParts, elementParts] using h
    | map key entry => simpa [unitParts, length_entryParts] using h
    | _ => cases hstorage
  refine ⟨fun h => ?_, fun h => by rw [h.2]⟩
  have hvalues : values = values' := by
    cases type with
    | array element => exact Value.array.inj h
    | map key entry =>
        rw [unitParts, length_entryParts] at hlength hlength'
        exact gatherEntries_inj hlength hlength' (Value.map.inj h)
    | _ => cases hstorage
  subst hvalues
  exact ⟨hcount (hlength.symm.trans hlength'), rfl⟩

theorem scalar_inj (hstorage : type.storage = .scalar) {piece piece' : List UInt8}
    (hlength : piece.length = type.size) (hlength' : piece'.length = type.size) :
    type.scalar piece = type.scalar piece' ↔ piece = piece' := by
  refine ⟨fun h => ?_, fun h => by rw [h]⟩
  have hnumber : ofLittleEndian piece = ofLittleEndian piece' := by
    have hlt := ofLittleEndian_lt piece
    have hlt' := ofLittleEndian_lt piece'
    rw [hlength] at hlt
    rw [hlength'] at hlt'
    have hmod {bound : Nat} (hbound : 256 ^ type.size = bound)
        (h : ofLittleEndian piece % bound = ofLittleEndian piece' % bound) :
        ofLittleEndian piece = ofLittleEndian piece' := by
      rw [hbound] at hlt hlt'
      rwa [Nat.mod_eq_of_lt hlt, Nat.mod_eq_of_lt hlt'] at h
    cases type with
    | byte =>
        exact hmod (show _ = 2 ^ 8 from rfl) (congrArg UInt8.toNat (Value.byte.inj h))
    | int =>
        exact hmod (show _ = 2 ^ 32 from rfl)
          (congrArg (fun number => number.toUInt32.toNat) (Value.int.inj h))
    | float =>
        exact hmod (show _ = 2 ^ 32 from rfl) (congrArg UInt32.toNat (Value.float.inj h))
    | name =>
        exact hmod (show _ = 2 ^ 32 from rfl)
          (congrArg (fun id : NameId => id.val.toNat) (Value.name.inj h))
    | object _ =>
        exact hmod (show _ = 2 ^ 64 from rfl)
          (congrArg (fun handle : ObjectHandle => handle.bits.toNat) (Value.object.inj h))
    | classRef _ =>
        exact hmod (show _ = 2 ^ 64 from rfl)
          (congrArg (fun handle : ObjectHandle => handle.bits.toNat) (Value.object.inj h))
    | _ => cases hstorage
  rw [← littleEndian_ofLittleEndian piece, ← littleEndian_ofLittleEndian piece', hlength, hlength',
    hnumber]

/-- Two locations compare equal exactly when they hold the same value. -/
theorem identical_of_holds (h : left.Holds type leftAt mask value slots)
    (h' : right.Holds type rightAt mask value' slots') :
    ∃ same, identical left leftAt right rightAt mask type = .ok same ∧
      (same = true ↔ value = value') := by
  induction type using PropertyType.induction_on
    generalizing leftAt rightAt mask value value' slots slots' with
  | scalar type hstorage =>
      obtain ⟨piece, hpiece, rfl, -⟩ := (Store.holds_scalar hstorage).mp h
      obtain ⟨piece', hpiece', rfl, -⟩ := (Store.holds_scalar hstorage).mp h'
      refine ⟨piece == piece', ?_, ?_⟩
      · rw [identical_scalar hstorage, hpiece, hpiece']
        rfl
      · rw [beq_iff_eq, scalar_inj hstorage (Store.length_of_bytes hpiece)
          (Store.length_of_bytes hpiece')]
  | bits =>
      obtain ⟨set, hset, rfl, -⟩ := Store.holds_bool.mp h
      obtain ⟨set', hset', rfl, -⟩ := Store.holds_bool.mp h'
      exact ⟨set == set', by rw [identical, hset, hset']; rfl, by simp⟩
  | text =>
      obtain ⟨text, htext, rfl⟩ := h.ownedText
      obtain ⟨text', htext', rfl⟩ := h'.ownedText
      exact ⟨text == text', by rw [identical, htext, htext']; rfl, by simp⟩
  | inline type hstorage ih =>
      obtain ⟨-, values, rfl, hparts⟩ := (Store.holds_inline hstorage).mp h
      obtain ⟨-, values', rfl, hparts'⟩ := (Store.holds_inline hstorage).mp h'
      rw [identical_inline hstorage, gather_inj_inline hstorage hparts.length_eq hparts'.length_eq]
      exact hparts.allM hparts' fun part hpart _ _ _ _ => ih part hpart
  | container type hstorage ih =>
      obtain ⟨slot, count, values, inner, hcontainer, hunits, rfl⟩ := h.units hstorage
      obtain ⟨slot', count', values', inner', hcontainer', hunits', rfl⟩ := h'.units hstorage
      rw [identical_container hstorage, hcontainer, hcontainer',
        gather_inj_container hstorage hunits.length_eq hunits'.length_eq]
      by_cases hcount : count = count'
      · subst hcount
        obtain ⟨same, hsame, hiff⟩ := hunits.allM hunits' fun part hpart _ _ _ _ => ih count part hpart
        simp only [Location.element_shift] at hsame
        refine ⟨same, ?_, by simp [hiff]⟩
        simpa [bind, Except.bind] using hsame
      · refine ⟨false, ?_, by simp [hcount]⟩
        simp [bind, Except.bind, hcount]
        rfl

end Identical

end PropertyType

namespace Store

variable {store : Store} {type : PropertyType} {location : Location} {mask : UInt32}
  {value value' : Value} {parts : List Part} {values values' : List Value} {slots slots' : List Nat}

/-- A location holds one value. -/
theorem Holds.unique (h : store.Holds type location mask value slots)
    (h' : store.Holds type location mask value' slots') : value = value' :=
  Except.ok.inj ((PropertyType.snapshot_of_holds h).symm.trans (PropertyType.snapshot_of_holds h'))

theorem HoldsAll.unique (h : store.HoldsAll location parts values slots)
    (h' : store.HoldsAll location parts values' slots') : values = values' := by
  have hquery : ∀ part ∈ parts, ∀ value first,
      store.Holds part.type (location.shift part.offset) part.mask value first →
        part.type.snapshot store (location.shift part.offset) part.mask = .ok value :=
    fun _ _ _ _ => PropertyType.snapshot_of_holds
  exact Except.ok.inj ((h.mapM hquery).symm.trans (h'.mapM hquery))

end Store

end ObjectPackage
