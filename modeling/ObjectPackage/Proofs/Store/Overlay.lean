/-
Values laid over values.  A value that has the shape of a type is taken over the value
that is there: struct members and elements of a fixed array that it does not list stay,
and a container is made anew, out of defaults.
-/
import ObjectPackage.Proofs.Store.Blank

namespace ObjectPackage

/-- Change the values of the last member of a name. -/
def updateMember (memberName : String) (update : List Value → List Value) :
    List MemberValue → List MemberValue
  | [] => []
  | member :: rest =>
      if sameName member.name memberName && !rest.any (fun other => sameName other.name memberName)
      then ⟨member.name, update member.values⟩ :: rest
      else member :: updateMember memberName update rest

section Update

variable {memberName : String} {update : List Value → List Value} {member : MemberValue}
  {rest back : List MemberValue}

theorem updateMember_skip (hrest : rest.any (fun other => sameName other.name memberName) = true) :
    updateMember memberName update (member :: rest) =
      member :: updateMember memberName update rest := by
  rw [updateMember, hrest, Bool.not_true, Bool.and_false, if_neg nofun]

theorem updateMember_last (hname : sameName member.name memberName = true)
    (hrest : rest.any (fun other => sameName other.name memberName) = false) :
    updateMember memberName update (member :: rest) =
      ⟨member.name, update member.values⟩ :: rest := by
  rw [updateMember, hname, hrest]
  rfl

/-- Members in front of one of a name stay. -/
theorem updateMember_front (hback : back.any (fun other => sameName other.name memberName) = true)
    (front : List MemberValue) :
    updateMember memberName update (front ++ back) = front ++ updateMember memberName update back := by
  induction front with
  | nil => rfl
  | cons other front ih =>
      have hsome : (front ++ back).any (fun other => sameName other.name memberName) = true := by
        rw [List.any_append, hback, Bool.or_true]
      rw [List.cons_append, updateMember_skip hsome, ih, List.cons_append]

/-- Members in front of the last one of a name stay, and so do those behind it. -/
theorem updateMember_append (hname : sameName member.name memberName = true)
    (hback : back.any (fun other => sameName other.name memberName) = false)
    (front : List MemberValue) :
    updateMember memberName update (front ++ member :: back) =
      front ++ ⟨member.name, update member.values⟩ :: back := by
  rw [updateMember_front (by rw [List.any_cons, hname, Bool.true_or]),
    updateMember_last hname hback]

end Update

/-- The member that is found from behind is the last one of its name. -/
theorem lastNamed_split {members : List Property} {memberName : String} {member : Property}
    (h : members.reverse.find? (fun other => sameName other.name memberName) = some member) :
    ∃ front back, members = front ++ member :: back ∧
      sameName member.name memberName = true ∧
      ∀ other ∈ back, sameName other.name memberName = false := by
  obtain ⟨hname, later, earlier, hreverse, hlater⟩ := List.find?_eq_some_iff_append.mp h
  refine ⟨earlier.reverse, later.reverse, ?_, hname, fun other hother => ?_⟩
  · rw [← List.reverse_reverse members, hreverse]
    simp
  · simpa using hlater other (List.mem_reverse.mp hother)

namespace PropertyType

mutual

/-- Whether a value has the shape of a type.  Members and elements of a fixed array may
be left out. -/
def admits : PropertyType → Value → Bool
  | .byte, .byte _ => true
  | .int, .int _ => true
  | .bool, .bool _ => true
  | .float, .float _ => true
  | .name, .name _ => true
  | .object _, .object _ => true
  | .classRef _, .object _ => true
  | .str, .str _ => true
  | .struct layout, .struct members => admitsMembers layout members
  | .fixedArray element count, .array items =>
      decide (items.length ≤ count) && admitsAll element items
  | .array element, .array items => admitsAll element items
  | .map key value, .map entries => admitsEntries key value entries
  | _, _ => false

def admitsAll (type : PropertyType) : List Value → Bool
  | [] => true
  | item :: rest => admits type item && admitsAll type rest

def admitsMembers (layout : StructLayout) : List MemberValue → Bool
  | [] => true
  | ⟨memberName, values⟩ :: rest =>
      (match layout.findProperty? memberName with
        | none => false
        | some member =>
            decide (values.length ≤ member.dimension) && admitsAll member.type values) &&
      admitsMembers layout rest

def admitsEntries (key value : PropertyType) : List EntryValue → Bool
  | [] => true
  | ⟨entryKey, entryValue⟩ :: rest =>
      admits key entryKey && admits value entryValue && admitsEntries key value rest

end

mutual

/-- A value over the one that is there. -/
def overlay : PropertyType → Value → Value → Value
  | .struct layout, .struct held, .struct members => .struct (overlayMembers layout held members)
  | .fixedArray element _, .array held, .array items => .array (overlayAll element held items)
  | .array element, _, .array items =>
      .array (overlayAll element (List.replicate items.length element.defaultValue) items)
  | .map key value, _, .map entries =>
      .map (overlayEntries key value
        (List.replicate entries.length ⟨key.defaultValue, value.defaultValue⟩) entries)
  | _, _, value => value
termination_by structural _ _ value => value

/-- Values over the first ones of those that are there. -/
def overlayAll (type : PropertyType) : List Value → List Value → List Value
  | held :: others, item :: rest => overlay type held item :: overlayAll type others rest
  | held, _ => held
termination_by structural _ items => items

/-- Members over those that are there, in the order in which they are listed. -/
def overlayMembers (layout : StructLayout) :
    List MemberValue → List MemberValue → List MemberValue
  | held, [] => held
  | held, ⟨memberName, values⟩ :: rest =>
      let held := match layout.findProperty? memberName with
        | none => held
        | some member =>
            updateMember memberName (fun held => overlayAll member.type held values) held
      overlayMembers layout held rest
termination_by structural _ members => members

def overlayEntries (key value : PropertyType) :
    List EntryValue → List EntryValue → List EntryValue
  | held :: others, ⟨entryKey, entryValue⟩ :: rest =>
      ⟨overlay key held.key entryKey, overlay value held.value entryValue⟩ ::
        overlayEntries key value others rest
  | held, _ => held
termination_by structural _ entries => entries

end

variable {type key entry : PropertyType} {held front back : List Value}

@[simp]
theorem overlayAll_nil (type : PropertyType) (held : List Value) :
    overlayAll type held [] = held := by
  cases held <;> rfl

@[simp]
theorem overlayEntries_nil (key entry : PropertyType) (held : List EntryValue) :
    overlayEntries key entry held [] = held := by
  cases held <;> rfl

/-- A value with nothing inside replaces the one that is there. -/
theorem overlay_leaf (hinline : type.storage ≠ .inline) (hcontainer : type.storage ≠ .container)
    (held value : Value) : type.overlay held value = value := by
  cases type <;> cases value <;> first | rfl | exact absurd rfl hinline | exact absurd rfl hcontainer

@[simp]
theorem length_overlayAll (type : PropertyType) (held items : List Value) :
    (overlayAll type held items).length = held.length := by
  induction items generalizing held with
  | nil => rw [overlayAll_nil]
  | cons item rest ih =>
      cases held with
      | nil => rfl
      | cons first others => rw [overlayAll, List.length_cons, ih, List.length_cons]

/-- Values that are not reached stay. -/
theorem overlayAll_append {items : List Value} (h : items.length ≤ front.length) :
    overlayAll type (front ++ back) items = overlayAll type front items ++ back := by
  induction items generalizing front with
  | nil => rw [overlayAll_nil, overlayAll_nil]
  | cons item rest ih =>
      cases front with
      | nil => simp at h
      | cons first others =>
          rw [List.cons_append, overlayAll, overlayAll, ih (by simpa using h), List.cons_append]

/-- The first of some values, and then the others. -/
theorem overlayAll_step (type : PropertyType) (item : Value) (rest : List Value) (index : Nat)
    (held : List Value) :
    (held.modify index (overlay type · item)).modifyTailIdx (index + 1) (overlayAll type · rest) =
      held.modifyTailIdx index (overlayAll type · (item :: rest)) := by
  induction index generalizing held with
  | zero => cases held <;> rfl
  | succ index ih =>
      cases held with
      | nil => rfl
      | cons first others => exact congrArg (first :: ·) (ih others)

theorem overlayEntries_step (key entry : PropertyType) (item : EntryValue)
    (rest : List EntryValue) (index : Nat) (held : List EntryValue) :
    (held.modify index fun old => ⟨overlay key old.key item.key,
        overlay entry old.value item.value⟩).modifyTailIdx (index + 1)
          (overlayEntries key entry · rest) =
      held.modifyTailIdx index (overlayEntries key entry · (item :: rest)) := by
  induction index generalizing held with
  | zero =>
      cases item
      cases held <;> rfl
  | succ index ih =>
      cases held with
      | nil => rfl
      | cons first others => exact congrArg (first :: ·) (ih others)

theorem gatherMembers_append {members more : List Property}
    (h : front.length = (memberParts members).length) :
    gatherMembers (members ++ more) (front ++ back) =
      gatherMembers members front ++ gatherMembers more back := by
  induction members generalizing front with
  | nil =>
      rw [memberParts_nil] at h
      rw [List.eq_nil_of_length_eq_zero h]
      rfl
  | cons member rest ih =>
      have hparts : member.parts.length = member.dimension := by
        rw [Property.parts, List.length_map, List.length_range]
      rw [memberParts_cons, List.length_append, hparts] at h
      have hdimension : member.dimension ≤ front.length := by omega
      rw [List.cons_append, gatherMembers, gatherMembers, List.take_append_of_le_length hdimension,
        List.drop_append_of_le_length hdimension, ih (by rw [List.length_drop]; omega),
        List.cons_append]

theorem name_of_gatherMembers {members : List Property} {values : List Value}
    {member : MemberValue} (h : member ∈ gatherMembers members values) :
    ∃ property ∈ members, member.name = property.name := by
  induction members generalizing values with
  | nil => cases h
  | cons property rest ih =>
      rcases List.mem_cons.mp h with rfl | h
      · exact ⟨property, List.mem_cons_self, rfl⟩
      · obtain ⟨other, hother, hname⟩ := ih h
        exact ⟨other, List.mem_cons_of_mem _ hother, hname⟩

/-- Values for the first elements of a member, as the value of the struct shows them. -/
theorem gatherMembers_overlay {memberName : String} {member : Property}
    {members more : List Property} {values : List Value}
    (hname : sameName member.name memberName = true)
    (hmore : ∀ other ∈ more, sameName other.name memberName = false)
    (hcount : values.length ≤ member.dimension)
    (hheld : held.length = (memberParts (members ++ member :: more)).length) :
    gatherMembers (members ++ member :: more)
        (held.modifyTailIdx (memberParts members).length (overlayAll member.type · values)) =
      updateMember memberName (overlayAll member.type · values)
        (gatherMembers (members ++ member :: more) held) := by
  have hparts : member.parts.length = member.dimension := by
    rw [Property.parts, List.length_map, List.length_range]
  rw [memberParts, List.flatMap_append, ← memberParts, ← memberParts, memberParts_cons,
    List.length_append, List.length_append, hparts] at hheld
  -- what is held in front of the member, in it and behind it
  obtain ⟨front, inner, back, rfl, hfront, hinner⟩ : ∃ front inner back,
      held = front ++ (inner ++ back) ∧ front.length = (memberParts members).length ∧
        inner.length = member.dimension := by
    refine ⟨held.take (memberParts members).length,
      (held.drop (memberParts members).length).take member.dimension,
      (held.drop (memberParts members).length).drop member.dimension, by simp, ?_, ?_⟩
    · rw [List.length_take]
      omega
    · rw [List.length_take, List.length_drop]
      omega
  have hlength := length_overlayAll member.type inner values
  rw [List.modifyTailIdx_eq_take_drop _ (by cases values <;> rfl), List.take_left' hfront,
    List.drop_left' hfront, overlayAll_append (hinner ▸ hcount), gatherMembers_append hfront,
    gatherMembers_append hfront, gatherMembers, gatherMembers, List.take_left' hinner,
    List.drop_left' hinner, List.take_left' (hlength.trans hinner),
    List.drop_left' (hlength.trans hinner),
    @updateMember_append memberName _ ⟨member.name, inner⟩ _ hname]
  refine List.any_eq_false.mpr fun other hother => ?_
  obtain ⟨property, hproperty, hsame⟩ := name_of_gatherMembers hother
  rw [hsame, hmore property hproperty]
  exact Bool.false_ne_true

/-- A key and a value are changed, each at its own place, as the entry of the two. -/
theorem gatherEntries_modify (onKey onValue : Value → Value) (index : Nat) (held : List Value) :
    gatherEntries ((held.modify (2 * index) onKey).modify (2 * index + 1) onValue) =
      (gatherEntries held).modify index fun entry => ⟨onKey entry.key, onValue entry.value⟩ := by
  induction index generalizing held with
  | zero =>
      match held with
      | [] => rfl
      | [_] => rfl
      | key :: value :: rest => rfl
  | succ index ih =>
      match held with
      | [] => rfl
      | [_] => rfl
      | key :: value :: rest => exact congrArg (EntryValue.mk key value :: ·) (ih rest)

theorem gatherEntries_defaults (key entry : PropertyType) (count : Nat) :
    gatherEntries ((entryParts key entry count).map (·.type.defaultValue)) =
      List.replicate count ⟨key.defaultValue, entry.defaultValue⟩ := by
  have hindices (indices : List Nat) :
      gatherEntries ((indices.flatMap (entryPair key entry)).map (·.type.defaultValue)) =
        List.replicate indices.length ⟨key.defaultValue, entry.defaultValue⟩ := by
    induction indices with
    | nil => rfl
    | cons index rest ih => exact congrArg (EntryValue.mk _ _ :: ·) ih
  rw [entryParts, hindices, List.length_range]

end PropertyType

end ObjectPackage
