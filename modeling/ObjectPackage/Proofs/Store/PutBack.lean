/-
Values put back.  A value that was read from a place lists every member of every struct,
and is stored by the names of the members.  The name of a hidden member leads to the later
one of that name, which takes what is listed for the hidden one first and its own value
after it.  So what comes of it is told member by member: a member that is not hidden takes
its listed value, and a hidden one stays.
-/
import ObjectPackage.Proofs.NameTable
import ObjectPackage.Proofs.Store.Accepted
import ObjectPackage.Proofs.Store.Overlay

namespace ObjectPackage

/-- Whether a later member has the name of this one. -/
def Property.hiddenBy (member : Property) (later : List Property) : Bool :=
  later.any fun other => sameName other.name member.name

section Lookup

variable {layout : StructLayout} {member : Property} {front later : List Property}

theorem StructLayout.findProperty?_seen (hlayout : layout.properties = front ++ member :: later)
    (h : member.hiddenBy later = false) : layout.findProperty? member.name = some member := by
  have hnone : later.reverse.find? (fun other => sameName other.name member.name) = none := by
    refine List.find?_eq_none.mpr fun other hother => ?_
    simpa using List.any_eq_false.mp h other (List.mem_reverse.mp hother)
  simp [findProperty?, hlayout, List.find?_append, hnone, sameName_self]

/-- A hidden member is not found by its name, but the last later one is. -/
theorem StructLayout.findProperty?_hidden (hlayout : layout.properties = front ++ member :: later)
    (h : member.hiddenBy later = true) : ∃ target,
      layout.findProperty? member.name = some target ∧
      later.reverse.find? (fun other => sameName other.name member.name) = some target := by
  obtain ⟨target, htarget⟩ : ∃ target,
      later.reverse.find? (fun other => sameName other.name member.name) = some target := by
    obtain ⟨other, hother, hname⟩ := List.any_eq_true.mp h
    exact Option.isSome_iff_exists.mp
      (List.find?_isSome.mpr ⟨other, List.mem_reverse.mpr hother, hname⟩)
  refine ⟨target, ?_, htarget⟩
  simp [findProperty?, hlayout, List.find?_append, htarget]

end Lookup

namespace PropertyType

mutual

/-- A value with all its members over the one that is there, in which the hidden members
stay.  A container is made anew, out of defaults. -/
def putBack : PropertyType → Value → Value → Value
  | .struct layout, .struct held, .struct members =>
      .struct (putBackMembers layout.properties held members)
  | .fixedArray element _, .array held, .array items => .array (putBackAll element held items)
  | .array element, _, .array items =>
      .array (putBackAll element (List.replicate items.length element.defaultValue) items)
  | .map key value, _, .map entries => .map (putBackEntries key value entries)
  | _, _, value => value
termination_by structural _ _ value => value

def putBackAll (type : PropertyType) : List Value → List Value → List Value
  | held :: others, item :: rest => putBack type held item :: putBackAll type others rest
  | _, _ => []
termination_by structural _ items => items

def putBackMembers : List Property → List MemberValue → List MemberValue → List MemberValue
  | member :: later, held :: others, ⟨_, values⟩ :: rest =>
      (if member.hiddenBy later then held
        else ⟨held.name, putBackAll member.type held.values values⟩) ::
        putBackMembers later others rest
  | _, _, _ => []
termination_by structural _ _ members => members

def putBackEntries (key value : PropertyType) : List EntryValue → List EntryValue
  | [] => []
  | ⟨entryKey, entryValue⟩ :: rest =>
      ⟨putBack key key.defaultValue entryKey, putBack value value.defaultValue entryValue⟩ ::
        putBackEntries key value rest
termination_by structural entries => entries

end

mutual

/-- Whether no struct in a type has a hidden member.  Structs that are not in the unit of a
container count only if `everywhere` is set. -/
def unhidden (everywhere : Bool) : PropertyType → Bool
  | .struct ⟨_, _, properties, _, _, _, _⟩ => unhiddenMembers everywhere properties
  | .fixedArray element _ => element.unhidden everywhere
  | .array element => element.unhidden true
  | .map key value => key.unhidden true && value.unhidden true
  | _ => true

def unhiddenMembers (everywhere : Bool) : List Property → Bool
  | [] => true
  | ⟨_, _, memberName, type, _, _, _, _⟩ :: later =>
      !(everywhere && later.any (fun other => sameName other.name memberName)) &&
        (type.unhidden everywhere && unhiddenMembers everywhere later)

end

theorem unhiddenMembers_cons {everywhere : Bool} {member : Property} {later : List Property} :
    unhiddenMembers everywhere (member :: later) = true ↔
      (everywhere = true → member.hiddenBy later = false) ∧
        member.type.unhidden everywhere = true ∧ unhiddenMembers everywhere later = true := by
  obtain ⟨_, _, _, _, _, _, _, _⟩ := member
  simp only [unhiddenMembers, Property.hiddenBy, Bool.and_eq_true, Bool.not_eq_true',
    Bool.and_eq_false_imp]

theorem unhidden_struct (everywhere : Bool) (layout : StructLayout) :
    unhidden everywhere (.struct layout) = unhiddenMembers everywhere layout.properties := by
  cases layout
  rfl

mutual

/-- A value that lists everything that values of a type have. -/
inductive Listed : PropertyType → Value → Prop
  | leaf {type : PropertyType} {value : Value} (hinline : type.storage ≠ .inline)
      (hcontainer : type.storage ≠ .container) (hadmits : type.admits value = true) :
      Listed type value
  | struct {layout : StructLayout} {members : List MemberValue}
      (h : ListedMembers layout.properties members) : Listed (.struct layout) (.struct members)
  | fixedArray {element : PropertyType} {count : Nat} {items : List Value}
      (hcount : items.length = count) (h : ∀ item ∈ items, Listed element item) :
      Listed (.fixedArray element count) (.array items)
  | array {element : PropertyType} {items : List Value} (h : ∀ item ∈ items, Listed element item) :
      Listed (.array element) (.array items)
  | map {key value : PropertyType} {entries : List EntryValue}
      (hkeys : ∀ entry ∈ entries, Listed key entry.key)
      (hvalues : ∀ entry ∈ entries, Listed value entry.value) :
      Listed (.map key value) (.map entries)

inductive ListedMembers : List Property → List MemberValue → Prop
  | nil : ListedMembers [] []
  | cons {member : Property} {later : List Property} {values : List Value}
      {rest : List MemberValue} (hcount : values.length = member.dimension)
      (hvalues : ∀ value ∈ values, Listed member.type value) (h : ListedMembers later rest) :
      ListedMembers (member :: later) (⟨member.name, values⟩ :: rest)

end

mutual

/-- Values that have the same hidden members, those in containers apart. -/
inductive Kept : PropertyType → Value → Value → Prop
  | leaf {type : PropertyType} {left right : Value} (hinline : type.storage ≠ .inline) :
      Kept type left right
  | struct {layout : StructLayout} {left right : List MemberValue}
      (h : KeptMembers layout.properties left right) :
      Kept (.struct layout) (.struct left) (.struct right)
  | fixedArray {element : PropertyType} {count : Nat} {left right : List Value}
      (hcount : left.length = count) (h : KeptAll element left right) :
      Kept (.fixedArray element count) (.array left) (.array right)

inductive KeptAll : PropertyType → List Value → List Value → Prop
  | nil {type : PropertyType} : KeptAll type [] []
  | cons {type : PropertyType} {left right : Value} {lefts rights : List Value}
      (hfirst : Kept type left right) (h : KeptAll type lefts rights) :
      KeptAll type (left :: lefts) (right :: rights)

inductive KeptMembers : List Property → List MemberValue → List MemberValue → Prop
  | nil : KeptMembers [] [] []
  | hidden {member : Property} {later : List Property} {values : List Value}
      {left right : List MemberValue} (hhidden : member.hiddenBy later = true)
      (h : KeptMembers later left right) :
      KeptMembers (member :: later) (⟨member.name, values⟩ :: left) (⟨member.name, values⟩ :: right)
  | seen {member : Property} {later : List Property} {values values' : List Value}
      {left right : List MemberValue} (hhidden : member.hiddenBy later = false)
      (hcount : values.length = member.dimension) (hvalues : KeptAll member.type values values')
      (h : KeptMembers later left right) :
      KeptMembers (member :: later) (⟨member.name, values⟩ :: left)
        (⟨member.name, values'⟩ :: right)

end

variable {type : PropertyType} {held current given : Value}

section Listed

theorem listedMembers_gather {members : List Property} {values : List Value}
    (h : List.Forall₂ Held ((memberParts members).map Part.type) values)
    (hheld : ∀ member ∈ members, ∀ value, Held member.type value → Listed member.type value) :
    ListedMembers members (gatherMembers members values) := by
  induction members generalizing values with
  | nil => exact .nil
  | cons member rest ih =>
      rw [memberTypes] at h
      have htake := List.forall₂_take member.dimension h
      have hdrop := List.forall₂_drop member.dimension h
      rw [List.take_left' List.length_replicate] at htake
      rw [List.drop_left' List.length_replicate] at hdrop
      refine .cons ?_ ?_ (ih hdrop fun member hmember => hheld member (List.mem_cons_of_mem _ hmember))
      · rw [← htake.length_eq, List.length_replicate]
      · exact fun value hvalue =>
          hheld member List.mem_cons_self value (forall_of_replicate htake value hvalue)

/-- Whatever a place holds lists everything. -/
theorem Held.listed {value : Value} (h : Held type value) : Listed type value := by
  induction type using PropertyType.induction_on_types generalizing value with
  | leaf type hinline hcontainer =>
      refine .leaf hinline hcontainer ?_
      obtain ⟨store, location, mask, slots, hholds⟩ := h
      cases hholds with
      | scalar => cases type <;> first | rfl | cases ‹_ = Storage.scalar›
      | bits => rfl
      | noText => rfl
      | text => rfl
      | inline hstorage => exact absurd hstorage hinline
      | noContainer hstorage => exact absurd hstorage hcontainer
      | container hstorage => exact absurd hstorage hcontainer
  | struct layout ih =>
      obtain ⟨values, rfl, hparts⟩ := h.inline rfl
      exact .struct (listedMembers_gather hparts fun member hmember _ => ih member hmember)
  | fixedArray element count ih =>
      obtain ⟨values, rfl, hparts⟩ := h.inline rfl
      rw [parts, elementTypes] at hparts
      refine .fixedArray ?_ fun item hitem => ih (forall_of_replicate hparts item hitem)
      rw [← hparts.length_eq, List.length_replicate]
  | array element ih =>
      obtain ⟨count, values, rfl, hunits⟩ := h.container rfl
      rw [unitParts, elementTypes] at hunits
      exact .array fun item hitem => ih (forall_of_replicate hunits item hitem)
  | map key value hkey hvalue =>
      obtain ⟨count, values, rfl, hunits⟩ := h.container rfl
      rw [unitParts, entryTypes] at hunits
      have hentries := entries_of_parts hunits
      exact .map (fun entry hentry => hkey (hentries entry hentry).1)
        (fun entry hentry => hvalue (hentries entry hentry).2)

theorem listed_default (type : PropertyType) : Listed type type.defaultValue := by
  induction type using PropertyType.induction_on_types with
  | leaf type hinline hcontainer =>
      refine .leaf hinline hcontainer ?_
      cases type <;> first | rfl | exact absurd rfl hinline
  | struct layout ih =>
      obtain ⟨_, _, members, _, _, _, _⟩ := layout
      refine .struct (show ListedMembers members (defaultMembers members) from ?_)
      induction members with
      | nil => exact .nil
      | cons member later ih' =>
          have hlater := ih' fun member hmember => ih member (List.mem_cons_of_mem _ hmember)
          have hmember := ih member List.mem_cons_self
          obtain ⟨_, _, _, _, _, _, _, _⟩ := member
          refine .cons List.length_replicate (fun value hvalue => ?_) hlater
          exact List.eq_of_mem_replicate hvalue ▸ hmember
  | fixedArray element count ih =>
      exact .fixedArray List.length_replicate fun item hitem => List.eq_of_mem_replicate hitem ▸ ih
  | array element _ => exact .array (by simp)
  | map key value _ _ => exact .map (by simp) (by simp)

end Listed

section Kept

theorem KeptAll.refl {values : List Value} (h : ∀ value ∈ values, Kept type value value) :
    KeptAll type values values := by
  induction values with
  | nil => exact .nil
  | cons value rest ih =>
      exact .cons (h value List.mem_cons_self)
        (ih fun value hvalue => h value (List.mem_cons_of_mem _ hvalue))

theorem KeptMembers.refl {members : List Property} {values : List MemberValue}
    (h : ListedMembers members values)
    (hkept : ∀ member ∈ members, ∀ value, Listed member.type value → Kept member.type value value) :
    KeptMembers members values values := by
  induction members generalizing values with
  | nil =>
      cases h
      exact .nil
  | cons member later ih =>
      cases h with
      | cons hcount hvalues h =>
          have hlater := ih h fun member hmember => hkept member (List.mem_cons_of_mem _ hmember)
          cases hhidden : member.hiddenBy later with
          | true => exact .hidden hhidden hlater
          | false =>
              refine .seen hhidden hcount (.refl fun value hvalue => ?_) hlater
              exact hkept member List.mem_cons_self value (hvalues value hvalue)

theorem Kept.refl (h : Listed type given) : Kept type given given := by
  induction type using PropertyType.induction_on_types generalizing given with
  | leaf type hinline _ => exact .leaf hinline
  | struct layout ih =>
      cases h with
      | leaf hinline => exact absurd rfl hinline
      | struct h => exact .struct (.refl h fun member hmember _ => ih member hmember)
  | fixedArray element count ih =>
      cases h with
      | leaf hinline => exact absurd rfl hinline
      | fixedArray hcount h => exact .fixedArray hcount (.refl fun item hitem => ih (h item hitem))
  | array element _ => exact .leaf (by simp [storage])
  | map key value _ _ => exact .leaf (by simp [storage])

theorem keptAll_defaults (type : PropertyType) (count : Nat) :
    KeptAll type (List.replicate count type.defaultValue)
      (List.replicate count type.defaultValue) :=
  .refl fun _ hvalue => List.eq_of_mem_replicate hvalue ▸ .refl (listed_default type)

theorem KeptMembers.any {members : List Property} {left right : List MemberValue}
    (h : KeptMembers members left right) (memberName : String) :
    right.any (fun other => sameName other.name memberName) =
      members.any (fun other => sameName other.name memberName) := by
  induction members generalizing left right with
  | nil =>
      cases h
      rfl
  | cons member later ih =>
      cases h with
      | hidden _ h => rw [List.any_cons, List.any_cons, ih h]
      | seen _ _ _ h => rw [List.any_cons, List.any_cons, ih h]

/-- The last member of a name is not hidden, so it may be changed. -/
theorem KeptMembers.update {front back : List Property} {member : Property} {memberName : String}
    {left right : List MemberValue} {update : List Value → List Value}
    (hname : sameName member.name memberName = true)
    (hback : ∀ other ∈ back, sameName other.name memberName = false)
    (hupdate : ∀ values values', KeptAll member.type values values' →
      KeptAll member.type values (update values'))
    (h : KeptMembers (front ++ member :: back) left right) :
    KeptMembers (front ++ member :: back) left (updateMember memberName update right) := by
  induction front generalizing left right with
  | nil =>
      cases h with
      | hidden hhidden h =>
          obtain ⟨other, hother, hsame⟩ := List.any_eq_true.mp hhidden
          cases (sameName_trans hsame hname).symm.trans (hback other hother)
      | seen hhidden hcount hvalues h =>
          have hnone : back.any (fun other => sameName other.name memberName) = false := by
            simpa using hback
          rw [@updateMember_last memberName update ⟨member.name, _⟩ _ hname
            ((h.any memberName).trans hnone)]
          exact .seen hhidden hcount (hupdate _ _ hvalues) h
  | cons first front ih =>
      have hsome : (front ++ member :: back).any (fun other => sameName other.name memberName) =
          true := List.any_eq_true.mpr ⟨member, by simp, hname⟩
      cases h with
      | hidden hhidden h =>
          rw [updateMember_skip ((h.any memberName).trans hsome)]
          exact .hidden hhidden (ih h)
      | seen hhidden hcount hvalues h =>
          rw [updateMember_skip ((h.any memberName).trans hsome)]
          exact .seen hhidden hcount hvalues (ih h)

theorem KeptAll.overlayAll {left right items : List Value}
    (h : KeptAll type left right) (hadmits : type.admitsAll items = true)
    (hkept : ∀ held current value, Kept type held current → type.admits value = true →
      Kept type held (type.overlay current value)) :
    KeptAll type left (type.overlayAll right items) := by
  induction items generalizing left right with
  | nil =>
      rw [overlayAll_nil]
      exact h
  | cons item rest ih =>
      obtain ⟨hitem, hrest⟩ := Bool.and_eq_true_iff.mp hadmits
      cases h with
      | nil => exact .nil
      | cons hfirst h => exact .cons (hkept _ _ _ hfirst hitem) (ih h hrest)

/-- What is stored into a value leaves its hidden members alone. -/
theorem Kept.overlay {value : Value} (h : Kept type held current)
    (hadmits : type.admits value = true) : Kept type held (type.overlay current value) := by
  induction type using PropertyType.induction_on_types generalizing held current value with
  | leaf type hinline _ => exact .leaf hinline
  | struct layout ih =>
      cases h with
      | leaf hinline => exact absurd rfl hinline
      | @struct _ left right h =>
          cases value with
          | struct members =>
              refine .struct (show KeptMembers _ _ (overlayMembers layout right members) from ?_)
              replace hadmits : admitsMembers layout members = true := hadmits
              induction members generalizing right with
              | nil => exact h
              | cons member rest ih' =>
                  obtain ⟨memberName, values⟩ := member
                  obtain ⟨hmember, hrest⟩ := Bool.and_eq_true_iff.mp hadmits
                  rw [overlayMembers]
                  cases hfind : layout.findProperty? memberName with
                  | none => simp [hfind] at hmember
                  | some target =>
                      simp only [hfind, Bool.and_eq_true] at hmember
                      obtain ⟨front, back, hsplit, hname, hback⟩ := lastNamed_split hfind
                      have htarget : target ∈ layout.properties := hsplit ▸ by simp
                      refine ih' ?_ hrest
                      rw [hsplit] at h ⊢
                      exact h.update hname hback fun _ _ hvalues =>
                        hvalues.overlayAll hmember.2 fun _ _ _ => ih target htarget
          | _ => cases hadmits
  | fixedArray element count ih =>
      cases h with
      | leaf hinline => exact absurd rfl hinline
      | fixedArray hcount h =>
          cases value with
          | array items =>
              obtain ⟨-, hitems⟩ := Bool.and_eq_true_iff.mp hadmits
              exact .fixedArray hcount (h.overlayAll hitems fun _ _ _ => ih)
          | _ => cases hadmits
  | array element _ => exact .leaf (by simp [storage])
  | map key value _ _ => exact .leaf (by simp [storage])

end Kept

section PutBack

theorem putBack_leaf (hinline : type.storage ≠ .inline) (hcontainer : type.storage ≠ .container)
    (held value : Value) : type.putBack held value = value := by
  cases type <;> cases value <;> first | rfl | exact absurd rfl hinline | exact absurd rfl hcontainer

/-- A type whose listed values are put back by storing them. -/
abbrev StoredBack (type : PropertyType) : Prop :=
  ∀ {held current given : Value}, Kept type held current → Listed type given →
    type.admits given = true → type.overlay current given = type.putBack held given

theorem overlayAll_listed {helds currents items : List Value} (hkept : KeptAll type helds currents)
    (hcount : items.length = helds.length) (hlisted : ∀ item ∈ items, Listed type item)
    (hadmits : type.admitsAll items = true) (hstored : StoredBack type) :
    type.overlayAll currents items = type.putBackAll helds items := by
  induction items generalizing helds currents with
  | nil =>
      obtain rfl := List.eq_nil_of_length_eq_zero hcount.symm
      cases hkept
      rfl
  | cons item rest ih =>
      obtain ⟨hitem, hrest⟩ := Bool.and_eq_true_iff.mp hadmits
      cases hkept with
      | nil => cases hcount
      | cons hfirst hkept =>
          rw [overlayAll, putBackAll, hstored hfirst (hlisted item List.mem_cons_self) hitem,
            ih hkept (Nat.succ.inj hcount)
              (fun item hitem => hlisted item (List.mem_cons_of_mem _ hitem)) hrest]

/-- Members that were gone through are settled: the names of the others lead to members that
are still to come. -/
theorem overlayMembers_listed {layout : StructLayout} {front later : List Property}
    {helds currents givens : List MemberValue} (hlayout : layout.properties = front ++ later)
    (hkept : KeptMembers later helds currents) (hlisted : ListedMembers later givens)
    (hadmits : admitsMembers layout givens = true)
    (hstored : ∀ member ∈ layout.properties, StoredBack member.type) (done : List MemberValue) :
    overlayMembers layout (done ++ currents) givens =
      done ++ putBackMembers later helds givens := by
  induction later generalizing front helds currents givens done with
  | nil =>
      cases hkept
      cases hlisted
      rfl
  | cons member later ih =>
      cases hlisted with
      | cons hcount hvalues hlisted =>
          obtain ⟨hmember, hrest⟩ := Bool.and_eq_true_iff.mp hadmits
          have hlayout' : layout.properties = (front ++ [member]) ++ later := by simp [hlayout]
          rw [overlayMembers]
          cases hkept with
          | @hidden _ _ values left right hhidden hkept =>
              obtain ⟨target, hfind, hlast⟩ := StructLayout.findProperty?_hidden hlayout hhidden
              simp only [hfind, Bool.and_eq_true] at hmember ⊢
              obtain ⟨before, behind, rfl, hname, hbehind⟩ := lastNamed_split hlast
              have hsome := (hkept.any member.name).trans hhidden
              have hkept' := hkept.update hname hbehind fun _ _ hvalues =>
                hvalues.overlayAll hmember.2 fun _ _ _ => Kept.overlay
              have hdone : done ++ ⟨member.name, values⟩ :: right =
                (done ++ [⟨member.name, values⟩]) ++ right := by simp
              rw [hdone, updateMember_front hsome, ih hlayout' hkept' hlisted hrest,
                putBackMembers, if_pos hhidden, List.append_assoc, List.singleton_append]
          | @seen _ _ values values' left right hhidden hcount' hvalues' hkept =>
              have hfind := StructLayout.findProperty?_seen hlayout hhidden
              have hmem : member ∈ layout.properties := hlayout ▸ by simp
              simp only [hfind, Bool.and_eq_true] at hmember ⊢
              have hnone := (hkept.any member.name).trans hhidden
              rw [@updateMember_append member.name _ ⟨member.name, values'⟩ _ (sameName_self _) hnone,
                overlayAll_listed hvalues' (hcount.trans hcount'.symm) hvalues hmember.2
                  (hstored member hmem), putBackMembers, if_neg (by simp [hhidden])]
              rw [List.append_cons done, ih hlayout' hkept hlisted hrest, List.append_assoc,
                List.singleton_append]

theorem overlayEntries_listed {key entry : PropertyType} {entries : List EntryValue}
    (hkeys : ∀ item ∈ entries, Listed key item.key)
    (hvalues : ∀ item ∈ entries, Listed entry item.value)
    (hadmits : admitsEntries key entry entries = true) (hkey : StoredBack key)
    (hentry : StoredBack entry) :
    overlayEntries key entry
        (List.replicate entries.length ⟨key.defaultValue, entry.defaultValue⟩) entries =
      putBackEntries key entry entries := by
  induction entries with
  | nil => rfl
  | cons item rest ih =>
      obtain ⟨entryKey, entryValue⟩ := item
      simp only [admitsEntries, Bool.and_eq_true] at hadmits
      obtain ⟨⟨hadmits, hadmits'⟩, hrest⟩ := hadmits
      have hfirst := hkey (.refl (listed_default key)) (hkeys _ List.mem_cons_self) hadmits
      have hsecond := hentry (.refl (listed_default entry)) (hvalues _ List.mem_cons_self) hadmits'
      rw [List.length_cons, List.replicate_succ, overlayEntries, putBackEntries, hfirst, hsecond,
        ih (fun item hitem => hkeys item (List.mem_cons_of_mem _ hitem))
          (fun item hitem => hvalues item (List.mem_cons_of_mem _ hitem)) hrest]

/-- Storing a listed value puts it back. -/
theorem storedBack (type : PropertyType) : StoredBack type := by
  induction type using PropertyType.induction_on_types with
  | leaf type hinline hcontainer =>
      intro held current given _ _ _
      rw [overlay_leaf hinline hcontainer, putBack_leaf hinline hcontainer]
  | struct layout ih =>
      intro held current given hkept hlisted hadmits
      cases hlisted with
      | leaf hinline => exact absurd rfl hinline
      | struct hlisted =>
          cases hkept with
          | leaf hinline => exact absurd rfl hinline
          | struct hkept =>
              exact congrArg Value.struct
                (@overlayMembers_listed _ [] _ _ _ _ rfl hkept hlisted hadmits
                  (fun member hmember => ih member hmember) [])
  | fixedArray element count ih =>
      intro held current given hkept hlisted hadmits
      cases hlisted with
      | leaf hinline => exact absurd rfl hinline
      | fixedArray hcount hlisted =>
          cases hkept with
          | leaf hinline => exact absurd rfl hinline
          | fixedArray hcount' hkept =>
              obtain ⟨-, hadmits⟩ := Bool.and_eq_true_iff.mp hadmits
              exact congrArg Value.array
                (overlayAll_listed hkept (hcount.trans hcount'.symm) hlisted hadmits ih)
  | array element ih =>
      intro held current given _ hlisted hadmits
      cases hlisted with
      | leaf _ hcontainer => exact absurd rfl hcontainer
      | array hlisted =>
          exact congrArg Value.array (overlayAll_listed (keptAll_defaults element _)
            List.length_replicate.symm hlisted hadmits ih)
  | map key entry hkey hentry =>
      intro held current given _ hlisted hadmits
      cases hlisted with
      | leaf _ hcontainer => exact absurd rfl hcontainer
      | map hkeys hvalues =>
          exact congrArg Value.map (overlayEntries_listed hkeys hvalues hadmits hkey hentry)

end PutBack

section Unhidden

theorem admitsAll_of_forall {items : List Value} (h : ∀ item ∈ items, type.admits item = true) :
    type.admitsAll items = true := by
  induction items with
  | nil => rfl
  | cons item rest ih =>
      exact Bool.and_eq_true_iff.mpr ⟨h item List.mem_cons_self,
        ih fun item hitem => h item (List.mem_cons_of_mem _ hitem)⟩

theorem admitsEntries_of_forall {key entry : PropertyType} {entries : List EntryValue}
    (hkeys : ∀ item ∈ entries, key.admits item.key = true)
    (hvalues : ∀ item ∈ entries, entry.admits item.value = true) :
    admitsEntries key entry entries = true := by
  induction entries with
  | nil => rfl
  | cons item rest ih =>
      have hrest := ih (fun item hitem => hkeys item (List.mem_cons_of_mem _ hitem))
        (fun item hitem => hvalues item (List.mem_cons_of_mem _ hitem))
      have hitem := Bool.and_eq_true_iff.mpr
        ⟨hkeys item List.mem_cons_self, hvalues item List.mem_cons_self⟩
      obtain ⟨_, _⟩ := item
      exact Bool.and_eq_true_iff.mpr ⟨hitem, hrest⟩

/-- Members that are not hidden are found by their names. -/
theorem admitsMembers_listed {layout : StructLayout} {front later : List Property}
    {givens : List MemberValue} (hlayout : layout.properties = front ++ later)
    (hlisted : ListedMembers later givens) (hunhidden : unhiddenMembers true later = true)
    (hadmits : ∀ member ∈ layout.properties, ∀ value, Listed member.type value →
      member.type.unhidden true = true → member.type.admits value = true) :
    admitsMembers layout givens = true := by
  induction later generalizing front givens with
  | nil =>
      cases hlisted
      rfl
  | cons member later ih =>
      obtain ⟨hseen, htype, hlater⟩ := unhiddenMembers_cons.mp hunhidden
      cases hlisted with
      | cons hcount hvalues hlisted =>
          have hmem : member ∈ layout.properties := hlayout ▸ by simp
          have hall := admitsAll_of_forall fun value hvalue =>
            hadmits member hmem value (hvalues value hvalue) htype
          have hrest := @ih (front ++ [member]) _ (by simp [hlayout]) hlisted hlater
          rw [admitsMembers, StructLayout.findProperty?_seen hlayout (hseen rfl)]
          simp only [hcount, Nat.le_refl, decide_true, hall, hrest, Bool.and_self]

/-- Where nothing is hidden, every listed value has the shape of its type. -/
theorem Listed.admitted (h : Listed type given) (hunhidden : type.unhidden true = true) :
    type.admits given = true := by
  induction type using PropertyType.induction_on_types generalizing given with
  | leaf type hinline hcontainer =>
      cases h with
      | leaf _ _ hadmits => exact hadmits
      | struct => exact absurd rfl hinline
      | fixedArray => exact absurd rfl hinline
      | array => exact absurd rfl hcontainer
      | map => exact absurd rfl hcontainer
  | struct layout ih =>
      cases h with
      | leaf _ _ hadmits => exact hadmits
      | struct h =>
          rw [unhidden_struct] at hunhidden
          exact admitsMembers_listed (List.nil_append _).symm h hunhidden fun member hmember _ =>
            ih member hmember
  | fixedArray element count ih =>
      cases h with
      | leaf _ _ hadmits => exact hadmits
      | fixedArray hcount h =>
          exact Bool.and_eq_true_iff.mpr ⟨decide_eq_true hcount.le,
            admitsAll_of_forall fun item hitem => ih (h item hitem) hunhidden⟩
  | array element ih =>
      cases h with
      | leaf _ _ hadmits => exact hadmits
      | array h => exact admitsAll_of_forall fun item hitem => ih (h item hitem) hunhidden
  | map key entry hkey hentry =>
      obtain ⟨hunkey, hunentry⟩ := Bool.and_eq_true_iff.mp hunhidden
      cases h with
      | leaf _ _ hadmits => exact hadmits
      | map hkeys hvalues =>
          exact admitsEntries_of_forall (fun item hitem => hkey (hkeys item hitem) hunkey)
            (fun item hitem => hentry (hvalues item hitem) hunentry)

variable {everywhere : Bool}

theorem putBackAll_eq {helds items : List Value} (hkept : KeptAll type helds helds)
    (hcount : items.length = helds.length) (hsame : everywhere = false → helds = items)
    (hback : ∀ held, ∀ item ∈ items, Kept type held held → (everywhere = false → held = item) →
      type.putBack held item = item) : type.putBackAll helds items = items := by
  induction items generalizing helds with
  | nil =>
      obtain rfl := List.eq_nil_of_length_eq_zero hcount.symm
      rfl
  | cons item rest ih =>
      cases hkept with
      | nil => cases hcount
      | cons hfirst hkept =>
          have hhead := hback _ item List.mem_cons_self hfirst
            fun h => (List.cons.inj (hsame h)).1
          have htail := ih hkept (Nat.succ.inj hcount) (fun h => (List.cons.inj (hsame h)).2)
            fun held item hitem => hback held item (List.mem_cons_of_mem _ hitem)
          rw [putBackAll, hhead, htail]

theorem putBackMembers_eq {members : List Property} {helds givens : List MemberValue}
    (hunhidden : unhiddenMembers everywhere members = true)
    (hkept : KeptMembers members helds helds) (hlisted : ListedMembers members givens)
    (hsame : everywhere = false → helds = givens)
    (hback : ∀ member ∈ members, ∀ held given, member.type.unhidden everywhere = true →
      Kept member.type held held → Listed member.type given →
      (everywhere = false → held = given) → member.type.putBack held given = given) :
    putBackMembers members helds givens = givens := by
  induction members generalizing helds givens with
  | nil =>
      cases hkept
      cases hlisted
      rfl
  | cons member later ih =>
      obtain ⟨hseen, htype, hlater⟩ := unhiddenMembers_cons.mp hunhidden
      cases hlisted with
      | cons hcount hvalues hlisted =>
          cases hkept with
          | hidden hhidden hkept =>
              have hfalse : everywhere = false := by
                by_contra h
                simp [hseen (by simpa using h)] at hhidden
              have htail := ih hlater hkept hlisted (fun h => (List.cons.inj (hsame h)).2)
                fun member hmember => hback member (List.mem_cons_of_mem _ hmember)
              rw [putBackMembers, if_pos hhidden, htail, (List.cons.inj (hsame hfalse)).1]
          | seen hhidden hcount' hvalues' hkept =>
              have htail := ih hlater hkept hlisted (fun h => (List.cons.inj (hsame h)).2)
                fun member hmember => hback member (List.mem_cons_of_mem _ hmember)
              have hall := putBackAll_eq hvalues' (hcount.trans hcount'.symm)
                (fun h => (MemberValue.mk.inj (List.cons.inj (hsame h)).1).2)
                fun held item hitem hkept => hback member List.mem_cons_self held item htype hkept
                  (hvalues item hitem)
              rw [putBackMembers, if_neg (by simp [hhidden]), htail, hall]

theorem putBackEntries_eq {key entry : PropertyType} {entries : List EntryValue}
    (hkeys : ∀ item ∈ entries, key.putBack key.defaultValue item.key = item.key)
    (hvalues : ∀ item ∈ entries, entry.putBack entry.defaultValue item.value = item.value) :
    putBackEntries key entry entries = entries := by
  induction entries with
  | nil => rfl
  | cons item rest ih =>
      have hkey := hkeys item List.mem_cons_self
      have hvalue := hvalues item List.mem_cons_self
      obtain ⟨entryKey, entryValue⟩ := item
      rw [putBackEntries, hkey, hvalue,
        ih (fun item hitem => hkeys item (List.mem_cons_of_mem _ hitem))
          (fun item hitem => hvalues item (List.mem_cons_of_mem _ hitem))]

/-- Where nothing is hidden, a value that is put back replaces the one that is there.  In a
place of its own value, hidden members outside of containers do not matter. -/
theorem putBack_eq (hunhidden : type.unhidden everywhere = true) (hkept : Kept type held held)
    (hlisted : Listed type given) (hsame : everywhere = false → held = given) :
    type.putBack held given = given := by
  induction type using PropertyType.induction_on_types generalizing everywhere held given with
  | leaf type hinline hcontainer => exact putBack_leaf hinline hcontainer held given
  | struct layout ih =>
      cases hlisted with
      | leaf hinline => exact absurd rfl hinline
      | struct hlisted =>
          cases hkept with
          | leaf hinline => exact absurd rfl hinline
          | struct hkept =>
              rw [unhidden_struct] at hunhidden
              exact congrArg Value.struct (putBackMembers_eq hunhidden hkept hlisted
                (fun h => Value.struct.inj (hsame h)) fun member hmember _ _ => ih member hmember)
  | fixedArray element count ih =>
      cases hlisted with
      | leaf hinline => exact absurd rfl hinline
      | fixedArray hcount hlisted =>
          cases hkept with
          | leaf hinline => exact absurd rfl hinline
          | fixedArray hcount' hkept =>
              exact congrArg Value.array (putBackAll_eq hkept (hcount.trans hcount'.symm)
                (fun h => Value.array.inj (hsame h))
                fun held item hitem hkept => ih hunhidden hkept (hlisted item hitem))
  | array element ih =>
      cases hlisted with
      | leaf _ hcontainer => exact absurd rfl hcontainer
      | array hlisted =>
          exact congrArg Value.array (@putBackAll_eq _ true _ _ (keptAll_defaults element _)
            List.length_replicate.symm (by simp)
            fun held item hitem hkept => ih hunhidden hkept (hlisted item hitem))
  | map key entry hkey hentry =>
      obtain ⟨hunkey, hunentry⟩ := Bool.and_eq_true_iff.mp hunhidden
      cases hlisted with
      | leaf _ hcontainer => exact absurd rfl hcontainer
      | map hkeys hvalues =>
          exact congrArg Value.map (putBackEntries_eq
            (fun item hitem => hkey hunkey (.refl (listed_default key)) (hkeys item hitem) (by simp))
            (fun item hitem =>
              hentry hunentry (.refl (listed_default entry)) (hvalues item hitem) (by simp)))

end Unhidden

end PropertyType

end ObjectPackage
