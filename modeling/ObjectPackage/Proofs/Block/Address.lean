/-
Addresses of saved entries.  A header is read back from the bytes that are saved for it, and
it leads to the last property of its name that is a struct or not, as its type is; a property
that another one hides is not reached.
-/
import ObjectPackage.Proofs.Block.Make
import ObjectPackage.Proofs.Block.Save
import ObjectPackage.Proofs.Tagged.Listing

namespace ObjectPackage

/-- Properties that headers do not tell apart. -/
def Property.alike (left right : Property) : Bool :=
  sameName left.name right.name && left.type.isStruct == right.type.isStruct

theorem PropertyType.tag_eq_struct (type : PropertyType) :
    (type.tag == .struct) = type.isStruct := by
  cases type <;> rfl

/-- The last property of a name and a kind is found, if there is one. -/
theorem StructLayout.findTagged?_of_mem {layout : StructLayout} {property : Property}
    (h : property ∈ layout.properties) {name : String} (hname : sameName property.name name = true) :
    layout.findTagged? name property.type.isStruct =
      (layout.properties.filter fun other => other.alike property).getLast? := by
  have halike (other : Property) : other.alike property =
      decide (sameName other.name name = true ∧
        (other.type.isStruct == property.type.isStruct) = true) := by
    rw [Property.alike]
    cases hsame : sameName other.name property.name with
    | true => simp [sameName_trans hsame hname, Bool.beq_eq_decide_eq]
    | false =>
        have hother : sameName other.name name ≠ true := by
          intro hother
          rw [sameName_comm] at hname
          rw [sameName_trans hother hname] at hsame
          cases hsame
        simp [hother]
  have hfound : (layout.properties.filter fun other => other.alike property).getLast?.isSome := by
    rw [List.getLast?_isSome]
    exact List.ne_nil_of_mem (List.mem_filter.mpr ⟨h, by simp [Property.alike, sameName_self]⟩)
  rw [findTagged?, List.find?_filter]
  simp only [← halike]
  rw [← List.getLast?_filter, Option.or_of_isSome hfound]

namespace Written

variable {block : Block} {names : NameTable} {entry : Written}

theorem Valid.isBool_of_tag (h : entry.Valid block names) (htag : entry.header.tag = .bool) :
    entry.property.type = .bool := by
  rw [h.describes.tag] at htag
  cases htype : entry.property.type <;> rw [htype] at htag <;> first | rfl | cases htag

theorem Valid.arrayIndex (h : entry.Valid block names)
    (hindex : entry.index < entry.property.dimension) (htag : entry.header.tag = .bool) :
    entry.header.arrayIndex = 0 := by
  have hsingle := h.single
  rw [h.isBool_of_tag htag] at hsingle
  have hzero : entry.index = 0 := by
    by_contra hne
    exact hsingle ⟨rfl, by omega⟩
  rw [h.index, hzero]
  rfl

/-- What is needed to read the header of an entry back. -/
theorem Valid.saved (h : entry.Valid block names) (hindex : entry.index < entry.property.dimension)
    (hnone : sameName entry.property.name noneName = false) : entry.header.Saved names := by
  refine ⟨⟨_, h.describes.named, hnone⟩, fun htag => ?_, fun htag => ?_, ?_, h.arrayIndex hindex,
    fun htag => ?_⟩
  · rw [h.describes.tag] at htag
    cases hstruct : entry.property.type.struct? with
    | none =>
        have hkind := entry.property.type.tag_eq_struct
        rw [htag, PropertyType.isStruct, hstruct] at hkind
        cases hkind
    | some layout =>
        obtain ⟨id, hid, hname⟩ := h.describes.structNamed layout hstruct
        exact ⟨id, _, hid, hname⟩
  · apply h.describes.noStruct
    rw [h.describes.tag] at htag
    have hkind := entry.property.type.tag_eq_struct
    rw [beq_eq_false_iff_ne.mpr htag] at hkind
    exact Option.isNone_iff_eq_none.mp (by rw [← Option.not_isSome]; exact congrArg not hkind.symm)
  · obtain ⟨trail, htrail, -⟩ := bind_eq_ok.mp h.head
    by_cases htag : entry.header.tag = .bool
    · rw [h.arrayIndex hindex htag]
      exact Nat.zero_le _
    · by_cases hzero : entry.header.arrayIndex = 0
      · rw [hzero]
        exact Nat.zero_le _
      · rw [Header.trail, if_pos ⟨by simp [Header.highBit, htag, hzero], htag⟩] at htrail
        exact Read.arrayIndex_le htrail
  · have hpayload := h.payload
    have hkind : entry.property.type ≠ .bool := by
      rintro hbool
      rw [h.describes.tag, hbool] at htag
      exact htag rfl
    rw [Save.payload] at hpayload
    obtain ⟨value, -, hvalue⟩ := bind_eq_ok.mp hpayload
    split at hvalue
    · next hbool => exact absurd hbool hkind
    · exact (Prod.mk.inj (Except.ok.inj hvalue)).2.symm

/-- Where a property has the name of the terminator, its entry ends the list. -/
theorem Valid.terminates (h : entry.Valid block names) (hsize : names.size ≤ 2 ^ 31)
    (hnone : sameName entry.property.name noneName = true) :
    ∃ rest, entry.head = Encode.name entry.header.name ++ rest ∧
      (Header.read names).Takes (Encode.name entry.header.name) none := by
  obtain ⟨trail, -, hhead⟩ := bind_eq_ok.mp h.head
  have hlead : ∃ rest, entry.header.lead = Encode.name entry.header.name ++ rest := by
    simp only [Header.lead, List.append_assoc]
    exact ⟨_, rfl⟩
  obtain ⟨rest, hrest⟩ := hlead
  refine ⟨rest ++ trail, ?_, Header.takes_terminator h.describes.named hnone hsize⟩
  rw [← Except.ok.inj hhead, hrest, List.append_assoc]

/-- The header of an entry leads to a property that it does not tell from its own. -/
theorem Valid.resolve? (h : entry.Valid block names) {layout : StructLayout}
    (hproperty : entry.property ∈ layout.properties) : layout.resolve? names entry.header =
      (layout.properties.filter fun other => other.alike entry.property).getLast? := by
  obtain ⟨text, htext, hsame⟩ := h.describes.named
  rw [StructLayout.resolve?, Header.text, htext, h.describes.tag, PropertyType.tag_eq_struct]
  exact StructLayout.findTagged?_of_mem hproperty ((sameName_comm _ _).trans hsame)

end Written

/-- A property is the last of its kind when nothing behind it hides it. -/
theorem getLast?_alike {properties front back : List Property} {property : Property}
    (hsplit : properties = front ++ property :: back)
    (hback : ∀ other ∈ back, other.alike property = false) :
    (properties.filter fun other => other.alike property).getLast? = some property := by
  have hself : property.alike property = true := by simp [Property.alike, sameName_self]
  have hrest : back.filter (fun other => other.alike property) = [] :=
    List.filter_eq_nil_iff.mpr fun other hother => by simp [hback other hother]
  rw [hsplit, List.filter_append, List.filter_cons, if_pos hself, hrest, List.getLast?_append]
  rfl

namespace HiddenCount

def baseCount : Property := ⟨0, "Base", "Count", .int, 1, .empty, 0, 0⟩

def base : StructLayout := ⟨"Base", none, [baseCount], 0, [], 8, 4⟩

def derivedCount : Property := ⟨0, "Derived", "Count", .int, 1, .empty, 8, 0⟩

/-- The count of the derived struct hides the one of the base. -/
def derived : StructLayout := ⟨"Derived", some base, [baseCount, derivedCount], 1, [], 16, 4⟩

theorem catalogue : Catalogue [derived, base] :=
  @Catalogue.build [base] 0 "Derived" (some base) [.property "Count" .int 1 .empty] derived
    (@Catalogue.build [] 0 "Base" none [.property "Count" .int 1 .empty] base .empty nofun
      (by simp [LayoutField.structs, PropertyType.structs]) nofun rfl)
    (by simp) (by simp [LayoutField.structs, PropertyType.structs]) (by simp [base, baseCount]) rfl

def blank : Block := ⟨derived, .zeroed 16⟩

end HiddenCount

end ObjectPackage
