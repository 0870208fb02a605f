/-
Geometry of layouts.  A declaration is laid out unless a name is malformed or
repeated or a dimension is zero, and what is laid out tiles its bytes: leaves of own
and inherited properties are inside the struct, aligned, and share no bit.  Buffers
of arrays and maps are tiled in the same way.
-/
import ObjectPackage.Proofs.Layout.Leaves

namespace ObjectPackage

/-- Names of the properties among some fields, in order. -/
def fieldNames : List LayoutField → List String
  | [] => []
  | .property name _ _ _ :: rest => name :: fieldNames rest
  | .nested _ :: rest => fieldNames rest

/-- What is wrong with a declaration that cannot be laid out. -/
inductive DeclarationFault (owner : String) (fields : List LayoutField) : LayoutError → Prop
  | structName (h : isIdentifier owner = false) :
      DeclarationFault owner fields (.malformedName owner)
  | propertyName {name : String} {type : PropertyType} {dimension : Nat}
      {flags : PropertyFlags} (hfield : .property name type dimension flags ∈ fields)
      (h : isIdentifier name = false) : DeclarationFault owner fields (.malformedName name)
  | duplicate {name : String} {type : PropertyType} {dimension : Nat} {flags : PropertyFlags}
      {before after : List LayoutField}
      (hfields : fields = before ++ .property name type dimension flags :: after)
      {other : String} (hother : other ∈ fieldNames before) (h : sameName other name = true) :
      DeclarationFault owner fields (.duplicateProperty owner name)
  | dimension {name : String} {type : PropertyType} {flags : PropertyFlags}
      (hfield : .property name type 0 flags ∈ fields) :
      DeclarationFault owner fields (.invalidDimension owner name)

namespace LayoutDraft

variable {draft : LayoutDraft} {realm : Nat} {owner : String}

theorem names_of_add {field : LayoutField} {next : LayoutDraft}
    (h : draft.add realm owner field = .ok next) :
    next.names = draft.names ++ (fieldNames [field]).map foldCase := by
  cases field with
  | nested layout =>
      obtain rfl := Except.ok.inj h
      simp [fieldNames]
  | property name type dimension flags =>
      obtain ⟨-, -, -, rfl⟩ := add_property h
      rfl

theorem fieldNames_cons (field : LayoutField) (rest : List LayoutField) :
    fieldNames (field :: rest) = fieldNames [field] ++ fieldNames rest := by
  cases field <;> rfl

theorem names_of_addAll {fields : List LayoutField} {next : LayoutDraft}
    (h : fields.foldlM (LayoutDraft.add realm owner) draft = .ok next) :
    next.names = draft.names ++ (fieldNames fields).map foldCase := by
  induction fields generalizing draft with
  | nil =>
      obtain rfl := Except.ok.inj h
      simp [fieldNames]
  | cons field rest ih =>
      obtain ⟨middle, hfirst, hrest⟩ := addAll_cons.mp h
      rw [ih hrest, names_of_add hfirst, fieldNames_cons field rest, List.map_append,
        List.append_assoc]

/-- A run over fields stops at the first one that cannot be added. -/
theorem addAll_error {fields : List LayoutField} {error : LayoutError}
    (h : fields.foldlM (LayoutDraft.add realm owner) draft = .error error) :
    ∃ before field after middle, fields = before ++ field :: after ∧
      before.foldlM (LayoutDraft.add realm owner) draft = .ok middle ∧
        middle.add realm owner field = .error error := by
  induction fields generalizing draft with
  | nil => cases h
  | cons field rest ih =>
      rw [List.foldlM_cons] at h
      cases hfirst : draft.add realm owner field with
      | error other =>
          rw [hfirst] at h
          obtain rfl := Except.error.inj h
          exact ⟨[], field, rest, draft, rfl, rfl, hfirst⟩
      | ok next =>
          rw [hfirst] at h
          obtain ⟨before, stop, after, middle, hfields, hbefore, hstop⟩ := ih h
          refine ⟨field :: before, stop, after, middle, by rw [hfields]; rfl, ?_, hstop⟩
          rw [List.foldlM_cons, hfirst]
          exact hbefore

theorem addAll_ok_middle {before after : List LayoutField} {field : LayoutField}
    {next : LayoutDraft}
    (h : (before ++ field :: after).foldlM (LayoutDraft.add realm owner) draft = .ok next) :
    ∃ middle later, before.foldlM (LayoutDraft.add realm owner) draft = .ok middle ∧
      middle.add realm owner field = .ok later := by
  obtain ⟨middle, hbefore, hafter⟩ := addAll_append.mp h
  obtain ⟨later, hfield, -⟩ := addAll_cons.mp hafter
  exact ⟨middle, later, hbefore, hfield⟩

theorem add_error {field : LayoutField} {error : LayoutError}
    (h : draft.add realm owner field = .error error) :
    ∃ name type dimension flags, field = .property name type dimension flags ∧
      ((isIdentifier name = false ∧ error = .malformedName name) ∨
        (foldCase name ∈ draft.names ∧ error = .duplicateProperty owner name) ∨
        (dimension = 0 ∧ error = .invalidDimension owner name)) := by
  cases field with
  | nested layout => cases h
  | property name type dimension flags =>
      refine ⟨name, type, dimension, flags, rfl, ?_⟩
      simp only [add] at h
      split at h
      · next hname => exact Or.inl ⟨by simpa using hname, (Except.error.inj h).symm⟩
      · split at h
        · next hseen =>
            exact Or.inr (Or.inl ⟨by simpa using hseen, (Except.error.inj h).symm⟩)
        · split at h
          · next hdimension =>
              exact Or.inr (Or.inr ⟨hdimension, (Except.error.inj h).symm⟩)
          · cases h

theorem names_start (base : Option StructLayout) : (start base).names = [] := by
  cases base <;> rfl

/-- A field that cannot be added is a fault of the declaration. -/
theorem fault_of_addAll_error {base : Option StructLayout} {fields : List LayoutField}
    {error : LayoutError}
    (h : fields.foldlM (LayoutDraft.add realm owner) (start base) = .error error) :
    DeclarationFault owner fields error := by
  obtain ⟨before, field, after, middle, rfl, hbefore, hfield⟩ := addAll_error h
  obtain ⟨name, type, dimension, flags, rfl, hcause⟩ := add_error hfield
  have hmem : .property name type dimension flags ∈
      before ++ .property name type dimension flags :: after := by simp
  rcases hcause with ⟨hname, rfl⟩ | ⟨hseen, rfl⟩ | ⟨rfl, rfl⟩
  · exact .propertyName hmem hname
  · rw [names_of_addAll hbefore, names_start, List.nil_append, List.mem_map] at hseen
    obtain ⟨other, hother, hsame⟩ := hseen
    exact .duplicate rfl hother (sameName_eq_true_iff.mpr hsame)
  · exact .dimension hmem

/-- Fields that were all added have no fault. -/
theorem no_fault_of_addAll {base : Option StructLayout} {fields : List LayoutField}
    {next : LayoutDraft} (howner : isIdentifier owner = true)
    (h : fields.foldlM (LayoutDraft.add realm owner) (start base) = .ok next)
    (error : LayoutError) : ¬DeclarationFault owner fields error := by
  intro hfault
  cases hfault with
  | structName hname =>
      rw [howner] at hname
      cases hname
  | propertyName hfield hname =>
      obtain ⟨before, after, rfl⟩ := List.append_of_mem hfield
      obtain ⟨middle, later, -, hadd⟩ := addAll_ok_middle h
      rw [(add_property hadd).1] at hname
      cases hname
  | duplicate hfields hother hsame =>
      subst hfields
      obtain ⟨middle, later, hbefore, hadd⟩ := addAll_ok_middle h
      apply (add_property hadd).2.1
      rw [names_of_addAll hbefore, names_start, List.nil_append, List.mem_map]
      exact ⟨_, hother, sameName_eq_true_iff.mp hsame⟩
  | dimension hfield =>
      obtain ⟨before, after, rfl⟩ := List.append_of_mem hfield
      obtain ⟨middle, later, -, hadd⟩ := addAll_ok_middle h
      exact (add_property hadd).2.2.1 rfl

end LayoutDraft

section Outcome

variable {realm : Nat} {name : String} {base : Option StructLayout}
  {fields : List LayoutField}

/-- Over built layouts a build that fails has a fault to report; no property ends past
the size of its struct. -/
theorem fault_of_buildLayout_error (hbase : ∀ other ∈ base, other.Built)
    (hfields : ∀ field ∈ fields, ∀ other ∈ field.structs, other.Built) {error : LayoutError}
    (h : buildLayout realm name base fields = .error error) :
    DeclarationFault name fields error := by
  unfold buildLayout at h
  split at h
  · next hname =>
      obtain rfl := Except.error.inj h
      exact .structName (by simpa using hname)
  · cases hfold : fields.foldlM (LayoutDraft.add realm name) (LayoutDraft.start base) with
    | error other =>
        rw [hfold] at h
        obtain rfl := Except.error.inj h
        exact LayoutDraft.fault_of_addAll_error hfold
    | ok draft =>
        rw [hfold] at h
        simp only [bind, Except.bind] at h
        have hsound := LayoutDraft.sound_of_fields
          (fun other hother => (hbase other hother).arranged) hfields
          (fun field hfield other hother => (hfields field hfield other hother).arranged.narrow)
          hfold
        split at h
        · next property hfound =>
            have hpast := List.find?_some hfound
            have hinside := (hsound.arranged.placed property
              (List.mem_of_find?_eq_some hfound)).inside
            have hgrow := le_alignUp draft.offset (sizeGrain name)
            simp only [decide_eq_true_eq] at hpast
            omega
        · cases h

theorem no_fault_of_buildLayout {layout : StructLayout}
    (h : buildLayout realm name base fields = .ok layout) (error : LayoutError) :
    ¬DeclarationFault name fields error := by
  obtain ⟨hname, draft, hdraft, -⟩ := buildLayout_ok h
  exact LayoutDraft.no_fault_of_addAll hname hdraft error

end Outcome

/-- The leaves of all properties of a struct, inherited ones first. -/
def StructLayout.leaves (layout : StructLayout) : List Part :=
  leavesOf 0 (memberParts layout.properties)

theorem StructLayout.Built.tiling {layout : StructLayout} (h : layout.Built) :
    Tiling layout.leaves layout.size := by
  refine (memberParts_fitted h.arranged).tiling ?_
  intro part hpart
  obtain ⟨member, hmember, hpart⟩ := mem_memberParts.mp hpart
  obtain ⟨_, _, rfl⟩ := mem_parts.mp hpart
  exact (h.arranged.placed member hmember).resolved

theorem PropertyType.Resolved.unit_tiling {type : PropertyType} (h : type.Resolved)
    (count : Nat) : Tiling (leavesOf 0 (type.unitParts count)) (count * type.unitPitch) :=
  (h.unitParts_fitted count).tiling fun _ hpart => h.of_mem_unitParts hpart

/-- Over built layouts a declaration is laid out unless it has a fault, and what is
laid out tiles its struct; so do the buffers of arrays and maps. -/
theorem buildLayout_geometry (realm : Nat) (name : String) (base : Option StructLayout)
    (fields : List LayoutField) (hbase : ∀ other ∈ base, other.Built)
    (hfields : ∀ field ∈ fields, ∀ other ∈ field.structs, other.Built) :
    (∀ error, buildLayout realm name base fields = .error error →
      DeclarationFault name fields error) ∧
    ((∃ layout, buildLayout realm name base fields = .ok layout) ↔
      ∀ error, ¬DeclarationFault name fields error) ∧
    (∀ layout, buildLayout realm name base fields = .ok layout →
      Tiling (leavesOf 0 (memberParts layout.properties)) layout.size) ∧
    (∀ (element : PropertyType) (count : Nat), element.Resolved →
      Tiling (leavesOf 0 (elementParts element count)) (count * element.pitch)) ∧
    (∀ (key value : PropertyType) (count : Nat), key.Resolved → value.Resolved →
      Tiling (leavesOf 0 (entryParts key value count)) (count * key.entryPitch value)) := by
  refine ⟨?_, ⟨?_, ?_⟩, ?_, ?_, ?_⟩
  · intro error herror
    exact fault_of_buildLayout_error hbase hfields herror
  · rintro ⟨layout, hlayout⟩ error
    exact no_fault_of_buildLayout hlayout error
  · intro hfault
    cases hbuild : buildLayout realm name base fields with
    | error error => exact absurd (fault_of_buildLayout_error hbase hfields hbuild) (hfault error)
    | ok layout => exact ⟨layout, rfl⟩
  · intro layout hlayout
    exact (StructLayout.Built.build hbase hfields hlayout).tiling
  · intro element count helement
    exact @PropertyType.Resolved.unit_tiling (.array element) helement count
  · intro key value count hkey hvalue
    refine @PropertyType.Resolved.unit_tiling (.map key value) ?_ count
    intro layout hlayout
    rcases List.mem_append.mp hlayout with hlayout | hlayout
    · exact hkey layout hlayout
    · exact hvalue layout hlayout

namespace NarrowBase

/-- A narrow struct that ends at 12 bytes but is aligned to 8. -/
def vector : StructLayout :=
  ⟨"Vector", none, [⟨0, "Vector", "Label", .str, 1, .empty, 0, 0⟩,
    ⟨0, "Vector", "X", .float, 1, .empty, 8, 0⟩], 0, [], 12, 8⟩

def fields : List LayoutField :=
  [.property "bHidden" .bool 1 .empty, .property "bStatic" .bool 1 .empty,
    .property "Places" (.struct vector) 2 .empty, .property "None" (.fixedArray .int 0) 1 .empty,
    .property "bLit" .bool 3 .empty, .property "Marks" (.map .byte (.struct vector)) 1 .empty]

theorem vector_built : vector.Built := by
  apply @StructLayout.Built.build 0 "Vector" none
    [.property "Label" .str 1 .empty, .property "X" .float 1 .empty]
  · exact nofun
  · simp [LayoutField.structs, PropertyType.structs]
  · rfl

/-- A struct with a narrow base, a bool word, a bool array and an empty fixed array. -/
theorem pawn_geometry : ∃ pawn, buildLayout 0 "Pawn" (some vector) fields = .ok pawn ∧
    pawn.size = 72 ∧ Tiling (leavesOf 0 (memberParts pawn.properties)) pawn.size := by
  have hfields : ∀ field ∈ fields, ∀ other ∈ field.structs, other.Built := by
    intro field hfield other hother
    suffices hvector : other = vector from hvector ▸ vector_built
    simp only [fields, List.mem_cons, List.not_mem_nil, or_false] at hfield
    rcases hfield with rfl | rfl | rfl | rfl | rfl | rfl <;>
      simp_all [LayoutField.structs, PropertyType.structs]
  refine ⟨_, rfl, rfl, ?_⟩
  exact (buildLayout_geometry 0 "Pawn" (some vector) fields
    (fun other hother => Option.some.inj hother ▸ vector_built) hfields).2.2.1 _ rfl

end NarrowBase

end ObjectPackage
