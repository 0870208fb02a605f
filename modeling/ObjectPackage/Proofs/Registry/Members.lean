/-
What layouts are made of.  The structs that a declaration needs are all found in its layout,
as the base, as structs declared inside or in the types of properties, so they are smaller
than the layout is; what the declaration comes to depends on them only.
-/
import ObjectPackage.Proofs.Registry.Calls

namespace ObjectPackage

/-- The layouts that a layout is made of. -/
def StructLayout.members (layout : StructLayout) : List StructLayout :=
  layout.base.toList ++ layout.nested ++
    layout.properties.flatMap fun property => property.type.structs

theorem PropertyType.sizeOf_lt_of_mem_structs {type : PropertyType} {member : StructLayout}
    (h : member ∈ type.structs) : sizeOf member < sizeOf type := by
  fun_induction PropertyType.structs type with
  | case1 layout =>
      obtain rfl := List.mem_singleton.mp h
      simp
  | case2 element count ih =>
      have helement := ih h
      simp only [fixedArray.sizeOf_spec]
      omega
  | case3 element ih =>
      have helement := ih h
      simp only [array.sizeOf_spec]
      omega
  | case4 key value ihkey ihvalue =>
      simp only [map.sizeOf_spec]
      rcases List.mem_append.mp h with h | h
      · have hkey := ihkey h
        omega
      · have hvalue := ihvalue h
        omega
  | case5 => cases h

theorem StructLayout.sizeOf_lt_of_mem_members {layout member : StructLayout}
    (h : member ∈ layout.members) : sizeOf member < sizeOf layout := by
  obtain ⟨name, base, properties, ownStart, nested, size, alignment⟩ := layout
  simp only [mk.sizeOf_spec]
  rcases List.mem_append.mp h with h | h
  · rcases List.mem_append.mp h with h | h
    · obtain rfl : base = some member := Option.mem_toList.mp h
      simp only [Option.some.sizeOf_spec]
      omega
    · have hmember := List.sizeOf_lt_of_mem h
      simp only at hmember
      omega
  · obtain ⟨property, hproperty, hmember⟩ := List.mem_flatMap.mp h
    have hlisted := List.sizeOf_lt_of_mem hproperty
    have htype := PropertyType.sizeOf_lt_of_mem_structs hmember
    obtain ⟨realm, owner, name, type, dimension, flags, offset, mask⟩ := property
    simp only [Property.mk.sizeOf_spec] at hlisted htype
    omega

namespace LayoutDraft

variable {draft next : LayoutDraft} {realm : Nat} {owner : String}

/-- What a draft holds stays in it. -/
def Holds (draft : LayoutDraft) (member : StructLayout) : Prop :=
  member ∈ draft.nested ∨ ∃ property ∈ draft.properties, member ∈ property.type.structs

theorem holds_of_add {field : LayoutField} (h : draft.add realm owner field = .ok next)
    {member : StructLayout} :
    (draft.Holds member → next.Holds member) ∧ (member ∈ field.structs → next.Holds member) := by
  cases field with
  | nested layout =>
      obtain rfl := Except.ok.inj h
      refine ⟨Or.imp_left (List.mem_append_left _), fun hmember => Or.inl ?_⟩
      exact List.mem_append_right _ hmember
  | property name type dimension flags =>
      obtain ⟨-, -, -, rfl⟩ := add_property h
      constructor
      · rintro (hmember | ⟨property, hproperty, hmember⟩)
        · refine Or.inl ?_
          rwa [nested_place]
        · exact Or.inr ⟨property, List.mem_append_left _ hproperty, hmember⟩
      · intro hmember
        exact Or.inr ⟨_, List.mem_append_right _ List.mem_cons_self, hmember⟩

/-- All structs of the fields end up in the draft. -/
theorem holds_of_addAll {fields : List LayoutField} {member : StructLayout}
    (h : fields.foldlM (LayoutDraft.add realm owner) draft = .ok next) :
    (draft.Holds member → next.Holds member) ∧
      ∀ field ∈ fields, member ∈ field.structs → next.Holds member := by
  induction fields generalizing draft with
  | nil =>
      obtain rfl := Except.ok.inj h
      exact ⟨id, nofun⟩
  | cons field rest ih =>
      obtain ⟨middle, hadd, hrest⟩ := addAll_cons.mp h
      obtain ⟨hkept, hlater⟩ := ih hrest
      obtain ⟨hstart, hfield⟩ := @holds_of_add _ _ _ _ _ hadd member
      exact ⟨hkept ∘ hstart, List.forall_mem_cons.mpr ⟨hkept ∘ hfield, hlater⟩⟩

end LayoutDraft

/-- The structs that a layout was built from are its members. -/
theorem members_of_buildLayout {realm : Nat} {name : String} {base : Option StructLayout}
    {fields : List LayoutField} {layout : StructLayout}
    (h : buildLayout realm name base fields = .ok layout) :
    (∀ member ∈ base, member ∈ layout.members) ∧
      ∀ field ∈ fields, ∀ member ∈ field.structs, member ∈ layout.members := by
  obtain ⟨-, draft, hdraft, rfl⟩ := buildLayout_ok h
  constructor
  · intro member hmember
    exact List.mem_append_left _ (List.mem_append_left _ (Option.mem_toList.mpr hmember))
  · intro field hfield member hmember
    rcases (LayoutDraft.holds_of_addAll hdraft).2 field hfield hmember with hnested | hproperty
    · exact List.mem_append_left _ (List.mem_append_right _ hnested)
    · exact List.mem_append_right _ (List.mem_flatMap.mpr hproperty)

namespace Registry

variable {registry other : Registry} {decl : StructDecl} {layout : StructLayout}

/-- The structs of a type stand for the names in it, one for one. -/
theorem map_get?_needs {expr : TypeExpr} {type : PropertyType}
    (h : registry.type? expr = some type) :
    expr.needs.map registry.get? = type.structs.map some := by
  induction expr generalizing type with
  | struct name =>
      obtain ⟨layout, hlayout, rfl⟩ := Option.map_eq_some_iff.mp h
      simp [TypeExpr.needs, PropertyType.structs, hlayout]
  | fixedArray element count ih =>
      obtain ⟨inner, hinner, rfl⟩ := Option.map_eq_some_iff.mp h
      have hstructs := ih hinner
      exact hstructs
  | array element ih =>
      obtain ⟨inner, hinner, rfl⟩ := Option.map_eq_some_iff.mp h
      have hstructs := ih hinner
      exact hstructs
  | map key value ihkey ihvalue =>
      obtain ⟨left, hleft, h⟩ := Option.bind_eq_some_iff.mp h
      obtain ⟨right, hright, h⟩ := Option.bind_eq_some_iff.mp h
      obtain rfl := Option.some.inj h
      simp only [TypeExpr.needs, PropertyType.structs, List.map_append, ihkey hleft, ihvalue hright]
  | _ =>
      obtain rfl := Option.some.inj h
      rfl

theorem mem_structs_of_field? {field : FieldDecl} {resolved : LayoutField}
    (h : registry.field? field = some resolved) {name : String} (hname : name ∈ field.needs)
    {needed : StructLayout} (hneeded : registry.get? name = some needed) :
    needed ∈ resolved.structs := by
  cases field with
  | struct decl =>
      obtain ⟨layout, hlayout, rfl⟩ := Option.map_eq_some_iff.mp h
      obtain rfl := List.mem_singleton.mp hname
      rw [hneeded] at hlayout
      exact List.mem_singleton.mpr (Option.some.inj hlayout)
  | property decl =>
      obtain ⟨type, htype, rfl⟩ := Option.map_eq_some_iff.mp h
      have hmem : some needed ∈ type.structs.map some := by
        rw [← map_get?_needs htype, ← hneeded]
        exact List.mem_map_of_mem hname
      obtain ⟨_, hmember, hsame⟩ := List.mem_map.mp hmem
      obtain rfl := Option.some.inj hsame
      exact hmember

/-- Fields that came to something, one by one. -/
theorem map_field? {fields : List FieldDecl} {resolved : List LayoutField}
    (h : List.Forall₂ (fun field resolved => registry.field? field = some resolved)
      fields resolved) : fields.map registry.field? = resolved.map some := by
  rwa [← List.forall₂_eq_eq_eq, List.forall₂_map_left_iff, List.forall₂_map_right_iff]

/-- Whatever a declaration needs is a member of its layout. -/
theorem Realises.mem_members (h : registry.Realises decl layout) {name : String}
    (hname : name ∈ decl.needs) {needed : StructLayout}
    (hneeded : registry.get? name = some needed) : needed ∈ layout.members := by
  obtain ⟨base, fields, hbase, hfields, hbuild⟩ := h
  obtain ⟨hinBase, hinFields⟩ := members_of_buildLayout hbuild
  rcases List.mem_append.mp hname with hname | hname
  · rw [base?, Option.mem_toList.mp hname] at hbase
    dsimp only at hbase
    rw [hneeded] at hbase
    exact hinBase needed (Option.some.inj hbase).symm
  · obtain ⟨field, hfield, hname⟩ := List.mem_flatMap.mp hname
    have hmem : registry.field? field ∈ fields.map some := by
      rw [← map_field? hfields]
      exact List.mem_map_of_mem hfield
    obtain ⟨resolved, hresolved, hsame⟩ := List.mem_map.mp hmem
    exact hinFields resolved hresolved needed (mem_structs_of_field? hsame.symm hname hneeded)

section Congruence

theorem type?_congr {expr : TypeExpr}
    (h : ∀ name ∈ expr.needs, registry.get? name = other.get? name) :
    registry.type? expr = other.type? expr := by
  induction expr with
  | struct name => rw [type?, type?, h name List.mem_cons_self]
  | fixedArray element count ih => rw [type?, type?, ih h]
  | array element ih => rw [type?, type?, ih h]
  | map key value ihkey ihvalue =>
      obtain ⟨hkey, hvalue⟩ := List.forall_mem_append.mp h
      rw [type?, type?, ihkey hkey, ihvalue hvalue]
  | _ => rfl

theorem field?_congr {field : FieldDecl}
    (h : ∀ name ∈ field.needs, registry.get? name = other.get? name) :
    registry.field? field = other.field? field := by
  cases field with
  | struct decl => rw [field?, field?, h decl.name List.mem_cons_self]
  | property decl => rw [field?, field?, type?_congr h]

theorem base?_congr (h : ∀ name ∈ decl.needs, registry.get? name = other.get? name) :
    registry.base? decl = other.base? decl := by
  rw [base?, base?]
  split
  · rfl
  · next name hname =>
      rw [h name (List.mem_append_left _ (Option.mem_toList.mpr hname))]

/-- A declaration comes to the same layout over the same structs. -/
theorem Realises.unique {found : StructLayout} (h : registry.Realises decl layout)
    (h' : other.Realises decl found) (hrealm : registry.realm = other.realm)
    (hneeds : ∀ name ∈ decl.needs, registry.get? name = other.get? name) : layout = found := by
  obtain ⟨base, fields, hbase, hfields, hbuild⟩ := h
  obtain ⟨base', fields', hbase', hfields', hbuild'⟩ := h'
  obtain rfl : base = base' := by
    rw [base?_congr hneeds, hbase'] at hbase
    exact (Option.some.inj hbase).symm
  obtain rfl : fields = fields' := by
    have hsame : decl.fields.map registry.field? = decl.fields.map other.field? :=
      List.map_congr_left fun field hfield => field?_congr fun name hname =>
        hneeds name (List.mem_append_right _ (List.mem_flatMap.mpr ⟨field, hfield, hname⟩))
    rw [map_field? hfields, map_field? hfields'] at hsame
    exact List.map_injective_iff.mpr (Option.some_injective _) hsame
  rw [hrealm, hbuild'] at hbuild
  exact (Except.ok.inj hbuild).symm

end Congruence

end Registry

end ObjectPackage
