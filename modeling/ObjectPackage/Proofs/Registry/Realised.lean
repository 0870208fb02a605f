/-
What declarations come to.  Over the structs that a registry has loaded, a declaration
whose dependencies are all among them has one layout, and a registry that loads more does
not change it.
-/
import ObjectPackage.Proofs.Layout.Catalogue
import ObjectPackage.Proofs.Registry.Actions

namespace ObjectPackage

/-- Names of the structs in a type. -/
def TypeExpr.needs : TypeExpr → List String
  | .struct needed => [needed]
  | .fixedArray element _ => element.needs
  | .array element => element.needs
  | .map key value => key.needs ++ value.needs
  | _ => []

def FieldDecl.needs : FieldDecl → List String
  | .property decl => decl.type.needs
  | .struct decl => [decl.name]

/-- Names of the structs that a declaration depends on. -/
def StructDecl.needs (decl : StructDecl) : List String :=
  decl.base.toList ++ decl.fields.flatMap FieldDecl.needs

namespace Registry

/-- A type over the structs that are loaded. -/
def type? (registry : Registry) : TypeExpr → Option PropertyType
  | .byte => some .byte
  | .int => some .int
  | .bool => some .bool
  | .float => some .float
  | .name => some .name
  | .str => some .str
  | .object className => some (.object className)
  | .classRef metaClass => some (.classRef metaClass)
  | .struct name => (registry.get? name).map .struct
  | .fixedArray element count => (registry.type? element).map (.fixedArray · count)
  | .array element => (registry.type? element).map .array
  | .map key value => do return .map (← registry.type? key) (← registry.type? value)

def field? (registry : Registry) : FieldDecl → Option LayoutField
  | .struct decl => (registry.get? decl.name).map .nested
  | .property decl => (registry.type? decl.type).map fun type =>
      .property decl.name type decl.dimension decl.flags

/-- The base of a declaration, where it is loaded or there is none. -/
def base? (registry : Registry) (decl : StructDecl) : Option (Option StructLayout) :=
  match decl.base with
  | none => some none
  | some name => (registry.get? name).map some

/-- The layout is what the declaration comes to over the structs that are loaded. -/
def Realises (registry : Registry) (decl : StructDecl) (layout : StructLayout) : Prop :=
  ∃ base fields, registry.base? decl = some base ∧
    List.Forall₂ (fun field resolved => registry.field? field = some resolved)
      decl.fields fields ∧
    buildLayout registry.realm decl.name base fields = .ok layout

/-- What the one registry has loaded is loaded in the other. -/
structure Below (registry other : Registry) : Prop where
  realm : other.realm = registry.realm
  loaded : ∀ key layout, registry.entries.lookup key = some (.loaded layout) →
    other.entries.lookup key = some (.loaded layout)

variable {registry other : Registry} {decl : StructDecl} {layout : StructLayout}

theorem get?_eq_some {name : String} : registry.get? name = some layout ↔
    registry.entries.lookup (foldCase name) = some (.loaded layout) := by
  rw [get?, find?]
  split <;> simp_all

theorem lookup_setEntry (registry : Registry) (name key : String) (entry : RegistryEntry) :
    (registry.setEntry name entry).entries.lookup key =
      if key = foldCase name then some entry else registry.entries.lookup key := by
  rw [setEntry, lookup_insertEntry]
  simp only [beq_iff_eq]

namespace Below

theorem get? {name : String} (h : registry.Below other) (hget : registry.get? name = some layout) :
    other.get? name = some layout :=
  get?_eq_some.mpr (h.loaded _ _ (get?_eq_some.mp hget))

theorem type? {expr : TypeExpr} {type : PropertyType} (h : registry.Below other)
    (htype : registry.type? expr = some type) : other.type? expr = some type := by
  induction expr generalizing type with
  | struct name =>
      obtain ⟨layout, hlayout, rfl⟩ := Option.map_eq_some_iff.mp htype
      exact Option.map_eq_some_iff.mpr ⟨layout, h.get? hlayout, rfl⟩
  | fixedArray element count ih =>
      obtain ⟨inner, hinner, rfl⟩ := Option.map_eq_some_iff.mp htype
      exact Option.map_eq_some_iff.mpr ⟨inner, ih hinner, rfl⟩
  | array element ih =>
      obtain ⟨inner, hinner, rfl⟩ := Option.map_eq_some_iff.mp htype
      exact Option.map_eq_some_iff.mpr ⟨inner, ih hinner, rfl⟩
  | map key value ihkey ihvalue =>
      obtain ⟨left, hleft, htype⟩ := Option.bind_eq_some_iff.mp htype
      obtain ⟨right, hright, hmap⟩ := Option.bind_eq_some_iff.mp htype
      refine Option.bind_eq_some_iff.mpr ⟨left, ihkey hleft, ?_⟩
      exact Option.bind_eq_some_iff.mpr ⟨right, ihvalue hright, hmap⟩
  | _ => exact htype

theorem field? {field : FieldDecl} {resolved : LayoutField} (h : registry.Below other)
    (hfield : registry.field? field = some resolved) : other.field? field = some resolved := by
  cases field with
  | struct decl =>
      obtain ⟨layout, hlayout, rfl⟩ := Option.map_eq_some_iff.mp hfield
      exact Option.map_eq_some_iff.mpr ⟨layout, h.get? hlayout, rfl⟩
  | property decl =>
      obtain ⟨type, htype, rfl⟩ := Option.map_eq_some_iff.mp hfield
      exact Option.map_eq_some_iff.mpr ⟨type, h.type? htype, rfl⟩

theorem base? {base : Option StructLayout} (h : registry.Below other)
    (hbase : registry.base? decl = some base) : other.base? decl = some base := by
  rw [Registry.base?] at hbase ⊢
  split at hbase
  · exact hbase
  · obtain ⟨layout, hlayout, rfl⟩ := Option.map_eq_some_iff.mp hbase
    exact Option.map_eq_some_iff.mpr ⟨layout, h.get? hlayout, rfl⟩

/-- Loading more does not change what a declaration comes to. -/
theorem realises (h : registry.Below other) (hrealises : registry.Realises decl layout) :
    other.Realises decl layout := by
  obtain ⟨base, fields, hbase, hfields, hbuild⟩ := hrealises
  refine ⟨base, fields, h.base? hbase, hfields.imp fun _ _ hfield => h.field? hfield, ?_⟩
  rwa [h.realm]

end Below

/-- A struct that is named in a type is loaded. -/
theorem loaded_of_type? {expr : TypeExpr} {type : PropertyType}
    (h : registry.type? expr = some type) :
    (∀ name ∈ expr.needs, ∃ layout, registry.get? name = some layout) ∧
      ∀ layout ∈ type.structs, ∃ name, registry.get? name = some layout := by
  induction expr generalizing type with
  | struct name =>
      obtain ⟨layout, hlayout, rfl⟩ := Option.map_eq_some_iff.mp h
      simp only [TypeExpr.needs, PropertyType.structs, List.mem_singleton, forall_eq]
      exact ⟨⟨layout, hlayout⟩, name, hlayout⟩
  | fixedArray element count ih =>
      obtain ⟨inner, hinner, rfl⟩ := Option.map_eq_some_iff.mp h
      have hloaded := ih hinner
      exact hloaded
  | array element ih =>
      obtain ⟨inner, hinner, rfl⟩ := Option.map_eq_some_iff.mp h
      have hloaded := ih hinner
      exact hloaded
  | map key value ihkey ihvalue =>
      obtain ⟨left, hleft, h⟩ := Option.bind_eq_some_iff.mp h
      obtain ⟨right, hright, h⟩ := Option.bind_eq_some_iff.mp h
      obtain rfl := Option.some.inj h
      obtain ⟨hkeyNeeds, hkeyStructs⟩ := ihkey hleft
      obtain ⟨hvalueNeeds, hvalueStructs⟩ := ihvalue hright
      exact ⟨List.forall_mem_append.mpr ⟨hkeyNeeds, hvalueNeeds⟩,
        List.forall_mem_append.mpr ⟨hkeyStructs, hvalueStructs⟩⟩
  | _ =>
      obtain rfl := Option.some.inj h
      constructor <;> rintro _ ⟨⟩

theorem loaded_of_field? {field : FieldDecl} {resolved : LayoutField}
    (h : registry.field? field = some resolved) :
    (∀ name ∈ field.needs, ∃ layout, registry.get? name = some layout) ∧
      ∀ layout ∈ resolved.structs, ∃ name, registry.get? name = some layout := by
  cases field with
  | struct decl =>
      obtain ⟨layout, hlayout, rfl⟩ := Option.map_eq_some_iff.mp h
      simp only [FieldDecl.needs, LayoutField.structs, List.mem_singleton, forall_eq]
      exact ⟨⟨layout, hlayout⟩, decl.name, hlayout⟩
  | property decl =>
      obtain ⟨type, htype, rfl⟩ := Option.map_eq_some_iff.mp h
      exact loaded_of_type? htype

/-- All dependencies of a declaration that has come to a layout are loaded. -/
theorem Realises.needs (h : registry.Realises decl layout) :
    ∀ name ∈ decl.needs, ∃ needed, registry.get? name = some needed := by
  obtain ⟨base, fields, hbase, hfields, -⟩ := h
  refine List.forall_mem_append.mpr ⟨fun name hname => ?_, fun name hname => ?_⟩
  · rw [base?, Option.mem_toList.mp hname] at hbase
    obtain ⟨needed, hneeded, -⟩ := Option.map_eq_some_iff.mp hbase
    exact ⟨needed, hneeded⟩
  · obtain ⟨field, hfield, hname⟩ := List.mem_flatMap.mp hname
    have hall := (List.forall₂_and_left _ _).mp
      (hfields.imp fun _ _ h => ⟨(loaded_of_field? h).1, h⟩)
    exact hall.1 field hfield name hname

end Registry

namespace LayoutDraft

variable {draft next : LayoutDraft} {realm : Nat} {owner : String}

theorem nested_place (draft : LayoutDraft) (type : PropertyType) (dimension : Nat) :
    (draft.place type dimension).2.2.nested = draft.nested := by
  rw [place]
  split
  · rw [placeBool]
    split <;> rfl
  · rfl

/-- Structs of a draft are those that it started with and those of its fields. -/
theorem structs_of_addAll {fields : List LayoutField}
    (h : fields.foldlM (LayoutDraft.add realm owner) draft = .ok next) :
    (∀ other ∈ next.nested, other ∈ draft.nested ∨ ∃ field ∈ fields, other ∈ field.structs) ∧
      ∀ property ∈ next.properties, property ∈ draft.properties ∨
        ∃ field ∈ fields, property.type.structs = field.structs := by
  induction fields generalizing draft with
  | nil =>
      obtain rfl := Except.ok.inj h
      exact ⟨fun _ h => Or.inl h, fun _ h => Or.inl h⟩
  | cons field rest ih =>
      obtain ⟨middle, hadd, hrest⟩ := addAll_cons.mp h
      obtain ⟨hnested, hproperties⟩ := ih hrest
      have hlater {found : LayoutField → Prop} (h : ∃ field ∈ rest, found field) :
          ∃ field' ∈ field :: rest, found field' := by
        obtain ⟨later, hmem, hfound⟩ := h
        exact ⟨later, List.mem_cons_of_mem _ hmem, hfound⟩
      cases field with
      | nested layout =>
          obtain rfl := Except.ok.inj hadd
          refine ⟨fun other hother => ?_, fun property hproperty => ?_⟩
          · rcases hnested other hother with hother | hother
            · rcases List.mem_append.mp hother with hother | hother
              · exact Or.inl hother
              · exact Or.inr ⟨_, List.mem_cons_self, hother⟩
            · exact Or.inr (hlater hother)
          · exact (hproperties property hproperty).imp id hlater
      | property name type dimension flags =>
          obtain ⟨-, -, -, rfl⟩ := add_property hadd
          refine ⟨fun other hother => ?_, fun property hproperty => ?_⟩
          · have hother := hnested other hother
            rw [nested_place] at hother
            exact hother.imp id hlater
          · rcases hproperties property hproperty with hproperty | hproperty
            · rcases List.mem_append.mp hproperty with hproperty | hproperty
              · exact Or.inl hproperty
              · obtain rfl := List.mem_singleton.mp hproperty
                exact Or.inr ⟨_, List.mem_cons_self, rfl⟩
            · exact Or.inr (hlater hproperty)

end LayoutDraft

namespace Registry

variable {registry : Registry} {decl : StructDecl} {layout : StructLayout}

theorem loaded_of_base? {base : Option StructLayout} (h : registry.base? decl = some base) :
    ∀ other ∈ base, ∃ name, registry.get? name = some other := by
  intro other hother
  obtain rfl := Option.mem_def.mp hother
  rw [base?] at h
  split at h
  · cases Option.some.inj h
  · next name hname =>
      obtain ⟨found, hfound, heq⟩ := Option.map_eq_some_iff.mp h
      obtain rfl := Option.some.inj heq
      exact ⟨name, hfound⟩

theorem loaded_of_fields {fields : List FieldDecl} {resolved : List LayoutField}
    (h : List.Forall₂ (fun field found => registry.field? field = some found) fields resolved) :
    ∀ found ∈ resolved, ∀ other ∈ found.structs, ∃ name, registry.get? name = some other := by
  have hall := (List.forall₂_and_left _ _).mp
    (h.flip.imp fun _ _ h => ⟨(loaded_of_field? h).2, h⟩)
  exact hall.1

/-- A layout that a declaration has come to has the name of the declaration, continues the
properties of a loaded base, and names loaded structs only. -/
theorem Realises.closed (h : registry.Realises decl layout) :
    layout.name = decl.name ∧
      (∀ base ∈ layout.base, (∃ name, registry.get? name = some base) ∧
        base.properties <+: layout.properties) ∧
      (∀ other ∈ layout.nested, ∃ name, registry.get? name = some other) ∧
      ∀ property ∈ layout.properties, (∃ base ∈ layout.base, property ∈ base.properties) ∨
        ∀ other ∈ property.type.structs, ∃ name, registry.get? name = some other := by
  obtain ⟨base, fields, hbase, hfields, hbuild⟩ := h
  obtain ⟨-, draft, hdraft, rfl⟩ := buildLayout_ok hbuild
  obtain ⟨own, hproperties, -⟩ := (LayoutDraft.start_extends base _ _).addAll hdraft
  obtain ⟨hnested, hstructs⟩ := LayoutDraft.structs_of_addAll hdraft
  have hloaded := loaded_of_fields hfields
  refine ⟨rfl, fun other hother => ⟨?_, ?_⟩, fun other hother => ?_, fun property hproperty => ?_⟩
  · exact loaded_of_base? hbase other hother
  · obtain rfl := Option.mem_def.mp hother
    exact ⟨own, hproperties.symm⟩
  · rcases hnested other hother with hstart | ⟨field, hfield, hother⟩
    · cases base <;> cases hstart
    · exact hloaded field hfield other hother
  · rcases hstructs property hproperty with hstart | ⟨field, hfield, hsame⟩
    · cases base with
      | none => cases hstart
      | some base => exact Or.inl ⟨base, rfl, hstart⟩
    · rw [hsame]
      exact Or.inr (hloaded field hfield)

end Registry

end ObjectPackage
