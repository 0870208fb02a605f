/-
Catalogues of layouts.  Layouts are built one after the other, each over those built
before and with declarations of its own, so a declaration stands for one property
whatever layout it is met in.
-/
import ObjectPackage.Proofs.Layout.Placement

namespace ObjectPackage

/-- The properties of the base come first, and the base contains none of the others. -/
def StructLayout.Continues (layout base : StructLayout) : Prop :=
  ∃ own, layout.properties = base.properties ++ own ∧
    ∀ property ∈ own, base.contains property = false

theorem StructLayout.isA_of_base {layout base : StructLayout} (h : layout.base = some base) :
    layout.isA base.name = true := by
  obtain ⟨name, parent, properties, ownStart, nested, size, alignment⟩ := layout
  obtain rfl : parent = some base := h
  obtain ⟨name, parent, properties, ownStart, nested, size, alignment⟩ := base
  simp [isA, baseIsA, sameName]

/-- The layouts that were built so far, the last one first.  A build declares nothing
under a realm and an owner that were used before. -/
inductive Catalogue : List StructLayout → Prop
  | empty : Catalogue []
  | build {layouts : List StructLayout} {realm : Nat} {name : String}
      {base : Option StructLayout} {fields : List LayoutField} {layout : StructLayout}
      (hlayouts : Catalogue layouts) (hbase : ∀ other ∈ base, other ∈ layouts)
      (hfields : ∀ field ∈ fields, ∀ other ∈ field.structs, other ∈ layouts)
      (hfresh : ∀ other ∈ layouts, ∀ property ∈ other.properties,
        property.realm = realm → property.owner ≠ name)
      (h : buildLayout realm name base fields = .ok layout) : Catalogue (layout :: layouts)

namespace LayoutDraft

/-- Inherited properties come first, and own ones have the owner and names of their own. -/
def Extends (draft : LayoutDraft) (inherited : List Property) (realm : Nat) (owner : String) :
    Prop :=
  ∃ own, draft.properties = inherited ++ own ∧
    (∀ property ∈ own, property.realm = realm ∧ property.owner = owner) ∧
    draft.names = own.map (fun property => foldCase property.name) ∧ draft.names.Nodup

variable {draft next : LayoutDraft} {inherited : List Property} {realm : Nat} {owner : String}

theorem Extends.add {field : LayoutField} (h : draft.Extends inherited realm owner)
    (hadd : draft.add realm owner field = .ok next) : next.Extends inherited realm owner := by
  cases field with
  | nested layout =>
      obtain rfl := Except.ok.inj hadd
      exact h
  | property name type dimension flags =>
      obtain ⟨own, hproperties, howner, hnames, hnodup⟩ := h
      obtain ⟨-, hnew, -, rfl⟩ := add_property hadd
      let placed : Property := ⟨realm, owner, name, type, dimension, flags,
        (draft.place type dimension).1, (draft.place type dimension).2.1⟩
      refine ⟨own ++ [placed], ?_, ?_, ?_, ?_⟩
      · simp only [hproperties, List.append_assoc, placed]
      · intro property hproperty
        rcases List.mem_append.mp hproperty with hproperty | hproperty
        · exact howner property hproperty
        · rw [List.mem_singleton.mp hproperty]
          exact ⟨rfl, rfl⟩
      · simp [hnames, placed]
      · refine List.nodup_append.mpr ⟨hnodup, List.nodup_singleton _, ?_⟩
        rintro old hold _ hsingle rfl
        exact hnew (List.mem_singleton.mp hsingle ▸ hold)

theorem Extends.addAll {fields : List LayoutField} (h : draft.Extends inherited realm owner)
    (hadd : fields.foldlM (LayoutDraft.add realm owner) draft = .ok next) :
    next.Extends inherited realm owner := by
  induction fields generalizing draft with
  | nil =>
      obtain rfl := Except.ok.inj hadd
      exact h
  | cons field rest ih =>
      obtain ⟨middle, hfirst, hrest⟩ := addAll_cons.mp hadd
      exact ih (h.add hfirst) hrest

theorem start_extends (base : Option StructLayout) (realm : Nat) (owner : String) :
    (start base).Extends (start base).properties realm owner :=
  ⟨[], by simp, by simp, by cases base <;> rfl, by cases base <;> simp [start]⟩

end LayoutDraft

namespace Catalogue

variable {layouts : List StructLayout} {left right : StructLayout} {first second : Property}

theorem built (h : Catalogue layouts) : ∀ layout ∈ layouts, layout.Built := by
  induction h with
  | empty => simp
  | build hlayouts hbase hfields hfresh h ih =>
      intro other hother
      rcases List.mem_cons.mp hother with rfl | hother
      · exact .build (fun other hother => ih other (hbase other hother))
          (fun field hfield other hother => ih other (hfields field hfield other hother)) h
      · exact ih other hother

/-- One declaration is one property, in all layouts of a catalogue. -/
theorem eq_of_sameDeclaration (h : Catalogue layouts) (hleft : left ∈ layouts)
    (hright : right ∈ layouts) (hfirst : first ∈ left.properties)
    (hsecond : second ∈ right.properties) (hsame : first.sameDeclaration second = true) :
    first = second := by
  obtain ⟨hrealm, howner, hname⟩ : first.realm = second.realm ∧ first.owner = second.owner ∧
      first.name = second.name := by
    simpa [Property.sameDeclaration, and_assoc] using hsame
  clear hsame
  induction h generalizing left right first second with
  | empty => cases hleft
  | @build layouts realm name base fields layout hlayouts hbase hfields hfresh h ih =>
      obtain ⟨-, draft, hdraft, hlayout⟩ := buildLayout_ok h
      obtain ⟨own, hproperties, hown, hnames, hnodup⟩ :=
        (LayoutDraft.start_extends base realm name).addAll hdraft
      have hall : layout.properties = (LayoutDraft.start base).properties ++ own := by
        rw [hlayout]
        exact hproperties
      -- a property of the new layout is one of an older layout or an own one
      have hsource : ∀ property ∈ layout.properties,
          (∃ other ∈ layouts, property ∈ other.properties) ∨ property ∈ own := by
        intro property hproperty
        rw [hall] at hproperty
        rcases List.mem_append.mp hproperty with hproperty | hproperty
        · cases base with
          | none => cases hproperty
          | some other => exact Or.inl ⟨other, hbase other rfl, hproperty⟩
        · exact Or.inr hproperty
      have hcases : ∀ other ∈ layout :: layouts, ∀ property ∈ other.properties,
          (∃ older ∈ layouts, property ∈ older.properties) ∨ property ∈ own := by
        intro other hother property hproperty
        rcases List.mem_cons.mp hother with rfl | hother
        · exact hsource property hproperty
        · exact Or.inl ⟨other, hother, hproperty⟩
      rcases hcases left hleft first hfirst with ⟨older, holder, hfirst⟩ | hfirstOwn
      · rcases hcases right hright second hsecond with ⟨older', holder', hsecond⟩ | hsecondOwn
        · exact ih holder holder' hfirst hsecond hrealm howner hname
        · obtain ⟨hrealm', howner'⟩ := hown second hsecondOwn
          exact absurd (howner.trans howner') (hfresh older holder first hfirst (hrealm.trans hrealm'))
      · obtain ⟨hrealm', howner'⟩ := hown first hfirstOwn
        rcases hcases right hright second hsecond with ⟨older', holder', hsecond⟩ | hsecondOwn
        · exact absurd (howner.symm.trans howner')
            (hfresh older' holder' second hsecond (hrealm.symm.trans hrealm'))
        · rw [hnames] at hnodup
          exact List.inj_on_of_nodup_map hnodup hfirstOwn hsecondOwn (by simp only [hname])

/-- A property that a layout contains is one of its own. -/
theorem mem_of_contains (h : Catalogue layouts) (hleft : left ∈ layouts)
    (hright : right ∈ layouts) (hfirst : first ∈ left.properties)
    (hcontains : right.contains first = true) : first ∈ right.properties := by
  obtain ⟨candidate, hcandidate, hsame⟩ := List.any_eq_true.mp hcontains
  rw [← h.eq_of_sameDeclaration hright hleft hcandidate hfirst hsame]
  exact hcandidate

end Catalogue

end ObjectPackage
