/-
Look-ups of properties by name.  No struct declares a name twice, so the last property of a
name is the one that is declared nearest: by the struct itself, or else by the nearest of its
bases that declares one.
-/
import ObjectPackage.Proofs.Layout.Catalogue

namespace ObjectPackage

/-- Where no two items are wanted, it is the same to look from either end. -/
theorem find?_reverse_of_unique {α : Type} {items : List α} {wanted : α → Bool}
    (h : ∀ first ∈ items, ∀ second ∈ items, wanted first = true → wanted second = true →
      first = second) : items.reverse.find? wanted = items.find? wanted := by
  cases hfront : items.find? wanted with
  | none =>
      rw [List.find?_eq_none] at hfront ⊢
      intro item hitem
      exact hfront item (List.mem_reverse.mp hitem)
  | some first =>
      have hfirst := List.mem_of_find?_eq_some hfront
      have hwanted := List.find?_some hfront
      have hsome : (items.reverse.find? wanted).isSome :=
        List.find?_isSome.mpr ⟨first, List.mem_reverse.mpr hfirst, hwanted⟩
      obtain ⟨last, hlast⟩ := Option.isSome_iff_exists.mp hsome
      have hmem := List.mem_reverse.mp (List.mem_of_find?_eq_some hlast)
      rw [hlast, h last hmem first hfirst (List.find?_some hlast) hwanted]

namespace StructLayout

mutual

/-- The property of a kind that the struct itself declares, or else the nearest one of its
base. -/
def nearest? (wanted : Property → Bool) : StructLayout → Option Property
  | ⟨_, base, properties, ownStart, _, _, _⟩ =>
      ((properties.drop ownStart).find? wanted).or (baseNearest? wanted base)

def baseNearest? (wanted : Property → Bool) : Option StructLayout → Option Property
  | none => none
  | some base => base.nearest? wanted

end

variable {layout : StructLayout}

/-- Among the properties of one name the last one of a kind is the nearest one. -/
theorem Built.last_eq_nearest? (h : layout.Built) (name : String) (wanted : Property → Bool)
    (hwanted : ∀ property, wanted property = true → sameName property.name name = true) :
    layout.properties.reverse.find? wanted = layout.nearest? wanted := by
  induction h with
  | @build realm owner base fields layout hbase hfields hbuild ih _ =>
      obtain ⟨-, draft, hdraft, rfl⟩ := buildLayout_ok hbuild
      obtain ⟨own, hproperties, -, hnames, hnodup⟩ :=
        (LayoutDraft.start_extends base realm owner).addAll hdraft
      have hown : own.reverse.find? wanted = own.find? wanted := by
        apply find?_reverse_of_unique
        intro first hfirst second hsecond hwants hwants'
        have hfold := sameName_eq_true_iff.mp (hwanted first hwants)
        have hfold' := sameName_eq_true_iff.mp (hwanted second hwants')
        rw [hnames] at hnodup
        exact List.inj_on_of_nodup_map hnodup hfirst hsecond (hfold.trans hfold'.symm)
      have hinherited : (LayoutDraft.start base).properties.reverse.find? wanted =
          baseNearest? wanted base := by
        cases base with
        | none => rfl
        | some base => exact ih base rfl
      rw [nearest?, hproperties, List.reverse_append, List.find?_append, hown, hinherited,
        List.drop_left]

theorem Built.findProperty?_eq (h : layout.Built) (name : String) :
    layout.findProperty? name = layout.nearest? fun property => sameName property.name name :=
  h.last_eq_nearest? name _ fun _ hwanted => hwanted

/-- A tagged look-up wants the nearest property of the name and the kind, and is content with
any property of the name. -/
theorem Built.findTagged?_eq (h : layout.Built) (name : String) (wantsStruct : Bool) :
    layout.findTagged? name wantsStruct =
      (layout.nearest? fun property =>
        sameName property.name name && property.type.isStruct == wantsStruct).or
      (layout.findProperty? name) := by
  have hkind := h.last_eq_nearest? name
    (fun property => sameName property.name name && property.type.isStruct == wantsStruct)
    fun property hwanted => (Bool.and_eq_true_iff.mp hwanted).1
  have hboth : (fun property : Property => decide (sameName property.name name = true ∧
      (property.type.isStruct == wantsStruct) = true)) = fun property =>
        sameName property.name name && property.type.isStruct == wantsStruct := by
    funext property
    rw [Bool.decide_and, Bool.decide_eq_true, Bool.decide_eq_true]
  rw [findTagged?, List.find?_filter, List.head?_filter, hboth, hkind, findProperty?]

end StructLayout

end ObjectPackage
