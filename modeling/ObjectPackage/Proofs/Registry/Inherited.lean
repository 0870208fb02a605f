/-
Inherited properties.  In a registry a property belongs to the loaded struct that declares it,
so a struct that is derived from another one has properties of that one and properties that
are new to it, and no declaration is met twice.
-/
import ObjectPackage.Proofs.Registry.Dependencies

namespace ObjectPackage

namespace Registry

variable {registry : Registry} {decl : StructDecl} {layout base : StructLayout}

/-- A layout has the properties of its base and, behind them, own ones that are owned by it. -/
theorem Realises.own (h : registry.Realises decl layout) :
    ∃ own, layout.properties = (LayoutDraft.start layout.base).properties ++ own ∧
      ∀ property ∈ own, property.owner = layout.name := by
  obtain ⟨base, fields, -, -, hbuild⟩ := h
  obtain ⟨-, draft, hdraft, rfl⟩ := buildLayout_ok hbuild
  obtain ⟨own, hproperties, hown, -⟩ := (LayoutDraft.start_extends base _ _).addAll hdraft
  exact ⟨own, hproperties, fun property hproperty => (hown property hproperty).2⟩

theorem sizeOf_base_lt (h : layout.base = some base) : sizeOf base < sizeOf layout :=
  StructLayout.sizeOf_lt_of_mem_members
    (List.mem_append_left _ (List.mem_append_left _ (Option.mem_toList.mpr h)))

/-- The owner of a property is loaded, and it is the struct that has the property or one of its
bases. -/
theorem Closed.owner (h : registry.Closed) (layout : StructLayout)
    (hget : ∃ name, registry.get? name = some layout) :
    ∀ property ∈ layout.properties, ∃ owner, registry.get? property.owner = some owner ∧
      sizeOf owner ≤ sizeOf layout := by
  intro property hproperty
  obtain ⟨name, hget⟩ := hget
  obtain ⟨decl, -, hrealises⟩ := h.realises_of_get? hget
  obtain ⟨own, hproperties, hown⟩ := hrealises.own
  rw [hproperties] at hproperty
  rcases List.mem_append.mp hproperty with hinherited | hproperty
  · cases hbase : layout.base with
    | none =>
        rw [hbase] at hinherited
        cases hinherited
    | some base =>
        rw [hbase] at hinherited
        have hsmaller := sizeOf_base_lt hbase
        obtain ⟨owner, howner, hle⟩ :=
          h.owner base (hrealises.closed.2.1 base hbase).1 property hinherited
        exact ⟨owner, howner, Nat.le_trans hle (Nat.le_of_lt hsmaller)⟩
  · refine ⟨layout, ?_, Nat.le_refl _⟩
    rw [hown property hproperty]
    exact h.get?_name hget
termination_by sizeOf layout

/-- What a loaded struct adds to its base is new to the base. -/
theorem Closed.continues (h : registry.Closed) (hget : ∃ name, registry.get? name = some layout)
    (hbase : layout.base = some base) : layout.Continues base := by
  obtain ⟨name, hget⟩ := hget
  obtain ⟨decl, -, hrealises⟩ := h.realises_of_get? hget
  obtain ⟨own, hproperties, hown⟩ := hrealises.own
  rw [hbase] at hproperties
  refine ⟨own, hproperties, fun property hproperty => ?_⟩
  by_contra hcontains
  obtain ⟨candidate, hcandidate, hsame⟩ :=
    List.any_eq_true.mp (Bool.not_eq_false _ ▸ hcontains)
  -- the same declaration would make the struct one of its own bases
  obtain ⟨owner, howner, hle⟩ :=
    h.owner base (hrealises.closed.2.1 base hbase).1 candidate hcandidate
  have hname : candidate.owner = layout.name := by
    rw [← hown property hproperty]
    simp only [Property.sameDeclaration, Bool.and_eq_true, beq_iff_eq] at hsame
    exact hsame.1.2
  rw [hname, h.get?_name hget] at howner
  obtain rfl := Option.some.inj howner
  have hsmaller := sizeOf_base_lt hbase
  omega

end Registry

end ObjectPackage
