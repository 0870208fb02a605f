/-
Offsets by name.  The table is filled from the front and a later place replaces an earlier one,
the look-up in a layout goes from the back to the first property of a name; both end at the
declaration that is nearest to the struct.
-/
import ObjectPackage.OffsetTable
import ObjectPackage.Proofs.Layout.Lookup
import ObjectPackage.Proofs.NameTable
import ObjectPackage.Proofs.Registry.Dependencies
import ObjectPackage.Proofs.Registry.Register

namespace ObjectPackage

/-- Where a property is, as the table of offsets notes it. -/
def Property.place (property : Property) : PropertyOffset :=
  ⟨property.offset, property.mask⟩

namespace StructLayout

variable (layout : StructLayout)

/-- The folded names that a property of the struct is noted under. -/
def keyOf (property : Property) : String × String :=
  (foldCase layout.name, foldCase property.name)

def placements : List ((String × String) × PropertyOffset) :=
  layout.properties.map fun property => (layout.keyOf property, property.place)

/-- The place that a look-up by two names finds in the struct, if the first name is its own. -/
def located (structName name : String) : Option PropertyOffset :=
  if sameName structName layout.name then (layout.findProperty? name).map Property.place else none

/-- The last place that is noted for a name is the one of the property that is found. -/
theorem lookup_placements (structName name : String) :
    layout.placements.reverse.lookup (foldCase structName, foldCase name) =
      layout.located structName name := by
  have hkey (property : Property) :
      ((foldCase structName, foldCase name) == layout.keyOf property) =
        (sameName structName layout.name && sameName property.name name) := by
    rw [keyOf, sameName_comm property.name, sameName, sameName]
    rfl
  rw [placements, located, ← List.map_reverse, List.lookup_eq_findSome?, List.findSome?_map,
    findProperty?]
  generalize layout.properties.reverse = properties
  induction properties with
  | nil => simp
  | cons property properties ih =>
      rw [List.findSome?_cons, ih, List.find?_cons, Function.comp_apply, hkey]
      cases sameName structName layout.name with
      | false => simp
      | true => cases sameName property.name name <;> simp

end StructLayout

namespace OffsetTable

/-- The names that have places. -/
def keys (table : OffsetTable) : List (String × String) :=
  table.entries.map Prod.fst

/-- Without the entries of a key the others are found as before. -/
theorem lookup_filter_ne (entries : List ((String × String) × PropertyOffset))
    (key other : String × String) : (entries.filter fun entry => entry.1 != key).lookup other =
      if other = key then none else entries.lookup other := by
  by_cases hother : other = key
  · subst hother
    rw [if_pos rfl, List.lookup_eq_none_iff]
    intro entry hentry
    rw [bne_comm]
    exact (List.mem_filter.mp hentry).2
  · rw [if_neg hother]
    induction entries with
    | nil => rfl
    | cons entry entries ih =>
        by_cases hentry : entry.1 = key
        · have hne : (other == entry.1) = false := by rwa [hentry, beq_eq_false_iff_ne]
          rw [List.filter_cons_of_neg (by simp [hentry]), ih, List.lookup_cons, hne]
        · rw [List.filter_cons_of_pos (by simpa using hentry), List.lookup_cons, ih,
            List.lookup_cons]

theorem lookup_insert (table : OffsetTable) (key other : String × String) (place : PropertyOffset) :
    (table.insert key place).entries.lookup other =
      if other = key then some place else table.entries.lookup other := by
  rw [insert, List.lookup_append, lookup_filter_ne, List.lookup_cons, List.lookup_nil]
  by_cases hother : other = key
  · simp [hother]
  · have hne : (other == key) = false := beq_eq_false_iff_ne.mpr hother
    simp [hother, hne]

theorem keys_insert (table : OffsetTable) (key : String × String) (place : PropertyOffset) :
    (table.insert key place).keys = table.keys.filter (· != key) ++ [key] := by
  rw [keys, insert, List.map_append, keys, List.filter_map]
  rfl

/-- Note places, one after the other. -/
def insertAll (table : OffsetTable) (entries : List ((String × String) × PropertyOffset)) :
    OffsetTable :=
  entries.foldl (fun table entry => table.insert entry.1 entry.2) table

section Entries

variable (entries : List ((String × String) × PropertyOffset))

/-- Of several places for the same names the last one is kept. -/
theorem lookup_insertAll (table : OffsetTable) (key : String × String) :
    (table.insertAll entries).entries.lookup key =
      (entries.reverse.lookup key).or (table.entries.lookup key) := by
  induction entries generalizing table with
  | nil => rfl
  | cons entry entries ih =>
      refine (ih (table.insert entry.1 entry.2)).trans ?_
      rw [List.reverse_cons, List.lookup_append, lookup_insert, Option.or_assoc, List.lookup_cons,
        List.lookup_nil]
      by_cases hkey : key = entry.1
      · simp [hkey]
      · have hne : (key == entry.1) = false := beq_eq_false_iff_ne.mpr hkey
        simp [hkey, hne]

theorem mem_keys_insertAll (table : OffsetTable) (key : String × String) :
    key ∈ (table.insertAll entries).keys ↔ key ∈ table.keys ∨ key ∈ entries.map Prod.fst := by
  induction entries generalizing table with
  | nil => simp [insertAll]
  | cons entry entries ih =>
      refine (ih (table.insert entry.1 entry.2)).trans ?_
      rw [keys_insert, List.mem_append, List.mem_filter, List.mem_singleton, List.map_cons,
        List.mem_cons, ← or_assoc]
      by_cases hkey : key = entry.1
      · simp [hkey]
      · simp [hkey]

/-- No names have two places. -/
theorem nodup_keys_insertAll {table : OffsetTable} (h : table.keys.Nodup) :
    (table.insertAll entries).keys.Nodup := by
  induction entries generalizing table with
  | nil => exact h
  | cons entry entries ih =>
      apply ih
      rw [keys_insert]
      refine (h.filter _).append (List.nodup_singleton _) fun key hkey hsingle => ?_
      rw [List.mem_singleton.mp hsingle] at hkey
      simp at hkey

end Entries

theorem ofLayouts_eq (layouts : List StructLayout) :
    ofLayouts layouts = empty.insertAll (layouts.flatMap StructLayout.placements) := by
  rw [insertAll, List.foldl_flatMap, ofLayouts]
  congr 1
  funext table layout
  rw [StructLayout.placements, List.foldl_map]
  rfl

/-- A look-up finds what the last of the structs has that has a place for it. -/
theorem find?_ofLayouts (layouts : List StructLayout) (structName name : String) :
    (ofLayouts layouts).find? structName name =
      layouts.reverse.findSome? fun layout => layout.located structName name := by
  rw [find?, ofLayouts_eq, lookup_insertAll, empty, List.lookup_nil, Option.or_none]
  induction layouts with
  | nil => rfl
  | cons layout layouts ih =>
      rw [List.flatMap_cons, List.reverse_append, List.lookup_append, ih,
        StructLayout.lookup_placements, List.reverse_cons, List.findSome?_append,
        List.findSome?_singleton]

/-- The table has one place for each pair of names, up to case. -/
theorem size_ofLayouts (layouts : List StructLayout) :
    (ofLayouts layouts).size = Set.ncard {names | ∃ layout ∈ layouts,
      ∃ property ∈ layout.properties, names = layout.keyOf property} := by
  have hnodup : (ofLayouts layouts).keys.Nodup := by
    rw [ofLayouts_eq]
    exact nodup_keys_insertAll _ List.nodup_nil
  have hkeys : {names | ∃ layout ∈ layouts, ∃ property ∈ layout.properties,
      names = layout.keyOf property} = ((ofLayouts layouts).keys.toFinset : Set _) := by
    ext names
    rw [List.coe_toFinset, Set.mem_ofPred_eq, Set.mem_ofPred_eq, ofLayouts_eq, mem_keys_insertAll]
    simp [empty, keys, StructLayout.placements, eq_comm]
  rw [hkeys, Set.ncard_coe_finset, List.toFinset_card_of_nodup hnodup, keys, List.length_map]
  rfl

end OffsetTable

namespace Registry

variable {registry : Registry} {layout : StructLayout}

theorem get?_congr {name other : String} (h : foldCase name = foldCase other) :
    registry.get? name = registry.get? other := by
  rw [get?, get?, find?, find?, h]

/-- A struct is found by its own name up to case only. -/
theorem Closed.sameName_of_get? (h : registry.Closed) {name : String}
    (hget : registry.get? name = some layout) : sameName name layout.name = true := by
  obtain ⟨decl, hname, hrealises⟩ := h.realises_of_get? hget
  rw [sameName_eq_true_iff, hrealises.closed.1, hname]

/-- The layouts of a registry are the structs that it has loaded. -/
theorem Ordered.mem_layouts (h : registry.Ordered) (hclosed : registry.Closed) :
    layout ∈ registry.layouts ↔ registry.get? layout.name = some layout := by
  rw [layouts, List.mem_filterMap]
  constructor
  · rintro ⟨key, -, hkey⟩
    have hloaded : registry.entries.lookup key = some (.loaded layout) := by
      split at hkey
      · next hlookup => rw [hlookup, Option.some.inj hkey]
      · cases hkey
    obtain ⟨decl, rfl, hrealises⟩ := hclosed.loaded key layout hloaded
    rw [get?_eq_some, hrealises.closed.1, hloaded]
  · intro hget
    have hloaded := get?_eq_some.mp hget
    refine ⟨foldCase layout.name, (h _).mpr ?_, by rw [hloaded]⟩
    rw [hloaded]
    exact Option.some_ne_none _

/-- The table has the place of the property that is found in the struct that is loaded. -/
theorem Ordered.find?_ofRegistry (h : registry.Ordered) (hclosed : registry.Closed)
    (structName name : String) :
    (OffsetTable.ofRegistry registry).find? structName name =
      (registry.get? structName).bind fun layout =>
        (layout.findProperty? name).map Property.place := by
  have hname : ∀ layout ∈ registry.layouts.reverse,
      sameName structName layout.name = true → registry.get? structName = some layout := by
    intro layout hlayout hsame
    rw [get?_congr (sameName_eq_true_iff.mp hsame)]
    exact (h.mem_layouts hclosed).mp (List.mem_reverse.mp hlayout)
  rw [OffsetTable.ofRegistry, OffsetTable.find?_ofLayouts]
  cases hfound : registry.layouts.reverse.findSome? fun layout =>
      layout.located structName name with
  | some place =>
      obtain ⟨layout, hlayout, hlocated⟩ := List.exists_of_findSome?_eq_some hfound
      rw [StructLayout.located] at hlocated
      by_cases hsame : sameName structName layout.name = true
      · rw [hname layout hlayout hsame, Option.bind_some, ← hlocated, if_pos hsame]
      · rw [if_neg hsame] at hlocated
        cases hlocated
  | none =>
      cases hget : registry.get? structName with
      | none => rfl
      | some layout =>
          have hmem : layout ∈ registry.layouts.reverse :=
            List.mem_reverse.mpr ((h.mem_layouts hclosed).mpr (hclosed.get?_name hget))
          have hnone := List.findSome?_eq_none_iff.mp hfound layout hmem
          rw [StructLayout.located, if_pos (hclosed.sameName_of_get? hget)] at hnone
          rw [Option.bind_some, hnone]

/-- The look-ups of properties agree, in any registry that a program can have.  The table of
offsets has the place of the property that the look-up by name finds in the struct, and nothing
for a struct that is not loaded.  By name, the property that is declared nearest to the struct is
found; by name and kind, the nearest one of that kind, or the one that is found by name if there
is none.  The table has as many places as there are names of properties of loaded structs. -/
theorem lookups_agree (realm : Nat) (builtins : Bool) (calls : List Call) :
    let registry := (start realm builtins).after calls
    let table := OffsetTable.ofRegistry registry
    (∀ structName name, table.find? structName name =
      (registry.get? structName).bind fun layout =>
        (layout.findProperty? name).map Property.place) ∧
    (∀ structName layout, registry.get? structName = some layout → ∀ name,
      layout.findProperty? name =
        (layout.nearest? fun property => sameName property.name name) ∧
      ∀ wantsStruct, layout.findTagged? name wantsStruct =
        (layout.nearest? fun property =>
          sameName property.name name && property.type.isStruct == wantsStruct).or
        (layout.findProperty? name)) ∧
    table.size = Set.ncard {names | ∃ structName layout,
      registry.get? structName = some layout ∧ ∃ property ∈ layout.properties,
        names = (foldCase structName, foldCase property.name)} := by
  intro registry table
  have hsettled := start_settled realm builtins
  have hclosed : registry.Closed := (hsettled.after calls).1.closed
  have hordered : registry.Ordered :=
    Ordered.after (start_listed realm builtins).mem hsettled calls
  refine ⟨hordered.find?_ofRegistry hclosed, fun structName layout hget name => ?_, ?_⟩
  · have hbuilt := hclosed.built layout ⟨structName, hget⟩
    exact ⟨hbuilt.findProperty?_eq name, hbuilt.findTagged?_eq name⟩
  · refine (OffsetTable.size_ofLayouts registry.layouts).trans (congrArg Set.ncard ?_)
    ext names
    constructor
    · rintro ⟨layout, hlayout, property, hproperty, rfl⟩
      exact ⟨layout.name, layout, (hordered.mem_layouts hclosed).mp hlayout, property, hproperty,
        rfl⟩
    · rintro ⟨structName, layout, hget, property, hproperty, rfl⟩
      refine ⟨layout, (hordered.mem_layouts hclosed).mpr (hclosed.get?_name hget), property,
        hproperty, ?_⟩
      rw [StructLayout.keyOf, sameName_eq_true_iff.mp (hclosed.sameName_of_get? hget)]

end Registry

namespace ShadowedRegion

open Registry

def mark : StructDecl :=
  .plain "Mark" [("Id", .int)]

def object : StructDecl :=
  .plain "Object" [("bDeleteMe", .bool), ("Region", .int)]

/-- The region of the actor is a struct and hides the number of the object. -/
def actor : StructDecl :=
  ⟨"Actor", some "Object",
    [.property (.plain "bHidden" .bool), .property (.plain "Region" (.struct "Mark"))]⟩

def calls : List Call :=
  [.register mark, .register object, .register actor, .resolve "Actor"]

/-- The table has the place of the region that the actor declares; its number is still found
where no struct is wanted. -/
theorem region_found :
    (OffsetTable.ofRegistry ((start 0 false).after calls)).find? "ACTOR" "region" =
        some ⟨12, 0⟩ ∧
      ∃ layout, ((start 0 false).after calls).get? "actor" = some layout ∧
        (layout.findTagged? "region" false).map Property.owner = some "Object" := by
  obtain ⟨hfind, htagged, -⟩ := lookups_agree 0 false calls
  have hloaded : (((start 0 false).after calls).get? "actor").isSome = true := by decide +kernel
  obtain ⟨layout, hget⟩ := Option.isSome_iff_exists.mp hloaded
  refine ⟨(hfind "ACTOR" "region").trans (by decide +kernel), layout, hget, ?_⟩
  have howner : ((((start 0 false).after calls).get? "actor").bind fun layout =>
      (layout.nearest? fun property => sameName property.name "region" &&
        property.type.isStruct == false).or (layout.findProperty? "region")).map Property.owner =
      some "Object" := by decide +kernel
  rw [(htagged "actor" layout hget "region").2 false, ← howner, hget, Option.bind_some]

end ShadowedRegion

end ObjectPackage
