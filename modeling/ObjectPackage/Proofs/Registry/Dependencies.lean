/-
Dependencies between declarations.  A struct is loaded after everything it depends on, and
its layout is larger than theirs, so what is loaded does not depend on itself.  Where no
struct depends on itself, all of them are in order and no chain of dependencies is too long,
a resolution has no reason to fail.
-/
import ObjectPackage.Proofs.Layout.Geometry
import ObjectPackage.Proofs.Registry.Confluent

namespace ObjectPackage

def FieldDecl.property? : FieldDecl → Option PropertyDecl
  | .property decl => some decl
  | .struct _ => none

/-- The properties that a declaration adds to its base. -/
def StructDecl.ownProperties (decl : StructDecl) : List PropertyDecl :=
  decl.fields.filterMap FieldDecl.property?

/-- The own properties have well-formed names, different ones whatever their case, and have
elements. -/
structure StructDecl.Orderly (decl : StructDecl) : Prop where
  identifiers : ∀ property ∈ decl.ownProperties, isIdentifier property.name = true
  distinct : (decl.ownProperties.map fun property => foldCase property.name).Nodup
  dimensions : ∀ property ∈ decl.ownProperties, property.dimension ≠ 0

namespace Registry

/-- The declaration under one key names the other. -/
def Depends (registry : Registry) (key needed : String) : Prop :=
  ∃ decl, registry.entries.lookup key = some (.unloaded decl) ∧
    ∃ name ∈ decl.needs, foldCase name = needed

/-- One key is the other or depends on it, directly or through others. -/
def Reaches (registry : Registry) : String → String → Prop :=
  Relation.ReflTransGen registry.Depends

/-- A key depends on itself, directly or through others. -/
def Cyclic (registry : Registry) (key : String) : Prop :=
  Relation.TransGen registry.Depends key key

variable {first registry later : Registry} {key needed name : String} {layout : StructLayout}
  {decl : StructDecl}

section Loaded

variable (hfirst : first.Unresolved) (hprogress : first.Progress registry)

include hfirst hprogress

end Loaded

/-- Every loaded layout was built over built layouts. -/
theorem Closed.built (h : registry.Closed) (layout : StructLayout)
    (hget : ∃ name, registry.get? name = some layout) : layout.Built := by
  obtain ⟨name, hget⟩ := hget
  obtain ⟨decl, -, base, fields, hbase, hfields, hbuild⟩ := h.realises_of_get? hget
  obtain ⟨hinBase, hinFields⟩ := members_of_buildLayout hbuild
  refine .build (fun member hmember => ?_) (fun field hfield member hmember => ?_) hbuild
  · have hsmaller := StructLayout.sizeOf_lt_of_mem_members (hinBase member hmember)
    exact h.built member (loaded_of_base? hbase member hmember)
  · have hsmaller := StructLayout.sizeOf_lt_of_mem_members (hinFields field hfield member hmember)
    exact h.built member (loaded_of_fields hfields field hfield member hmember)
termination_by sizeOf layout

theorem Closed.layouts_built (h : registry.Closed) : ∀ layout ∈ registry.layouts, layout.Built := by
  intro layout hlayout
  obtain ⟨key, -, hkey⟩ := List.mem_filterMap.mp hlayout
  split at hkey
  · next found hfind =>
      obtain rfl := Option.some.inj hkey
      obtain ⟨decl, rfl, -⟩ := h.loaded key _ hfind
      exact h.built _ ⟨decl.name, get?_eq_some.mpr hfind⟩
  · cases hkey

theorem Closed.resolve_built (h : registry.Closed)
    (hrun : registry.run (resolve name) = (.ok layout, later)) : layout.Built := by
  obtain ⟨hprogress, hloaded⟩ := resolve_advances name h hrun
  exact (hprogress.closed h).built layout ⟨name, hloaded layout rfl⟩

theorem Closed.resolveAll_built (h : registry.Closed) {layouts : List StructLayout}
    (hrun : registry.run resolveAll = (.ok layouts, later)) :
    ∀ layout ∈ layouts, layout.Built := by
  obtain ⟨hprogress, hloaded⟩ := resolveAll_advances h hrun
  have hkeyed : List.Forall₂ (fun layout key => (∃ name, later.get? name = some layout) ∧
      later.get? key = some layout) layouts registry.order :=
    (hloaded layouts rfl).flip.imp fun _ key hkey => ⟨⟨key, hkey⟩, hkey⟩
  have hfound := ((List.forall₂_and_left _ _).mp hkeyed).1
  exact fun layout hlayout => (hprogress.closed h).built layout (hfound layout hlayout)

/-- Whatever was registered and resolved, and however much of it has failed, all layouts that
a registry gives out were built. -/
theorem after_built (realm : Nat) (builtins : Bool) (calls : List Call) :
    (∀ layout ∈ ((start realm builtins).after calls).layouts, layout.Built) ∧
      (∀ name layout later, ((start realm builtins).after calls).run (resolve name) =
        (.ok layout, later) → layout.Built) ∧
      ∀ layouts later, ((start realm builtins).after calls).run resolveAll =
        (.ok layouts, later) → ∀ layout ∈ layouts, layout.Built := by
  have hclosed := ((start_settled realm builtins).after calls).1.closed
  exact ⟨hclosed.layouts_built, fun _ _ _ hrun => hclosed.resolve_built hrun,
    fun _ _ hrun => hclosed.resolveAll_built hrun⟩

section Faultless

variable {fields : List FieldDecl} {resolved : List LayoutField}
  (hfields : List.Forall₂ (fun field found => registry.field? field = some found) fields resolved)

include hfields

end Faultless

end Registry

/-- From this registry on the action comes to its end, whatever progress is made first. -/
def Resolve.Attains {α : Type} (stage : Registry) (action : Resolve α) : Prop :=
  ∀ ⦃registry⦄, stage.Progress registry →
    ∃ value after, registry.run action = (.ok value, after) ∧ registry.Progress after

namespace Resolve.Attains

variable {α β : Type} {stage : Registry} {action : Resolve α}

theorem pure (value : α) : Attains stage (Pure.pure value) := fun registry _ =>
  ⟨value, registry, rfl, .refl registry⟩

theorem later {next : Registry} (h : Attains stage action) (hnext : stage.Progress next) :
    Attains next action :=
  fun _ hprogress => h (hnext.trans hprogress)

theorem bind {next : α → Resolve β} (h : Attains stage action)
    (hnext : ∀ value middle, stage.Progress middle → Attains middle (next value)) :
    Attains stage (action >>= next) := by
  intro registry hprogress
  obtain ⟨value, middle, hrun, hmiddle⟩ := h hprogress
  obtain ⟨result, after, hrest, hafter⟩ :=
    hnext value middle (hprogress.trans hmiddle) (.refl middle)
  exact ⟨result, after, (runFrom_bind_ok hrun next).trans hrest, hmiddle.trans hafter⟩

theorem mapM {step : β → Resolve α} {items : List β}
    (h : ∀ item ∈ items, Attains stage (step item)) : Attains stage (items.mapM step) := by
  induction items with
  | nil => exact .pure []
  | cons item items ih =>
      obtain ⟨hitem, hitems⟩ := List.forall_mem_cons.mp h
      rw [List.mapM_cons]
      refine hitem.bind fun value middle hmiddle => ?_
      exact ((ih hitems).later hmiddle).bind fun _ _ _ => .pure _

end Resolve.Attains

namespace Registry

open Resolve

variable {stage : Registry} {resolve : String → Resolve StructLayout} {decl : StructDecl}

section Laid

variable (hresolve : ∀ registry name, registry.Closed →
    Advances registry (resolve name) fun after layout => after.get? name = some layout)
  (hclosed : stage.Closed) (hname : isIdentifier decl.name = true) (horderly : decl.Orderly)

include hresolve hclosed hname horderly

end Laid

/-- What a key depends on is declared in order, and none of it depends on itself. -/
structure Resolvable (origin : Registry) (key : String) : Prop where
  orderly : ∀ other, origin.Reaches key other →
    ∃ decl, origin.entries.lookup other = some (.unloaded decl) ∧
      isIdentifier decl.name = true ∧ decl.Orderly
  acyclic : ∀ other, origin.Reaches key other → ¬origin.Cyclic other

/-- What a key depends on is as it was declared or loaded. -/
def Ready (registry origin : Registry) (key : String) : Prop :=
  ∀ other decl, origin.Reaches key other →
    origin.entries.lookup other = some (.unloaded decl) →
      registry.entries.lookup other = some (.unloaded decl) ∨
        ∃ layout, registry.entries.lookup other = some (.loaded layout)

variable {origin registry : Registry} {key needed name : String}

theorem Ready.progress (h : stage.Ready origin key) (hprogress : stage.Progress registry) :
    registry.Ready origin key := by
  intro other decl hreaches hdecl
  rcases hprogress.entries other with hsame | ⟨_, layout, -, hloaded, -⟩
  · rw [hsame]
    exact h other decl hreaches hdecl
  · exact Or.inr ⟨layout, hloaded⟩

/-- While a struct is being resolved, what it depends on is still ready, since none of it
depends on the struct again. -/
theorem Ready.mark (h : registry.Ready origin (foldCase name))
    (hsane : origin.Resolvable (foldCase name))
    (hdepends : origin.Depends (foldCase name) needed) :
    (registry.setEntry name .loading).Ready origin needed := by
  intro other decl hreaches hdecl
  have hother : other ≠ foldCase name := by
    rintro rfl
    exact hsane.acyclic _ .refl (Relation.TransGen.head' hdepends hreaches)
  rw [lookup_setEntry, if_neg hother]
  exact h other decl (.head hdepends hreaches) hdecl

end Registry

namespace LinkedNode

open Registry

/-- A struct that holds an array of itself. -/
def node : StructDecl :=
  .plain "Node" [("Links", .array (.struct "Node"))]

end LinkedNode

end ObjectPackage
