/-
Registries between calls.  Whatever is registered and resolved, and however much of it
fails, no entry stays marked, what is loaded stays loaded as it is, and a loaded struct has
everything it was declared over loaded with it.
-/
import ObjectPackage.Proofs.Registry.Progress

namespace ObjectPackage

namespace Registry

/-- Entries were added for new names only, none of them resolved. -/
structure Adds (before after : Registry) : Prop where
  realm : after.realm = before.realm
  entries : ∀ key, after.entries.lookup key = before.entries.lookup key ∨
    before.entries.lookup key = none ∧
      ∃ decl : StructDecl, after.entries.lookup key = some (.unloaded decl) ∧
        key = foldCase decl.name

/-- Entries have stayed as they were or were loaded; there may be new ones. -/
structure Evolves (before after : Registry) : Prop where
  realm : after.realm = before.realm
  entries : ∀ key entry, before.entries.lookup key = some entry →
    after.entries.lookup key = some entry ∨ Loads before after key

/-- No entry is marked as being resolved. -/
structure Settled (registry : Registry) : Prop where
  closed : registry.Closed
  unmarked : ∀ key, registry.entries.lookup key ≠ some .loading

variable {before middle later registry : Registry}

theorem Adds.enter (h : before.Adds registry) {decl : StructDecl}
    (hnew : before.entries.lookup (foldCase decl.name) = none) :
    before.Adds (registry.enter decl) := by
  refine ⟨h.realm, fun key => ?_⟩
  have hlookup : (registry.enter decl).entries.lookup key =
      if key = foldCase decl.name then some (.unloaded decl) else registry.entries.lookup key :=
    lookup_setEntry registry decl.name key (.unloaded decl)
  rw [hlookup]
  by_cases hkey : key = foldCase decl.name
  · subst hkey
    rw [if_pos rfl]
    exact Or.inr ⟨hnew, decl, rfl, rfl⟩
  · rw [if_neg hkey]
    exact h.entries key

theorem Adds.lookup_eq_none (h : before.Adds registry) {key : String}
    (hkey : registry.entries.lookup key = none) : before.entries.lookup key = none := by
  rcases h.entries key with hsame | ⟨hnone, -⟩
  · rwa [hsame] at hkey
  · exact hnone

open Resolve

mutual

/-- A registration adds declarations, also where it fails. -/
theorem register_adds : ∀ decl : StructDecl, Keeps before.Adds (register decl) fun _ => True
  | ⟨name, base, fields⟩ => by
      rw [register]
      split
      · exact .fail_bind _ _
      · refine .bind_get fun registry hregistry => ?_
        dsimp only
        split
        · exact .fail_bind _ _
        · next hfree =>
            have hnone : registry.find? name = none := by simpa [contains] using hfree
            exact (registerNested_adds fields).bind fun _ _ =>
              .modify fun _ h => h.enter (hregistry.lookup_eq_none hnone)

theorem registerNested_adds :
    ∀ fields : List FieldDecl, Keeps before.Adds (registerNested fields) fun _ => True
  | [] => by
      rw [registerNested]
      exact .pure trivial
  | .property _ :: rest => by
      rw [registerNested]
      exact registerNested_adds rest
  | .struct decl :: rest => by
      rw [registerNested]
      exact (register_adds decl).bind fun _ _ => registerNested_adds rest

end

theorem registerSchema_adds (schema : Schema) :
    Keeps before.Adds (registerSchema schema) fun _ => True :=
  .forM fun decl _ => register_adds decl

theorem Adds.refl (registry : Registry) : registry.Adds registry :=
  ⟨rfl, fun _ => Or.inl rfl⟩

namespace Evolves

theorem refl (registry : Registry) : registry.Evolves registry :=
  ⟨rfl, fun _ _ h => Or.inl h⟩

theorem below (h : before.Evolves later) : before.Below later := by
  refine ⟨h.realm, fun key layout hkey => ?_⟩
  rcases h.entries key _ hkey with hsame | ⟨decl, -, hunloaded, -⟩
  · exact hsame
  · rw [hkey] at hunloaded
    cases hunloaded

theorem trans (h : before.Evolves middle) (h' : middle.Evolves later) : before.Evolves later := by
  refine ⟨h'.realm.trans h.realm, fun key entry hkey => ?_⟩
  rcases h.entries key entry hkey with hsame | ⟨decl, layout, hunloaded, hloaded, hrealises⟩
  · rcases h'.entries key entry hsame with hlast | ⟨decl, layout, hunloaded, hloaded⟩
    · exact Or.inl hlast
    · obtain rfl := Option.some.inj (hsame.symm.trans hunloaded)
      exact Or.inr ⟨decl, layout, hkey, hloaded⟩
  · exact Or.inr ⟨decl, layout, hunloaded, h'.below.loaded key layout hloaded,
      h'.below.realises hrealises⟩

end Evolves

theorem Progress.evolves (h : before.Progress later) : before.Evolves later := by
  refine ⟨h.realm, fun key entry hkey => ?_⟩
  rcases h.entries key with hsame | hloads
  · exact Or.inl (hsame.trans hkey)
  · exact Or.inr hloads

theorem Adds.evolves (h : before.Adds later) : before.Evolves later := by
  refine ⟨h.realm, fun key entry hkey => ?_⟩
  rcases h.entries key with hsame | ⟨hnone, -⟩
  · exact Or.inl (hsame.trans hkey)
  · rw [hkey] at hnone
    cases hnone

theorem Settled.progress (h : before.Settled) (hprogress : before.Progress later) :
    later.Settled := by
  refine ⟨hprogress.closed h.closed, fun key hkey => ?_⟩
  rcases hprogress.entries key with hsame | ⟨_, _, -, hloaded, -⟩
  · exact h.unmarked key (hsame.symm.trans hkey)
  · rw [hkey] at hloaded
    cases hloaded

theorem Settled.adds (h : before.Settled) (hadds : before.Adds later) : later.Settled := by
  refine ⟨⟨fun key decl hkey => ?_, fun key layout hkey => ?_⟩, fun key hkey => ?_⟩
  · rcases hadds.entries key with hsame | ⟨-, other, hunloaded, hname⟩
    · exact h.closed.unloaded key decl (hsame.symm.trans hkey)
    · obtain rfl : other = decl := by simpa [hkey] using hunloaded.symm
      exact hname
  · rcases hadds.entries key with hsame | ⟨-, other, hunloaded, -⟩
    · obtain ⟨decl, hname, hrealises⟩ := h.closed.loaded key layout (hsame.symm.trans hkey)
      exact ⟨decl, hname, hadds.evolves.below.realises hrealises⟩
    · rw [hkey] at hunloaded
      cases hunloaded
  · rcases hadds.entries key with hsame | ⟨-, other, hunloaded, -⟩
    · exact h.unmarked key (hsame.symm.trans hkey)
    · rw [hkey] at hunloaded
      cases hunloaded

/-- What a program does to its registry. -/
inductive Call where
  | register (decl : StructDecl)
  | registerSchema (schema : Schema)
  | resolve (name : String)
  | resolveAll

/-- The registry after a call, which may have failed. -/
def call (registry : Registry) : Call → Registry
  | .register decl => (registry.run (register decl)).2
  | .registerSchema schema => (registry.run (registerSchema schema)).2
  | .resolve name => (registry.run (resolve name)).2
  | .resolveAll => (registry.run resolveAll).2

/-- The registry after some calls, one after the other. -/
def after (registry : Registry) (calls : List Call) : Registry :=
  calls.foldl call registry

/-- The registry that a program starts with. -/
def start (realm : Nat) (builtins : Bool) : Registry :=
  if builtins then withBuiltins realm else empty realm

theorem empty_settled (realm : Nat) : (empty realm).Settled :=
  ⟨⟨nofun, nofun⟩, nofun⟩

theorem start_settled (realm : Nat) (builtins : Bool) : (start realm builtins).Settled := by
  have hbuiltins : (empty realm).Adds (withBuiltins realm) := by
    have hbuild (decls : List StructDecl) {registry : Registry} (h : (empty realm).Adds registry) :
        (empty realm).Adds (decls.foldl enter registry) := by
      induction decls generalizing registry with
      | nil => exact h
      | cons decl decls ih => exact ih (h.enter rfl)
    exact hbuild builtinStructs (.refl _)
  cases builtins with
  | true => exact (empty_settled realm).adds hbuiltins
  | false => exact empty_settled realm

/-- One call. -/
theorem Settled.call (h : registry.Settled) (call : Call) :
    (registry.call call).Settled ∧ registry.Evolves (registry.call call) := by
  have hadds (hkeeps : registry.Adds (registry.call call)) :
      (registry.call call).Settled ∧ registry.Evolves (registry.call call) :=
    ⟨h.adds hkeeps, hkeeps.evolves⟩
  have hprogress (hprogress : registry.Progress (registry.call call)) :
      (registry.call call).Settled ∧ registry.Evolves (registry.call call) :=
    ⟨h.progress hprogress, hprogress.evolves⟩
  cases call with
  | register decl => exact hadds (register_adds decl (.refl registry) rfl).1
  | registerSchema schema => exact hadds (registerSchema_adds schema (.refl registry) rfl).1
  | resolve name => exact hprogress (resolve_advances name h.closed rfl).1
  | resolveAll => exact hprogress (resolveAll_advances h.closed rfl).1

/-- Any number of calls. -/
theorem Settled.after (h : registry.Settled) (calls : List Call) :
    (registry.after calls).Settled ∧ registry.Evolves (registry.after calls) := by
  induction calls generalizing registry with
  | nil => exact ⟨h, .refl registry⟩
  | cons call calls ih =>
      obtain ⟨hcall, hevolves⟩ := h.call call
      obtain ⟨hlast, hrest⟩ := ih hcall
      exact ⟨hlast, hevolves.trans hrest⟩

section Loaded

variable {name : String} {layout : StructLayout}

theorem Closed.realises_of_get? (h : registry.Closed) (hget : registry.get? name = some layout) :
    ∃ decl : StructDecl, foldCase decl.name = foldCase name ∧ registry.Realises decl layout := by
  obtain ⟨decl, hname, hrealises⟩ := h.loaded _ _ (get?_eq_some.mp hget)
  exact ⟨decl, hname.symm, hrealises⟩

/-- A loaded struct is found under its own name. -/
theorem Closed.get?_name (h : registry.Closed) (hget : registry.get? name = some layout) :
    registry.get? layout.name = some layout := by
  obtain ⟨decl, hname, hrealises⟩ := h.realises_of_get? hget
  rw [get?_eq_some, hrealises.closed.1, hname]
  exact get?_eq_some.mp hget

/-- Structs in the properties of a loaded struct are loaded, inherited properties included. -/
theorem Closed.structs (h : registry.Closed) (layout : StructLayout)
    (hget : ∃ name, registry.get? name = some layout) :
    ∀ property ∈ layout.properties, ∀ other ∈ property.type.structs,
      ∃ name, registry.get? name = some other := by
  intro property hproperty other hother
  obtain ⟨name, hget⟩ := hget
  obtain ⟨decl, -, hrealises⟩ := h.realises_of_get? hget
  obtain ⟨-, hbase, -, hproperties⟩ := hrealises.closed
  rcases hproperties property hproperty with ⟨base, hmem, hinherited⟩ | hloaded
  · exact h.structs base (hbase base hmem).1 property hinherited other hother
  · exact hloaded other hother
termination_by sizeOf layout
decreasing_by
  obtain ⟨own, parent, properties, ownStart, nested, size, alignment⟩ := layout
  obtain rfl : parent = some base := hmem
  simp only [StructLayout.mk.sizeOf_spec, Option.some.sizeOf_spec]
  omega

end Loaded

/-- What holds of a registry between two calls. -/
structure Coherent (registry : Registry) : Prop where
  /-- No entry is being resolved. -/
  unmarked : ∀ name, registry.state? name ≠ some .loading
  /-- An entry stays as it is until it is loaded, from the very declaration it has. -/
  entries : ∀ calls key entry, registry.entries.lookup key = some entry →
    (registry.after calls).entries.lookup key = some entry ∨
      Loads registry (registry.after calls) key
  /-- What is loaded stays loaded as it is. -/
  kept : ∀ calls name layout, registry.get? name = some layout →
    (registry.after calls).get? name = some layout
  /-- A resolution that fails has loaded some entries and left the others alone. -/
  failed : ∀ name error after, registry.run (Registry.resolve name) = (.error error, after) →
    (∀ key, after.entries.lookup key = registry.entries.lookup key ∨ Loads registry after key) ∧
      (registry.find? name = none → after = registry)
  /-- The base of a loaded struct is loaded under its name and starts its properties. -/
  bases : ∀ name layout, registry.get? name = some layout → ∀ base ∈ layout.base,
    registry.get? base.name = some base ∧ base.properties <+: layout.properties
  /-- Structs that are declared in a loaded struct are loaded. -/
  nested : ∀ name layout, registry.get? name = some layout → ∀ other ∈ layout.nested,
    registry.get? other.name = some other
  /-- Structs in the properties of a loaded struct are loaded. -/
  structs : ∀ name layout, registry.get? name = some layout → ∀ property ∈ layout.properties,
    ∀ other ∈ property.type.structs, registry.get? other.name = some other
  /-- A loaded struct is what a declaration of its name comes to over loaded structs. -/
  declared : ∀ name layout, registry.get? name = some layout →
    ∃ decl : StructDecl, foldCase decl.name = foldCase name ∧ registry.Realises decl layout ∧
      ∀ needed ∈ decl.needs, ∃ other, registry.get? needed = some other

theorem Settled.coherent (h : registry.Settled) : registry.Coherent where
  unmarked name hstate := by
    obtain ⟨entry, hfind, hloading⟩ := Option.map_eq_some_iff.mp hstate
    cases entry with
    | loading => exact h.unmarked _ hfind
    | _ => cases hloading
  entries calls := (h.after calls).2.entries
  kept calls name layout hget := (h.after calls).2.below.get? hget
  failed name error after hrun := by
    refine ⟨(resolve_advances name h.closed hrun).1.entries, fun hnone => ?_⟩
    change runFrom registry (resolveWithin (maxResolveDepth + 1) name) = _ at hrun
    rw [resolveWithin_succ, runFrom_bind_ok (runFrom_get registry), hnone] at hrun
    exact (Prod.mk.inj hrun).2.symm
  bases name layout hget base hbase := by
    obtain ⟨decl, -, hrealises⟩ := h.closed.realises_of_get? hget
    obtain ⟨⟨_, hloaded⟩, hprefix⟩ := hrealises.closed.2.1 base hbase
    exact ⟨h.closed.get?_name hloaded, hprefix⟩
  nested name layout hget other hother := by
    obtain ⟨decl, -, hrealises⟩ := h.closed.realises_of_get? hget
    obtain ⟨_, hloaded⟩ := hrealises.closed.2.2.1 other hother
    exact h.closed.get?_name hloaded
  structs name layout hget property hproperty other hother := by
    obtain ⟨_, hloaded⟩ := h.closed.structs layout ⟨name, hget⟩ property hproperty other hother
    exact h.closed.get?_name hloaded
  declared name layout hget := by
    obtain ⟨decl, hname, hrealises⟩ := h.closed.realises_of_get? hget
    exact ⟨decl, hname, hrealises, hrealises.needs⟩

/-- Every registry that a program can have between two calls is coherent. -/
theorem after_coherent (realm : Nat) (builtins : Bool) (calls : List Call) :
    ((start realm builtins).after calls).Coherent :=
  ((start_settled realm builtins).after calls).1.coherent

end Registry

end ObjectPackage
