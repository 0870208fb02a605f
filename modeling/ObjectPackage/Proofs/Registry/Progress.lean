/-
Resolution moves entries forward.  Whether it succeeds or fails, a resolution leaves an
entry as it was or takes it from its declaration to the layout that the declaration comes
to; the marks it sets on the way are gone when it ends.
-/
import ObjectPackage.Proofs.Registry.Realised

namespace ObjectPackage

namespace Registry

/-- Entries stand under their names, and loaded ones are what some declaration of that name
comes to over the structs that are loaded. -/
structure Closed (registry : Registry) : Prop where
  unloaded : ∀ key decl, registry.entries.lookup key = some (.unloaded decl) →
    key = foldCase decl.name
  loaded : ∀ key layout, registry.entries.lookup key = some (.loaded layout) →
    ∃ decl : StructDecl, key = foldCase decl.name ∧ registry.Realises decl layout

/-- The entry of a key has moved from its declaration to a layout of it. -/
def Loads (before after : Registry) (key : String) : Prop :=
  ∃ decl layout, before.entries.lookup key = some (.unloaded decl) ∧
    after.entries.lookup key = some (.loaded layout) ∧ after.Realises decl layout

/-- No entry was added, and those that have changed were loaded. -/
structure Progress (before after : Registry) : Prop where
  realm : after.realm = before.realm
  order : after.order = before.order
  entries : ∀ key, after.entries.lookup key = before.entries.lookup key ∨ Loads before after key

variable {registry middle after : Registry}

namespace Progress

theorem refl (registry : Registry) : registry.Progress registry :=
  ⟨rfl, rfl, fun _ => Or.inl rfl⟩

theorem below (h : registry.Progress after) : registry.Below after := by
  refine ⟨h.realm, fun key layout hkey => ?_⟩
  rcases h.entries key with hsame | ⟨decl, -, hunloaded, -⟩
  · rwa [hsame]
  · rw [hkey] at hunloaded
    cases hunloaded

theorem trans (h : registry.Progress middle) (h' : middle.Progress after) :
    registry.Progress after := by
  refine ⟨h'.realm.trans h.realm, h'.order.trans h.order, fun key => ?_⟩
  rcases h.entries key with hsame | ⟨decl, layout, hunloaded, hloaded, hrealises⟩
  · rcases h'.entries key with hsame' | ⟨decl, layout, hunloaded, hloaded⟩
    · exact Or.inl (hsame'.trans hsame)
    · exact Or.inr ⟨decl, layout, hsame ▸ hunloaded, hloaded⟩
  · exact Or.inr ⟨decl, layout, hunloaded, h'.below.loaded key layout hloaded,
      h'.below.realises hrealises⟩

theorem closed (h : registry.Progress after) (hclosed : registry.Closed) : after.Closed := by
  refine ⟨fun key decl hkey => ?_, fun key layout hkey => ?_⟩
  · rcases h.entries key with hsame | ⟨_, _, -, hloaded, -⟩
    · exact hclosed.unloaded key decl (hsame ▸ hkey)
    · rw [hkey] at hloaded
      cases hloaded
  · rcases h.entries key with hsame | ⟨decl, found, hunloaded, hloaded, hrealises⟩
    · obtain ⟨decl, hname, hrealises⟩ := hclosed.loaded key layout (hsame ▸ hkey)
      exact ⟨decl, hname, h.below.realises hrealises⟩
    · obtain rfl : found = layout := by simpa [hkey] using hloaded.symm
      exact ⟨decl, hclosed.unloaded key decl hunloaded, hrealises⟩

theorem lookup_of_not_unloaded (h : registry.Progress after) {key : String}
    (hkey : ∀ decl, registry.entries.lookup key ≠ some (.unloaded decl)) :
    after.entries.lookup key = registry.entries.lookup key := by
  rcases h.entries key with hsame | ⟨decl, -, hunloaded, -⟩
  · exact hsame
  · exact absurd hunloaded (hkey decl)

end Progress

end Registry

/-- From this registry the action makes progress, however it ends, and what it gives is so
in the registry it ends with. -/
def Resolve.Advances {α : Type} (registry : Registry) (action : Resolve α)
    (ensures : Registry → α → Prop) : Prop :=
  ∀ ⦃outcome after⦄, registry.run action = (outcome, after) →
    registry.Progress after ∧ ∀ value, outcome = .ok value → ensures after value

namespace Resolve.Advances

variable {α β : Type} {registry : Registry} {action : Resolve α} {ensures : Registry → α → Prop}
  {result : Registry → β → Prop}

theorem pure {value : α} (h : ensures registry value) :
    Advances registry (Pure.pure value) ensures := by
  intro outcome after hrun
  obtain ⟨rfl, rfl⟩ := Prod.mk.inj hrun
  refine ⟨.refl registry, ?_⟩
  rintro _ hvalue
  obtain rfl := Except.ok.inj hvalue
  exact h

theorem fail (error : LayoutError) : Advances registry (throw error) ensures := by
  intro outcome after hrun
  obtain ⟨rfl, rfl⟩ := Prod.mk.inj hrun
  exact ⟨.refl registry, nofun⟩

theorem bind {next : α → Resolve β} (h : Advances registry action ensures)
    (hnext : ∀ middle value, registry.Progress middle → ensures middle value →
      Advances middle (next value) result) : Advances registry (action >>= next) result := by
  intro outcome after hrun
  rcases runFrom_bind_cases hrun with ⟨error, rfl, hfirst⟩ | ⟨value, middle, hfirst, hlast⟩
  · exact ⟨(h hfirst).1, nofun⟩
  · obtain ⟨hmiddle, hvalue⟩ := h hfirst
    obtain ⟨hafter, hresult⟩ := hnext middle value hmiddle (hvalue value rfl) hlast
    exact ⟨hmiddle.trans hafter, hresult⟩

theorem bind_get {next : Registry → Resolve β} (h : Advances registry (next registry) result) :
    Advances registry (get >>= next) result := by
  intro outcome after hrun
  change runFrom registry (get >>= next) = _ at hrun
  rw [runFrom_bind_ok (runFrom_get registry)] at hrun
  exact h hrun

theorem map {f : α → β} (h : Advances registry action fun after value => result after (f value)) :
    Advances registry (f <$> action) result := by
  rw [map_eq_pure_bind]
  exact h.bind fun _ _ _ hvalue => .pure hvalue

/-- What the steps give stays so while later ones make progress. -/
theorem mapM {step : β → Resolve α} {relates : Registry → β → α → Prop} {items : List β}
    (hclosed : registry.Closed)
    (hstep : ∀ registry item, registry.Closed → Advances registry (step item) (relates · item ·))
    (hmono : ∀ before after item value, before.Progress after → relates before item value →
      relates after item value) :
    Advances registry (items.mapM step) fun after values =>
      List.Forall₂ (relates after) items values := by
  induction items generalizing registry with
  | nil => exact .pure .nil
  | cons item items ih =>
      rw [List.mapM_cons]
      refine (hstep registry item hclosed).bind fun middle value hmiddle hvalue => ?_
      refine (ih (hmiddle.closed hclosed)).bind fun after values hafter hvalues => .pure ?_
      exact .cons (hmono middle after item value hafter hvalue) hvalues

end Resolve.Advances

namespace Registry

open Resolve

variable {registry : Registry}

section Dependencies

variable {resolve : String → Resolve StructLayout}
  (hresolve : ∀ registry name, registry.Closed →
    Advances registry (resolve name) fun after layout => after.get? name = some layout)

include hresolve

theorem resolveType_advances (expr : TypeExpr) (hclosed : registry.Closed) :
    Advances registry (resolveType resolve expr) fun after type =>
      after.type? expr = some type := by
  induction expr generalizing registry with
  | struct name =>
      refine (hresolve registry name hclosed).bind fun middle layout _ hlayout => .pure ?_
      rw [type?, hlayout]
      rfl
  | fixedArray element count ih =>
      refine (ih hclosed).bind fun middle type _ htype => .pure ?_
      rw [type?, htype]
      rfl
  | array element ih =>
      refine (ih hclosed).bind fun middle type _ htype => .pure ?_
      rw [type?, htype]
      rfl
  | map key value ihkey ihvalue =>
      refine (ihkey hclosed).bind fun middle left hmiddle hleft => ?_
      refine (ihvalue (hmiddle.closed hclosed)).bind fun after right hafter hright => .pure ?_
      rw [type?, hafter.below.type? hleft, hright]
      rfl
  | _ => exact .pure rfl

theorem resolveField_advances (field : FieldDecl) (hclosed : registry.Closed) :
    Advances registry (resolveField resolve field) fun after resolved =>
      after.field? field = some resolved := by
  cases field with
  | struct decl =>
      refine (hresolve registry decl.name hclosed).bind fun middle layout _ hlayout => .pure ?_
      rw [field?, hlayout]
      rfl
  | property decl =>
      refine (resolveType_advances hresolve decl.type hclosed).bind fun middle type _ htype =>
        .pure ?_
      rw [field?, htype]
      rfl

/-- With its base loaded, a declaration is laid out over loaded structs. -/
theorem layFields_advances {decl : StructDecl} {base : Option StructLayout}
    (hclosed : registry.Closed) (hbase : registry.base? decl = some base) :
    Advances registry (do
      let fields ← decl.fields.mapM (resolveField resolve)
      match buildLayout (← get).realm decl.name base fields with
      | .ok layout => return layout
      | .error error => throw error) fun after layout => after.Realises decl layout := by
  refine (Advances.mapM hclosed (fun _ field h => resolveField_advances hresolve field h)
    fun _ _ _ _ hprogress hfield => hprogress.below.field? hfield).bind
      fun middle fields hmiddle hfields => .bind_get ?_
  cases hbuild : buildLayout middle.realm decl.name base fields with
  | error error => exact .fail error
  | ok layout => exact .pure ⟨base, fields, hmiddle.below.base? hbase, hfields, hbuild⟩

theorem buildDecl_advances (decl : StructDecl) (hclosed : registry.Closed) :
    Advances registry (buildDecl resolve decl) fun after layout => after.Realises decl layout := by
  rw [buildDecl]
  cases hname : decl.base with
  | none =>
      refine layFields_advances hresolve hclosed ?_
      rw [base?, hname]
  | some name =>
      have hbase : Advances registry (some <$> resolve name) fun after base =>
          after.base? decl = some base := by
        refine .map fun outcome after hrun => ?_
        obtain ⟨hafter, hlayout⟩ := hresolve registry name hclosed hrun
        refine ⟨hafter, fun layout hok => ?_⟩
        change after.base? decl = some (some layout)
        rw [base?, hname]
        exact Option.map_eq_some_iff.mpr ⟨layout, hlayout layout hok, rfl⟩
      exact hbase.bind fun middle base hmiddle hbase =>
        layFields_advances hresolve (hmiddle.closed hclosed) hbase

end Dependencies

/-- A struct that is not loaded is marked, built and then loaded or put back. -/
theorem runFrom_resolveWithin_unloaded {levels : Nat} {name : String} {decl : StructDecl}
    (h : registry.find? name = some (.unloaded decl)) :
    runFrom registry (resolveWithin (levels + 1) name) =
      match runFrom (registry.setEntry name .loading)
        (buildDecl (resolveWithin levels) decl) with
      | (.ok layout, middle) => (.ok layout, middle.setEntry name (.loaded layout))
      | (.error error, middle) => (.error error, middle.setEntry name (.unloaded decl)) := by
  rw [resolveWithin_succ, runFrom_bind_ok (runFrom_get registry), h]
  dsimp only
  rw [runFrom_bind_ok (runFrom_modify registry _), runFrom_tryCatch, runFrom_bind]
  cases runFrom (registry.setEntry name .loading) (buildDecl (resolveWithin levels) decl) with
  | mk outcome middle => cases outcome <;> rfl

section Marked

variable {name : String} {decl : StructDecl} {middle : Registry}

/-- What is loaded does not depend on an entry that is not. -/
theorem below_setEntry {entry : RegistryEntry}
    (h : ∀ layout, registry.entries.lookup (foldCase name) ≠ some (.loaded layout)) :
    registry.Below (registry.setEntry name entry) := by
  refine ⟨rfl, fun key layout hkey => ?_⟩
  rw [lookup_setEntry]
  split
  · next heq =>
      subst heq
      exact absurd hkey (h layout)
  · exact hkey

/-- A mark hides a declaration and nothing else. -/
theorem Closed.mark (hclosed : registry.Closed)
    (h : registry.find? name = some (.unloaded decl)) :
    (registry.setEntry name .loading).Closed := by
  have hbelow : registry.Below (registry.setEntry name .loading) :=
    below_setEntry fun layout hloaded => by
      rw [find?] at h
      rw [h] at hloaded
      cases hloaded
  refine ⟨fun key other hkey => ?_, fun key layout hkey => ?_⟩
  · rw [lookup_setEntry] at hkey
    split at hkey
    · cases hkey
    · exact hclosed.unloaded key other hkey
  · rw [lookup_setEntry] at hkey
    split at hkey
    · cases hkey
    · obtain ⟨other, hname, hrealises⟩ := hclosed.loaded key layout hkey
      exact ⟨other, hname, hbelow.realises hrealises⟩

/-- Progress made while an entry is marked leaves the mark alone, so it is progress when
the entry is put back or loaded in the end. -/
theorem Progress.unmark (h : registry.find? name = some (.unloaded decl))
    (hmiddle : (registry.setEntry name .loading).Progress middle) {entry : RegistryEntry}
    (hentry : entry = .unloaded decl ∨ ∃ layout, entry = .loaded layout ∧
      middle.Realises decl layout) :
    registry.Progress (middle.setEntry name entry) := by
  have hmark : middle.entries.lookup (foldCase name) = some .loading := by
    have hstarted : (registry.setEntry name .loading).entries.lookup (foldCase name) =
        some .loading := by
      rw [lookup_setEntry, if_pos rfl]
    rw [hmiddle.lookup_of_not_unloaded, hstarted]
    intro other hother
    rw [hstarted] at hother
    cases hother
  have hbelow : middle.Below (middle.setEntry name entry) :=
    below_setEntry fun layout hloaded => by
      rw [hmark] at hloaded
      cases hloaded
  refine ⟨hmiddle.realm, hmiddle.order, fun key => ?_⟩
  rw [Loads, lookup_setEntry]
  by_cases hkey : key = foldCase name
  · subst hkey
    rw [if_pos rfl]
    rcases hentry with rfl | ⟨layout, rfl, hrealises⟩
    · exact Or.inl h.symm
    · exact Or.inr ⟨decl, layout, h, rfl, hbelow.realises hrealises⟩
  · rw [if_neg hkey]
    have hstarted : (registry.setEntry name .loading).entries.lookup key =
        registry.entries.lookup key := by
      rw [lookup_setEntry, if_neg hkey]
    rcases hmiddle.entries key with hsame | ⟨other, layout, hunloaded, hloaded, hrealises⟩
    · exact Or.inl (hsame.trans hstarted)
    · exact Or.inr ⟨other, layout, hstarted ▸ hunloaded, hloaded, hbelow.realises hrealises⟩

end Marked

/-- A resolution makes progress, and what it gives is loaded. -/
theorem resolveWithin_advances (levels : Nat) (name : String) (hclosed : registry.Closed) :
    Advances registry (resolveWithin levels name) fun after layout =>
      after.get? name = some layout := by
  induction levels generalizing registry name with
  | zero => exact .fail _
  | succ levels ih =>
      cases hfind : registry.find? name with
      | none =>
          rw [resolveWithin_succ]
          refine .bind_get ?_
          rw [hfind]
          exact .fail _
      | some entry =>
          cases entry with
          | loading =>
              rw [resolveWithin_succ]
              refine .bind_get ?_
              rw [hfind]
              exact .fail _
          | loaded layout =>
              rw [resolveWithin_succ]
              refine .bind_get ?_
              rw [hfind]
              exact .pure (get?_eq_some.mpr hfind)
          | unloaded decl =>
              intro outcome after hrun
              change runFrom registry _ = _ at hrun
              rw [runFrom_resolveWithin_unloaded hfind] at hrun
              have hbuild := buildDecl_advances (fun _ name h => ih name h) decl
                (hclosed.mark hfind)
              cases hrunBuild : runFrom (registry.setEntry name .loading)
                  (buildDecl (resolveWithin levels) decl) with
              | mk built middle =>
                  obtain ⟨hmiddle, hvalue⟩ := hbuild hrunBuild
                  rw [hrunBuild] at hrun
                  cases built with
                  | error error =>
                      obtain ⟨rfl, rfl⟩ := Prod.mk.inj hrun
                      exact ⟨hmiddle.unmark hfind (Or.inl rfl), nofun⟩
                  | ok layout =>
                      obtain ⟨rfl, rfl⟩ := Prod.mk.inj hrun
                      have hrealises := hvalue layout rfl
                      refine ⟨hmiddle.unmark hfind (Or.inr ⟨layout, rfl, hrealises⟩), ?_⟩
                      rintro _ hok
                      obtain rfl := Except.ok.inj hok
                      rw [get?_eq_some, lookup_setEntry, if_pos rfl]

theorem resolve_advances (name : String) (hclosed : registry.Closed) :
    Advances registry (resolve name) fun after layout => after.get? name = some layout :=
  resolveWithin_advances _ name hclosed

theorem resolveAll_advances (hclosed : registry.Closed) :
    Advances registry resolveAll fun after layouts =>
      List.Forall₂ (fun key layout => after.get? key = some layout) registry.order layouts :=
  .bind_get (.mapM hclosed (fun _ name h => resolve_advances name h)
    fun _ _ _ _ hprogress hlayout => hprogress.below.get? hlayout)

end Registry

end ObjectPackage
