/-
Actions on registries.  An invariant that every step of an action keeps is kept by the
action, however it ends; a resolution is one step around the resolution of what the
declaration needs.
-/
import ObjectPackage.Proofs.Effect
import ObjectPackage.Registry

namespace ObjectPackage

/-- A key that is looked up has the value that was last put there. -/
theorem lookup_insertEntry {β : Type} (key other : String) (value : β)
    (entries : List (String × β)) :
    (insertEntry key value entries).lookup other =
      if other == key then some value else entries.lookup other := by
  induction entries with
  | nil => cases hother : other == key <;> simp [insertEntry, List.lookup_cons, hother]
  | cons entry rest ih =>
      obtain ⟨found, old⟩ := entry
      rw [insertEntry]
      split
      · next hfound =>
          rw [hfound, List.lookup_cons, List.lookup_cons]
          cases other == key <;> rfl
      · next hfound =>
          rw [List.lookup_cons, List.lookup_cons, ih]
          cases hother : other == key with
          | false => rfl
          | true =>
              rw [eq_of_beq hother, beq_eq_false_iff_ne.mpr (Ne.symm hfound)]

/-- An action keeps an invariant of registries, however it ends, and what it gives has a
property. -/
def Resolve.Keeps {α : Type} (invariant : Registry → Prop) (action : Resolve α)
    (ensures : α → Prop) : Prop :=
  ∀ ⦃registry outcome after⦄, invariant registry → registry.run action = (outcome, after) →
    invariant after ∧ ∀ value, outcome = .ok value → ensures value

namespace Resolve.Keeps

variable {α β : Type} {invariant : Registry → Prop} {action : Resolve α} {ensures : α → Prop}
  {result : β → Prop}

theorem pure {value : α} (h : ensures value) :
    Keeps invariant (Pure.pure value : Resolve α) ensures := by
  intro registry outcome after hregistry hrun
  obtain ⟨rfl, rfl⟩ := Prod.mk.inj hrun
  refine ⟨hregistry, ?_⟩
  rintro _ hvalue
  obtain rfl := Except.ok.inj hvalue
  exact h

/-- Nothing comes after a failure. -/
theorem fail_bind (error : LayoutError) (next : α → Resolve β) :
    Keeps invariant ((throw error : Resolve α) >>= next) result := by
  intro registry outcome after hregistry hrun
  obtain ⟨rfl, rfl⟩ := Prod.mk.inj hrun
  exact ⟨hregistry, nofun⟩

theorem bind {next : α → Resolve β} (h : Keeps invariant action ensures)
    (hnext : ∀ value, ensures value → Keeps invariant (next value) result) :
    Keeps invariant (action >>= next) result := by
  intro registry outcome after hregistry hrun
  rcases runFrom_bind_cases hrun with ⟨error, rfl, hfirst⟩ | ⟨value, middle, hfirst, hlast⟩
  · exact ⟨(h hregistry hfirst).1, nofun⟩
  · obtain ⟨hmiddle, hvalue⟩ := h hregistry hfirst
    exact hnext value (hvalue value rfl) hmiddle hlast

/-- What is looked up in a registry may depend on the invariant. -/
theorem bind_get {next : Registry → Resolve β}
    (h : ∀ registry, invariant registry → Keeps invariant (next registry) result) :
    Keeps invariant (get >>= next) result := by
  intro registry outcome after hregistry hrun
  rw [Registry.run] at hrun
  change runFrom registry (get >>= next) = _ at hrun
  rw [runFrom_bind_ok (runFrom_get registry)] at hrun
  exact h registry hregistry hregistry hrun

theorem modify {change : Registry → Registry}
    (h : ∀ registry, invariant registry → invariant (change registry)) :
    Keeps invariant (modify change : Resolve Unit) fun _ => True := by
  intro registry outcome after hregistry hrun
  obtain ⟨rfl, rfl⟩ := Prod.mk.inj hrun
  exact ⟨h registry hregistry, fun _ _ => trivial⟩

theorem forM {step : β → Resolve Unit} {items : List β}
    (h : ∀ item ∈ items, Keeps invariant (step item) fun _ => True) :
    Keeps invariant (items.forM step) fun _ => True := by
  induction items with
  | nil => exact .pure trivial
  | cons item items ih =>
      obtain ⟨hfirst, hrest⟩ := List.forall_mem_cons.mp h
      exact hfirst.bind fun _ _ => ih hrest

end Resolve.Keeps

namespace Registry

/-- Resolution of one struct after the other, without an early end. -/
theorem resolveWithin_succ (levels : Nat) (name : String) :
    resolveWithin (levels + 1) name = (do
      match (← get).find? name with
      | none => throw (.unknownStruct name)
      | some (.loaded layout) => return layout
      | some .loading => throw (.recursiveStruct name)
      | some (.unloaded decl) => do
          modify fun registry => registry.setEntry name .loading
          tryCatch (do
              let layout ← buildDecl (resolveWithin levels) decl
              modify fun registry => registry.setEntry name (.loaded layout)
              return layout) fun error => do
            modify fun registry => registry.setEntry name (.unloaded decl)
            throw error) := by
  rw [resolveWithin]
  refine runFrom_ext fun registry => ?_
  rw [runFrom_bind_ok (runFrom_get registry), runFrom_bind_ok (runFrom_get registry)]
  cases registry.find? name with
  | none => rfl
  | some entry =>
      cases entry with
      | loading => rfl
      | loaded layout => rfl
      | unloaded decl =>
          dsimp only
          rw [runFrom_bind_ok (runFrom_modify registry _),
            runFrom_bind_ok (runFrom_modify registry _)]
          generalize registry.setEntry name RegistryEntry.loading = started
          rw [runFrom_bind]
          erw [runFrom_tryCatch]
          rw [runFrom_tryCatch, runFrom_bind]
          cases hbuild : runFrom started (buildDecl (resolveWithin levels) decl) with
          | mk outcome middle =>
              rw [runFrom_bind, hbuild]
              cases outcome <;> rfl

end Registry

end ObjectPackage
