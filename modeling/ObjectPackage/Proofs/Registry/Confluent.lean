/-
Resolutions in any order.  What was registered stands in a registry that never resolved
anything; every registry with the same registrations has made progress from it.  So a struct
that is loaded was built from the declaration that was registered, and two registries that
have loaded it have built the same layout.
-/
import ObjectPackage.Proofs.Registry.Members
import ObjectPackage.Proofs.Registry.Register

namespace ObjectPackage

namespace Registry

/-- All entries are declarations, under their well-formed names. -/
def Unresolved (registry : Registry) : Prop :=
  ∀ key entry, registry.entries.lookup key = some entry →
    ∃ decl : StructDecl, entry = .unloaded decl ∧ key = decl.key ∧ isIdentifier decl.name = true

variable {first second registry : Registry} {decls : List StructDecl} {calls : List Call}

theorem Unresolved.enterAll (h : registry.Unresolved)
    (hnames : ∀ decl ∈ decls, isIdentifier decl.name = true) :
    (registry.enterAll decls).Unresolved := by
  intro key entry hkey
  by_cases hentered : ∃ decl ∈ decls, decl.key = key
  · obtain ⟨before, last, after, rfl, rfl, hafter⟩ := exists_last hentered
    rw [lookup_enterAll_of_last hafter] at hkey
    refine ⟨last, (Option.some.inj hkey).symm, rfl, hnames last ?_⟩
    exact List.mem_append_right before List.mem_cons_self
  · rw [lookup_enterAll_of_absent fun decl hdecl hsame => hentered ⟨decl, hdecl, hsame⟩] at hkey
    exact h key entry hkey

theorem start_unresolved (realm : Nat) (builtins : Bool) : (start realm builtins).Unresolved := by
  have hempty : (empty realm).Unresolved := nofun
  cases builtins with
  | false => exact hempty
  | true =>
      have hnames : ∀ decl ∈ builtinStructs, isIdentifier decl.name = true := by decide
      exact hempty.enterAll hnames

theorem Unresolved.after (h : registry.Unresolved)
    (hcalls : ∀ call ∈ calls, call.registers = true) : (registry.after calls).Unresolved := by
  induction calls generalizing registry with
  | nil => exact h
  | cons call calls ih =>
      obtain ⟨hcall, hrest⟩ := List.forall_mem_cons.mp hcalls
      refine ih ?_ hrest
      obtain ⟨entered, -, hfree, -, hrun⟩ := call_of_registers registry hcall
      rw [hrun registry (.refl registry)]
      exact h.enterAll fun decl hdecl => (hfree decl hdecl).identifier

/-- Registrations do not see what was resolved. -/
theorem Progress.enterAll (h : first.Progress second)
    (hfree : ∀ decl ∈ decls, first.entries.lookup decl.key = none) :
    (first.enterAll decls).Progress (second.enterAll decls) := by
  have hbelow : second.Below (second.enterAll decls) := by
    refine ⟨realm_enterAll second decls, fun key layout hkey => ?_⟩
    rw [lookup_enterAll_of_absent, hkey]
    rintro decl hdecl rfl
    rw [(h.lookup_eq_none decl.key).mpr (hfree decl hdecl)] at hkey
    cases hkey
  refine ⟨?_, ?_, fun key => ?_⟩
  · rw [realm_enterAll, realm_enterAll, h.realm]
  · rw [order_enterAll, order_enterAll, h.order]
  · by_cases hentered : ∃ decl ∈ decls, decl.key = key
    · obtain ⟨before, last, after, rfl, rfl, hafter⟩ := exists_last hentered
      rw [lookup_enterAll_of_last hafter, lookup_enterAll_of_last hafter]
      exact Or.inl rfl
    · have habsent : ∀ decl ∈ decls, decl.key ≠ key := fun decl hdecl hsame =>
        hentered ⟨decl, hdecl, hsame⟩
      rw [Loads, lookup_enterAll_of_absent habsent, lookup_enterAll_of_absent habsent]
      rcases h.entries key with hsame | ⟨decl, layout, hunloaded, hloaded, hrealises⟩
      · exact Or.inl hsame
      · exact Or.inr ⟨decl, layout, hunloaded, hloaded, hbelow.realises hrealises⟩

/-- With the same registrations, the one that resolves more stays ahead. -/
theorem Progress.after (h : first.Progress second) (hsettled : second.Settled)
    (calls : List Call) :
    (first.after (calls.filter Call.registers)).Progress (second.after calls) := by
  induction calls generalizing first second with
  | nil => exact h
  | cons call calls ih =>
      have hlater := (hsettled.call call).1
      cases hcall : call.registers with
      | false =>
          rw [List.filter_cons_of_neg (by simp [hcall])]
          exact ih (h.trans (hsettled.closed.progress_call hcall)) hlater
      | true =>
          rw [List.filter_cons_of_pos hcall]
          refine ih ?_ hlater
          obtain ⟨entered, -, hfree, -, hrun⟩ := call_of_registers first hcall
          rw [hrun first (.refl first), hrun second h.lookup_eq_none]
          exact h.enterAll fun decl hdecl => (hfree decl hdecl).absent

/-- The registry that makes the registrations only. -/
def declared (realm : Nat) (builtins : Bool) (calls : List Call) : Registry :=
  (start realm builtins).after (calls.filter Call.registers)

theorem declared_unresolved (realm : Nat) (builtins : Bool) (calls : List Call) :
    (declared realm builtins calls).Unresolved :=
  (start_unresolved realm builtins).after fun _ hcall => (List.mem_filter.mp hcall).2

theorem declared_progress (realm : Nat) (builtins : Bool) (calls : List Call) :
    (declared realm builtins calls).Progress ((start realm builtins).after calls) :=
  (Progress.refl (start realm builtins)).after (start_settled realm builtins) calls

/-- A struct that is loaded comes from the declaration that was registered. -/
theorem Unresolved.realises (h : first.Unresolved) (hprogress : first.Progress second)
    {key : String} {layout : StructLayout}
    (hkey : second.entries.lookup key = some (.loaded layout)) :
    ∃ decl, first.entries.lookup key = some (.unloaded decl) ∧ second.Realises decl layout := by
  rcases hprogress.entries key with hsame | ⟨decl, found, hunloaded, hloaded, hrealises⟩
  · obtain ⟨decl, hdecl, -⟩ := h key _ (hsame.symm.trans hkey)
    cases hdecl
  · obtain rfl : found = layout := by simpa [hkey] using hloaded.symm
    exact ⟨decl, hunloaded, hrealises⟩

section Agreement

variable {left right : Registry}

/-- Two registries that have loaded a struct from the same declarations have the same layout
of it: so it is for the structs that its declaration needs. -/
theorem get?_eq_of_progress (hfirst : first.Unresolved) (hsecond : second.Unresolved)
    (hleft : first.Progress left) (hright : second.Progress right)
    (hrealm : left.realm = right.realm)
    (hsame : ∀ key, first.entries.lookup key = second.entries.lookup key) (name : String)
    (layout other : StructLayout) (hget : left.get? name = some layout)
    (hget' : right.get? name = some other) : layout = other := by
  obtain ⟨decl, hdecl, hrealises⟩ := hfirst.realises hleft (get?_eq_some.mp hget)
  obtain ⟨decl', hdecl', hrealises'⟩ := hsecond.realises hright (get?_eq_some.mp hget')
  obtain rfl : decl = decl' := by
    rw [hsame, hdecl'] at hdecl
    exact (RegistryEntry.unloaded.inj (Option.some.inj hdecl)).symm
  refine hrealises.unique hrealises' hrealm fun needed hneeded => ?_
  obtain ⟨member, hmember⟩ := hrealises.needs needed hneeded
  obtain ⟨member', hmember'⟩ := hrealises'.needs needed hneeded
  have hsmaller := StructLayout.sizeOf_lt_of_mem_members (hrealises.mem_members hneeded hmember)
  rw [hmember, hmember', get?_eq_of_progress hfirst hsecond hleft hright hrealm hsame needed
    member member' hmember hmember']
termination_by sizeOf layout

end Agreement

/-- Layouts do not depend on the order of resolutions.  Two programs that leave the same
declarations when they only register, and that resolve whatever they like in between, agree
on every struct that both of them have loaded. -/
theorem layouts_agree (realm : Nat) (builtins : Bool) (calls others : List Call)
    (hsame : ∀ key, (declared realm builtins calls).entries.lookup key =
      (declared realm builtins others).entries.lookup key)
    (name : String) (layout other : StructLayout)
    (hget : ((start realm builtins).after calls).get? name = some layout)
    (hget' : ((start realm builtins).after others).get? name = some other) : layout = other := by
  have hleft := declared_progress realm builtins calls
  have hright := declared_progress realm builtins others
  have hrealm (calls : List Call) : ((start realm builtins).after calls).realm =
      (start realm builtins).realm := ((start_settled realm builtins).after calls).2.realm
  exact get?_eq_of_progress (declared_unresolved realm builtins calls)
    (declared_unresolved realm builtins others) hleft hright ((hrealm calls).trans (hrealm others).symm)
    hsame name layout other hget hget'

end Registry

namespace LatePawn

open Registry

def thing : StructDecl :=
  .plain "Thing" [("Tag", .name)]

def pawn : StructDecl :=
  ⟨"Pawn", some "Thing", [.property (.plain "Parts" (.array (.struct "Thing")))]⟩

def calls : List Call :=
  [.register thing, .register pawn, .resolve "Pawn"]

/-- The base comes last, and the first resolutions fail. -/
def others : List Call :=
  [.register pawn, .resolveAll, .register thing, .resolve "Ghost", .resolveAll]

/-- Both programs have loaded the struct, and they have the same layout of it. -/
theorem pawn_agrees : ∃ layout, ((start 0 false).after calls).get? "Pawn" = some layout ∧
    ((start 0 false).after others).get? "Pawn" = some layout := by
  have hloaded : (((start 0 false).after calls).get? "Pawn").isSome = true := by decide
  have hloaded' : (((start 0 false).after others).get? "Pawn").isSome = true := by decide
  obtain ⟨layout, hget⟩ := Option.isSome_iff_exists.mp hloaded
  obtain ⟨other, hget'⟩ := Option.isSome_iff_exists.mp hloaded'
  have hsame : ∀ key, (declared 0 false calls).entries.lookup key =
      (declared 0 false others).entries.lookup key := by
    intro key
    have hcalls : (declared 0 false calls).entries =
        [("thing", .unloaded thing), ("pawn", .unloaded pawn)] := rfl
    have hothers : (declared 0 false others).entries =
        [("pawn", .unloaded pawn), ("thing", .unloaded thing)] := rfl
    rw [hcalls, hothers]
    by_cases hthing : key = "thing"
    · subst hthing
      rfl
    · have hother : (key == "thing") = false := beq_eq_false_iff_ne.mpr hthing
      simp [List.lookup_cons, hother]
  obtain rfl := layouts_agree 0 false calls others hsame "Pawn" layout other hget hget'
  exact ⟨layout, hget, hget'⟩

end LatePawn

end ObjectPackage
