/-
Registration of trees of declarations.  The structs nested in a struct are entered before
it, so a registration that is refused on the way has entered a front part of the tree.  A
name is checked before the structs nested in it are entered, and it is entered after them:
two structs of one name are refused unless one of them stands inside of the other.
-/
import ObjectPackage.Proofs.Registry.Calls

namespace ObjectPackage

/-- The key that a declaration is entered under. -/
def StructDecl.key (decl : StructDecl) : String :=
  foldCase decl.name

mutual

/-- The structs of a tree in the order in which they are entered, each one after those that
are nested in it. -/
def StructDecl.listing : StructDecl → List StructDecl
  | ⟨name, base, fields⟩ => nestedListing fields ++ [⟨name, base, fields⟩]

def nestedListing : List FieldDecl → List StructDecl
  | [] => []
  | .property _ :: rest => nestedListing rest
  | .struct decl :: rest => decl.listing ++ nestedListing rest

end

/-- A struct of the same name stands inside of the struct. -/
def StructDecl.Repeats (decl : StructDecl) : Prop :=
  ∃ inner ∈ nestedListing decl.fields, inner.key = decl.key

/-- The two listings have no name in common. -/
def Disparate (left right : List StructDecl) : Prop :=
  ∀ first ∈ left, ∀ second ∈ right, first.key ≠ second.key

mutual

/-- Two structs of a tree have different names unless one is inside of the other. -/
def StructDecl.Apart : StructDecl → Prop
  | ⟨_, _, fields⟩ => NestedApart fields

def NestedApart : List FieldDecl → Prop
  | [] => True
  | .property _ :: rest => NestedApart rest
  | .struct decl :: rest =>
      decl.Apart ∧ NestedApart rest ∧ Disparate decl.listing (nestedListing rest)

end

namespace Registry

/-- Enter some declarations, one after the other. -/
def enterAll (registry : Registry) (decls : List StructDecl) : Registry :=
  decls.foldl enter registry

variable {registry other : Registry} {decl : StructDecl} {decls listing : List StructDecl}

theorem enterAll_append (registry : Registry) (decls others : List StructDecl) :
    registry.enterAll (decls ++ others) = (registry.enterAll decls).enterAll others :=
  List.foldl_append

theorem realm_enterAll (registry : Registry) (decls : List StructDecl) :
    (registry.enterAll decls).realm = registry.realm := by
  induction decls generalizing registry with
  | nil => rfl
  | cons decl decls ih => exact ih (registry.enter decl)

theorem order_enterAll (registry : Registry) (decls : List StructDecl) :
    (registry.enterAll decls).order = registry.order ++ decls.map StructDecl.key := by
  induction decls generalizing registry with
  | nil => exact (List.append_nil _).symm
  | cons decl decls ih =>
      refine (ih (registry.enter decl)).trans ?_
      rw [List.map_cons, enter, List.append_assoc]
      rfl

theorem lookup_enter (registry : Registry) (decl : StructDecl) (key : String) :
    (registry.enter decl).entries.lookup key =
      if key = decl.key then some (.unloaded decl) else registry.entries.lookup key :=
  lookup_setEntry registry decl.name key (.unloaded decl)

theorem lookup_enterAll_of_absent {key : String} (h : ∀ decl ∈ decls, decl.key ≠ key) :
    (registry.enterAll decls).entries.lookup key = registry.entries.lookup key := by
  induction decls generalizing registry with
  | nil => rfl
  | cons decl decls ih =>
      obtain ⟨hdecl, hdecls⟩ := List.forall_mem_cons.mp h
      exact (ih hdecls).trans ((lookup_enter registry decl key).trans (if_neg hdecl.symm))

/-- A key stands for what was entered last under it. -/
theorem lookup_enterAll_of_last {before after : List StructDecl}
    (h : ∀ other ∈ after, other.key ≠ decl.key) :
    (registry.enterAll (before ++ decl :: after)).entries.lookup decl.key =
      some (.unloaded decl) := by
  rw [enterAll_append]
  refine (lookup_enterAll_of_absent h).trans ?_
  rw [lookup_enter, if_pos rfl]

/-- Of the declarations of one name there is a last one. -/
theorem exists_last {key : String} (h : ∃ decl ∈ decls, decl.key = key) :
    ∃ before last after, decls = before ++ last :: after ∧ last.key = key ∧
      ∀ other ∈ after, other.key ≠ key := by
  induction decls with
  | nil => simp at h
  | cons first rest ih =>
      by_cases hlater : ∃ decl ∈ rest, decl.key = key
      · obtain ⟨before, last, after, rfl, hlast⟩ := ih hlater
        exact ⟨first :: before, last, after, rfl, hlast⟩
      · have hfirst : first.key = key := by
          obtain ⟨decl, hdecl, hkey⟩ := h
          rcases List.mem_cons.mp hdecl with rfl | hdecl
          · exact hkey
          · exact absurd ⟨decl, hdecl, hkey⟩ hlater
        exact ⟨[], first, rest, rfl, hfirst, fun other hother hkey => hlater ⟨other, hother, hkey⟩⟩

theorem lookup_enterAll_eq_none {key : String} :
    (registry.enterAll decls).entries.lookup key = none ↔
      registry.entries.lookup key = none ∧ ∀ decl ∈ decls, decl.key ≠ key := by
  by_cases hentered : ∃ decl ∈ decls, decl.key = key
  · obtain ⟨before, last, after, rfl, rfl, hafter⟩ := exists_last hentered
    rw [lookup_enterAll_of_last hafter]
    refine ⟨nofun, fun h => absurd rfl (h.2 last ?_)⟩
    exact List.mem_append_right before List.mem_cons_self
  · have habsent : ∀ decl ∈ decls, decl.key ≠ key := fun decl hdecl hkey =>
      hentered ⟨decl, hdecl, hkey⟩
    rw [lookup_enterAll_of_absent habsent]
    exact ⟨fun h => ⟨h, habsent⟩, And.left⟩

theorem contains_eq_false {name : String} :
    registry.contains name = false ↔ registry.entries.lookup (foldCase name) = none := by
  simp [contains, find?]

theorem contains_eq_true {name : String} :
    registry.contains name = true ↔ registry.entries.lookup (foldCase name) ≠ none := by
  rw [← Bool.not_eq_false, contains_eq_false.not]

/-- The declaration can be entered: its name is well formed and not taken. -/
structure Free (registry : Registry) (decl : StructDecl) : Prop where
  identifier : isIdentifier decl.name = true
  absent : registry.entries.lookup decl.key = none

theorem free_enterAll : (registry.enterAll decls).Free decl ↔
    registry.Free decl ∧ ∀ other ∈ decls, other.key ≠ decl.key := by
  constructor
  · rintro ⟨hname, habsent⟩
    obtain ⟨hfree, hothers⟩ := lookup_enterAll_eq_none.mp habsent
    exact ⟨⟨hname, hfree⟩, hothers⟩
  · rintro ⟨⟨hname, hfree⟩, hothers⟩
    exact ⟨hname, lookup_enterAll_eq_none.mpr ⟨hfree, hothers⟩⟩

/-- Why a declaration is refused. -/
inductive Refuses (registry : Registry) (decl : StructDecl) : LayoutError → Prop
  | malformed (h : isIdentifier decl.name = false) : Refuses registry decl (.malformedName decl.name)
  | duplicate (hname : isIdentifier decl.name = true)
      (h : registry.entries.lookup decl.key ≠ none) :
      Refuses registry decl (.duplicateStruct decl.name)

/-- The registries know the same names. -/
def Alike (registry other : Registry) : Prop :=
  ∀ key, other.entries.lookup key = none ↔ registry.entries.lookup key = none

theorem Alike.refl (registry : Registry) : registry.Alike registry := fun _ => Iff.rfl

theorem Alike.enterAll (h : registry.Alike other) (decls : List StructDecl) :
    (registry.enterAll decls).Alike (other.enterAll decls) := fun key => by
  rw [lookup_enterAll_eq_none, lookup_enterAll_eq_none, h key]

/-- How the registration of a listing ends: all of it is entered, or a front part of it
before one of the structs is refused. -/
structure Registration (registry : Registry) (listing : List StructDecl) (apart : Prop)
    (outcome : Except LayoutError Unit) (entered : List StructDecl) : Prop where
  front : entered <+: listing
  free : ∀ decl ∈ entered, registry.Free decl
  nodup : (∀ decl ∈ listing, ¬decl.Repeats) → (entered.map StructDecl.key).Nodup
  accepted : outcome = .ok () → entered = listing ∧ apart
  refused : ∀ error, outcome = .error error →
    (∃ decl ∈ listing, (registry.enterAll entered).Refuses decl error) ∧
      (apart → ∃ decl ∈ listing, ¬registry.Free decl)

end Registry

/-- The action registers a listing, and it does so by the names that are taken only. -/
def Resolve.Registers (action : Resolve Unit) (listing : List StructDecl) (apart : Prop) : Prop :=
  ∀ registry : Registry, ∃ outcome entered,
    registry.Registration listing apart outcome entered ∧
      ∀ other, registry.Alike other → other.run action = (outcome, other.enterAll entered)

namespace Registry

open Resolve

variable {registry : Registry} {decl : StructDecl} {front back entered : List StructDecl}
  {frontApart backApart apart : Prop} {outcome : Except LayoutError Unit} {error : LayoutError}

/-- What is refused in the front part keeps the rest from being entered. -/
theorem Registration.stop (h : registry.Registration front frontApart (.error error) entered)
    (hapart : apart → frontApart) :
    registry.Registration (front ++ back) apart (.error error) entered where
  front := h.front.trans (List.prefix_append front back)
  free := h.free
  nodup hproper := h.nodup fun decl hdecl => hproper decl (List.mem_append_left back hdecl)
  accepted := nofun
  refused := by
    rintro _ ⟨⟩
    obtain ⟨⟨decl, hdecl, hrefuses⟩, hnot⟩ := h.refused error rfl
    refine ⟨⟨decl, List.mem_append_left back hdecl, hrefuses⟩, fun h => ?_⟩
    obtain ⟨taken, htaken, hnotFree⟩ := hnot (hapart h)
    exact ⟨taken, List.mem_append_left back htaken, hnotFree⟩

/-- After the front part the rest is registered beside it. -/
theorem Registration.append (h : registry.Registration front frontApart (.ok ()) front)
    (h' : (registry.enterAll front).Registration back backApart outcome entered) :
    registry.Registration (front ++ back) (frontApart ∧ backApart ∧ Disparate front back) outcome
      (front ++ entered) where
  front := (List.prefix_append_right_inj front).mpr h'.front
  free := List.forall_mem_append.mpr
    ⟨h.free, fun decl hdecl => (free_enterAll.mp (h'.free decl hdecl)).1⟩
  nodup hproper := by
    obtain ⟨hfront, hback⟩ := List.forall_mem_append.mp hproper
    rw [List.map_append]
    refine (h.nodup hfront).append (h'.nodup hback) fun key hkey hkey' => ?_
    obtain ⟨decl, hdecl, rfl⟩ := List.mem_map.mp hkey
    obtain ⟨other, hother, hsame⟩ := List.mem_map.mp hkey'
    exact (free_enterAll.mp (h'.free other hother)).2 decl hdecl hsame.symm
  accepted hok := by
    obtain ⟨rfl, hapart⟩ := h'.accepted hok
    refine ⟨rfl, (h.accepted rfl).2, hapart, fun decl hdecl other hother => ?_⟩
    exact (free_enterAll.mp (h'.free other hother)).2 decl hdecl
  refused error herror := by
    obtain ⟨⟨decl, hdecl, hrefuses⟩, hnot⟩ := h'.refused error herror
    refine ⟨⟨decl, List.mem_append_right front hdecl, ?_⟩, ?_⟩
    · rwa [enterAll_append]
    · rintro ⟨-, hapart, hdisparate⟩
      obtain ⟨taken, htaken, hnotFree⟩ := hnot hapart
      refine ⟨taken, List.mem_append_right front htaken, fun hfree => hnotFree ?_⟩
      exact free_enterAll.mpr ⟨hfree, fun other hother => hdisparate other hother taken htaken⟩

/-- A declaration that is free goes in behind what is nested in it. -/
theorem Registration.enclose (hfree : registry.Free decl)
    (h : registry.Registration (nestedListing decl.fields) apart (.ok ()) entered) :
    registry.Registration (nestedListing decl.fields ++ [decl]) apart (.ok ()) (entered ++ [decl]) where
  front := by
    rw [(h.accepted rfl).1]
  free := List.forall_mem_append.mpr ⟨h.free, List.forall_mem_singleton.mpr hfree⟩
  nodup hproper := by
    obtain ⟨hnested, hdecl⟩ := List.forall_mem_append.mp hproper
    rw [List.map_append]
    refine (h.nodup hnested).append (List.nodup_singleton _) ?_
    intro key hkey hkey'
    obtain rfl := List.mem_singleton.mp hkey'
    obtain ⟨inner, hinner, hsame⟩ := List.mem_map.mp hkey
    rw [(h.accepted rfl).1] at hinner
    exact hdecl decl List.mem_cons_self ⟨inner, hinner, hsame⟩
  accepted _ := ⟨by rw [(h.accepted rfl).1], (h.accepted rfl).2⟩
  refused := nofun

/-- A declaration that is not free is refused before the structs nested in it are entered. -/
theorem Registration.atOnce (hrefuses : registry.Refuses decl error) :
    registry.Registration (front ++ [decl]) apart (.error error) [] where
  front := List.nil_prefix
  free := nofun
  nodup _ := List.nodup_nil
  accepted := nofun
  refused := by
    rintro _ ⟨⟩
    have hdecl : decl ∈ front ++ [decl] := List.mem_append_right front List.mem_cons_self
    refine ⟨⟨decl, hdecl, hrefuses⟩, fun _ => ⟨decl, hdecl, ?_⟩⟩
    rintro ⟨hname, habsent⟩
    cases hrefuses with
    | malformed h => exact Bool.false_ne_true (h.symm.trans hname)
    | duplicate _ h => exact h habsent

theorem registers_nil : Registers (pure ()) [] True := fun _ =>
  ⟨.ok (), [], ⟨List.prefix_rfl, nofun, fun _ => List.nodup_nil, fun _ => ⟨rfl, trivial⟩, nofun⟩,
    fun _ _ => rfl⟩

/-- One registration after the other. -/
theorem registers_append {first second : Resolve Unit} (h : Registers first front frontApart)
    (h' : Registers second back backApart) :
    Registers (first >>= fun _ => second) (front ++ back)
      (frontApart ∧ backApart ∧ Disparate front back) := by
  intro registry
  obtain ⟨outcome, entered, hfirst, hrun⟩ := h registry
  cases outcome with
  | error error =>
      exact ⟨.error error, entered, hfirst.stop And.left, fun other hother =>
        runFrom_bind_error (hrun other hother) _⟩
  | ok value =>
      obtain ⟨rfl, -⟩ := hfirst.accepted rfl
      obtain ⟨outcome, later, hsecond, hrun'⟩ := h' (registry.enterAll entered)
      refine ⟨outcome, entered ++ later, hfirst.append hsecond, fun other hother => ?_⟩
      rw [enterAll_append]
      exact (runFrom_bind_ok (hrun other hother) _).trans (hrun' _ (hother.enterAll entered))

section Checked

variable {name : String} {base : Option String} {fields : List FieldDecl}

theorem run_register_malformed (registry : Registry) (h : isIdentifier name = false) :
    registry.run (register ⟨name, base, fields⟩) = (.error (.malformedName name), registry) := by
  rw [register, h]
  rfl

theorem run_register_taken (hname : isIdentifier name = true)
    (h : registry.entries.lookup (foldCase name) ≠ none) :
    registry.run (register ⟨name, base, fields⟩) = (.error (.duplicateStruct name), registry) := by
  rw [register, hname]
  change runFrom registry (get >>= _) = _
  rw [runFrom_bind_ok (runFrom_get registry), contains_eq_true.mpr h]
  rfl

/-- A declaration that can be entered is entered behind what is nested in it. -/
theorem run_register_free (hname : isIdentifier name = true)
    (h : registry.entries.lookup (foldCase name) = none) :
    registry.run (register ⟨name, base, fields⟩) =
      registry.run (registerNested fields >>= fun _ =>
        modify fun registry => registry.enter ⟨name, base, fields⟩) := by
  rw [register, hname]
  change runFrom registry (get >>= _) = _
  rw [runFrom_bind_ok (runFrom_get registry), contains_eq_false.mpr h]
  rfl

theorem register_of_nested
    (h : Registers (registerNested fields) (nestedListing fields) (NestedApart fields)) :
    Registers (register ⟨name, base, fields⟩) (nestedListing fields ++ [⟨name, base, fields⟩])
      (NestedApart fields) := by
  intro registry
  let decl : StructDecl := ⟨name, base, fields⟩
  cases hname : isIdentifier name with
  | false =>
      have hrefuses : registry.Refuses decl (.malformedName name) := .malformed hname
      exact ⟨_, [], .atOnce hrefuses, fun other _ => run_register_malformed other hname⟩
  | true =>
      by_cases habsent : registry.entries.lookup (foldCase name) = none
      · obtain ⟨outcome, entered, hnested, hrun⟩ := h registry
        have hstep : ∀ other, registry.Alike other →
            other.run (register ⟨name, base, fields⟩) =
              runFrom other (registerNested fields >>= fun _ =>
                modify fun registry => registry.enter ⟨name, base, fields⟩) :=
          fun other hother => run_register_free hname ((hother _).mpr habsent)
        cases outcome with
        | ok value =>
            have hfree : registry.Free decl := ⟨hname, habsent⟩
            refine ⟨.ok (), entered ++ [decl], .enclose hfree hnested, fun other hother => ?_⟩
            rw [hstep other hother, runFrom_bind_ok (hrun other hother), enterAll_append]
            rfl
        | error error =>
            refine ⟨.error error, entered, hnested.stop id, fun other hother => ?_⟩
            rw [hstep other hother, runFrom_bind_error (hrun other hother)]
      · have hrefuses : registry.Refuses decl (.duplicateStruct name) := .duplicate hname habsent
        exact ⟨_, [], .atOnce hrefuses, fun other hother =>
          run_register_taken hname ((hother _).not.mpr habsent)⟩

end Checked

mutual

/-- What a registration does. -/
theorem register_registers : ∀ decl : StructDecl,
    Registers (register decl) decl.listing decl.Apart
  | ⟨_, _, fields⟩ => register_of_nested (registerNested_registers fields)

theorem registerNested_registers : ∀ fields : List FieldDecl,
    Registers (registerNested fields) (nestedListing fields) (NestedApart fields)
  | [] => by
      rw [registerNested]
      exact registers_nil
  | .property _ :: rest => by
      rw [registerNested]
      exact registerNested_registers rest
  | .struct decl :: rest => by
      rw [registerNested]
      exact registers_append (register_registers decl) (registerNested_registers rest)

end

/-- A schema is registered like the structs nested in one struct. -/
theorem registerSchema_eq (schema : Schema) :
    registerSchema schema = registerNested (schema.structs.map .struct) := by
  obtain ⟨decls⟩ := schema
  change decls.forM register = _
  induction decls with
  | nil =>
      rw [List.map_nil, registerNested]
      rfl
  | cons decl decls ih =>
      rw [List.map_cons, registerNested, ← ih]
      rfl

/-- The call registers something, so it resolves nothing. -/
def Call.registers : Call → Bool
  | .register _ | .registerSchema _ => true
  | .resolve _ | .resolveAll => false

/-- The structs that a call registers. -/
def Call.listing : Call → List StructDecl
  | .register decl => decl.listing
  | .registerSchema schema => nestedListing (schema.structs.map .struct)
  | .resolve _ | .resolveAll => []

/-- A call that registers enters a front part of its structs, the same in all registries
that know the same names. -/
theorem call_of_registers (registry : Registry) {call : Call} (h : call.registers = true) :
    ∃ entered, entered <+: call.listing ∧ (∀ decl ∈ entered, registry.Free decl) ∧
      ((∀ decl ∈ call.listing, ¬decl.Repeats) → (entered.map StructDecl.key).Nodup) ∧
      ∀ other, registry.Alike other → other.call call = other.enterAll entered := by
  cases call with
  | register decl =>
      obtain ⟨_, entered, hregisters, hrun⟩ := register_registers decl registry
      exact ⟨entered, hregisters.front, hregisters.free, hregisters.nodup, fun other hother =>
        congrArg Prod.snd (hrun other hother)⟩
  | registerSchema schema =>
      obtain ⟨_, entered, hregisters, hrun⟩ :=
        registerNested_registers (schema.structs.map .struct) registry
      rw [← registerSchema_eq] at hrun
      exact ⟨entered, hregisters.front, hregisters.free, hregisters.nodup, fun other hother =>
        congrArg Prod.snd (hrun other hother)⟩
  | _ => cases h

/-- A call that registers nothing makes progress. -/
theorem Closed.progress_call (h : registry.Closed) {call : Call} (hcall : call.registers = false) :
    registry.Progress (registry.call call) := by
  cases call with
  | resolve name => exact (resolve_advances name h rfl).1
  | resolveAll => exact (resolveAll_advances h rfl).1
  | _ => cases hcall

/-- The order lists every key once. -/
structure Listed (registry : Registry) : Prop where
  nodup : registry.order.Nodup
  mem : ∀ key, key ∈ registry.order ↔ registry.entries.lookup key ≠ none

variable {later : Registry} {decls : List StructDecl}

theorem Progress.lookup_eq_none (h : registry.Progress later) (key : String) :
    later.entries.lookup key = none ↔ registry.entries.lookup key = none := by
  rcases h.entries key with hsame | ⟨decl, layout, hunloaded, hloaded, -⟩
  · rw [hsame]
  · rw [hunloaded, hloaded]
    exact ⟨nofun, nofun⟩

/-- The order lists the keys that have entries, each once or more often. -/
def Ordered (registry : Registry) : Prop :=
  ∀ key, key ∈ registry.order ↔ registry.entries.lookup key ≠ none

theorem Ordered.progress (h : registry.Ordered) (hprogress : registry.Progress later) :
    later.Ordered := by
  intro key
  rw [hprogress.order, h key, Ne, Ne, hprogress.lookup_eq_none]

theorem Ordered.enterAll (h : registry.Ordered) (decls : List StructDecl) :
    (registry.enterAll decls).Ordered := by
  intro key
  rw [order_enterAll, List.mem_append, h key, Ne, Ne, lookup_enterAll_eq_none, not_and_or]
  refine or_congr_right ?_
  simp

theorem Listed.progress (h : registry.Listed) (hprogress : registry.Progress later) :
    later.Listed :=
  ⟨hprogress.order ▸ h.nodup, Ordered.progress h.mem hprogress⟩

theorem Listed.enterAll (h : registry.Listed)
    (hfree : ∀ decl ∈ decls, registry.entries.lookup decl.key = none)
    (hnodup : (decls.map StructDecl.key).Nodup) : (registry.enterAll decls).Listed := by
  refine ⟨?_, Ordered.enterAll h.mem decls⟩
  rw [order_enterAll]
  refine h.nodup.append hnodup fun key hkey hkey' => ?_
  obtain ⟨decl, hdecl, rfl⟩ := List.mem_map.mp hkey'
  exact (h.mem _).mp hkey (hfree decl hdecl)

theorem start_listed (realm : Nat) (builtins : Bool) : (start realm builtins).Listed := by
  have hempty : (empty realm).Listed := ⟨List.nodup_nil, fun key => by simp [empty]⟩
  cases builtins with
  | false => exact hempty
  | true =>
      have hnodup : (builtinStructs.map StructDecl.key).Nodup := by decide
      exact hempty.enterAll (fun _ _ => rfl) hnodup

/-- Calls list every key once as long as they register no struct inside of one of its name. -/
theorem Listed.after (h : registry.Listed) (hsettled : registry.Settled) {calls : List Call}
    (hcalls : ∀ call ∈ calls, ∀ decl ∈ call.listing, ¬decl.Repeats) :
    (registry.after calls).Listed := by
  induction calls generalizing registry with
  | nil => exact h
  | cons call calls ih =>
      obtain ⟨hcall, hrest⟩ := List.forall_mem_cons.mp hcalls
      refine ih ?_ (hsettled.call call).1 hrest
      cases hregisters : call.registers with
      | false => exact h.progress (hsettled.closed.progress_call hregisters)
      | true =>
          obtain ⟨entered, -, hfree, hnodup, hrun⟩ := call_of_registers registry hregisters
          rw [hrun registry (.refl registry)]
          exact h.enterAll (fun decl hdecl => (hfree decl hdecl).absent) (hnodup hcall)

/-- Whatever is called, the order lists the keys that have entries. -/
theorem Ordered.after (h : registry.Ordered) (hsettled : registry.Settled) (calls : List Call) :
    (registry.after calls).Ordered := by
  induction calls generalizing registry with
  | nil => exact h
  | cons call calls ih =>
      refine ih ?_ (hsettled.call call).1
      cases hregisters : call.registers with
      | false => exact h.progress (hsettled.closed.progress_call hregisters)
      | true =>
          obtain ⟨entered, -, -, -, hrun⟩ := call_of_registers registry hregisters
          rw [hrun registry (.refl registry)]
          exact h.enterAll entered

mutual

theorem apart_of_nodup : ∀ decl : StructDecl,
    (decl.listing.map StructDecl.key).Nodup → decl.Apart
  | ⟨name, base, fields⟩, h => by
      rw [StructDecl.listing, List.map_append] at h
      exact nestedApart_of_nodup fields h.of_append_left

theorem nestedApart_of_nodup : ∀ fields : List FieldDecl,
    ((nestedListing fields).map StructDecl.key).Nodup → NestedApart fields
  | [], _ => trivial
  | .property _ :: rest, h => nestedApart_of_nodup rest h
  | .struct decl :: rest, h => by
      rw [nestedListing, List.map_append] at h
      refine ⟨apart_of_nodup decl h.of_append_left, nestedApart_of_nodup rest h.of_append_right, ?_⟩
      intro first hfirst second hsecond hsame
      have hdisjoint := List.disjoint_of_nodup_append h
      exact hdisjoint (List.mem_map_of_mem hfirst) (hsame ▸ List.mem_map_of_mem hsecond)

end

/-- Registration of a tree by any registry that a program can have.  A tree is accepted when
its names are well formed and not taken and two of its structs have different names unless
one is inside of the other.  Entries that were there stay as they are, and the order goes on
with the tree; of several structs of one name the outermost is kept.  Where no struct is
inside of one of its name, all names are different, each struct has its own entry, and the
order lists every key once. -/
theorem register_exact (realm : Nat) (builtins : Bool) (calls : List Call) (decl : StructDecl) :
    let registry := (start realm builtins).after calls
    let outcome := (registry.run (register decl)).1
    let later := (registry.run (register decl)).2
    (outcome = .ok () ↔ (∀ part ∈ decl.listing, registry.Free part) ∧ decl.Apart) ∧
    (∀ error, outcome = .error error → ∃ part ∈ decl.listing,
      error = .malformedName part.name ∨ error = .duplicateStruct part.name) ∧
    (∀ key entry, registry.entries.lookup key = some entry →
      later.entries.lookup key = some entry) ∧
    (outcome = .ok () → later.order = registry.order ++ decl.listing.map StructDecl.key ∧
      ∀ before part rest, decl.listing = before ++ part :: rest →
        (∀ other ∈ rest, other.key ≠ part.key) →
          later.entries.lookup part.key = some (.unloaded part)) ∧
    ((∀ part ∈ decl.listing, ¬part.Repeats) →
      (outcome = .ok () ↔ (∀ part ∈ decl.listing, registry.Free part) ∧
        (decl.listing.map StructDecl.key).Nodup) ∧
      (outcome = .ok () → ∀ part ∈ decl.listing,
        later.entries.lookup part.key = some (.unloaded part)) ∧
      ((∀ call ∈ calls, ∀ part ∈ call.listing, ¬part.Repeats) → later.Listed)) := by
  intro registry outcome later
  obtain ⟨found, entered, hregisters, hrun⟩ := register_registers decl registry
  have hrun := hrun registry (.refl registry)
  have houtcome : outcome = found := congrArg Prod.fst hrun
  have hlater : later = registry.enterAll entered := congrArg Prod.snd hrun
  rw [houtcome, hlater]
  have hiff : found = .ok () ↔ (∀ part ∈ decl.listing, registry.Free part) ∧ decl.Apart := by
    constructor
    · intro hok
      obtain ⟨rfl, hapart⟩ := hregisters.accepted hok
      exact ⟨hregisters.free, hapart⟩
    · rintro ⟨hfree, hapart⟩
      cases found with
      | ok value => rfl
      | error error =>
          obtain ⟨part, hpart, hnotFree⟩ := (hregisters.refused error rfl).2 hapart
          exact absurd (hfree part hpart) hnotFree
  refine ⟨hiff, fun error herror => ?_, fun key entry hkey => ?_, fun hok => ?_, fun hproper => ⟨?_, ?_, ?_⟩⟩
  · obtain ⟨part, hpart, hrefuses⟩ := (hregisters.refused error herror).1
    cases hrefuses with
    | malformed => exact ⟨part, hpart, Or.inl rfl⟩
    | duplicate => exact ⟨part, hpart, Or.inr rfl⟩
  · rw [lookup_enterAll_of_absent, hkey]
    rintro part hpart rfl
    rw [(hregisters.free part hpart).absent] at hkey
    cases hkey
  · obtain ⟨rfl, -⟩ := hregisters.accepted hok
    refine ⟨order_enterAll registry decl.listing, fun before part rest hlisting hlast => ?_⟩
    rw [hlisting]
    exact lookup_enterAll_of_last hlast
  · refine ⟨fun hok => ⟨(hiff.mp hok).1, ?_⟩, fun ⟨hfree, hnodup⟩ =>
      hiff.mpr ⟨hfree, apart_of_nodup decl hnodup⟩⟩
    rw [← (hregisters.accepted hok).1]
    exact hregisters.nodup hproper
  · intro hok part hpart
    obtain ⟨rfl, -⟩ := hregisters.accepted hok
    obtain ⟨before, rest, hlisting⟩ := List.append_of_mem hpart
    have hnodup := hregisters.nodup hproper
    rw [hlisting, List.map_append, List.map_cons] at hnodup
    rw [hlisting]
    refine lookup_enterAll_of_last fun other hother hsame => ?_
    exact (List.nodup_cons.mp hnodup.of_append_right).1 (hsame ▸ List.mem_map_of_mem hother)
  · intro hcalls
    have hlisted : registry.Listed :=
      (start_listed realm builtins).after (start_settled realm builtins) hcalls
    exact hlisted.enterAll (fun part hpart => (hregisters.free part hpart).absent)
      (hregisters.nodup hproper)

end Registry

namespace TwiceNamed

/-- A struct with a struct of its own name inside of it. -/
def decl : StructDecl :=
  ⟨"A", none, [.struct ⟨"A", none, []⟩]⟩

/-- Both structs are accepted under one key, which the order lists twice, and the inner one
is lost. -/
theorem register_overwrites :
    (Registry.empty 0).run (Registry.register decl) =
        (.ok (), ⟨0, [("a", .unloaded decl)], ["a", "a"]⟩) ∧
      decl.listing = [⟨"A", none, []⟩, decl] ∧ ¬(decl.listing.map StructDecl.key).Nodup :=
  ⟨rfl, rfl, by decide⟩

end TwiceNamed

end ObjectPackage
