/-
Safe actions.  Actions that renew elements keep a store sound, wherever they stop, and
blame something else than the store when they fail; so do all sequences of them.
-/
import ObjectPackage.Proofs.Block.Sound
import ObjectPackage.Proofs.Tagged.Entry

namespace ObjectPackage

variable {σ α β : Type} {view : σ → Store} {layout : StructLayout}

/-- An action on a block of a layout that keeps its store sound. -/
structure Safe (view : σ → Store) (layout : StructLayout)
    (action : ExceptT PropertyError (StateM σ) α) : Prop where
  grows : Grows view action
  sound : ∀ {state}, (view state).Sound layout → (view (runFrom state action).2).Fits →
    (view (runFrom state action).2).Sound layout
  blameless : ∀ {state error after}, (view state).Sound layout →
    runFrom state action = (.error error, after) → (view after).Fits → ¬error.Internal

namespace Safe

theorem pure (value : α) : Safe view layout (Pure.pure value) :=
  ⟨.pure value, fun h _ => h, fun _ h => by cases h⟩

theorem fail {error : PropertyError} (h : ¬error.Internal) :
    Safe view layout (throw error : ExceptT PropertyError (StateM σ) α) :=
  ⟨.throw error, fun h _ => h, fun _ hrun _ => Blameless.fail h _ _ _ hrun⟩

theorem bind {action : ExceptT PropertyError (StateM σ) α}
    {next : α → ExceptT PropertyError (StateM σ) β} (h : Safe view layout action)
    (hnext : ∀ value, Safe view layout (next value)) : Safe view layout (action >>= next) := by
  refine ⟨h.grows.bind fun value => (hnext value).grows, ?_, ?_⟩
  · intro state hsound hfits
    cases hrun : runFrom state action with
    | mk outcome middle =>
        have hmiddle := @h.sound state hsound
        rw [hrun] at hmiddle
        cases outcome with
        | error error =>
            rw [runFrom_bind_error hrun] at hfits ⊢
            exact hmiddle hfits
        | ok value =>
            rw [runFrom_bind_ok hrun] at hfits ⊢
            have hsize := (hnext value).grows middle
            exact (hnext value).sound (hmiddle (Nat.lt_of_le_of_lt hsize hfits)) hfits
  · intro state error after hsound hrun hfits
    rcases runFrom_bind_cases hrun with ⟨cause, hcause, hfirst⟩ | ⟨value, middle, hfirst, hlast⟩
    · obtain rfl := Except.error.inj hcause
      exact h.blameless hsound hfirst hfits
    · have hmiddle := @h.sound state hsound
      have hsize := (hnext value).grows middle
      rw [hfirst] at hmiddle
      rw [hlast] at hsize
      exact (hnext value).blameless (hmiddle (Nat.lt_of_le_of_lt hsize hfits)) hlast hfits

/-- Another error may be reported when an action fails. -/
theorem recast {action : ExceptT PropertyError (StateM σ) α}
    {report : PropertyError → PropertyError} (h : Safe view layout action)
    (hreport : ∀ error, (report error).Internal → error.Internal) :
    Safe view layout (tryCatch action fun error => throw (report error)) := by
  have hlast (state : σ) : (runFrom state (tryCatch action fun error => throw (report error))).2 =
      (runFrom state action).2 := by
    rw [runFrom_tryCatch]
    split
    · next hrun => rw [hrun]
    · next hrun => rw [hrun]; rfl
  refine ⟨fun state => ?_, fun {state} => ?_, ?_⟩
  · rw [hlast]
    exact h.grows state
  · rw [hlast]
    exact h.sound
  · intro state error after hsound hrun hfits
    rw [runFrom_tryCatch] at hrun
    split at hrun
    · cases hrun
    · next cause middle hfirst =>
        obtain ⟨herror, rfl⟩ := Prod.mk.inj hrun
        obtain rfl := Except.error.inj herror
        exact fun hinternal => h.blameless hsound hfirst hfits (hreport cause hinternal)

/-- An action that does not change the store. -/
theorem of_kept {action : ExceptT PropertyError (StateM σ) α}
    (hkept : ∀ state, view (runFrom state action).2 = view state) (h : Blameless action) :
    Safe view layout action :=
  ⟨fun state => by rw [hkept], fun {state} hsound _ => by rw [hkept]; exact hsound,
    fun _ hrun _ => h _ _ _ hrun⟩

/-- An element of a property is renewed. -/
theorem of_renews {action : ExceptT PropertyError (StateM σ) Unit} (hlayout : layout.Built)
    {property : Property} (hproperty : property ∈ layout.properties) {index : Nat}
    (hindex : index < property.dimension)
    (h : Renews view action property.type (Block.elementAt property index) property.mask False
      (Orderly σ Value)) : Safe view layout action := by
  have helement := Block.mem_elementsOf.mpr ⟨hproperty, hindex⟩
  refine ⟨h.grows, fun hsound hfits => (hsound.renew hlayout helement h rfl hfits).1, ?_⟩
  intro state error after hsound hrun hfits
  obtain ⟨-, _, _, horderly, -⟩ := hsound.renew hlayout helement h hrun hfits
  exact horderly error rfl

end Safe

section Load

variable {package : Package} {property : Property}

theorem get_safe : Safe view layout (get : ExceptT PropertyError (StateM σ) σ) :=
  .of_kept (fun _ => rfl) fun _ _ _ h => by cases h

theorem read_safe (action : Read α) : Safe Filling.store layout (Load.read action) :=
  .of_kept (fun state => by rw [Load.mirrors_read]) fun state error after hrun => by
    rw [Load.mirrors_read] at hrun
    exact Decoder.read_blameless action _ _ _ (Prod.ext (Prod.mk.inj hrun).1 rfl)

theorem element_masked (hlayout : layout.Built) (hproperty : property ∈ layout.properties)
    {index : Nat} (hindex : index < property.dimension) (hbool : property.type = .bool) :
    property.mask ≠ 0 :=
  hlayout.spread.masked ⟨property.type, property.elementOffset index, property.mask⟩
    (mem_memberParts.mpr ⟨property, hproperty, mem_parts.mpr ⟨index, hindex, rfl⟩⟩) hbool

theorem property_resolved (hlayout : layout.Built) (hproperty : property ∈ layout.properties) :
    property.type.Resolved :=
  (hlayout.arranged.placed property hproperty).resolved

theorem entry_safe (hlayout : layout.Built) (hproperty : property ∈ layout.properties)
    (header : Header) : Safe Filling.store layout (Load.entry package property header) := by
  by_cases hindex : header.arrayIndex.toNat < property.dimension
  · refine .of_renews hlayout hproperty hindex ((Load.entry_decodes hindex
      (property_resolved hlayout hproperty) (element_masked hlayout hproperty hindex)).mono id
        fun _ _ _ _ _ h => h.orderly (Load.entry_blameless package property header))
  · rw [Load.entry, if_pos (Nat.le_of_not_lt hindex)]
    exact .fail id

theorem mem_of_findTagged? {name : String} {wantsStruct : Bool}
    (h : layout.findTagged? name wantsStruct = some property) : property ∈ layout.properties := by
  have hcandidate : ∀ {candidates : List Property}, (candidates.find?
      fun property => property.type.isStruct == wantsStruct).or candidates.head? = some property →
      property ∈ candidates := by
    intro candidates hor
    rcases Option.or_eq_some_iff.mp hor with hfound | ⟨-, hhead⟩
    · exact List.mem_of_find?_eq_some hfound
    · exact List.mem_of_head? hhead
  exact List.mem_reverse.mp (List.mem_filter.mp (hcandidate h)).1

theorem entries_safe (hlayout : layout.Built) (budget : Nat) (report : LoadReport) :
    Safe Filling.store layout (Load.entries package layout budget report) := by
  induction budget generalizing report with
  | zero => exact .pure report
  | succ budget ih =>
      rw [Load.entries]
      refine (read_safe _).bind fun found => ?_
      cases found with
      | none => exact .pure report
      | some header =>
          simp only
          split
          · next property hfind =>
              exact (entry_safe hlayout (mem_of_findTagged? hfind) header).bind fun _ => ih _
          · exact ((read_safe _).recast fun _ => PropertyError.internal_of_inProperty).bind
              fun _ => ih _

theorem properties_safe (hlayout : layout.Built) :
    Safe Filling.store layout (Load.properties package layout) :=
  get_safe.bind fun _ => entries_safe hlayout _ _

end Load

end ObjectPackage
