/-
Runs and what happens in them.  A traced action does what another action does and notes
events on the way, so that something can be said of runs that fail, too: what happened up
to there is on record, and a relation that every step respects holds from end to end.
-/
import ObjectPackage.Proofs.Effect

namespace ObjectPackage

variable {ω ε σ α β : Type}

/-- However the action ends, the state it ends in stands in the relation to the first. -/
def Moves (relation : σ → σ → Prop) (action : ExceptT ε (StateM σ) α) : Prop :=
  ∀ state, relation state (runFrom state action).2

namespace Moves

variable {relation : σ → σ → Prop} [IsPreorder σ relation] {action : ExceptT ε (StateM σ) α}

theorem pure (value : α) : Moves relation (Pure.pure value : ExceptT ε (StateM σ) α) :=
  fun state => refl_of relation state

theorem throw (error : ε) : Moves relation (throw error : ExceptT ε (StateM σ) α) :=
  fun state => refl_of relation state

theorem get : Moves relation (get : ExceptT ε (StateM σ) σ) :=
  fun state => refl_of relation state

theorem bind {next : α → ExceptT ε (StateM σ) β} (h : Moves relation action)
    (hnext : ∀ value, Moves relation (next value)) : Moves relation (action >>= next) := by
  intro state
  have hfirst := h state
  rw [runFrom_bind]
  split
  · next value middle haction =>
      rw [haction] at hfirst
      exact trans_of relation hfirst (hnext value middle)
  · next error middle haction => rwa [haction] at hfirst

theorem map (f : α → β) (h : Moves relation action) : Moves relation (f <$> action) := by
  rw [map_eq_pure_bind]
  exact h.bind fun value => .pure (f value)

theorem tryCatch {handler : ε → ExceptT ε (StateM σ) α} (h : Moves relation action)
    (hhandler : ∀ error, Moves relation (handler error)) :
    Moves relation (tryCatch action handler) := by
  intro state
  have hfirst := h state
  rw [runFrom_tryCatch]
  split
  · next value middle haction => rwa [haction] at hfirst
  · next error middle haction =>
      rw [haction] at hfirst
      exact trans_of relation hfirst (hhandler error middle)

end Moves

/-- A state and the events up to it. -/
structure Traced (σ ω : Type) where
  state : σ
  events : List ω

abbrev Trace (ω ε σ : Type) := ExceptT ε (StateM (Traced σ ω))

namespace Trace

/-- Do an action, and note what its success amounts to. -/
def noting (action : ExceptT ε (StateM σ) α) (note : α → σ → σ → List ω) : Trace ω ε σ α := do
  let traced ← get
  match runFrom traced.state action with
  | (.ok value, after) =>
      set (Traced.mk after (traced.events ++ note value traced.state after))
      return value
  | (.error error, after) =>
      set (Traced.mk after traced.events)
      throw error

/-- Do an action that is not noted. -/
def silent (action : ExceptT ε (StateM σ) α) : Trace ω ε σ α :=
  noting action fun _ _ _ => []

end Trace

/-- From a state on, the traced action ends as the action does and notes some events,
whatever was noted before.  The events are an account of the run, and those of a success
suit its value. -/
def Tells (account : σ → List ω → σ → Prop) (suits : α → List ω → Prop) (state : σ)
    (traced : Trace ω ε σ α) (action : ExceptT ε (StateM σ) α) : Prop :=
  ∃ events, (∀ before, runFrom ⟨state, before⟩ traced =
      ((runFrom state action).1, ⟨(runFrom state action).2, before ++ events⟩)) ∧
    account state events (runFrom state action).2 ∧
    ∀ value, (runFrom state action).1 = .ok value → suits value events

/-- Accounts that can be put together. -/
structure Accounts (account : σ → List ω → σ → Prop) : Prop where
  refl : ∀ state, account state [] state
  trans : ∀ {first middle last events more},
    account first events middle → account middle more last → account first (events ++ more) last

namespace Tells

variable {account : σ → List ω → σ → Prop} {suits suits' : α → List ω → Prop} {state : σ}
  {traced : Trace ω ε σ α} {action : ExceptT ε (StateM σ) α}

theorem noting {note : α → σ → σ → List ω}
    (hok : ∀ value after, runFrom state action = (.ok value, after) →
      account state (note value state after) after ∧ suits value (note value state after))
    (herror : ∀ error after, runFrom state action = (.error error, after) →
      account state [] after) :
    Tells account suits state (Trace.noting action note) action := by
  have hrun (before : List ω) : runFrom ⟨state, before⟩ (Trace.noting action note) =
      match runFrom state action with
      | (.ok value, after) => (.ok value, ⟨after, before ++ note value state after⟩)
      | (.error error, after) => (.error error, ⟨after, before⟩) := by
    rw [Trace.noting, runFrom_bind_ok (runFrom_get _)]
    dsimp only
    split <;> rfl
  cases haction : runFrom state action with
  | mk outcome after =>
      simp only [haction] at hrun
      rw [Tells, haction]
      cases outcome with
      | ok value =>
          obtain ⟨haccount, hsuits⟩ := hok value after haction
          refine ⟨note value state after, hrun, haccount, ?_⟩
          rintro _ ⟨⟩
          exact hsuits
      | error error =>
          refine ⟨[], fun before => ?_, herror error after haction, ?_⟩
          · rw [List.append_nil]
            exact hrun before
          · rintro _ ⟨⟩

/-- Only a success has to be looked at when the action moves the state in a way that needs
no events. -/
theorem noting_of_moves {relation : σ → σ → Prop} {note : α → σ → σ → List ω}
    (hmoves : Moves relation action)
    (hrelation : ∀ after, relation state after → account state [] after)
    (hok : ∀ value after, runFrom state action = (.ok value, after) → relation state after →
      account state (note value state after) after ∧ suits value (note value state after)) :
    Tells account suits state (Trace.noting action note) action := by
  have hstate := hmoves state
  refine noting (fun value after haction => ?_) fun error after haction => ?_
  · rw [haction] at hstate
    exact hok value after haction hstate
  · rw [haction] at hstate
    exact hrelation after hstate

theorem silent (haccount : account state [] (runFrom state action).2)
    (hsuits : ∀ value after, runFrom state action = (.ok value, after) → suits value []) :
    Tells account suits state (Trace.silent action) action := by
  refine noting (fun value after haction => ?_) fun error after haction => ?_
  · rw [haction] at haccount
    exact ⟨haccount, hsuits value after haction⟩
  · rwa [haction] at haccount

theorem pure (haccount : Accounts account) {value : α} (hsuits : suits value []) :
    Tells account suits state (Pure.pure value : Trace ω ε σ α) (Pure.pure value) := by
  refine ⟨[], fun before => ?_, haccount.refl state, ?_⟩
  · rw [List.append_nil]
    rfl
  · rintro _ ⟨⟩
    exact hsuits

theorem throw (haccount : Accounts account) (error : ε) :
    Tells account suits state (throw error : Trace ω ε σ α) (throw error) := by
  refine ⟨[], fun before => ?_, haccount.refl state, ?_⟩
  · rw [List.append_nil]
    rfl
  · rintro _ ⟨⟩

theorem mono (h : Tells account suits state traced action)
    (hsuits : ∀ value events, suits value events → suits' value events) :
    Tells account suits' state traced action := by
  obtain ⟨events, hrun, haccount, hresult⟩ := h
  exact ⟨events, hrun, haccount, fun value hvalue => hsuits value events (hresult value hvalue)⟩

/-- The events of a sequence are those of the one action and then those of the other. -/
theorem bind {next : α → Trace ω ε σ β} {next' : α → ExceptT ε (StateM σ) β}
    {last : β → List ω → Prop} (haccount : Accounts account)
    (h : Tells account suits state traced action)
    (hnext : ∀ value middle events, runFrom state action = (.ok value, middle) →
      account state events middle → suits value events →
        Tells account (fun result more => last result (events ++ more)) middle (next value)
          (next' value)) :
    Tells account last state (traced >>= next) (action >>= next') := by
  obtain ⟨events, hrun, hfirst, hsuits⟩ := h
  cases haction : runFrom state action with
  | mk outcome middle =>
      simp only [haction] at hrun hfirst hsuits
      cases outcome with
      | error error =>
          rw [Tells, runFrom_bind_error haction]
          refine ⟨events, fun before => runFrom_bind_error (hrun before) _, hfirst, ?_⟩
          rintro _ ⟨⟩
      | ok value =>
          obtain ⟨more, hmore, hrest, hlast⟩ := hnext value middle events haction hfirst (hsuits value rfl)
          rw [Tells, runFrom_bind_ok haction]
          refine ⟨events ++ more, fun before => ?_, haccount.trans hfirst hrest, hlast⟩
          rw [runFrom_bind_ok (hrun before), hmore, List.append_assoc]

theorem map {f : α → β} {last : β → List ω → Prop} (haccount : Accounts account)
    (h : Tells account suits state traced action)
    (hlast : ∀ value middle events, runFrom state action = (.ok value, middle) →
      suits value events → last (f value) events) :
    Tells account last state (f <$> traced) (f <$> action) := by
  rw [map_eq_pure_bind, map_eq_pure_bind]
  refine h.bind haccount fun value middle events haction _ hsuits => .pure haccount ?_
  rw [List.append_nil]
  exact hlast value middle events haction hsuits

/-- What follows an unnoted success tells the whole run. -/
theorem after {next : α → Trace ω ε σ β} {next' : α → ExceptT ε (StateM σ) β}
    {last : β → List ω → Prop} (haccount : Accounts account) {value : α} {middle : σ}
    (haction : runFrom state action = (.ok value, middle)) (hmiddle : account state [] middle)
    (hnext : Tells account last middle (next value) (next' value)) :
    Tells account last state (Trace.silent action >>= next) (action >>= next') := by
  have hsilent : Tells account (fun _ events => events = []) state (Trace.silent action) action := by
    refine silent ?_ fun _ _ _ => rfl
    rwa [haction]
  refine hsilent.bind haccount fun found later events hrun _ hevents => ?_
  obtain ⟨hvalue, rfl⟩ := Prod.mk.inj (haction.symm.trans hrun)
  obtain rfl := Except.ok.inj hvalue
  exact hnext.mono fun result more hlast => by rwa [hevents]

/-- A handler goes on from what was noted up to the error. -/
theorem tryCatch {handler : ε → Trace ω ε σ α} {handler' : ε → ExceptT ε (StateM σ) α}
    (haccount : Accounts account) (h : Tells account suits state traced action)
    (hhandler : ∀ error middle events, runFrom state action = (.error error, middle) →
      Tells account (fun value more => suits value (events ++ more)) middle (handler error)
        (handler' error)) :
    Tells account suits state (tryCatch traced handler) (tryCatch action handler') := by
  obtain ⟨events, hrun, hfirst, hsuits⟩ := h
  cases haction : runFrom state action with
  | mk outcome middle =>
      simp only [haction] at hrun hfirst hsuits
      cases outcome with
      | ok value =>
          have hcatch : runFrom state (MonadExcept.tryCatch action handler') =
              (.ok value, middle) := by rw [runFrom_tryCatch, haction]
          rw [Tells, hcatch]
          refine ⟨events, fun before => ?_, hfirst, hsuits⟩
          rw [runFrom_tryCatch, hrun]
      | error error =>
          obtain ⟨more, hmore, hrest, hlast⟩ := hhandler error middle events haction
          have hcatch : runFrom state (MonadExcept.tryCatch action handler') =
              runFrom middle (handler' error) := by rw [runFrom_tryCatch, haction]
          rw [Tells, hcatch]
          refine ⟨events ++ more, fun before => ?_, haccount.trans hfirst hrest, hlast⟩
          rw [runFrom_tryCatch, hrun]
          dsimp only
          rw [hmore, List.append_assoc]

section Quiet

variable {quiet : List ω → Prop}

/-- What is asked of the events alone passes to a sequence when it passes to longer lists. -/
theorem seq {next : α → Trace ω ε σ β} {next' : α → ExceptT ε (StateM σ) β}
    (haccount : Accounts account)
    (happend : ∀ events more, quiet events → quiet more → quiet (events ++ more))
    (h : Tells account (fun _ => quiet) state traced action)
    (hnext : ∀ value middle, Tells account (fun _ => quiet) middle (next value) (next' value)) :
    Tells account (fun _ => quiet) state (traced >>= next) (action >>= next') := by
  refine h.bind haccount fun value middle events _ _ hevents => ?_
  exact (hnext value middle).mono fun _ more hmore => happend events more hevents hmore

theorem forM {items : List β} {traced : β → Trace ω ε σ Unit}
    {action : β → ExceptT ε (StateM σ) Unit} (haccount : Accounts account) (hnil : quiet [])
    (happend : ∀ events more, quiet events → quiet more → quiet (events ++ more))
    (h : ∀ item ∈ items, ∀ state, Tells account (fun _ => quiet) state (traced item)
      (action item)) :
    Tells account (fun _ => quiet) state (items.forM traced) (items.forM action) := by
  induction items generalizing state with
  | nil => exact .pure haccount hnil
  | cons item rest ih =>
      exact (h item List.mem_cons_self state).seq haccount happend fun _ _ =>
        ih fun item hitem => h item (List.mem_cons_of_mem _ hitem)

end Quiet

end Tells

end ObjectPackage
