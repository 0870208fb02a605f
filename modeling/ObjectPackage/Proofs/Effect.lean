/-
Runs of actions that may fail and keep a state.  Reads, updates, loads, saves and
decodings are all of this kind; a run gives the outcome and the state it stopped in.
-/
import Mathlib

namespace ObjectPackage

variable {ε σ α β : Type}

/-- Outcome and final state of an action. -/
def runFrom (state : σ) (action : ExceptT ε (StateM σ) α) : Except ε α × σ :=
  (ExceptT.run action).run state

/-- Actions with the same runs are the same. -/
theorem runFrom_ext {action other : ExceptT ε (StateM σ) α}
    (h : ∀ state, runFrom state action = runFrom state other) : action = other :=
  funext h

@[simp]
theorem runFrom_pure (state : σ) (value : α) :
    runFrom state (pure value : ExceptT ε (StateM σ) α) = (.ok value, state) := rfl

@[simp]
theorem runFrom_throw (state : σ) (error : ε) :
    runFrom state (throw error : ExceptT ε (StateM σ) α) = (.error error, state) := rfl

@[simp]
theorem runFrom_get (state : σ) :
    runFrom state (get : ExceptT ε (StateM σ) σ) = (.ok state, state) := rfl

@[simp]
theorem runFrom_set (state next : σ) :
    runFrom state (set next : ExceptT ε (StateM σ) PUnit) = (.ok ⟨⟩, next) := rfl

@[simp]
theorem runFrom_modify (state : σ) (change : σ → σ) :
    runFrom state (modify change : ExceptT ε (StateM σ) PUnit) = (.ok ⟨⟩, change state) := rfl

theorem runFrom_bind (state : σ) (action : ExceptT ε (StateM σ) α)
    (next : α → ExceptT ε (StateM σ) β) :
    runFrom state (action >>= next) =
      match runFrom state action with
      | (.ok value, middle) => runFrom middle (next value)
      | (.error error, middle) => (.error error, middle) := by
  change (match runFrom state action with
    | (value, middle) => (ExceptT.bindCont next value).run middle) = _
  cases runFrom state action with
  | mk outcome middle => cases outcome <;> rfl

theorem runFrom_bind_ok {state middle : σ} {action : ExceptT ε (StateM σ) α} {value : α}
    (h : runFrom state action = (.ok value, middle)) (next : α → ExceptT ε (StateM σ) β) :
    runFrom state (action >>= next) = runFrom middle (next value) := by
  rw [runFrom_bind, h]

theorem runFrom_bind_error {state middle : σ} {action : ExceptT ε (StateM σ) α} {error : ε}
    (h : runFrom state action = (.error error, middle)) (next : α → ExceptT ε (StateM σ) β) :
    runFrom state (action >>= next) = (.error error, middle) := by
  rw [runFrom_bind, h]

/-- A sequence succeeds when both actions do. -/
theorem runFrom_bind_eq_ok {state final : σ} {action : ExceptT ε (StateM σ) α}
    {next : α → ExceptT ε (StateM σ) β} {result : β} :
    runFrom state (action >>= next) = (.ok result, final) ↔
      ∃ value middle, runFrom state action = (.ok value, middle) ∧
        runFrom middle (next value) = (.ok result, final) := by
  rw [runFrom_bind]
  constructor
  · intro h
    split at h
    · next value middle haction => exact ⟨value, middle, haction, h⟩
    · cases h
  · rintro ⟨value, middle, haction, hnext⟩
    rw [haction]
    exact hnext

/-- A sequence stops in its first action or goes on with the second. -/
theorem runFrom_bind_cases {state after : σ} {action : ExceptT ε (StateM σ) α}
    {next : α → ExceptT ε (StateM σ) β} {outcome : Except ε β}
    (h : runFrom state (action >>= next) = (outcome, after)) :
    (∃ error, outcome = .error error ∧ runFrom state action = (.error error, after)) ∨
      ∃ value middle, runFrom state action = (.ok value, middle) ∧
        runFrom middle (next value) = (outcome, after) := by
  rw [runFrom_bind] at h
  split at h
  · next value middle haction => exact Or.inr ⟨value, middle, haction, h⟩
  · next error middle haction =>
      obtain ⟨rfl, rfl⟩ := Prod.mk.inj h
      exact Or.inl ⟨error, rfl, haction⟩

theorem runFrom_map (state : σ) (f : α → β) (action : ExceptT ε (StateM σ) α) :
    runFrom state (f <$> action) =
      match runFrom state action with
      | (.ok value, middle) => (.ok (f value), middle)
      | (.error error, middle) => (.error error, middle) := by
  rw [map_eq_pure_bind, runFrom_bind]
  rfl

theorem runFrom_map_eq_ok {state final : σ} {f : α → β} {action : ExceptT ε (StateM σ) α}
    {result : β} :
    runFrom state (f <$> action) = (.ok result, final) ↔
      ∃ value, runFrom state action = (.ok value, final) ∧ f value = result := by
  rw [runFrom_map]
  constructor
  · intro h
    split at h
    · next value middle haction =>
        obtain ⟨hresult, rfl⟩ := Prod.mk.inj h
        exact ⟨value, haction, Except.ok.inj hresult⟩
    · cases h
  · rintro ⟨value, haction, rfl⟩
    rw [haction]

theorem runFrom_map_eq_error {state final : σ} {f : α → β} {action : ExceptT ε (StateM σ) α}
    {error : ε} :
    runFrom state (f <$> action) = (.error error, final) ↔
      runFrom state action = (.error error, final) := by
  rw [runFrom_map]
  split <;> simp_all

theorem runFrom_tryCatch (state : σ) (action : ExceptT ε (StateM σ) α)
    (handler : ε → ExceptT ε (StateM σ) α) :
    runFrom state (tryCatch action handler) =
      match runFrom state action with
      | (.ok value, middle) => (.ok value, middle)
      | (.error error, middle) => runFrom middle (handler error) := by
  change (match runFrom state action with
    | (value, middle) => (match value with
      | .ok value => (pure (.ok value) : StateM σ (Except ε α))
      | .error error => (handler error : ExceptT ε (StateM σ) α)).run middle) = _
  cases runFrom state action with
  | mk outcome middle => cases outcome <;> rfl

/-- A bind of plain results succeeds when both steps do. -/
theorem bind_eq_ok {first : Except ε α} {next : α → Except ε β} {result : β} :
    first >>= next = .ok result ↔ ∃ value, first = .ok value ∧ next value = .ok result := by
  cases first with
  | error error => simp [bind, Except.bind]
  | ok value => simp [bind, Except.bind]

theorem map_eq_ok {f : α → β} {action : Except ε α} {result : β} :
    action.map f = .ok result ↔ ∃ value, action = .ok value ∧ f value = result := by
  cases action <;> simp [Except.map]

theorem map_eq_error {f : α → β} {action : Except ε α} {error : ε} :
    action.map f = .error error ↔ action = .error error := by
  cases action <;> simp [Except.map]

end ObjectPackage
