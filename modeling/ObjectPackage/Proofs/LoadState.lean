/-
Load states of exports.  A program adds objects to a table and begins and finishes loads, in any
order and with any references.  No call takes the state of an export back, so the load of an
export is begun once, however many calls there are.
-/
import ObjectPackage.Proofs.ObjectReference

namespace ObjectPackage

namespace LoadState

/-- The place of a state in the order in which an export goes through them. -/
def rank : LoadState → Nat
  | unloaded => 0
  | loading => 1
  | loaded => 2

instance : LE LoadState :=
  ⟨fun before after => before.rank ≤ after.rank⟩

instance (before after : LoadState) : Decidable (before ≤ after) :=
  inferInstanceAs (Decidable (before.rank ≤ after.rank))

theorem le_refl (state : LoadState) : state ≤ state :=
  Nat.le_refl state.rank

theorem le_trans {first second third : LoadState} (h : first ≤ second) (h' : second ≤ third) :
    first ≤ third :=
  Nat.le_trans h h'

theorem unloaded_le (state : LoadState) : unloaded ≤ state :=
  Nat.zero_le state.rank

theorem le_loaded (state : LoadState) : state ≤ loaded := by
  cases state <;> decide

/-- Whether a load of the export was begun or finished already. -/
def entered : LoadState → Nat
  | unloaded => 0
  | _ => 1

theorem entered_le_one (state : LoadState) : state.entered ≤ 1 := by
  cases state <;> decide

theorem entered_mono {before after : LoadState} (h : before ≤ after) :
    before.entered ≤ after.entered := by
  cases before <;> cases after <;> revert h <;> decide

end LoadState

/-- What a program does to an object table. -/
inductive LoadCall where
  | add (row : ObjectRow)
  | beginLoad (reference : ObjectRef)
  | finishLoad (reference : ObjectRef)
deriving DecidableEq, Repr

/-- The export whose state a call is about. -/
def LoadCall.export? : LoadCall → Option Nat
  | add _ => none
  | beginLoad reference => reference.export?
  | finishLoad reference => reference.export?

inductive LoadAnswer where
  | added (reference : ObjectRef)
  | begun (outcome : Except StreamError Bool)
  | finished

/-- Whether the caller was told to load an export now. -/
def LoadAnswer.starts : LoadAnswer → Bool
  | begun (.ok fresh) => fresh
  | _ => false

namespace ObjectTable

/-- The answer to a call and the table after it.  A load that cannot be begun leaves the table
as it is. -/
def call (table : ObjectTable) : LoadCall → LoadAnswer × ObjectTable
  | .add row => (.added (table.add row).1, (table.add row).2)
  | .beginLoad reference =>
      match table.beginLoad reference with
      | .ok (fresh, next) => (.begun (.ok fresh), next)
      | .error error => (.begun (.error error), table)
  | .finishLoad reference => (.finished, table.finishLoad reference)

def after (table : ObjectTable) (calls : List LoadCall) : ObjectTable :=
  calls.foldl (fun table call => (table.call call).2) table

/-- How many calls of a run were told to load an export. -/
def starts (index : Nat) : ObjectTable → List LoadCall → Nat
  | _, [] => 0
  | table, call :: rest =>
      (if call.export? = some index ∧ (table.call call).1.starts = true then 1 else 0) +
        starts index (table.call call).2 rest

/-- The state at a position; behind the last export there is nothing to load yet. -/
def stateAt (table : ObjectTable) (index : Nat) : LoadState :=
  (table.exports[index]?.map ExportEntry.state).getD .unloaded

variable {table : ObjectTable} {reference : ObjectRef} {index : Nat} {row : ExportEntry}

theorem state?_eq (h : reference.export? = some index) :
    table.state? reference = table.exports[index]?.map ExportEntry.state := by
  simp only [state?, h]
  cases hrow : table.exports[index]? <;> simp [hrow]

/-- A reference has no state exactly if it names no export. -/
theorem state?_eq_none_iff : table.state? reference = none ↔
    ∀ index, reference.export? = some index → table.exports.length ≤ index := by
  cases hexport : reference.export? with
  | none => simp [state?, hexport]
  | some index => simp [state?_eq hexport]

theorem getElem?_setState (table : ObjectTable) (index other : Nat) (state : LoadState) :
    (table.setState index state).exports[other]? =
      if index = other then table.exports[other]?.map fun row => { row with state := state }
      else table.exports[other]? := by
  rw [setState, List.getElem?_modify]
  split
  · rfl
  · exact id_map' _

/-- A state that is set on a named export is there afterwards. -/
theorem state?_setState (h : reference.export? = some index)
    (hstate : table.state? reference ≠ none) (state : LoadState) :
    (table.setState index state).state? reference = some state := by
  rw [state?_eq h] at hstate ⊢
  rw [getElem?_setState, if_pos rfl]
  cases hrow : table.exports[index]? with
  | none =>
      rw [hrow] at hstate
      exact absurd rfl hstate
  | some row => rfl

/-- The four ways in which a load begins or does not, by the state of what is named. -/
theorem call_beginLoad (table : ObjectTable) (reference : ObjectRef) :
    (table.state? reference = none ∧ table.call (.beginLoad reference) =
      (.begun (.error (.objectOutOfRange reference.val.toInt)), table)) ∨
    ∃ index, reference.export? = some index ∧
      ((table.state? reference = some .loading ∧ table.call (.beginLoad reference) =
          (.begun (.error (.reentrantLoad ("export #" ++ toString index))), table)) ∨
        (table.state? reference = some .loaded ∧
          table.call (.beginLoad reference) = (.begun (.ok false), table)) ∨
        (table.state? reference = some .unloaded ∧ table.call (.beginLoad reference) =
          (.begun (.ok true), table.setState index .loading))) := by
  cases hexport : reference.export? with
  | none =>
      refine Or.inl ⟨by simp [state?, hexport], ?_⟩
      rw [call, beginLoad, hexport]
  | some index =>
      rw [state?_eq hexport]
      cases hrow : table.exports[index]? with
      | none =>
          refine Or.inl ⟨rfl, ?_⟩
          rw [call, beginLoad, hexport]
          simp only [hrow]
      | some row =>
          refine Or.inr ⟨index, rfl, ?_⟩
          rw [call, beginLoad, hexport]
          simp only [hrow, Option.map_some]
          cases hstate : row.state with
          | unloaded => exact Or.inr (Or.inr ⟨rfl, rfl⟩)
          | loading => exact Or.inl ⟨rfl, rfl⟩
          | loaded => exact Or.inr (Or.inl ⟨rfl, rfl⟩)

/-- What a call does to an export: the row stays where it is, its state does not go back, and it
stays as it was unless the call is about this export. -/
theorem call_row (h : table.exports[index]? = some row) (call : LoadCall) :
    ∃ row', (table.call call).2.exports[index]? = some row' ∧ row'.entry = row.entry ∧
      row.state ≤ row'.state ∧ (call.export? ≠ some index → row' = row) := by
  cases call with
  | add added =>
      exact ⟨row, getElem?_of_prefix (add_grows table added).1 h, rfl, row.state.le_refl,
        fun _ => rfl⟩
  | beginLoad reference =>
      rcases table.call_beginLoad reference with ⟨-, hcall⟩ | ⟨other, hexport, hcases⟩
      · rw [hcall]
        exact ⟨row, h, rfl, row.state.le_refl, fun _ => rfl⟩
      · rcases hcases with ⟨-, hcall⟩ | ⟨-, hcall⟩ | ⟨hstate, hcall⟩
        · rw [hcall]
          exact ⟨row, h, rfl, row.state.le_refl, fun _ => rfl⟩
        · rw [hcall]
          exact ⟨row, h, rfl, row.state.le_refl, fun _ => rfl⟩
        · rw [hcall, getElem?_setState, h]
          by_cases hsame : other = index
          · subst hsame
            rw [state?_eq hexport, h] at hstate
            have hunloaded : row.state = .unloaded := Option.some.inj hstate
            refine ⟨{ row with state := .loading }, if_pos rfl, rfl, ?_, fun hother => ?_⟩
            · rw [hunloaded]
              exact LoadState.unloaded_le _
            · exact absurd hexport hother
          · exact ⟨row, if_neg hsame, rfl, row.state.le_refl, fun _ => rfl⟩
  | finishLoad reference =>
      cases hexport : reference.export? with
      | none =>
          rw [call, finishLoad, hexport]
          exact ⟨row, h, rfl, row.state.le_refl, fun _ => rfl⟩
      | some other =>
          rw [call, finishLoad, hexport]
          simp only [getElem?_setState, h]
          by_cases hsame : other = index
          · subst hsame
            exact ⟨{ row with state := .loaded }, if_pos rfl, rfl, row.state.le_loaded,
              fun hother => absurd hexport hother⟩
          · exact ⟨row, if_neg hsame, rfl, row.state.le_refl, fun _ => rfl⟩

/-- As `call_row`, for all calls of a run. -/
theorem after_row (h : table.exports[index]? = some row) (calls : List LoadCall) :
    ∃ row', (table.after calls).exports[index]? = some row' ∧ row'.entry = row.entry ∧
      row.state ≤ row'.state := by
  induction calls generalizing table row with
  | nil => exact ⟨row, h, rfl, row.state.le_refl⟩
  | cons call calls ih =>
      obtain ⟨middle, hmiddle, hentry, hstate, -⟩ := call_row h call
      obtain ⟨row', hrow', hentry', hstate'⟩ := ih hmiddle
      exact ⟨row', hrow', hentry'.trans hentry, LoadState.le_trans hstate hstate'⟩

/-- A call that starts a load enters an export that was not entered before. -/
theorem call_entered (table : ObjectTable) (call : LoadCall) (index : Nat) :
    (if call.export? = some index ∧ (table.call call).1.starts = true then 1 else 0) +
      (table.stateAt index).entered ≤ ((table.call call).2.stateAt index).entered := by
  have hkept : (table.stateAt index).entered ≤ ((table.call call).2.stateAt index).entered := by
    rw [stateAt]
    cases hrow : table.exports[index]? with
    | none => exact Nat.zero_le _
    | some row =>
        obtain ⟨row', hrow', -, hstate, -⟩ := call_row hrow call
        rw [stateAt, hrow']
        exact LoadState.entered_mono hstate
  split
  · next hstart =>
      obtain ⟨hexport, hstart⟩ := hstart
      cases call with
      | add row => cases hexport
      | finishLoad reference => cases hstart
      | beginLoad reference =>
          rcases table.call_beginLoad reference with ⟨-, hcall⟩ | ⟨other, hother, hcases⟩
          · rw [hcall] at hstart
            cases hstart
          · rcases hcases with ⟨-, hcall⟩ | ⟨-, hcall⟩ | ⟨hstate, hcall⟩
            · rw [hcall] at hstart
              cases hstart
            · rw [hcall] at hstart
              cases hstart
            · obtain rfl := Option.some.inj (hother.symm.trans hexport)
              rw [state?_eq hother] at hstate
              obtain ⟨row, hrow, hunloaded⟩ := Option.map_eq_some_iff.mp hstate
              rw [hcall, stateAt, stateAt, getElem?_setState, if_pos rfl, hrow]
              simp [hunloaded, LoadState.entered]
  · rw [Nat.zero_add]
    exact hkept

theorem starts_entered (table : ObjectTable) (calls : List LoadCall) (index : Nat) :
    starts index table calls + (table.stateAt index).entered ≤
      ((table.after calls).stateAt index).entered := by
  induction calls generalizing table with
  | nil => exact Nat.le_of_eq (Nat.zero_add _)
  | cons call calls ih =>
      have hfirst := call_entered table call index
      have hrest := ih (table.call call).2
      rw [starts, after, List.foldl_cons, ← after]
      omega

/-- The answer to the begin of a load tells the state of what is named. -/
theorem beginLoad_answers (table : ObjectTable) (reference : ObjectRef) :
    let answer := (table.call (.beginLoad reference)).1
    (answer = .begun (.ok true) ↔ table.state? reference = some .unloaded) ∧
    (answer = .begun (.ok false) ↔ table.state? reference = some .loaded) ∧
    ((∃ index, reference.export? = some index ∧
      answer = .begun (.error (.reentrantLoad ("export #" ++ toString index)))) ↔
        table.state? reference = some .loading) ∧
    (answer = .begun (.error (.objectOutOfRange reference.val.toInt)) ↔
      table.state? reference = none) ∧
    (answer ≠ .begun (.ok true) → (table.call (.beginLoad reference)).2 = table) := by
  rcases table.call_beginLoad reference with ⟨hstate, hcall⟩ | ⟨index, hexport, hcases⟩
  · simp [hstate, hcall]
  · rcases hcases with ⟨hstate, hcall⟩ | ⟨hstate, hcall⟩ | ⟨hstate, hcall⟩ <;>
      simp [hstate, hcall, hexport]

/-- A load that is started is under way, and a load that is finished is over. -/
theorem call_state (table : ObjectTable) (reference : ObjectRef)
    (hstate : table.state? reference ≠ none) :
    (table.state? reference = some .unloaded →
      (table.call (.beginLoad reference)).2.state? reference = some .loading) ∧
    (table.call (.finishLoad reference)).2.state? reference = some .loaded := by
  rcases table.call_beginLoad reference with ⟨hnone, -⟩ | ⟨index, hexport, hcases⟩
  · exact absurd hnone hstate
  · refine ⟨fun hunloaded => ?_, ?_⟩
    · rcases hcases with ⟨hloading, -⟩ | ⟨hloaded, -⟩ | ⟨-, hcall⟩
      · cases hunloaded.symm.trans hloading
      · cases hunloaded.symm.trans hloaded
      · rw [hcall]
        exact state?_setState hexport hstate .loading
    · rw [call, finishLoad, hexport]
      exact state?_setState hexport hstate .loaded

/-- Loads of exports.  Whatever is added, begun and finished, an export stays where it is and its
state only goes forward; of all the calls that begin its load, at most one is told to load it.  A
begin tells the state of what is named: it is refused where a load is under way and where no export
is named, and unless it starts a load nothing changes.  A load that is started is under way until it
is finished, and then it is over.  No call changes an export that it is not about. -/
theorem loads_forward (table : ObjectTable) (calls : List LoadCall) :
    let reached := table.after calls
    (∀ (index : Nat) (row : ExportEntry), table.exports[index]? = some row →
      ∃ row' : ExportEntry, reached.exports[index]? = some row' ∧ row'.entry = row.entry ∧
        row.state ≤ row'.state) ∧
    (∀ index, starts index table calls ≤ 1) ∧
    (∀ reference, reached.state? reference = none ↔
      ∀ index, reference.export? = some index → reached.exports.length ≤ index) ∧
    (∀ reference,
      let answer := (reached.call (.beginLoad reference)).1
      (answer = .begun (.ok true) ↔ reached.state? reference = some .unloaded) ∧
      (answer = .begun (.ok false) ↔ reached.state? reference = some .loaded) ∧
      ((∃ index, reference.export? = some index ∧
        answer = .begun (.error (.reentrantLoad ("export #" ++ toString index)))) ↔
          reached.state? reference = some .loading) ∧
      (answer = .begun (.error (.objectOutOfRange reference.val.toInt)) ↔
        reached.state? reference = none) ∧
      (answer ≠ .begun (.ok true) → (reached.call (.beginLoad reference)).2 = reached)) ∧
    (∀ reference, reached.state? reference ≠ none →
      (reached.state? reference = some .unloaded →
        (reached.call (.beginLoad reference)).2.state? reference = some .loading) ∧
      (reached.call (.finishLoad reference)).2.state? reference = some .loaded) ∧
    ∀ (call : LoadCall) (index : Nat) (row : ExportEntry), reached.exports[index]? = some row →
      call.export? ≠ some index → (reached.call call).2.exports[index]? = some row := by
  intro reached
  refine ⟨fun index row hrow => after_row hrow calls, fun index => ?_,
    fun reference => state?_eq_none_iff, reached.beginLoad_answers, reached.call_state, ?_⟩
  · have hentered := starts_entered table calls index
    have hone := ((table.after calls).stateAt index).entered_le_one
    omega
  · intro call index row hrow hother
    obtain ⟨row', hrow', -, -, hsame⟩ := call_row hrow call
    rw [hrow', hsame hother]

end ObjectTable

namespace PawnExport

/-- The load of a pawn that needs itself, and that is asked for once more at the end. -/
def cycle : List LoadCall :=
  rows.map .add ++ [.beginLoad ⟨1⟩, .beginLoad ⟨1⟩, .finishLoad ⟨1⟩, .beginLoad ⟨1⟩]

/-- One of the three begins starts the load, and in the end the pawn is loaded. -/
theorem cycle_forward : ObjectTable.starts 0 .empty cycle = 1 ∧
    ObjectTable.starts 0 .empty cycle ≤ 1 ∧
    (ObjectTable.empty.after cycle).call (.beginLoad ⟨1⟩) =
      (.begun (.ok false), ObjectTable.empty.after cycle) := by
  obtain ⟨-, hstarts, -, hanswers, -, -⟩ := ObjectTable.loads_forward .empty cycle
  obtain ⟨-, hloaded, -, -, hkept⟩ := hanswers ⟨1⟩
  have hanswer := hloaded.mpr (by decide +kernel)
  exact ⟨by decide +kernel, hstarts 0, Prod.ext hanswer (hkept (by rw [hanswer]; simp))⟩

end PawnExport

end ObjectPackage
