/-
Statements of a script.  A script is as long as it was declared to be, its statements fill
it from front to back, each with one byte or more, and every byte is looked up to the one
statement that it lies in.
-/
import ObjectPackage.Proofs.Script.Exact
import ObjectPackage.Proofs.Script.Track

namespace ObjectPackage

namespace Script

variable {script : Script} {index offset : Nat}

/-- Where a statement starts; behind the last one, where the script ends. -/
def boundary (script : Script) (index : Nat) : Nat :=
  ((script.statements.take index).flatMap Token.canonical).length

theorem boundary_length (script : Script) : script.boundary script.statements.length = script.size := by
  rw [boundary, List.take_length, size, bytes]

/-- A statement reaches to the next boundary. -/
theorem boundary_succ {statement : Token} (h : script.statements[index]? = some statement) :
    script.boundary (index + 1) = script.boundary index + statement.canonical.length := by
  rw [boundary, List.take_add_one, h, List.flatMap_append, List.length_append, boundary]
  simp

theorem boundary_lt_succ (h : index < script.statements.length) :
    script.boundary index < script.boundary (index + 1) := by
  rw [boundary_succ (List.getElem?_eq_getElem h)]
  exact Nat.lt_add_of_pos_right (Token.length_canonical_pos _)

theorem boundary_lt {later : Nat} (h : index < later) (hlater : later ≤ script.statements.length) :
    script.boundary index < script.boundary later := by
  induction later with
  | zero => exact absurd h (Nat.not_lt_zero index)
  | succ later ih =>
      have hstep := boundary_lt_succ hlater
      rcases Nat.lt_succ_iff_lt_or_eq.mp h with hlt | rfl
      · exact Nat.lt_trans (ih hlt (Nat.le_of_succ_le hlater)) hstep
      · exact hstep

theorem boundary_mono {later : Nat} (h : index ≤ later) (hlater : later ≤ script.statements.length) :
    script.boundary index ≤ script.boundary later := by
  rcases Nat.lt_or_eq_of_le h with hlt | rfl
  · exact Nat.le_of_lt (boundary_lt hlt hlater)
  · exact Nat.le_refl _

theorem offsets_eq_map (script : Script) :
    script.offsets = (List.range script.statements.length).map script.boundary := by
  rw [offsets, Token.offsetsFrom_eq]
  simp only [Nat.zero_add]
  rfl

theorem length_offsets (script : Script) : script.offsets.length = script.statements.length := by
  rw [offsets_eq_map, List.length_map, List.length_range]

theorem getElem?_offsets (h : index < script.statements.length) :
    script.offsets[index]? = some (script.boundary index) := by
  rw [offsets_eq_map, List.getElem?_map, List.getElem?_range h]
  rfl

/-- The statement behind a statement starts where it ends, and so does the end of the script
behind the last one. -/
theorem getElem?_offsets_succ (h : index < script.statements.length) :
    script.offsets[index + 1]?.getD script.size = script.boundary (index + 1) := by
  rcases Nat.lt_or_eq_of_le (Nat.succ_le_of_lt h) with hlt | heq
  · rw [getElem?_offsets hlt]
    rfl
  · rw [← boundary_length, ← heq, List.getElem?_eq_none (by rw [length_offsets, ← heq])]
    rfl

/-- A statement holds an offset: it starts there or before, and neither the next one nor the
end of the script does. -/
def Spans (script : Script) (index offset : Nat) : Prop :=
  ∃ start, script.offsets[index]? = some start ∧ start ≤ offset ∧
    offset < script.offsets[index + 1]?.getD script.size

theorem spans_iff : script.Spans index offset ↔ index < script.statements.length ∧
    script.boundary index ≤ offset ∧ offset < script.boundary (index + 1) := by
  constructor
  · rintro ⟨start, hstart, hle, hlt⟩
    have hindex : index < script.statements.length := by
      rw [← length_offsets]
      exact (List.getElem?_eq_some_iff.mp hstart).1
    obtain rfl := Option.some.inj ((getElem?_offsets hindex).symm.trans hstart)
    rw [getElem?_offsets_succ hindex] at hlt
    exact ⟨hindex, hle, hlt⟩
  · rintro ⟨hindex, hle, hlt⟩
    rw [← getElem?_offsets_succ hindex] at hlt
    exact ⟨_, getElem?_offsets hindex, hle, hlt⟩

/-- No byte lies in two statements. -/
theorem Spans.unique {other : Nat} (h : script.Spans index offset)
    (hother : script.Spans other offset) : other = index := by
  obtain ⟨hindex, hle, hlt⟩ := spans_iff.mp h
  obtain ⟨hindex', hle', hlt'⟩ := spans_iff.mp hother
  rcases Nat.lt_trichotomy other index with hbefore | heq | hafter
  · have hmono : script.boundary (other + 1) ≤ script.boundary index :=
      boundary_mono hbefore (Nat.le_of_lt hindex)
    omega
  · exact heq
  · have hmono : script.boundary (index + 1) ≤ script.boundary other :=
      boundary_mono hafter (Nat.le_of_lt hindex')
    omega

end Script

namespace LabelledState

end LabelledState

end ObjectPackage
