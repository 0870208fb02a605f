/-
References into a table that grows.  A reference is null, or a number of 31 bits in one of the
two lists, and each of the lists is only ever added to: a reference that was given out names its
row from then on.
-/
import ObjectPackage.Proofs.ObjectTable

namespace ObjectPackage

/-- An object that a program adds to a table. -/
inductive ObjectRow where
  | exported (entry : ObjectEntry)
  | imported (entry : ObjectEntry)
deriving DecidableEq, Repr

def ObjectRow.entry : ObjectRow → ObjectEntry
  | exported entry => entry
  | imported entry => entry

namespace ObjectRef

theorem eq_null_of_none {reference : ObjectRef} (hexport : reference.export? = none)
    (himport : reference.import? = none) : reference = null := by
  have hnotpos : ¬0 < reference.val.toInt := by
    intro hpos
    rw [export?, if_pos hpos] at hexport
    cases hexport
  have hnotneg : ¬reference.val.toInt < 0 := by
    intro hneg
    rw [import?, if_pos hneg] at himport
    cases himport
  have hzero : reference.val = 0 := Int32.toInt_inj.mp (show reference.val.toInt = 0 by omega)
  exact congrArg mk hzero

/-- A position of 31 bits is kept by the words that it goes through. -/
theorem toInt_toInt32_ofNat {index : Nat} (h : index < 2 ^ 31) :
    (UInt32.ofNat index).toInt32.toInt = index := by
  have hword : (UInt32.ofNat index).toNat = index :=
    UInt32.toNat_ofNat_of_lt' (show index < 2 ^ 32 by omega)
  rw [toInt_toInt32_of_lt (by omega), hword]

/-- An export that fits in 31 bits has a positive reference. -/
theorem export?_ofExport {index : Nat} (h : index + 1 < 2 ^ 31) :
    (ofExport (UInt32.ofNat index).toInt32).export? = some index := by
  have hindex := toInt_toInt32_ofNat (Nat.lt_of_succ_lt h)
  have hval : ((UInt32.ofNat index).toInt32 + 1).toInt = index + 1 := by
    rw [Int32.toInt_add, hindex, Int32.toInt_one]
    simp only [Int.bmod]
    omega
  have hpos : 0 < ((UInt32.ofNat index).toInt32 + 1).toInt := by omega
  rw [ofExport, export?, if_pos hpos, hval]
  congr 1
  omega

/-- An import that fits in 31 bits has a negative reference. -/
theorem import?_ofImport {index : Nat} (h : index + 1 < 2 ^ 31) :
    (ofImport (UInt32.ofNat index).toInt32).export? = none ∧
      (ofImport (UInt32.ofNat index).toInt32).import? = some index := by
  have hindex := toInt_toInt32_ofNat (Nat.lt_of_succ_lt h)
  have hval : (-(UInt32.ofNat index).toInt32 - 1).toInt = -(index : Int) - 1 := by
    rw [Int32.toInt_sub, Int32.toInt_neg, hindex, Int32.toInt_one]
    simp only [Int.bmod]
    omega
  have hneg : (-(UInt32.ofNat index).toInt32 - 1).toInt < 0 := by omega
  have hnotpos : ¬0 < (-(UInt32.ofNat index).toInt32 - 1).toInt := by omega
  rw [ofImport, export?, import?, if_neg hnotpos, if_pos hneg, hval]
  refine ⟨rfl, ?_⟩
  congr 1
  omega

end ObjectRef

namespace ObjectTable

def add (table : ObjectTable) : ObjectRow → ObjectRef × ObjectTable
  | .exported entry => table.addExport entry
  | .imported entry => table.addImport entry

def addAll (table : ObjectTable) (rows : List ObjectRow) : ObjectTable :=
  rows.foldl (fun table row => (table.add row).2) table

/-- The next table has the rows of the table at the same places. -/
def Grows (table next : ObjectTable) : Prop :=
  table.exports <+: next.exports ∧ table.imports <+: next.imports

variable {table next last : ObjectTable} {reference : ObjectRef} {entry : ObjectEntry}

theorem Grows.refl (table : ObjectTable) : table.Grows table :=
  ⟨List.prefix_rfl, List.prefix_rfl⟩

theorem Grows.trans (h : table.Grows next) (h' : next.Grows last) : table.Grows last :=
  ⟨h.1.trans h'.1, h.2.trans h'.2⟩

theorem add_grows (table : ObjectTable) (row : ObjectRow) : table.Grows (table.add row).2 := by
  cases row with
  | exported entry => exact ⟨List.prefix_append _ _, List.prefix_rfl⟩
  | imported entry => exact ⟨List.prefix_rfl, List.prefix_append _ _⟩

theorem addAll_grows (table : ObjectTable) (rows : List ObjectRow) :
    table.Grows (table.addAll rows) := by
  induction rows generalizing table with
  | nil => exact .refl table
  | cons row rows ih => exact (add_grows table row).trans (ih _)

theorem addAll_append (table : ObjectTable) (before after : List ObjectRow) :
    table.addAll (before ++ after) = (table.addAll before).addAll after :=
  List.foldl_append

theorem getElem?_of_prefix {α : Type} {front whole : List α} {index : Nat} {row : α}
    (h : front <+: whole) (hrow : front[index]? = some row) : whole[index]? = some row := by
  obtain ⟨hlt, rfl⟩ := List.getElem?_eq_some_iff.mp hrow
  exact List.prefix_iff_getElem?.mp h index hlt

/-- A reference that names a row names it in every table that has more of them. -/
theorem Grows.row? (h : table.Grows next) (hrow : table.row? reference = some entry) :
    next.row? reference = some entry := by
  rw [ObjectTable.row?] at hrow ⊢
  cases hexport : reference.export? with
  | some index =>
      rw [hexport] at hrow
      obtain ⟨row, hfound, rfl⟩ := Option.map_eq_some_iff.mp hrow
      exact Option.map_eq_some_iff.mpr ⟨row, getElem?_of_prefix h.1 hfound, rfl⟩
  | none =>
      cases himport : reference.import? with
      | some index =>
          rw [hexport, himport] at hrow
          exact getElem?_of_prefix h.2 hrow
      | none =>
          rw [hexport, himport] at hrow
          cases hrow

/-- A table that still has room names the row that is added to it. -/
theorem add_row? (row : ObjectRow) (hexports : (table.add row).2.exports.length < 2 ^ 31)
    (himports : (table.add row).2.imports.length < 2 ^ 31) :
    (table.add row).2.row? (table.add row).1 = some row.entry := by
  cases row with
  | exported entry =>
      rw [add, addExport, List.length_append] at hexports
      rw [add, addExport, ObjectTable.row?, ObjectRef.export?_ofExport hexports]
      simp [ObjectRow.entry]
  | imported entry =>
      rw [add, addImport, List.length_append] at himports
      obtain ⟨hexport, himport⟩ := ObjectRef.import?_ofImport himports
      rw [add, addImport, ObjectTable.row?, hexport, himport]
      simp [ObjectRow.entry]

/-- A reference is null, names a row and is resolved, or is out of range. -/
theorem resolve_cases (table : ObjectTable) (reference : ObjectRef) :
    (reference = .null ∧ table.resolve reference = .ok .null) ∨
      (∃ entry handle, table.row? reference = some entry ∧
        table.resolve reference = .ok handle) ∨
      (table.row? reference = none ∧
        table.resolve reference = .error (.objectOutOfRange reference.val.toInt)) := by
  rw [ObjectTable.row?, resolve]
  cases hexport : reference.export? with
  | some index =>
      by_cases hlt : index < table.exports.length
      · have hrow : table.exports[index]? = some table.exports[index] :=
          List.getElem?_eq_getElem hlt
        exact Or.inr (Or.inl ⟨_, _, congrArg (Option.map ExportEntry.entry) hrow, if_pos hlt⟩)
      · have hnone : table.exports[index]? = none :=
          List.getElem?_eq_none (Nat.le_of_not_lt hlt)
        exact Or.inr (Or.inr ⟨congrArg (Option.map ExportEntry.entry) hnone, if_neg hlt⟩)
  | none =>
      cases himport : reference.import? with
      | some index =>
          by_cases hlt : index < table.imports.length
          · exact Or.inr (Or.inl ⟨_, _, List.getElem?_eq_getElem hlt, if_pos hlt⟩)
          · exact Or.inr (Or.inr ⟨List.getElem?_eq_none (Nat.le_of_not_lt hlt), if_neg hlt⟩)
      | none => exact Or.inl ⟨ObjectRef.eq_null_of_none hexport himport, rfl⟩

/-- Exactly null and the references of rows are resolved. -/
theorem resolve_eq_ok_iff :
    (∃ handle, table.resolve reference = .ok handle) ↔
      reference = .null ∨ ∃ entry, table.row? reference = some entry := by
  constructor
  · rintro ⟨handle, hhandle⟩
    rcases table.resolve_cases reference with ⟨hnull, -⟩ | ⟨entry, -, hrow, -⟩ | ⟨-, herror⟩
    · exact Or.inl hnull
    · exact Or.inr ⟨entry, hrow⟩
    · rw [hhandle] at herror
      cases herror
  · rintro (rfl | ⟨entry, hrow⟩)
    · exact ⟨.null, rfl⟩
    · rcases table.resolve_cases reference with ⟨-, hnull⟩ | ⟨-, handle, -, hhandle⟩ | ⟨hnone, -⟩
      · exact ⟨.null, hnull⟩
      · exact ⟨handle, hhandle⟩
      · rw [hrow] at hnone
        cases hnone

theorem resolve_eq_error (hnull : reference ≠ .null) (h : table.row? reference = none) :
    table.resolve reference = .error (.objectOutOfRange reference.val.toInt) := by
  rcases table.resolve_cases reference with ⟨hreference, -⟩ | ⟨entry, -, hrow, -⟩ | ⟨-, herror⟩
  · exact absurd hreference hnull
  · rw [h] at hrow
    cases hrow
  · exact herror

/-- Null alone has the handle of no object. -/
theorem resolve_eq_ok_null_iff : table.resolve reference = .ok .null ↔ reference = .null := by
  constructor
  · intro h
    exact (toRef_of_resolve h).symm
  · rintro rfl
    rfl

/-- References and handles.  Whatever is added to a table, a reference is resolved exactly if it
is null or names a row; its handle stands for it and for no other reference, and only null has
the handle of no object.  The reference that an object is given when it is added names the
object in every later table and is resolved there. -/
theorem references_resolved (rows : List ObjectRow)
    (hexports : (empty.addAll rows).exports.length < 2 ^ 31)
    (himports : (empty.addAll rows).imports.length < 2 ^ 31) :
    let table := empty.addAll rows
    (∀ reference, (∃ handle, table.resolve reference = .ok handle) ↔
      reference = .null ∨ ∃ entry, table.row? reference = some entry) ∧
    (∀ reference, reference ≠ .null → table.row? reference = none →
      table.resolve reference = .error (.objectOutOfRange reference.val.toInt)) ∧
    (∀ reference handle, table.resolve reference = .ok handle → handle.toRef = reference) ∧
    (∀ reference other handle, table.resolve reference = .ok handle →
      table.resolve other = .ok handle → reference = other) ∧
    (∀ reference, table.resolve reference = .ok .null ↔ reference = .null) ∧
    ∀ before row after, rows = before ++ row :: after →
      let reference := ((empty.addAll before).add row).1
      table.row? reference = some row.entry ∧
        ∃ handle, table.resolve reference = .ok handle ∧ handle.toRef = reference := by
  intro table
  refine ⟨fun reference => resolve_eq_ok_iff, fun reference => resolve_eq_error,
    fun reference handle => toRef_of_resolve, ?_, fun reference => resolve_eq_ok_null_iff, ?_⟩
  · intro reference other handle hreference hother
    rw [← toRef_of_resolve hreference, toRef_of_resolve hother]
  · intro before row after hrows reference
    have hgrows : ((empty.addAll before).add row).2.Grows (empty.addAll rows) := by
      rw [hrows, addAll_append]
      exact addAll_grows _ after
    have hadded := add_row? row (Nat.lt_of_le_of_lt hgrows.1.length_le hexports)
      (Nat.lt_of_le_of_lt hgrows.2.length_le himports)
    have hrow := hgrows.row? hadded
    obtain ⟨handle, hhandle⟩ := resolve_eq_ok_iff.mpr (Or.inr ⟨_, hrow⟩)
    exact ⟨hrow, handle, hhandle, toRef_of_resolve hhandle⟩

end ObjectTable

namespace PawnExport

/-- A class of another package, and an object of it. -/
def rows : List ObjectRow := [.imported ⟨⟨1⟩, ⟨2⟩⟩, .exported ⟨⟨3⟩, ⟨1⟩⟩]

/-- Either row is found by the reference that it was given, and the least reference is that of
no row. -/
theorem references_of_rows :
    (ObjectTable.empty.addAll rows).row? ⟨-1⟩ = some ⟨⟨1⟩, ⟨2⟩⟩ ∧
      (∃ handle, (ObjectTable.empty.addAll rows).resolve ⟨1⟩ = .ok handle ∧
        handle.toRef = ⟨1⟩) ∧
      (ObjectTable.empty.addAll rows).resolve ⟨Int32.minValue⟩ =
        .error (.objectOutOfRange (-2 ^ 31)) := by
  obtain ⟨-, hbeyond, -, -, -, hgiven⟩ :=
    ObjectTable.references_resolved rows (by decide) (by decide)
  refine ⟨?_, ?_, ?_⟩
  · exact (hgiven [] (.imported ⟨⟨1⟩, ⟨2⟩⟩) [.exported ⟨⟨3⟩, ⟨1⟩⟩] rfl).1
  · exact (hgiven [.imported ⟨⟨1⟩, ⟨2⟩⟩] (.exported ⟨⟨3⟩, ⟨1⟩⟩) [] rfl).2
  · exact hbeyond ⟨Int32.minValue⟩ (by decide) (by decide)

end PawnExport

end ObjectPackage
