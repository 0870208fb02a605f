/-
Interned names.  A slot stands for a name when its spelling is the same up to case.  A
table only grows, so a slot stands for the same names ever after.
-/
import Mathlib
import ObjectPackage.NameTable

namespace ObjectPackage

theorem sameName_comm (left right : String) : sameName left right = sameName right left := by
  rw [sameName, sameName, Bool.beq_comm]

theorem sameName_trans {first second third : String} (h : sameName first second = true)
    (h' : sameName second third = true) : sameName first third = true := by
  rw [sameName_eq_true_iff] at h h' ⊢
  exact h.trans h'

namespace NameTable

/-- The slot is there and spells the name, in any case. -/
def Names (table : NameTable) (id : NameId) (name : String) : Prop :=
  ∃ text, table.get? id = some text ∧ sameName text name = true

/-- All slots of the first table keep their texts in the second. -/
def Grows (table next : NameTable) : Prop :=
  table.names <+: next.names

variable {table next last : NameTable} {id : NameId} {name other : String}

theorem Grows.refl (table : NameTable) : table.Grows table :=
  List.prefix_rfl

theorem Grows.trans (h : table.Grows next) (h' : next.Grows last) : table.Grows last :=
  List.IsPrefix.trans h h'

theorem Grows.size_le (h : table.Grows next) : table.size ≤ next.size :=
  List.IsPrefix.length_le h

theorem Grows.get? {text : String} (h : table.Grows next) (hget : table.get? id = some text) :
    next.get? id = some text := by
  obtain ⟨more, hmore⟩ := h
  have hlt : id.index < table.names.length := (List.getElem?_eq_some_iff.mp hget).1
  rw [NameTable.get?, ← hmore, List.getElem?_append_left hlt]
  exact hget

theorem Names.mono (h : table.Names id name) (hgrows : table.Grows next) : next.Names id name := by
  obtain ⟨text, hget, hsame⟩ := h
  exact ⟨text, hgrows.get? hget, hsame⟩

theorem Names.index_lt (h : table.Names id name) : id.index < table.size := by
  obtain ⟨text, hget, -⟩ := h
  exact (List.getElem?_eq_some_iff.mp hget).1

theorem Names.isNone (h : table.Names id name) : table.isNone id = sameName name noneName := by
  obtain ⟨text, hget, hsame⟩ := h
  rw [sameName_eq_true_iff] at hsame
  simp only [NameTable.isNone, hget, sameName, hsame]

theorem index_ofIndex {index : Nat} (h : index < 2 ^ 32) : (NameId.ofIndex index).index = index := by
  rw [NameId.index, NameId.ofIndex, UInt32.toNat_ofNat_of_lt' h]

theorem intern_grows (table : NameTable) (name : String) : table.Grows (table.intern name).2 := by
  cases hfind : table.find? name with
  | some id =>
      rw [intern_of_find?_eq_some hfind]
      exact .refl table
  | none =>
      rw [intern_of_find?_eq_none hfind]
      exact List.prefix_append _ _

/-- The slot of a name that was interned stands for the name. -/
theorem intern_names (hsize : (table.intern name).2.size ≤ 2 ^ 32) :
    (table.intern name).2.Names (table.intern name).1 name := by
  cases hfind : table.find? name with
  | some id =>
      rw [intern_of_find?_eq_some hfind] at hsize ⊢
      obtain ⟨index, hindex, rfl⟩ := Option.map_eq_some_iff.mp hfind
      obtain ⟨hlt, hsame, -⟩ := List.findIdx?_eq_some_iff_getElem.mp hindex
      refine ⟨_, ?_, (sameName_comm _ _).trans hsame⟩
      rw [NameTable.get?, index_ofIndex (Nat.lt_of_lt_of_le hlt hsize),
        List.getElem?_eq_getElem hlt]
  | none =>
      rw [intern_of_find?_eq_none hfind] at hsize ⊢
      have hlength : (table.names ++ [name]).length ≤ 2 ^ 32 := hsize
      rw [List.length_append] at hlength
      have hlt : table.size < 2 ^ 32 := hlength
      refine ⟨name, ?_, sameName_self name⟩
      rw [NameTable.get?, index_ofIndex hlt]
      exact List.getElem?_concat_length

/-- A name that was interned has its slot in all later tables, which stay as they are. -/
theorem intern_again {later : NameTable} (hgrows : (table.intern name).2.Grows later) :
    later.intern name = ((table.intern name).1, later) := by
  refine intern_of_find?_eq_some ?_
  obtain ⟨more, hmore⟩ := hgrows
  rw [find?, ← hmore]
  cases hfind : table.find? name with
  | some id =>
      obtain ⟨index, hindex, rfl⟩ := Option.map_eq_some_iff.mp hfind
      rw [intern_of_find?_eq_some hfind, List.findIdx?_append, hindex]
      rfl
  | none =>
      have hnone : table.names.findIdx? (sameName name) = none := Option.map_eq_none_iff.mp hfind
      rw [intern_of_find?_eq_none hfind]
      simp [List.findIdx?_append, List.findIdx?_cons, hnone, sameName_self, NameTable.size]

end NameTable

end ObjectPackage
