/-
Name tables with an index.  A map from folded names to slots is kept beside the names: it is
written when a name comes and never again, so it has the first slot of every name, which is the
one that a search through the names gives.
-/
import ObjectPackage.Proofs.NameTable

namespace ObjectPackage

namespace NameTable

/-- The table that a program starts with: a new one, or the names of a package. -/
def start : Option (List String) → NameTable
  | none => initial
  | some names => ⟨names⟩

variable {table : NameTable} {id : NameId} {name other : String}

theorem find?_congr (h : sameName other name = true) : table.find? other = table.find? name := by
  have hsame : sameName other = sameName name := by
    funext text
    rw [sameName, sameName, sameName_eq_true_iff.mp h]
  rw [find?, find?, hsame]

theorem find?_append (table : NameTable) (last name : String) :
    find? ⟨table.names ++ [last]⟩ name =
      (table.find? name).or (if sameName name last then some (.ofIndex table.size) else none) := by
  rw [find?, find?, List.findIdx?_append, List.findIdx?_singleton, Option.map_or]
  congr 1
  split
  · rw [Option.map_some, Option.map_some, Nat.zero_add]
    rfl
  · rfl

/-- The slot that is found is the first one that stands for the name. -/
theorem find?_eq_some_iff (hsize : table.size ≤ 2 ^ 32) :
    table.find? name = some id ↔
      table.Names id name ∧ ∀ other, table.Names other name → id.index ≤ other.index := by
  have hindex {index : Nat} (h : index < table.names.length) :
      (NameId.ofIndex index).index = index := index_ofIndex (Nat.lt_of_lt_of_le h hsize)
  constructor
  · intro hfind
    obtain ⟨index, hfirst, rfl⟩ := Option.map_eq_some_iff.mp hfind
    obtain ⟨hlt, hsame, hbefore⟩ := List.findIdx?_eq_some_iff_getElem.mp hfirst
    constructor
    · refine ⟨table.names[index], ?_, (sameName_comm _ _).trans hsame⟩
      rw [get?, hindex hlt, List.getElem?_eq_getElem hlt]
    · rintro other ⟨text, hget, htext⟩
      obtain ⟨hother, rfl⟩ := List.getElem?_eq_some_iff.mp hget
      rw [hindex hlt]
      by_contra hearlier
      exact hbefore other.index (Nat.lt_of_not_le hearlier) ((sameName_comm _ _).trans htext)
  · rintro ⟨⟨text, hget, htext⟩, hfirst⟩
    obtain ⟨hlt, rfl⟩ := List.getElem?_eq_some_iff.mp hget
    refine Option.map_eq_some_iff.mpr ⟨id.index, ?_, ?_⟩
    · refine List.findIdx?_eq_some_iff_getElem.mpr ⟨hlt, (sameName_comm _ _).trans htext, ?_⟩
      intro before hbefore hsame
      have hthere := Nat.lt_trans hbefore hlt
      have hnames : table.Names (.ofIndex before) name := by
        refine ⟨table.names[before], ?_, (sameName_comm _ _).trans hsame⟩
        rw [get?, hindex hthere, List.getElem?_eq_getElem hthere]
      have hle := hfirst _ hnames
      rw [hindex hthere] at hle
      exact Nat.not_le_of_lt hbefore hle
    · rw [NameId.ofIndex, NameId.index, UInt32.ofNat_toNat]

/-- Nothing is found exactly if no slot stands for the name. -/
theorem find?_eq_none_iff (hsize : table.size ≤ 2 ^ 32) :
    table.find? name = none ↔ ∀ id, ¬table.Names id name := by
  rw [find?, Option.map_eq_none_iff, List.findIdx?_eq_none_iff]
  constructor
  · rintro hnone id ⟨text, hget, htext⟩
    have hfalse := hnone text (List.mem_of_getElem? hget)
    rw [sameName_comm, htext] at hfalse
    cases hfalse
  · intro hnone text htext
    obtain ⟨index, hlt, rfl⟩ := List.getElem_of_mem htext
    by_contra hsame
    refine hnone (.ofIndex index) ⟨table.names[index], ?_, ?_⟩
    · rw [get?, index_ofIndex (Nat.lt_of_lt_of_le hlt hsize), List.getElem?_eq_getElem hlt]
    · rw [sameName_comm]
      exact Bool.not_eq_false _ ▸ hsame

/-- The slots of the terminator are those that are spelled like it. -/
theorem isNone_iff : table.isNone id = true ↔ table.Names id noneName := by
  constructor
  · intro h
    rw [isNone] at h
    split at h
    · next text hget => exact ⟨text, hget, h⟩
    · cases h
  · intro h
    rw [h.isNone, sameName_self]

theorem internAll_grows (table : NameTable) (names : List String) :
    table.Grows (table.internAll names) := by
  induction names generalizing table with
  | nil => exact .refl table
  | cons name names ih => exact (intern_grows table name).trans (ih _)

/-- Any spelling of a name that was interned has its slot from then on. -/
theorem intern_spelling {later : NameTable} (hgrows : (table.intern name).2.Grows later)
    (h : sameName other name = true) : later.intern other = ((table.intern name).1, later) := by
  have hagain := intern_again hgrows
  cases hfind : later.find? name with
  | none =>
      rw [intern_of_find?_eq_none hfind, Prod.mk.injEq] at hagain
      have hlength := congrArg (fun table : NameTable => table.names.length) hagain.2
      simp at hlength
  | some id =>
      rw [intern_of_find?_eq_some hfind] at hagain
      rw [intern_of_find?_eq_some ((find?_congr h).trans hfind), hagain]

end NameTable

/-- Names with a map from folded names to slots. -/
structure IndexedNames where
  table : NameTable
  index : Std.HashMap String NameId

namespace IndexedNames

def empty : IndexedNames := ⟨⟨[]⟩, ∅⟩

/-- Put a name behind the others.  A slot that is noted for some spelling of it stays noted. -/
def add (indexed : IndexedNames) (name : String) : IndexedNames :=
  ⟨⟨indexed.table.names ++ [name]⟩,
    indexed.index.insertIfNew (foldCase name) (.ofIndex indexed.table.size)⟩

def find? (indexed : IndexedNames) (name : String) : Option NameId :=
  indexed.index[foldCase name]?

/-- The slot that is noted for a name, or a new one behind the others. -/
def intern (indexed : IndexedNames) (name : String) : NameId × IndexedNames :=
  match indexed.find? name with
  | some id => (id, indexed)
  | none =>
      (.ofIndex indexed.table.size, ⟨⟨indexed.table.names ++ [name]⟩,
        indexed.index.insert (foldCase name) (.ofIndex indexed.table.size)⟩)

def start : Option (List String) → IndexedNames
  | none => (empty.intern noneName).2
  | some names => names.foldl add empty

def internAll (indexed : IndexedNames) (names : List String) : IndexedNames :=
  names.foldl (fun indexed name => (indexed.intern name).2) indexed

variable {indexed : IndexedNames} {name : String}

theorem find?_add (indexed : IndexedNames) (name other : String) :
    (indexed.add name).find? other = (indexed.find? other).or
      (if sameName other name then some (.ofIndex indexed.table.size) else none) := by
  rw [find?, find?, add, Std.HashMap.getElem?_insertIfNew, sameName]
  simp only [Std.HashMap.mem_iff_isSome_getElem?]
  by_cases hsame : foldCase name = foldCase other
  · rw [hsame]
    cases indexed.index[foldCase other]? <;> simp
  · simp [hsame, Ne.symm hsame]

theorem intern_of_find?_eq_some {id : NameId} (h : indexed.find? name = some id) :
    indexed.intern name = (id, indexed) := by
  rw [intern, h]

/-- A name that is new is added, and its key is free. -/
theorem intern_of_find?_eq_none (h : indexed.find? name = none) :
    (indexed.intern name).1 = .ofIndex indexed.table.size ∧
      (indexed.intern name).2.table = (indexed.add name).table ∧
      ∀ other, (indexed.intern name).2.find? other = (indexed.add name).find? other := by
  rw [intern, h]
  refine ⟨rfl, rfl, fun other => ?_⟩
  rw [find?_add, find?, find?, Std.HashMap.getElem?_insert, sameName]
  by_cases hsame : foldCase name = foldCase other
  · rw [find?, hsame] at h
    simp [hsame, h]
  · simp [hsame, Ne.symm hsame]

/-- The map has what a search through the names gives. -/
def Coherent (indexed : IndexedNames) : Prop :=
  ∀ name, indexed.find? name = indexed.table.find? name

theorem empty_coherent : empty.Coherent :=
  fun _ => Std.HashMap.getElem?_empty

theorem Coherent.add (h : indexed.Coherent) (name : String) : (indexed.add name).Coherent := by
  intro other
  rw [find?_add, h other]
  exact (NameTable.find?_append indexed.table name other).symm

/-- To intern a name through the map is to intern it in the table. -/
theorem Coherent.intern (h : indexed.Coherent) (name : String) :
    (indexed.intern name).1 = (indexed.table.intern name).1 ∧
      (indexed.intern name).2.table = (indexed.table.intern name).2 ∧
      (indexed.intern name).2.Coherent := by
  cases hfind : indexed.find? name with
  | some id =>
      rw [intern_of_find?_eq_some hfind,
        NameTable.intern_of_find?_eq_some ((h name).symm.trans hfind)]
      exact ⟨rfl, rfl, h⟩
  | none =>
      obtain ⟨hid, htable, hothers⟩ := intern_of_find?_eq_none hfind
      rw [hid, htable, NameTable.intern_of_find?_eq_none ((h name).symm.trans hfind)]
      refine ⟨rfl, rfl, fun other => ?_⟩
      rw [hothers, htable]
      exact h.add name other

/-- A program that interns names through the map has the names that it would have without. -/
theorem Coherent.internAll (h : indexed.Coherent) (names : List String) :
    (indexed.internAll names).table = indexed.table.internAll names ∧
      (indexed.internAll names).Coherent := by
  induction names generalizing indexed with
  | nil => exact ⟨rfl, h⟩
  | cons name names ih =>
      obtain ⟨-, htable, hcoherent⟩ := h.intern name
      obtain ⟨hall, hlast⟩ := ih hcoherent
      refine ⟨hall.trans ?_, hlast⟩
      rw [htable]
      rfl

theorem start_coherent (given : Option (List String)) :
    (start given).table = NameTable.start given ∧ (start given).Coherent := by
  cases given with
  | none =>
      obtain ⟨-, htable, hcoherent⟩ := empty_coherent.intern noneName
      exact ⟨htable, hcoherent⟩
  | some names =>
      have hadded (names : List String) {indexed : IndexedNames} (h : indexed.Coherent) :
          (names.foldl add indexed).table = ⟨indexed.table.names ++ names⟩ ∧
            (names.foldl add indexed).Coherent := by
        induction names generalizing indexed with
        | nil =>
            rw [List.append_nil]
            exact ⟨rfl, h⟩
        | cons name names ih =>
            obtain ⟨htable, hcoherent⟩ := ih (h.add name)
            refine ⟨htable.trans ?_, hcoherent⟩
            rw [add, List.append_assoc]
            rfl
      exact hadded names empty_coherent

theorem internAll_coherent (given : Option (List String)) (names : List String) :
    ((start given).internAll names).table = (NameTable.start given).internAll names ∧
      ((start given).internAll names).Coherent := by
  obtain ⟨hstart, hcoherent⟩ := start_coherent given
  obtain ⟨htable, hlast⟩ := hcoherent.internAll names
  exact ⟨by rw [htable, hstart], hlast⟩

/-- Names that are interned.  Whatever names a program starts with, repeated spellings among
them, and whatever it interns, the map finds and interns what a search through the names does:
the first slot that stands for a name, if there is one, and else a new one behind the others.
Slots keep their texts, every spelling of a name that was interned has its slot from then on, the
slot stands for the name, and the slots of the terminator are those that are spelled like it. -/
theorem interned_exact (given : Option (List String)) (names : List String)
    (hsize : ((start given).internAll names).table.size < 2 ^ 32) :
    let indexed := (start given).internAll names
    let table := indexed.table
    table = (NameTable.start given).internAll names ∧
    (∀ name, indexed.find? name = table.find? name ∧
      (indexed.intern name).1 = (table.intern name).1 ∧
      (indexed.intern name).2.table = (table.intern name).2) ∧
    (∀ name id, table.find? name = some id ↔
      table.Names id name ∧ ∀ other, table.Names other name → id.index ≤ other.index) ∧
    (∀ name, table.find? name = none ↔ ∀ id, ¬table.Names id name) ∧
    (∀ name id, table.find? name = some id → table.intern name = (id, table)) ∧
    (∀ name, table.find? name = none → (table.intern name).1.index = table.size ∧
      (table.intern name).2 = ⟨table.names ++ [name]⟩) ∧
    (∀ later id text, table.get? id = some text → (table.internAll later).get? id = some text) ∧
    (∀ name, (table.intern name).2.Names (table.intern name).1 name ∧
      ∀ other later, sameName other name = true →
        ((table.intern name).2.internAll later).intern other =
          ((table.intern name).1, (table.intern name).2.internAll later)) ∧
    ∀ id, table.isNone id = true ↔ table.Names id noneName := by
  intro indexed table
  obtain ⟨htable, hcoherent⟩ := internAll_coherent given names
  have hfits : table.size ≤ 2 ^ 32 := Nat.le_of_lt hsize
  have hnew {name : String} (hfind : table.find? name = none) :
      table.intern name = (.ofIndex table.size, ⟨table.names ++ [name]⟩) :=
    NameTable.intern_of_find?_eq_none hfind
  refine ⟨htable, fun name => ?_, fun name id => NameTable.find?_eq_some_iff hfits,
    fun name => NameTable.find?_eq_none_iff hfits,
    fun name id => NameTable.intern_of_find?_eq_some, fun name hfind => ?_,
    fun later id text => (NameTable.internAll_grows table later).get?, fun name => ⟨?_, ?_⟩,
    fun id => NameTable.isNone_iff⟩
  · obtain ⟨hid, hnext, -⟩ := hcoherent.intern name
    exact ⟨hcoherent name, hid, hnext⟩
  · rw [hnew hfind]
    exact ⟨NameTable.index_ofIndex hsize, rfl⟩
  · apply NameTable.intern_names
    cases hfind : table.find? name with
    | some id => rwa [NameTable.intern_of_find?_eq_some hfind]
    | none =>
        rw [hnew hfind, NameTable.size, List.length_append]
        exact hsize
  · intro other later hsame
    exact NameTable.intern_spelling (NameTable.internAll_grows _ later) hsame

end IndexedNames

namespace RepeatedCore

/-- The names of a package with two spellings of one name. -/
def names : List String := ["Core", "None", "Actor", "core"]

/-- A spelling that is new finds the first slot, and the second one stands for the name, too. -/
theorem core_interned :
    ((IndexedNames.start (some names)).internAll ["ACTOR", "Tag"]).table.size < 2 ^ 32 ∧
      ((IndexedNames.start (some names)).internAll ["ACTOR", "Tag"]).find? "CORE" = some ⟨0⟩ ∧
      (((IndexedNames.start (some names)).internAll ["ACTOR", "Tag"]).intern "tag").1 = ⟨4⟩ ∧
      NameTable.Names ⟨names ++ ["Tag"]⟩ ⟨3⟩ "CORE" := by
  have htable : ((IndexedNames.start (some names)).internAll ["ACTOR", "Tag"]).table =
      ⟨names ++ ["Tag"]⟩ :=
    (IndexedNames.internAll_coherent (some names) ["ACTOR", "Tag"]).1.trans (by decide)
  have hsize :
      ((IndexedNames.start (some names)).internAll ["ACTOR", "Tag"]).table.size < 2 ^ 32 := by
    rw [htable]
    decide
  obtain ⟨-, hindexed, -⟩ := IndexedNames.interned_exact (some names) ["ACTOR", "Tag"] hsize
  refine ⟨hsize, ?_, ?_, "core", rfl, by decide⟩
  · rw [(hindexed "CORE").1, htable]
    decide
  · rw [(hindexed "tag").2.1, htable]
    decide

end RepeatedCore

end ObjectPackage
