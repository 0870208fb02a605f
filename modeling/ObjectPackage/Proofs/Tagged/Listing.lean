/-
Lists of entries.  A stream and a layout decide together which entries stand in a list,
where each one starts and what the last one comes to; no block has a part in it.
-/
import ObjectPackage.Proofs.Store.Relocate
import ObjectPackage.Proofs.Tagged.Entry

namespace ObjectPackage

variable {α : Type}

namespace Decoder

theorem relocates_inProperty {property : String} {action : Decoder α}
    (h : Relocates action action) :
    Relocates (inProperty property action) (inProperty property action) := by
  intro cursor value next hrun
  rw [runFrom_inProperty] at hrun
  cases hinner : runFrom cursor action with
  | mk result last =>
      rw [hinner] at hrun
      cases result with
      | error error => cases hrun
      | ok found =>
          obtain ⟨hvalue, rfl⟩ := Prod.mk.inj hrun
          obtain rfl := Except.ok.inj hvalue
          obtain ⟨used, hused, hpos, hother⟩ := h hinner
          refine ⟨used, hused, hpos, fun pos rest hrest => ?_⟩
          rw [runFrom_inProperty, hother pos rest hrest]
          rfl

end Decoder

namespace PropertyType

variable {package : Package}

theorem relocates_decodeEntry (property : String) (header : Header) (type : PropertyType) :
    Relocates (type.decodeEntry package property header)
      (type.decodeEntry package property header) := by
  rw [decodeEntry]
  split
  · exact .throw _
  · split
    · exact .pure _
    · exact Decoder.relocates_inProperty (relocates_decode package type)

end PropertyType

/-- An entry of a list: a value for an element of the layout, or a name it does not know. -/
inductive Entry where
  | loaded (property : Property) (index : Nat) (value : Value)
  | skipped (name : String)

namespace Entry

/-- The name of an entry that is skipped. -/
def skipped? : Entry → Option String
  | .loaded _ _ _ => none
  | .skipped name => some name

/-- Number of entries that the layout knows. -/
def loadedCount (entries : List Entry) : Nat :=
  entries.countP fun entry => entry.skipped?.isNone

/-- The names of the others, in order. -/
def skippedNames (entries : List Entry) : List String :=
  entries.filterMap skipped?

open Classical in
/-- The value of an entry that is for an element. -/
noncomputable def valueFor (element : Property × Nat) : Entry → Option Value
  | .loaded property index value => if (property, index) = element then some value else none
  | .skipped _ => none

/-- What becomes of the value of an element: the last entry for it decides, and without one
the value stays. -/
noncomputable def settle (entries : List Entry) (element : Property × Nat)
    (before : Except PropertyError Value) : Except PropertyError Value :=
  match (entries.filterMap (valueFor element)).getLast? with
  | some value => .ok value
  | none => before

section Settle

variable {entries : List Entry} {element : Property × Nat}
  {before : Except PropertyError Value}

/-- A later entry settles what an earlier one has left. -/
theorem settle_cons (entry : Entry) : settle (entry :: entries) element before =
    settle entries element (settle [entry] element before) := by
  simp only [settle, List.filterMap_cons, List.filterMap_nil]
  cases valueFor element entry with
  | none => rfl
  | some value =>
      dsimp only
      rw [List.getLast?_cons]
      cases (entries.filterMap (valueFor element)).getLast? <;> rfl

theorem settle_loaded (property : Property) (index : Nat) (value : Value) :
    settle [.loaded property index value] (property, index) before = .ok value := by
  simp [settle, valueFor]

theorem settle_other {property : Property} {index : Nat} (h : element ≠ (property, index))
    (value : Value) : settle [.loaded property index value] element before = before := by
  simp [settle, valueFor, Ne.symm h]

theorem settle_skipped (name : String) : settle [.skipped name] element before = before := rfl

/-- An element is settled by an entry for it, if there is one. -/
theorem settle_cases (entries : List Entry) (element : Property × Nat)
    (before : Except PropertyError Value) :
    (∃ value, .loaded element.1 element.2 value ∈ entries ∧
        settle entries element before = .ok value) ∨
      settle entries element before = before := by
  rw [settle]
  cases hlast : (entries.filterMap (valueFor element)).getLast? with
  | none => exact .inr rfl
  | some value =>
      obtain ⟨entry, hentry, hvalue⟩ := List.mem_filterMap.mp (List.mem_of_getLast? hlast)
      refine .inl ⟨value, ?_, rfl⟩
      cases entry with
      | skipped name => cases hvalue
      | loaded property index found =>
          rw [valueFor] at hvalue
          split at hvalue
          · next hsame =>
              obtain rfl := Option.some.inj hvalue
              obtain rfl := hsame
              exact hentry
          · cases hvalue

end Settle

end Entry

/-- The spelling of the name in a header. -/
def Header.text (names : NameTable) (header : Header) : String :=
  (names.get? header.name).getD "?"

/-- The property of a layout that a header is resolved to. -/
def StructLayout.resolve? (layout : StructLayout) (names : NameTable) (header : Header) :
    Option Property :=
  layout.findTagged? (header.text names) (header.tag == .struct)

/-- The element of a layout that a header is for. -/
def StructLayout.target? (layout : StructLayout) (names : NameTable) (header : Header) :
    Option (Property × Nat) :=
  (layout.resolve? names header).map fun property => (property, header.arrayIndex.toNat)

/-- The entry behind a header, for a layout. -/
def Decoder.item (package : Package) (layout : StructLayout) (header : Header) : Decoder Entry :=
  match layout.resolve? package.names header with
  | some property =>
      Entry.loaded property header.arrayIndex.toNat <$> Decoder.entry package property header
  | none => do
      Decoder.inProperty (header.text package.names) (Decoder.read (Read.skip header.size.toNat))
      return .skipped (header.text package.names)

theorem Decoder.relocates_entry (package : Package) (property : Property) (header : Header) :
    Relocates (Decoder.entry package property header) (Decoder.entry package property header) := by
  by_cases hindex : header.arrayIndex.toNat < property.dimension
  · exact (PropertyType.relocates_decodeEntry _ _ _).checked (Load.runFrom_decodeEntry hindex)
  · rw [Decoder.entry, if_pos (Nat.le_of_not_lt hindex)]
    exact .throw _

theorem Decoder.relocates_item (package : Package) (layout : StructLayout) (header : Header) :
    Relocates (Decoder.item package layout header) (Decoder.item package layout header) := by
  rw [Decoder.item]
  split
  · exact (Decoder.relocates_entry _ _ _).map _
  · exact (Decoder.relocates_inProperty (Decoder.relocates_read (Read.relocates_skip _))).bind
      fun _ => .pure _

/-- Deal with the entry behind a header, and tell its name if it is skipped. -/
def Load.item (package : Package) (layout : StructLayout) (header : Header) :
    Load (Option String) :=
  match layout.resolve? package.names header with
  | some property => (fun _ => none) <$> entry package property header
  | none => (fun _ => some (header.text package.names)) <$>
      tryCatch (read (Read.skip header.size.toNat)) fun error =>
        throw (error.inProperty (header.text package.names))

/-- The report with one more entry. -/
def LoadReport.add (report : LoadReport) : Option String → LoadReport
  | none => { report with loaded := report.loaded + 1 }
  | some name => { report with skipped := report.skipped ++ [name] }

/-- The report with more entries. -/
def LoadReport.addAll (report : LoadReport) (entries : List Entry) : LoadReport :=
  ⟨report.loaded + Entry.loadedCount entries, report.skipped ++ Entry.skippedNames entries⟩

theorem LoadReport.addAll_nil (report : LoadReport) : report.addAll [] = report := by
  simp [addAll, Entry.loadedCount, Entry.skippedNames]

theorem LoadReport.addAll_cons (report : LoadReport) (entry : Entry) (entries : List Entry) :
    report.addAll (entry :: entries) = (report.add entry.skipped?).addAll entries := by
  cases entry with
  | loaded property index value =>
      simp only [addAll, add, Entry.loadedCount, Entry.skippedNames, Entry.skipped?,
        List.countP_cons, List.filterMap_cons, Option.isNone_none, if_true]
      rw [Nat.add_assoc, Nat.add_comm 1]
  | skipped name =>
      simp [addAll, add, Entry.loadedCount, Entry.skippedNames, Entry.skipped?]

namespace Load

variable {package : Package} {layout : StructLayout}

theorem runFrom_read {α : Type} (state : Filling) (action : Read α) :
    runFrom state (read action) =
      match runFrom state.cursor action with
      | (.ok value, cursor) => (.ok value, ⟨state.store, cursor⟩)
      | (.error error, cursor) => (.error (.stream error), ⟨state.store, cursor⟩) := by
  rw [mirrors_read, Decoder.runFrom_read]
  cases runFrom state.cursor action with
  | mk result cursor => cases result <;> rfl

/-- A name that is not known costs its payload, and the store is kept. -/
theorem runFrom_skip (name : String) (count : Nat) (state : Filling) :
    runFrom state (tryCatch (read (Read.skip count)) fun error =>
        throw (error.inProperty name)) =
      let skipped := runFrom state.cursor
        (Decoder.inProperty name (Decoder.read (Read.skip count)))
      (skipped.1, ⟨state.store, skipped.2⟩) := by
  rw [runFrom_tryCatch, mirrors_read, Decoder.runFrom_inProperty]
  cases runFrom state.cursor (Decoder.read (Read.skip count)) with
  | mk result cursor => cases result <;> rfl

/-- The loop deals with one entry after the other. -/
theorem entries_succ (budget : Nat) (report : LoadReport) :
    entries package layout (budget + 1) report = (do
      match ← read (Header.read package.names) with
      | none => return report
      | some header => do
          let skipped ← item package layout header
          entries package layout budget (report.add skipped)) := by
  rw [entries]
  congr 1
  funext found
  cases found with
  | none => rfl
  | some header =>
      have hresolve : layout.findTagged? ((package.names.get? header.name).getD "?")
        (header.tag == .struct) = layout.resolve? package.names header := rfl
      simp only [hresolve, item]
      cases layout.resolve? package.names header with
      | none => simp only [bind_map_left, LoadReport.add, Header.text]
      | some property => simp only [bind_map_left, LoadReport.add]

theorem Local.map {α β : Type} {action : Load α} (f : α → β) (h : Local action) :
    Local (f <$> action) := by
  rw [map_eq_pure_bind]
  exact h.bind fun value => .pure (f value)

theorem Local.inProperty {α : Type} {action : Load α} (property : String) (h : Local action) :
    Local (tryCatch action fun error => throw (error.inProperty property)) := by
  intro store
  have hupon : upon store (tryCatch action fun error => throw (error.inProperty property)) =
      Decoder.inProperty property (upon store action) := by
    refine runFrom_ext fun cursor => ?_
    rw [runFrom_upon, runFrom_tryCatch, Decoder.runFrom_inProperty, runFrom_upon]
    cases runFrom ⟨store, cursor⟩ action with
    | mk result middle => cases result <;> rfl
  rw [hupon]
  exact Decoder.relocates_inProperty (h store)

theorem loadEntry_local (property : String) (header : Header) (location : Location) (mask : UInt32)
    (type : PropertyType) : Local (type.loadEntry package property header location mask) := by
  rw [PropertyType.loadEntry_eq]
  split
  · exact .fail _
  · split
    · exact .update _
    · exact (PropertyType.load_local package location mask type).inProperty property

theorem entry_local (package : Package) (property : Property) (header : Header) :
    Local (entry package property header) := by
  by_cases hindex : header.arrayIndex.toNat < property.dimension
  · intro store
    let stored := property.type.loadEntry package property.name header
      (Block.elementAt property header.arrayIndex.toNat) property.mask
    have hrun (cursor : Cursor) : runFrom cursor (upon store (entry package property header)) =
        ((runFrom cursor (upon store stored)).1.bind fun found =>
          (checkSize property header ((runFrom cursor (upon store stored)).2.pos - cursor.pos)).map
            fun _ => found, (runFrom cursor (upon store stored)).2) := by
      rw [runFrom_upon, runFrom_upon, runFrom_entry hindex]
      cases runFrom ⟨store, cursor⟩ stored with
      | mk result after =>
          cases result with
          | error error => rfl
          | ok _ =>
              dsimp only [Except.bind]
              cases checkSize property header (after.cursor.pos - cursor.pos) <;> rfl
    exact (loadEntry_local _ _ _ _ _ store).checked hrun
  · rw [entry, if_pos (Nat.le_of_not_lt hindex)]
    exact .fail _

/-- An entry is dealt with in the same way wherever it stands. -/
theorem item_local (package : Package) (layout : StructLayout) (header : Header) :
    Local (item package layout header) := by
  rw [item]
  split
  · exact (entry_local _ _ _).map _
  · exact ((Local.read (Read.relocates_skip _)).inProperty _).map _

end Load

/-- Entries that stand one after the other, from one place of a stream to another. -/
inductive Entries (package : Package) (layout : StructLayout) :
    Cursor → List Entry → Cursor → Prop
  | nil {cursor : Cursor} : Entries package layout cursor [] cursor
  | cons {cursor behind next last : Cursor} {header : Header} {entry : Entry}
      {entries : List Entry}
      (hheader : runFrom cursor (Header.read package.names) = (.ok (some header), behind))
      (hentry : runFrom behind (Decoder.item package layout header) = (.ok entry, next))
      (hrest : Entries package layout next entries last) :
      Entries package layout cursor (entry :: entries) last

/-- The list ends at a place. -/
def Terminated (package : Package) (cursor final : Cursor) : Prop :=
  runFrom cursor (Header.read package.names) = (.ok none, final)

/-- Reading stops in the entry at a place, which was for some element if its header could
be read and resolved. -/
inductive Refused (package : Package) (layout : StructLayout) (cursor : Cursor) :
    PropertyError → Option (Property × Nat) → Cursor → Prop
  | header {error : StreamError} {final : Cursor}
      (hheader : runFrom cursor (Header.read package.names) = (.error error, final)) :
      Refused package layout cursor (.stream error) none final
  | entry {behind final : Cursor} {header : Header} {error : PropertyError}
      (hheader : runFrom cursor (Header.read package.names) = (.ok (some header), behind))
      (hentry : runFrom behind (Decoder.item package layout header) = (.error error, final)) :
      Refused package layout cursor error (layout.target? package.names header) final

/-- No entry can be read at a place. -/
def Stops (package : Package) (layout : StructLayout) (cursor : Cursor) : Prop :=
  ∀ header behind entry next,
    runFrom cursor (Header.read package.names) = (.ok (some header), behind) →
    runFrom behind (Decoder.item package layout header) ≠ (.ok entry, next)

theorem Terminated.stops {package : Package} {cursor final : Cursor}
    (h : Terminated package cursor final) (layout : StructLayout) :
    Stops package layout cursor := by
  intro header behind entry next hheader
  cases Except.ok.inj (Prod.mk.inj (h.symm.trans hheader)).1

theorem Refused.stops {package : Package} {layout : StructLayout} {cursor final : Cursor}
    {error : PropertyError} {target : Option (Property × Nat)}
    (h : Refused package layout cursor error target final) : Stops package layout cursor := by
  intro header behind entry next hheader
  cases h with
  | header hfail => cases (Prod.mk.inj (hfail.symm.trans hheader)).1
  | entry hheader' hfail =>
      obtain ⟨hsame, rfl⟩ := Prod.mk.inj (hheader'.symm.trans hheader)
      obtain rfl := Option.some.inj (Except.ok.inj hsame)
      rw [hfail]
      exact nofun

/-- A list stops at one place only. -/
theorem Entries.unique {package : Package} {layout : StructLayout} {cursor stop stop' : Cursor}
    {entries entries' : List Entry} (h : Entries package layout cursor entries stop)
    (hstop : Stops package layout stop) (h' : Entries package layout cursor entries' stop')
    (hstop' : Stops package layout stop') : entries' = entries ∧ stop' = stop := by
  induction h generalizing entries' with
  | nil =>
      cases h' with
      | nil => exact ⟨rfl, rfl⟩
      | cons hheader hentry _ => exact absurd hentry (hstop _ _ _ _ hheader)
  | cons hheader hentry _ ih =>
      cases h' with
      | nil => exact absurd hentry (hstop' _ _ _ _ hheader)
      | cons hheader' hentry' hrest' =>
          obtain ⟨hsame, rfl⟩ := Prod.mk.inj (hheader'.symm.trans hheader)
          obtain rfl := Option.some.inj (Except.ok.inj hsame)
          obtain ⟨hsame, rfl⟩ := Prod.mk.inj (hentry'.symm.trans hentry)
          obtain rfl := Except.ok.inj hsame
          obtain ⟨rfl, hlast⟩ := ih hstop hrest'
          exact ⟨rfl, hlast⟩

namespace Load

variable {package : Package} {layout : StructLayout}

/-- The loop stops at the terminator. -/
theorem runFrom_entries_none {cursor final : Cursor} (h : Terminated package cursor final)
    (store : Store) (budget : Nat) (report : LoadReport) :
    runFrom ⟨store, cursor⟩ (Load.entries package layout (budget + 1) report) =
      (.ok report, ⟨store, final⟩) := by
  have hread := runFrom_read ⟨store, cursor⟩ (Header.read package.names)
  rw [Terminated] at h
  rw [h] at hread
  rw [entries_succ, runFrom_bind_ok hread]
  rfl

theorem runFrom_entries_some {cursor behind : Cursor} {header : Header}
    (h : runFrom cursor (Header.read package.names) = (.ok (some header), behind))
    (store : Store) (budget : Nat) (report : LoadReport) :
    runFrom ⟨store, cursor⟩ (Load.entries package layout (budget + 1) report) =
      runFrom ⟨store, behind⟩ (Load.item package layout header >>= fun skipped =>
        Load.entries package layout budget (report.add skipped)) := by
  have hread := runFrom_read ⟨store, cursor⟩ (Header.read package.names)
  rw [h] at hread
  rw [entries_succ, runFrom_bind_ok hread]

end Load

theorem Block.loadProperties_eq {package : Package} {block : Block} {cursor : Cursor}
    {outcome : Except PropertyError LoadReport} {after : Filling} (hrun : runFrom ⟨block.store, cursor⟩
      (Load.entries package block.layout (cursor.rest.length + 1) ⟨0, []⟩) = (outcome, after)) :
    block.loadProperties package cursor =
      (outcome, { block with store := after.store }, after.cursor) := by
  have hproperties : runFrom ⟨block.store, cursor⟩ (Load.properties package block.layout) =
      (outcome, after) := by
    rw [Load.properties, runFrom_bind_ok (runFrom_get _), hrun]
  exact congrArg (fun ended => (ended.1, { block with store := ended.2.store }, ended.2.cursor))
    hproperties

end ObjectPackage
