/-
Progress of loading.  A property list and the containers in it are bounded by the bytes
that are left, whatever counts and sizes they declare.  The traced load notes each entry
and each container that it meets, and its runs show, successful or not, that every entry is
paid for with two bytes and that no container has more elements than the stream has bytes.
-/
import ObjectPackage.Proofs.Stream.Forward
import ObjectPackage.Proofs.Tagged.Listing

namespace ObjectPackage

/-- What happens while a list is loaded: an entry, the elements of a container with the
bytes behind their number, or the end of a budget. -/
inductive LoadEvent where
  | entry (name : NameId)
  | container (count left : Nat)
  | starved
deriving DecidableEq, Repr

namespace LoadEvent

def isEntry : LoadEvent → Bool
  | entry _ => true
  | _ => false

/-- Number of entries among some events. -/
def entries (events : List LoadEvent) : Nat :=
  events.countP isEntry

/-- A container has no more elements than bytes are left, and no budget runs out. -/
def Fair : LoadEvent → Prop
  | entry _ => True
  | container count left => count ≤ left
  | starved => False

theorem entries_append (events more : List LoadEvent) :
    entries (events ++ more) = entries events + entries more :=
  List.countP_append

end LoadEvent

namespace Filling

/-- The stream went forward. -/
def Reaches (before after : Filling) : Prop :=
  before.cursor.Reaches after.cursor

instance : IsPreorder Filling Reaches where
  refl state := refl_of Cursor.Reaches state.cursor
  trans _ _ _ h h' := trans_of Cursor.Reaches h h'

/-- The events of a run are fair, and every entry took two bytes of the stream. -/
structure Account (before : Filling) (events : List LoadEvent) (after : Filling) : Prop where
  fair : ∀ event ∈ events, event.Fair
  used : 2 * LoadEvent.entries events + after.cursor.rest.length ≤ before.cursor.rest.length

theorem Reaches.account {before after : Filling} (h : before.Reaches after) :
    before.Account [] after where
  fair := by simp
  used := by simpa [LoadEvent.entries] using h.length_le

theorem accounts : Accounts Account where
  refl state := (refl_of Reaches state).account
  trans := by
    intro first middle last events more h h'
    refine ⟨?_, ?_⟩
    · exact List.forall_mem_append.mpr ⟨h.fair, h'.fair⟩
    · have hused := h.used
      have hused' := h'.used
      rw [LoadEvent.entries_append]
      omega

end Filling

namespace Load

variable {α : Type}

theorem moves_read {action : Read α} (h : action.Forward) :
    Moves Filling.Reaches (read action) := by
  intro state
  have hreaches := h state.cursor
  rw [runFrom_read]
  split <;> next hrun =>
    rw [hrun] at hreaches
    exact hreaches

theorem moves_update (action : Update α) : Moves Filling.Reaches (update action) := by
  intro state
  obtain ⟨after, hrun, -, hcursor⟩ := lifts_update action state
  rw [hrun, Filling.Reaches, hcursor]
  exact refl_of Cursor.Reaches state.cursor

theorem moves_count : Moves Filling.Reaches count := by
  refine (moves_read Read.forward_index).bind fun found => Moves.get.bind fun state => ?_
  dsimp only
  split
  · exact .throw _
  · exact .pure _

/-- A count that is accepted is covered by the bytes behind it. -/
theorem count_le {state after : Filling} {found : Nat}
    (h : runFrom state count = (.ok found, after)) : found ≤ after.cursor.rest.length := by
  obtain ⟨index, middle, -, h⟩ := runFrom_bind_eq_ok.mp h
  obtain ⟨last, final, hget, h⟩ := runFrom_bind_eq_ok.mp h
  obtain ⟨hlast, rfl⟩ := Prod.mk.inj hget
  obtain rfl := Except.ok.inj hlast
  dsimp only at h
  split at h
  · cases h
  · next hrange =>
      obtain ⟨hfound, rfl⟩ := Prod.mk.inj h
      obtain rfl := Except.ok.inj hfound
      rw [not_or, Nat.not_lt] at hrange
      exact Nat.le_trans hrange.2 (List.length_take_le' _ _)

/-- Values that hold no other value are loaded by going forward. -/
theorem moves_load (package : Package) (location : Location) (mask : UInt32) {type : PropertyType}
    (hinline : type.storage ≠ .inline) (hcontainer : type.storage ≠ .container) :
    Moves Filling.Reaches (type.load package location mask) := by
  cases type with
  | byte => exact (moves_read Read.forward_u8).bind fun _ => moves_update _
  | int => exact (moves_read Read.forward_u32).bind fun _ => moves_update _
  | bool => exact (moves_read Read.forward_u8).bind fun _ => moves_update _
  | float => exact (moves_read Read.forward_u32).bind fun _ => moves_update _
  | name => exact (moves_read (Read.forward_name _)).bind fun _ => moves_update _
  | object _ => exact (moves_read (Read.forward_handle _)).bind fun _ => moves_update _
  | classRef _ => exact (moves_read (Read.forward_handle _)).bind fun _ => moves_update _
  | str =>
      exact (moves_read Read.forward_string).bind fun _ => (moves_update _).bind fun _ =>
        moves_update _
  | struct _ => exact absurd rfl hinline
  | fixedArray _ _ => exact absurd rfl hinline
  | array _ => exact absurd rfl hcontainer
  | map _ _ => exact absurd rfl hcontainer

end Load

abbrev LoadTrace := Trace LoadEvent PropertyError Filling

namespace LoadTrace

open Trace (noting silent)

variable (package : Package)

/-- Read a header, which is noted unless it ends the list. -/
def header : LoadTrace (Option Header) :=
  noting (Load.read (Header.read package.names)) fun found _ _ =>
    (found.map fun header => LoadEvent.entry header.name).toList

def count : LoadTrace Nat :=
  noting Load.count fun count _ after => [.container count after.cursor.rest.length]

mutual

def load (location : Location) (mask : UInt32) : PropertyType → LoadTrace Unit
  | .struct ⟨_, _, properties, _, _, _, _⟩ => loadMembers location properties
  | .fixedArray element count =>
      forIndices count fun index =>
        load (location.shift (index * element.pitch)) elementMask element
  | .array element => do
      let count ← count
      silent (Load.update (PropertyType.release location mask (.array element)))
      let slot ← silent (Load.update (Update.ownElements location count element.pitch))
      forIndices count fun index =>
        load (.element slot (index * element.pitch)) elementMask element
  | .map key value => do
      let count ← count
      silent (Load.update (PropertyType.release location mask (.map key value)))
      let slot ← silent (Load.update (Update.ownElements location count
        (PropertyType.entryPitch key value)))
      forIndices count fun index => do
        let offset := index * PropertyType.entryPitch key value
        load (.element slot offset) elementMask key
        load (.element slot (offset + PropertyType.entryValueOffset key value)) elementMask value
  | type => silent (type.load package location mask)

def loadMembers (location : Location) : List Property → LoadTrace Unit
  | [] => pure ()
  | member@⟨_, _, _, type, dimension, _, _, mask⟩ :: rest => do
      forIndices dimension fun index =>
        load (location.shift (member.elementOffset index)) mask type
      loadMembers location rest

end

section Equations

variable (location : Location) (mask : UInt32) {type : PropertyType}

theorem load_inline (h : type.storage = .inline) :
    load package location mask type = type.parts.forM fun part =>
      load package (location.shift part.offset) part.mask part.type := by
  cases type with
  | struct layout =>
      obtain ⟨_, _, properties, _, _, size, _⟩ := layout
      rw [load, @PropertyType.forM_memberParts _ _ _ (fun part =>
        load package (location.shift part.offset) part.mask part.type)
        (loadMembers package location)]
      · rfl
      · rw [loadMembers]
      · rintro ⟨_, _, _, _, _, _, _, _⟩ rest
        rw [loadMembers]
  | fixedArray element count => rw [PropertyType.parts, ← PropertyType.forM_elementParts, load]
  | _ => cases h

theorem load_container (h : type.storage = .container) :
    load package location mask type = (do
      let count ← count
      silent (Load.update (PropertyType.release location mask type))
      let slot ← silent (Load.update (Update.ownElements location count type.unitPitch))
      (type.unitParts count).forM fun part =>
        load package (.element slot part.offset) part.mask part.type) := by
  cases type with
  | array element =>
      rw [load]
      simp only [PropertyType.unitParts, PropertyType.unitPitch, ← PropertyType.forM_elementParts]
  | map key value =>
      rw [load]
      simp only [PropertyType.unitParts, PropertyType.unitPitch, ← PropertyType.forM_entryParts]
  | _ => cases h

theorem load_single (hinline : type.storage ≠ .inline) (hcontainer : type.storage ≠ .container) :
    load package location mask type = silent (type.load package location mask) := by
  cases type with
  | struct _ => exact absurd rfl hinline
  | fixedArray _ _ => exact absurd rfl hinline
  | array _ => exact absurd rfl hcontainer
  | map _ _ => exact absurd rfl hcontainer
  | _ => rw [load] <;> simp

end Equations

/-- Load the value behind a header, with failures reported for the property. -/
def loadEntry (property : String) (header : Header) (location : Location) (mask : UInt32)
    (type : PropertyType) : LoadTrace Unit :=
  match PropertyType.checkEntry package property header type with
  | .error error => throw error
  | .ok () =>
      if type.isBool then silent (Load.update (Update.setBool location mask header.boolValue))
      else tryCatch (load package location mask type) fun error =>
        throw (error.inProperty property)

def entry (property : Property) (header : Header) : LoadTrace Unit := do
  let index := header.arrayIndex.toNat
  if property.dimension ≤ index then
    throw (.indexOutOfRange property.name index property.dimension)
  let start := (← silent get).cursor.pos
  loadEntry package property.name header (Block.elementAt property index) property.mask
    property.type
  let consumed := (← silent get).cursor.pos - start
  if header.tag ≠ .bool ∧ consumed ≠ header.size.toNat then
    throw (.sizeMismatch property.name header.size.toNat consumed)

def item (layout : StructLayout) (header : Header) : LoadTrace (Option String) :=
  match layout.resolve? package.names header with
  | some property => (fun _ => none) <$> entry package property header
  | none => silent (Load.item package layout header)

def entries (layout : StructLayout) : Nat → LoadReport → LoadTrace LoadReport
  | 0, report => noting (pure report) fun _ _ _ => [.starved]
  | budget + 1, report => do
      match ← header package with
      | none => return report
      | some header =>
          let skipped ← item package layout header
          entries layout budget (report.add skipped)

def properties (layout : StructLayout) : LoadTrace LoadReport := do
  entries package layout ((← silent get).cursor.rest.length + 1) ⟨0, []⟩

end LoadTrace

namespace Header

theorem forward_readSize (sizeClass : Nat) : (readSize sizeClass).Forward := by
  rw [readSize]
  split
  · exact .pure _
  · split
    · exact Read.forward_u8.map _
    · split
      · exact Read.forward_u16.map _
      · exact Read.forward_u32

/-- A header that is not the terminator is a name and a byte before anything else. -/
theorem read_eq_steps (names : NameTable) : ∃ tail : NameId → UInt8 → Read (Option Header),
    read names = (do
      let name ← Read.name names
      if names.isNone name then return none
      let info ← Read.u8
      tail name info) ∧ ∀ name info, (tail name info).Forward := by
  refine ⟨_, rfl, fun name info => ?_⟩
  dsimp only
  split
  on_goal 1 => refine ((Read.forward_name names).map some).bind fun structName => ?_
  on_goal 2 => refine (Moves.pure none).bind fun structName => ?_
  all_goals
    refine (forward_readSize _).bind fun size => ?_
    split
    · exact .pure _
    · split
      · exact Read.forward_arrayIndex.bind fun index => .pure _
      · exact (Moves.pure 0).bind fun index => .pure _

theorem forward_read (names : NameTable) : (read names).Forward := by
  obtain ⟨tail, htail, hforward⟩ := read_eq_steps names
  rw [htail]
  refine (Read.forward_name names).bind fun name => ?_
  split
  · exact .pure _
  · exact Read.forward_u8.bind fun info => hforward name info

/-- So it takes two bytes or more. -/
theorem length_of_read {names : NameTable} {cursor next : Cursor} {header : Header}
    (h : runFrom cursor (read names) = (.ok (some header), next)) :
    next.rest.length + 2 ≤ cursor.rest.length := by
  obtain ⟨tail, htail, hforward⟩ := read_eq_steps names
  rw [htail] at h
  obtain ⟨name, middle, hname, h⟩ := runFrom_bind_eq_ok.mp h
  have hfirst := Read.uses_name names _ _ _ hname
  split at h
  · cases h
  · have hrest := (Read.uses_u8.bind fun info => (hforward name info).uses) _ _ _ h
    omega

end Header

/-- A header that is loaded takes two bytes or more. -/
theorem Load.length_of_header {names : NameTable} {state after : Filling} {header : Header}
    (h : runFrom state (Load.read (Header.read names)) = (.ok (some header), after)) :
    after.cursor.rest.length + 2 ≤ state.cursor.rest.length := by
  rw [Load.runFrom_read] at h
  split at h
  · next found next hrun =>
      obtain ⟨hfound, rfl⟩ := Prod.mk.inj h
      obtain rfl := Except.ok.inj hfound
      exact Header.length_of_read hrun
  · cases h

namespace LoadReport

/-- Number of entries that a report is about. -/
def total (report : LoadReport) : Nat :=
  report.loaded + report.skipped.length

theorem total_add (report : LoadReport) (skipped : Option String) :
    (report.add skipped).total = report.total + 1 := by
  cases skipped with
  | none => simp only [add, total, Nat.add_right_comm]
  | some name => simp only [add, total, List.length_append, List.length_singleton, Nat.add_assoc]

end LoadReport

namespace LoadTrace

open Filling (accounts)

variable {state : Filling} (package : Package)

/-- Inside of a value there are no entries. -/
def Inner (events : List LoadEvent) : Prop :=
  LoadEvent.entries events = 0

theorem inner_nil : Inner [] := rfl

theorem inner_append (events more : List LoadEvent) (h : Inner events) (h' : Inner more) :
    Inner (events ++ more) := by
  rw [Inner, LoadEvent.entries_append, h, h']

/-- A step that goes forward need not be noted. -/
theorem tells_silent {α : Type} {action : Load α} (h : Moves Filling.Reaches action) :
    Tells Filling.Account (fun _ => Inner) state (Trace.silent action) action :=
  .silent (h state).account fun _ _ _ => inner_nil

/-- A header is met with two bytes. -/
theorem tells_header : Tells Filling.Account
    (fun found events => LoadEvent.entries events = if found.isSome then 1 else 0) state
    (header package) (Load.read (Header.read package.names)) := by
  refine .noting_of_moves (Load.moves_read (Header.forward_read package.names))
    (fun _ h => h.account) fun found after hrun hmoves => ?_
  cases found with
  | none => exact ⟨hmoves.account, rfl⟩
  | some header =>
      have hused := Load.length_of_header hrun
      refine ⟨⟨?_, ?_⟩, rfl⟩
      · exact List.forall_mem_singleton.mpr trivial
      · exact (Nat.add_comm _ _).trans_le hused

theorem tells_count : Tells Filling.Account (fun _ => Inner) state count Load.count := by
  refine .noting_of_moves Load.moves_count (fun _ h => h.account) fun found after hrun hmoves => ?_
  refine ⟨⟨?_, ?_⟩, rfl⟩
  · exact List.forall_mem_singleton.mpr (Load.count_le hrun)
  · simpa [LoadEvent.entries, LoadEvent.isEntry] using hmoves.length_le

/-- Every container that is loaded is covered by the bytes behind its count. -/
theorem tells_load (location : Location) (mask : UInt32) (type : PropertyType) :
    Tells Filling.Account (fun _ => Inner) state (load package location mask type)
      (type.load package location mask) := by
  have hsingle {location : Location} {mask : UInt32} {type : PropertyType} {state : Filling}
      (hinline : type.storage ≠ .inline) (hcontainer : type.storage ≠ .container) :
      Tells Filling.Account (fun _ => Inner) state (load package location mask type)
        (type.load package location mask) := by
    rw [load_single _ _ _ hinline hcontainer]
    exact tells_silent (Load.moves_load package location mask hinline hcontainer)
  induction type using PropertyType.induction_on generalizing location mask state with
  | scalar type hstorage => exact hsingle (by simp [hstorage]) (by simp [hstorage])
  | bits => exact hsingle (by decide) (by decide)
  | text => exact hsingle (by decide) (by decide)
  | inline type hstorage ih =>
      rw [load_inline _ _ _ hstorage, PropertyType.load_inline _ _ _ hstorage]
      exact .forM accounts inner_nil inner_append fun part hpart _ => ih part hpart _ _
  | container type hstorage ih =>
      rw [load_container _ _ _ hstorage, PropertyType.load_container _ _ _ hstorage]
      exact tells_count.seq accounts inner_append fun count _ =>
        (tells_silent (Load.moves_update _)).seq accounts inner_append fun _ _ =>
          (tells_silent (Load.moves_update _)).seq accounts inner_append fun slot _ =>
            .forM accounts inner_nil inner_append fun part hpart _ => ih count part hpart _ _

theorem tells_loadEntry (property : String) (header : Header) (location : Location)
    (mask : UInt32) (type : PropertyType) :
    Tells Filling.Account (fun _ => Inner) state
      (loadEntry package property header location mask type)
      (type.loadEntry package property header location mask) := by
  rw [loadEntry, PropertyType.loadEntry_eq]
  cases PropertyType.checkEntry package property header type with
  | error error => exact .throw accounts error
  | ok _ =>
      dsimp only
      by_cases hbool : type.isBool = true
      · rw [if_pos hbool, if_pos hbool]
        exact tells_silent (Load.moves_update _)
      · rw [if_neg hbool, if_neg hbool]
        exact .tryCatch accounts (tells_load package location mask type) fun _ _ _ _ =>
          .throw accounts _

theorem tells_entry (property : Property) (header : Header) :
    Tells Filling.Account (fun _ => Inner) state (entry package property header)
      (Load.entry package property header) := by
  rw [entry, Load.entry]
  by_cases hindex : property.dimension ≤ header.arrayIndex.toNat
  · rw [if_pos hindex, if_pos hindex]
    exact .throw accounts _
  · rw [if_neg hindex, if_neg hindex]
    refine .after accounts (runFrom_get state) (accounts.refl state) ?_
    refine (tells_loadEntry package _ _ _ _ _).seq accounts inner_append fun _ middle => ?_
    refine .after accounts (runFrom_get middle) (accounts.refl middle) ?_
    dsimp only
    split
    · exact .throw accounts _
    · exact .pure accounts inner_nil

theorem tells_item (layout : StructLayout) (header : Header) :
    Tells Filling.Account (fun _ => Inner) state (item package layout header)
      (Load.item package layout header) := by
  rw [item]
  cases hresolve : layout.resolve? package.names header with
  | some property =>
      rw [Load.item, hresolve]
      exact (tells_entry package property header).map accounts fun _ _ _ _ h => h
  | none =>
      rw [Load.item, hresolve]
      have hskip : Moves Filling.Reaches
          (tryCatch (Load.read (Read.skip header.size.toNat)) fun error =>
            throw (error.inProperty (header.text package.names))) :=
        (Load.moves_read (Read.forward_skip _)).tryCatch fun error => .throw _
      exact tells_silent (hskip.map _)

/-- Every entry of a list takes two bytes and is reported, and the budget does not run out. -/
theorem tells_entries (layout : StructLayout) {budget : Nat}
    (hbudget : state.cursor.rest.length < budget) (report : LoadReport) :
    Tells Filling.Account
      (fun final events => final.total = report.total + LoadEvent.entries events) state
      (entries package layout budget report) (Load.entries package layout budget report) := by
  induction budget generalizing state report with
  | zero => omega
  | succ budget ih =>
      rw [entries, Load.entries_succ]
      refine (tells_header package).bind accounts fun found middle events hrun _ hevents => ?_
      cases found with
      | none =>
          refine .pure accounts ?_
          rw [List.append_nil, hevents]
          rfl
      | some header =>
          have hused := Load.length_of_header hrun
          refine (tells_item package layout header).bind accounts
            fun skipped later more _ hitem hmore => ?_
          -- neither the header nor its payload went back, so the smaller budget is enough
          have hleft := hitem.used
          refine (ih (by omega) (report.add skipped)).mono fun final rest hfinal => ?_
          rw [hfinal, LoadReport.total_add, LoadEvent.entries_append, LoadEvent.entries_append,
            hmore, hevents, Option.isSome_some, if_pos rfl]
          omega

theorem tells_properties (layout : StructLayout) :
    Tells Filling.Account (fun report events => report.total = LoadEvent.entries events) state
      (properties package layout) (Load.properties package layout) := by
  rw [properties, Load.properties]
  refine .after accounts (runFrom_get state) (accounts.refl state) ?_
  refine (tells_entries package layout (Nat.lt_succ_self _) _).mono fun report events h => ?_
  rw [h]
  exact Nat.zero_add _

end LoadTrace

/-- What the events of a load show.  The traced load ends as the load does, with no budget run
out; there is at most one entry for two bytes of the stream, no container has more elements
than bytes were left behind its count, and the entries of a success are those reported. -/
structure Block.LoadProgress (package : Package) (block : Block) (cursor : Cursor)
    (events : List LoadEvent) : Prop where
  run : runFrom ⟨⟨block.store, cursor⟩, []⟩ (LoadTrace.properties package block.layout) =
    ((block.loadProperties package cursor).1,
      ⟨⟨(block.loadProperties package cursor).2.1.store,
        (block.loadProperties package cursor).2.2⟩, events⟩)
  enough : .starved ∉ events
  entries_le : LoadEvent.entries events ≤ cursor.rest.length / 2
  count_le : ∀ count left, .container count left ∈ events → count ≤ left
  paid : 2 * LoadEvent.entries events +
    (block.loadProperties package cursor).2.2.rest.length ≤ cursor.rest.length
  reported : ∀ report, (block.loadProperties package cursor).1 = .ok report →
    report.total = LoadEvent.entries events

theorem Block.loadProgress (package : Package) (block : Block) (cursor : Cursor) :
    ∃ events, block.LoadProgress package cursor events := by
  obtain ⟨events, hrun, haccount, hreported⟩ :=
    @LoadTrace.tells_properties ⟨block.store, cursor⟩ package block.layout
  have hused := haccount.used
  refine ⟨events, hrun [], haccount.fair .starved, ?_, ?_, hused, hreported⟩
  · dsimp only at hused
    omega
  · exact fun count left => haccount.fair (.container count left)

end ObjectPackage
