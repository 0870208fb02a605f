/-
Saved lists.  A save appends one entry after the other, for the elements that differ from
their defaults, in the order of the layout.  Names are only added to the table, so what an
entry refers to is still there when the list is complete.
-/
import ObjectPackage.Proofs.Block.Sound
import ObjectPackage.Proofs.Tagged.Header
import ObjectPackage.Tagged.PropertyList

namespace ObjectPackage

/-- The header has the name and the type of a property, next to a table. -/
structure Header.Describes (names : NameTable) (property : Property) (header : Header) : Prop where
  named : names.Names header.name property.name
  tag : header.tag = property.type.tag
  structNamed : ∀ layout ∈ property.type.struct?, ∃ id,
    header.structName = some id ∧ names.Names id layout.name
  noStruct : property.type.struct? = none → header.structName = none

theorem Header.Describes.mono {names next : NameTable} {property : Property} {header : Header}
    (h : header.Describes names property) (hgrows : names.Grows next) :
    header.Describes next property := by
  refine { h with named := h.named.mono hgrows, structNamed := fun layout hlayout => ?_ }
  obtain ⟨id, hid, hname⟩ := h.structNamed layout hlayout
  exact ⟨id, hid, hname.mono hgrows⟩

/-- An entry of a saved list. -/
structure Written where
  property : Property
  index : Nat
  header : Header
  head : List UInt8
  payload : List UInt8

namespace Written

def element (entry : Written) : Property × Nat := (entry.property, entry.index)

def bytes (entry : Written) : List UInt8 := entry.head ++ entry.payload

/-- The entry holds the value of its element. -/
structure Valid (block : Block) (names : NameTable) (entry : Written) : Prop where
  describes : entry.header.Describes names entry.property
  size : entry.header.size = UInt32.ofNat entry.payload.length
  index : entry.header.arrayIndex = UInt32.ofNat entry.index
  payload : Save.payload block entry.property entry.index =
    .ok (entry.payload, entry.header.boolValue)
  head : entry.header.encode = .ok entry.head
  single : ¬(entry.property.type.isBool = true ∧ 1 < entry.property.dimension)

theorem Valid.mono {block : Block} {names next : NameTable} {entry : Written}
    (h : entry.Valid block names) (hgrows : names.Grows next) : entry.Valid block next :=
  { h with describes := h.describes.mono hgrows }

end Written

namespace Save

section Runs

variable {α : Type} (state : SaveState)

theorem runFrom_ofExcept (outcome : Except PropertyError α) :
    runFrom state (ofExcept outcome) = (outcome, state) := by
  cases outcome <;> rfl

theorem runFrom_emit (bytes : List UInt8) :
    runFrom state (emit bytes) = (.ok (), ⟨state.names, state.output ++ bytes⟩) := rfl

theorem runFrom_intern (name : String) : runFrom state (intern name) =
    (.ok (state.names.intern name).1, ⟨(state.names.intern name).2, state.output⟩) := rfl

/-- A header is made for its property, and its names are in the table then. -/
theorem header_run (property : Property) (index size : Nat) (boolValue : Bool) :
    ∃ header names, runFrom state (Save.header property index size boolValue) =
        (.ok header, ⟨names, state.output⟩) ∧
      state.names.Grows names ∧ header.size = UInt32.ofNat size ∧
      header.arrayIndex = UInt32.ofNat index ∧ header.boolValue = boolValue ∧
      (names.size ≤ 2 ^ 32 → header.Describes names property) := by
  have hgrows := state.names.intern_grows property.name
  rw [Save.header, runFrom_bind_ok (runFrom_intern state _)]
  cases hstruct : property.type.struct? with
  | none =>
      refine ⟨_, _, rfl, hgrows, rfl, rfl, rfl, fun hsize => ⟨?_, rfl, ?_, fun _ => rfl⟩⟩
      · exact NameTable.intern_names hsize
      · rw [hstruct]
        exact nofun
  | some layout =>
      have hgrows' := (state.names.intern property.name).2.intern_grows layout.name
      refine ⟨_, _, rfl, hgrows.trans hgrows', rfl, rfl, rfl, fun hsize => ⟨?_, rfl, ?_, ?_⟩⟩
      · exact (NameTable.intern_names (Nat.le_trans hgrows'.size_le hsize)).mono hgrows'
      · rintro _ hlayout
        obtain rfl := Option.some.inj (hstruct.symm.trans hlayout)
        exact ⟨_, rfl, NameTable.intern_names hsize⟩
      · rw [hstruct]
        exact nofun

end Runs

variable {block : Block} {defaults : Option Block}

/-- Saving an element adds an entry, or the start of one when it fails. -/
theorem element_run {property : Property} {index : Nat} {state after : SaveState}
    {outcome : Except PropertyError Unit}
    (hrun : runFrom state (Save.element block property index) = (outcome, after)) :
    state.names.Grows after.names ∧
      ((∃ entry : Written, outcome = .ok () ∧ entry.element = (property, index) ∧
          (after.names.size ≤ 2 ^ 32 → entry.Valid block after.names) ∧
          after.output.toList = state.output.toList ++ entry.bytes) ∨
        ∃ error rest, outcome = .error error ∧
          after.output.toList = state.output.toList ++ rest) := by
  rw [Save.element] at hrun
  split at hrun
  · obtain ⟨rfl, rfl⟩ := Prod.mk.inj hrun
    exact ⟨.refl _, .inr ⟨_, [], rfl, (List.append_nil _).symm⟩⟩
  · next hsingle =>
      cases hpayload : Save.payload block property index with
      | error error =>
          rw [hpayload, runFrom_bind_error (runFrom_ofExcept state _)] at hrun
          obtain ⟨rfl, rfl⟩ := Prod.mk.inj hrun
          exact ⟨.refl _, .inr ⟨_, [], rfl, (List.append_nil _).symm⟩⟩
      | ok found =>
          obtain ⟨payload, boolValue⟩ := found
          obtain ⟨header, names, hheader, hgrows, hsize, hindex, hbool, hdescribes⟩ :=
            header_run state property index payload.length boolValue
          rw [hpayload, runFrom_bind_ok (runFrom_ofExcept state _)] at hrun
          dsimp only at hrun
          rw [runFrom_bind_ok hheader, runFrom_bind_ok (runFrom_emit _ _)] at hrun
          cases htrail : header.trail with
          | error error =>
              rw [htrail] at hrun
              obtain ⟨rfl, rfl⟩ := Prod.mk.inj hrun
              exact ⟨hgrows, .inr ⟨_, header.lead, rfl, by simp⟩⟩
          | ok trail =>
              rw [htrail] at hrun
              obtain ⟨rfl, rfl⟩ := Prod.mk.inj hrun
              refine ⟨hgrows, .inl ⟨⟨property, index, header, header.lead ++ trail, payload⟩, rfl,
                rfl, fun hfits => ?_, by simp [Written.bytes]⟩⟩
              refine ⟨hdescribes hfits, hsize, hindex, ?_, ?_, hsingle⟩
              · rw [hpayload, hbool]
              · rw [Header.encode, htrail]
                rfl

/-- Whether an element is known to differ from its default. -/
def differs (block : Block) (defaults : Option Block) (element : Property × Nat) : Bool :=
  match isDefault block defaults element.1 element.2 with
  | .ok same => !same
  | .error _ => false

/-- Entries are added for those of some elements that differ, and they are counted. -/
def Records (block : Block) (defaults : Option Block) (elements : List (Property × Nat))
    (action : Nat → Save Nat) : Prop :=
  ∀ ⦃count state outcome after⦄, runFrom state (action count) = (outcome, after) →
    after.names.size ≤ 2 ^ 32 → state.names.Grows after.names ∧
    ∃ (written : List Written) (rest : List UInt8),
      after.output.toList = state.output.toList ++ (written.flatMap Written.bytes ++ rest) ∧
      (∀ entry ∈ written, entry.Valid block after.names ∧ entry.element ∈ elements) ∧
      ∀ total, outcome = .ok total → rest = [] ∧ total = count + written.length ∧
        written.map Written.element = elements.filter (differs block defaults)

namespace Records

variable {elements more : List (Property × Nat)} {action next : Nat → Save Nat}

theorem pure : Records block defaults [] fun count => Pure.pure count := by
  intro count state outcome after hrun _
  obtain ⟨rfl, rfl⟩ := Prod.mk.inj hrun
  refine ⟨.refl _, [], [], by simp, by simp, ?_⟩
  rintro _ htotal
  obtain rfl := Except.ok.inj htotal
  exact ⟨rfl, rfl, rfl⟩

theorem bind (h : Records block defaults elements action)
    (hnext : Records block defaults more next) :
    Records block defaults (elements ++ more) fun count => action count >>= next := by
  intro count state outcome after hrun hsize
  rcases runFrom_bind_cases hrun with ⟨error, rfl, hfirst⟩ | ⟨total, middle, hfirst, hlast⟩
  · obtain ⟨hgrows, written, rest, houtput, hvalid, -⟩ := h hfirst hsize
    refine ⟨hgrows, written, rest, houtput, fun entry hentry => ?_, nofun⟩
    exact ⟨(hvalid entry hentry).1, List.mem_append_left _ (hvalid entry hentry).2⟩
  · obtain ⟨hgrows', written', rest', houtput', hvalid', htotal'⟩ := hnext hlast hsize
    obtain ⟨hgrows, written, rest, houtput, hvalid, htotal⟩ :=
      h hfirst (Nat.le_trans hgrows'.size_le hsize)
    obtain ⟨rfl, hcount, hwritten⟩ := htotal total rfl
    refine ⟨hgrows.trans hgrows', written ++ written', rest', ?_, fun entry hentry => ?_, ?_⟩
    · rw [houtput', houtput]
      simp
    · rcases List.mem_append.mp hentry with hentry | hentry
      · exact ⟨(hvalid entry hentry).1.mono hgrows',
          List.mem_append_left _ (hvalid entry hentry).2⟩
      · exact ⟨(hvalid' entry hentry).1, List.mem_append_right _ (hvalid' entry hentry).2⟩
    · intro last hlast
      obtain ⟨hrest, hcount', hwritten'⟩ := htotal' last hlast
      refine ⟨hrest, ?_, ?_⟩
      · rw [hcount', hcount, List.length_append, Nat.add_assoc]
      · rw [List.map_append, List.filter_append, hwritten, hwritten']

theorem foldlM {γ : Type} {items : List γ} {elementsOf : γ → List (Property × Nat)}
    {step : Nat → γ → Save Nat}
    (h : ∀ item ∈ items, Records block defaults (elementsOf item) fun count => step count item) :
    Records block defaults (items.flatMap elementsOf) fun count => items.foldlM step count := by
  induction items with
  | nil => exact .pure
  | cons item items ih =>
      obtain ⟨hfirst, hrest⟩ := List.forall_mem_cons.mp h
      exact hfirst.bind (ih hrest)

/-- A count of its own may be added to the count so far. -/
theorem add (h : Records block defaults elements action) :
    Records block defaults elements fun count => do return count + (← action 0) := by
  intro count state outcome after hrun hsize
  rcases runFrom_bind_cases hrun with ⟨error, rfl, hfirst⟩ | ⟨total, middle, hfirst, hlast⟩
  · obtain ⟨hgrows, written, rest, houtput, hvalid, -⟩ := h hfirst hsize
    exact ⟨hgrows, written, rest, houtput, hvalid, nofun⟩
  · obtain ⟨rfl, rfl⟩ := Prod.mk.inj hlast
    obtain ⟨hgrows, written, rest, houtput, hvalid, htotal⟩ := h hfirst hsize
    obtain ⟨hrest, hcount, hwritten⟩ := htotal total rfl
    refine ⟨hgrows, written, rest, houtput, hvalid, ?_⟩
    rintro _ hsum
    obtain rfl := Except.ok.inj hsum
    exact ⟨hrest, by rw [hcount, Nat.zero_add], hwritten⟩

/-- One element is saved if it differs. -/
theorem element (block : Block) (defaults : Option Block) (property : Property) (index : Nat) :
    Records block defaults [(property, index)] fun count => do
      if ← ofExcept (isDefault block defaults property index) then return count
      Save.element block property index
      return count + 1 := by
  intro count state outcome after hrun hsize
  have hfilter : ([(property, index)] : List (Property × Nat)).filter (differs block defaults) =
      if differs block defaults (property, index) then [(property, index)] else [] := by
    rw [List.filter_cons, List.filter_nil]
  rw [differs] at hfilter
  cases hdefault : isDefault block defaults property index with
  | error error =>
      rw [hdefault, runFrom_bind_error (runFrom_ofExcept state _)] at hrun
      obtain ⟨rfl, rfl⟩ := Prod.mk.inj hrun
      exact ⟨.refl _, [], [], by simp, by simp, nofun⟩
  | ok same =>
      rw [hdefault] at hfilter
      rw [hdefault, runFrom_bind_ok (runFrom_ofExcept state _)] at hrun
      cases same with
      | true =>
          obtain ⟨rfl, rfl⟩ := Prod.mk.inj hrun
          refine ⟨.refl _, [], [], by simp, by simp, ?_⟩
          rintro _ htotal
          obtain rfl := Except.ok.inj htotal
          exact ⟨rfl, rfl, hfilter.symm⟩
      | false =>
          rcases runFrom_bind_cases hrun with ⟨error, rfl, hstep⟩ | ⟨_, middle, hstep, hlast⟩
          · obtain ⟨hgrows, ⟨entry, hok, -⟩ | ⟨cause, rest, -, houtput⟩⟩ := element_run hstep
            · cases hok
            · exact ⟨hgrows, [], rest, houtput, by simp, nofun⟩
          · obtain ⟨rfl, rfl⟩ := Prod.mk.inj hlast
            obtain ⟨hgrows, ⟨entry, -, helement, hvalid, houtput⟩ | ⟨cause, rest, herror, -⟩⟩ :=
              element_run hstep
            · refine ⟨hgrows, [entry], [], by simpa using houtput, ?_, ?_⟩
              · intro other hother
                obtain rfl := List.mem_singleton.mp hother
                exact ⟨hvalid hsize, by rw [helement]; exact List.mem_singleton_self _⟩
              · rintro _ htotal
                obtain rfl := Except.ok.inj htotal
                exact ⟨rfl, rfl, by rw [hfilter, List.map_singleton, helement]; rfl⟩
            · cases herror

end Records

end Save

/-- The elements that are saved. -/
def StructLayout.saved (layout : StructLayout) : List (Property × Nat) :=
  Block.elementsOf (layout.properties.filter fun property => !property.flags.has .transient)

theorem Save.property_records (block : Block) (defaults : Option Block) (property : Property) :
    Records block defaults
      (Block.elementsOf ([property].filter fun property => !property.flags.has .transient))
      fun count => do return count + (← Save.property block defaults property) := by
  cases htransient : property.flags.has .transient with
  | true =>
      have hskipped : Save.property block defaults property = pure 0 := by
        rw [Save.property, if_pos htransient]
      have hnone : [property].filter (fun property => !property.flags.has .transient) = [] := by
        simp [htransient]
      rw [hskipped, hnone]
      exact Records.pure
  | false =>
      have hself : [property].filter (fun property => !property.flags.has .transient) =
          [property] := by
        simp [htransient]
      have helements : Block.elementsOf [property] =
          (List.range property.dimension).flatMap fun index => [(property, index)] := by
        simp [Block.elementsOf, List.map_eq_flatMap]
      have hsaved : Save.property block defaults property =
          (List.range property.dimension).foldlM (fun written index => do
            if ← ofExcept (isDefault block defaults property index) then return written
            Save.element block property index
            return written + 1) 0 := by
        rw [Save.property, htransient]
        rfl
      rw [hself, helements, hsaved]
      exact (Records.foldlM fun index _ => Records.element block defaults property index).add

/-- What a save has added, whether it has come to an end or not. -/
theorem Block.saveProperties_run {block : Block} {defaults : Option Block} {names : NameTable}
    {outcome : Except PropertyError Nat} {after : SaveState}
    (hrun : block.saveProperties defaults names = (outcome, after))
    (hsize : after.names.size ≤ 2 ^ 32) :
    names.Grows after.names ∧ ∃ (written : List Written) (rest : List UInt8),
      after.output.toList = written.flatMap Written.bytes ++ rest ∧
      (∀ entry ∈ written, entry.Valid block after.names ∧ entry.element ∈ block.layout.saved) ∧
      ∀ total, outcome = .ok total → total = written.length ∧
        written.map Written.element =
          block.layout.saved.filter (Save.differs block defaults) ∧
        ∃ id, after.names.Names id noneName ∧ rest = Encode.name id := by
  have hsaved : block.layout.properties.flatMap (fun property =>
      elementsOf ([property].filter fun property => !property.flags.has .transient)) =
      block.layout.saved := by
    rw [StructLayout.saved]
    induction block.layout.properties with
    | nil => rfl
    | cons property rest ih =>
        rw [List.flatMap_cons, ih]
        cases htransient : property.flags.has .transient <;>
          simp [htransient, elementsOf]
  have hrecords := Save.Records.foldlM fun property (_ : property ∈ block.layout.properties) =>
    Save.property_records block defaults property
  rw [hsaved] at hrecords
  change runFrom ⟨names, #[]⟩ (Save.properties block defaults) = _ at hrun
  rw [Save.properties] at hrun
  rcases runFrom_bind_cases hrun with ⟨error, rfl, hfirst⟩ | ⟨total, middle, hfirst, hlast⟩
  · obtain ⟨hgrows, written, rest, houtput, hvalid, -⟩ := hrecords hfirst hsize
    exact ⟨hgrows, written, rest, houtput, hvalid, by rintro _ ⟨⟩⟩
  · rw [runFrom_bind_ok (Save.runFrom_intern _ _), runFrom_bind_ok (Save.runFrom_emit _ _)] at hlast
    obtain ⟨rfl, rfl⟩ := Prod.mk.inj hlast
    have hgrows' := middle.names.intern_grows noneName
    obtain ⟨hgrows, written, rest, houtput, hvalid, htotal⟩ :=
      hrecords hfirst (Nat.le_trans hgrows'.size_le hsize)
    obtain ⟨rfl, hcount, hwritten⟩ := htotal total rfl
    refine ⟨hgrows.trans hgrows', written, Encode.name (middle.names.intern noneName).1, ?_, ?_, ?_⟩
    · simp [houtput]
    · exact fun entry hentry => ⟨(hvalid entry hentry).1.mono hgrows', (hvalid entry hentry).2⟩
    · rintro _ htotal
      obtain rfl := Except.ok.inj htotal
      exact ⟨by rw [hcount, Nat.zero_add], hwritten, _, NameTable.intern_names hsize, rfl⟩

end ObjectPackage
