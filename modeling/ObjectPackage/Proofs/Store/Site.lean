/-
Sites.  The values of a store lie one inside of the other: parts of the root bytes, parts of
inline values, and units in the buffers of containers.  In a store that owns its heap each of
these places owns its value, and a value that is exchanged in its place leaves the rest of the
store as it should be.
-/
import ObjectPackage.Proofs.Block.Ownership

namespace ObjectPackage

namespace Store

/-- A slot that a handle cell of a value names. -/
def Reaches (store : Store) (type : PropertyType) (location : Location) (slot : Nat) : Prop :=
  ∃ cell cellAt, store.CellOf type location cell cellAt ∧ store.handle cellAt = .ok (some slot)

/-- The handle cells of all values of a store whose root bytes are laid out in parts. -/
def Cell (store : Store) (parts : List Part) (cell : PropertyType) (cellAt : Location) : Prop :=
  ∃ part ∈ parts, store.CellOf part.type ((Location.root 0).shift part.offset) cell cellAt

/-- The places of the values of a store, with their types and masks. -/
inductive Site (store : Store) (parts : List Part) : PropertyType → Location → UInt32 → Prop
  | root {part : Part} (hpart : part ∈ parts) :
      Site store parts part.type ((Location.root 0).shift part.offset) part.mask
  | part {type : PropertyType} {location : Location} {mask : UInt32} {part : Part}
      (h : Site store parts type location mask) (hstorage : type.storage = .inline)
      (hpart : part ∈ type.parts) :
      Site store parts part.type (location.shift part.offset) part.mask
  | unit {type : PropertyType} {location : Location} {mask : UInt32} {part : Part}
      {slot count : Nat} (h : Site store parts type location mask)
      (hstorage : type.storage = .container) (hhandle : store.handle location = .ok (some slot))
      (hcount : store.count slot = .ok count) (hpart : part ∈ type.unitParts count) :
      Site store parts part.type ((Location.element slot 0).shift part.offset) part.mask

/-- The parts of the root bytes have no bit in common and own their values, so every handle
can be followed and no slot is named twice. -/
structure WellFormed (store : Store) (parts : List Part) : Prop where
  spread : Spread parts
  owned : ∃ values slots, store.OwnsAll (.root 0) parts values slots

variable {store after : Store} {parts : List Part} {part : Part} {type cell : PropertyType}
  {location cellAt : Location} {mask : UInt32} {value value' : Value} {values : List Value}
  {slots slots' owned owned' : List Nat} {slot count : Nat}

/-- The slots that are reached are those that are owned. -/
theorem Holds.reaches (h : store.Holds type location mask value slots) :
    store.Reaches type location slot ↔ slot ∈ slots :=
  ⟨fun ⟨_, _, hcell, hhandle⟩ => h.mem_of_names hcell hhandle, h.named⟩

/-- A part owns its value.  It can be exchanged for another value, and the other parts stay
as they are. -/
theorem OwnsAll.of_part (h : store.OwnsAll location parts values slots) (hspread : Spread parts)
    (hpart : part ∈ parts) : ∃ value first,
      store.Owns part.type (location.shift part.offset) part.mask value first ∧
      ∀ {after : Store} {value' : Value} {first' : List Nat},
        after.Owns part.type (location.shift part.offset) part.mask value' first' →
        store.Change after (part.Touched location) first first' →
          ∃ values' slots', after.OwnsAll location parts values' slots' ∧
            store.Change after (touchedBy location parts) slots slots' := by
  obtain ⟨left, right, rfl⟩ := List.append_of_mem hpart
  have hself : part ∈ [part] := List.mem_singleton_self part
  have hspread' : Spread (left ++ ([part] ++ right)) := hspread
  have hsplit : store.HoldsAll location (left ++ ([part] ++ right)) values slots := h.holds
  obtain ⟨_, _, first, _, rfl, rfl, hfirst, hrest⟩ := hsplit.split
  obtain ⟨_, _, inner, last, rfl, rfl, hinner, hlast⟩ := hrest.split
  obtain ⟨value, rfl, hvalue⟩ := HoldsAll.single.mp hinner
  have hnodup := (List.nodup_append.mp (List.nodup_append.mp h.nodup).2.1).1
  have hapart : ¬location.region.Among inner := by
    have hall := h.apart
    simp only [Region.among_append, not_or] at hall
    exact hall.2.1
  have hresolved := hspread'.right.left.resolved part hself
  have hbits : ∀ other ∈ left ++ right, ∀ bit, other.Touched location location.region bit →
      ¬part.Touched location location.region bit := by
    intro other hother bit hbit hbit'
    rcases List.mem_append.mp hother with hother | hother
    · exact (hspread'.apart_of_append hother (List.mem_append_left _ hself)).not_touched
        (hspread'.left.resolved other hother) hresolved hbit hbit'
    · exact (hspread'.right.apart_of_append hself hother).not_touched hresolved
        (hspread'.right.right.resolved other hother) hbit' hbit
  refine ⟨value, inner, ⟨hvalue, hnodup, hapart⟩, fun hafter hchange => ?_⟩
  obtain ⟨-, -, hall⟩ := OwnsAll.replace hfirst hlast (by simpa using h.nodup)
    (by simpa using h.apart) (ownsAll_single.mpr ⟨_, rfl, hafter⟩) hchange
    (fun _ _ hbit => hbit.1) hbits
  refine ⟨_, first ++ _ ++ last, by simpa using hall, ?_⟩
  rw [← List.append_assoc]
  exact (hchange.frame first last).mono fun _ _ hbit => Or.inl ⟨part, hpart, hbit⟩

/-- The value of every site is of a resolved type. -/
theorem Site.resolved (h : store.Site parts type location mask) (hspread : Spread parts) :
    type.Resolved ∧ (type = .bool → mask ≠ 0) := by
  induction h with
  | root hpart => exact ⟨hspread.resolved _ hpart, hspread.masked _ hpart⟩
  | part _ _ hpart ih => exact ⟨ih.1.of_mem_parts hpart, ih.1.spread.masked _ hpart⟩
  | @unit _ _ _ _ _ count _ _ _ _ hpart ih =>
      exact ⟨ih.1.of_mem_unitParts hpart, (ih.1.unit_spread count).masked _ hpart⟩

/-- The handle cells of a site are handle cells of the store. -/
theorem Site.cell_of (h : store.Site parts type location mask)
    (hcell : store.CellOf type location cell cellAt) : store.Cell parts cell cellAt := by
  induction h with
  | root hpart => exact ⟨_, hpart, hcell⟩
  | part _ hstorage hpart ih => exact ih (.part hstorage hpart hcell)
  | unit _ hstorage hhandle hcount hpart ih => exact ih (.unit hstorage hhandle hcount hpart hcell)

/-- Every site owns its value, which can be exchanged for another one. -/
theorem Site.owns (h : store.Site parts type location mask) (hstore : store.WellFormed parts) :
    ∃ value slots, store.Owns type location mask value slots ∧
      ∀ {after : Store} {value' : Value} {slots' : List Nat},
        after.Owns type location mask value' slots' →
        store.Change after (type.Touched location mask) slots slots' → after.WellFormed parts := by
  induction h with
  | root hpart =>
      obtain ⟨values, slots, howned⟩ := hstore.owned
      obtain ⟨value, first, howns, hexchange⟩ := howned.of_part hstore.spread hpart
      refine ⟨value, first, howns, fun hafter hchange => ⟨hstore.spread, ?_⟩⟩
      obtain ⟨values', slots', howned', -⟩ := hexchange hafter hchange
      exact ⟨values', slots', howned'⟩
  | part houter hstorage hpart ih =>
      obtain ⟨_, slots, howns, houterExchange⟩ := ih
      have hresolved := (houter.resolved hstore.spread).1
      obtain ⟨hroom, values, -, hparts⟩ := (holds_inline hstorage).mp howns.holds
      obtain ⟨value, first, hfirst, hexchange⟩ :=
        OwnsAll.of_part ⟨hparts, howns.nodup, howns.apart⟩ hresolved.spread hpart
      refine ⟨value, first, hfirst, fun hafter hchange => ?_⟩
      obtain ⟨values', slots', howned', hchange'⟩ := hexchange hafter hchange
      refine @houterExchange _ _ slots' ⟨.inline hstorage ?_ howned'.holds, howned'.nodup,
        howned'.apart⟩ (hchange'.mono fun _ _ hbit => Or.inl ((touched_inline hstorage).mpr hbit))
      exact hroom.of_change hchange' howns.apart
  | @unit type _ _ _ slot count houter hstorage hhandle hcount hpart ih =>
      obtain ⟨_, _, howns, houterExchange⟩ := ih
      have hresolved := (houter.resolved hstore.spread).1
      rcases howns.container hstorage with ⟨hnone, -, -⟩ |
        ⟨slot', count', values, inner, hbuffer, hslot, hapart, hunits, -, rfl⟩
      · cases hnone.symm.trans hhandle
      · obtain rfl := Option.some.inj (Except.ok.inj (hbuffer.handle.symm.trans hhandle))
        obtain ⟨bytes, hcontent, -⟩ := hbuffer.content
        obtain rfl := Except.ok.inj ((count_eq_ok.mpr ⟨bytes, hcontent⟩).symm.trans hcount)
        obtain ⟨value, first, hfirst, hexchange⟩ :=
          hunits.of_part (hresolved.unit_spread count') hpart
        refine ⟨value, first, hfirst, fun hafter hchange => ?_⟩
        obtain ⟨values', inner', howned', hchange'⟩ := hexchange hafter hchange
        have hinside : ∀ region bit,
            touchedBy (.element slot' 0) (type.unitParts count') region bit →
              region = .slot slot' :=
          fun _ _ => touchedBy.region
        obtain ⟨howns', -⟩ := hbuffer.refill hapart hslot hchange' hinside hstorage howned'
        -- bits of the buffer are bits of a slot that is owned
        exact houterExchange howns' ((hchange'.frameLeft [slot']).mono fun region bit hbit =>
          Or.inr (Or.inl (Region.among_cons.mpr (Or.inl (hinside region bit hbit)))))

/-- A slot is named by one cell. -/
theorem WellFormed.names_once (h : store.WellFormed parts) {cell' : PropertyType}
    {cellAt' : Location} (hcell : store.Cell parts cell cellAt)
    (hhandle : store.handle cellAt = .ok (some slot)) (hcell' : store.Cell parts cell' cellAt')
    (hhandle' : store.handle cellAt' = .ok (some slot)) : cell = cell' ∧ cellAt = cellAt' := by
  obtain ⟨values, slots, howned⟩ := h.owned
  obtain ⟨part, hpart, hcell⟩ := hcell
  obtain ⟨part', hpart', hcell'⟩ := hcell'
  exact howned.holds.names_once howned.nodup (fun _ _ _ _ hholds => hholds.names_once) hpart
    hpart' hcell hhandle hcell' hhandle'

/-- A slot that is named by a cell is in use. -/
theorem WellFormed.live (h : store.WellFormed parts) (hcell : store.Cell parts cell cellAt)
    (hhandle : store.handle cellAt = .ok (some slot)) : store.content (.slot slot) ≠ none := by
  obtain ⟨values, slots, howned⟩ := h.owned
  obtain ⟨part, hpart, hcell⟩ := hcell
  obtain ⟨value, -, first, -, hfirst⟩ := howned.holds.of_mem hpart
  exact hfirst.live slot (hfirst.mem_of_names hcell hhandle)

end Store

/-- The store of a block that was made is well-formed. -/
theorem Block.Made.wellFormed {layouts : List StructLayout} {block : Block}
    (hlayouts : Catalogue layouts) (h : Block.Made layouts block) :
    block.store.WellFormed (memberParts block.layout.properties) := by
  obtain ⟨hlayout, values, slots, howns, -⟩ := h.sound hlayouts
  exact ⟨(hlayouts.built _ hlayout).spread, values, slots, howns⟩

end ObjectPackage
