/-
Handle cells.  The texts and containers of a value are named by handles, which stand in
the value itself or in a buffer that another handle names.  Where a location owns its
value, the cells that can be reached name the owned slots, each slot once.
-/
import ObjectPackage.Proofs.Store.Query

namespace ObjectPackage

namespace Store

/-- The cells of a value of a type: texts and containers in it, and in the buffers that
its containers name. -/
inductive CellOf (store : Store) : PropertyType → Location → PropertyType → Location → Prop
  | here {type : PropertyType} {location : Location}
      (h : type.storage = .text ∨ type.storage = .container) :
      CellOf store type location type location
  | part {type cell : PropertyType} {location cellAt : Location} {part : Part}
      (hstorage : type.storage = .inline) (hpart : part ∈ type.parts)
      (h : CellOf store part.type (location.shift part.offset) cell cellAt) :
      CellOf store type location cell cellAt
  | unit {type cell : PropertyType} {location cellAt : Location} {part : Part} {slot count : Nat}
      (hstorage : type.storage = .container) (hhandle : store.handle location = .ok (some slot))
      (hcount : store.count slot = .ok count) (hpart : part ∈ type.unitParts count)
      (h : CellOf store part.type ((Location.element slot 0).shift part.offset) cell cellAt) :
      CellOf store type location cell cellAt

/-- A slot holds what a cell of a type may name. -/
inductive Backs (store : Store) (slot : Nat) : PropertyType → Prop
  | text {text : String} (h : store.heap[slot]? = some (.text text)) : Backs store slot .str
  | array {element : PropertyType} {bytes : Array UInt8} {count : Nat}
      (h : store.heap[slot]? = some (.elements bytes count))
      (hsize : bytes.size = count * element.pitch) : Backs store slot (.array element)
  | map {key value : PropertyType} {bytes : Array UInt8} {count : Nat}
      (h : store.heap[slot]? = some (.elements bytes count))
      (hsize : bytes.size = count * key.entryPitch value) : Backs store slot (.map key value)

variable {store : Store} {type cell : PropertyType} {location cellAt : Location} {mask : UInt32}
  {value : Value} {values : List Value} {slots : List Nat} {parts : List Part} {slot count : Nat}

theorem backs_container (hstorage : type.storage = .container) {bytes : Array UInt8}
    (hcontent : store.content (.slot slot) = some (.elements bytes count))
    (hsize : bytes.size = count * type.unitPitch) : store.Backs slot type := by
  obtain ⟨hslot, -⟩ := content_slot.mp hcontent
  cases type with
  | array element => exact .array hslot hsize
  | map key value => exact .map hslot hsize
  | _ => cases hstorage

theorem Backs.live (h : store.Backs slot cell) : store.content (.slot slot) ≠ none := by
  cases h <;> simp_all [content, HeapValue.isFree]

/-- Every cell that is reached can be read, and names an owned slot of its kind. -/
theorem Holds.names (h : store.Holds type location mask value slots)
    (hcell : store.CellOf type location cell cellAt) :
    ∃ handle, store.handle cellAt = .ok handle ∧
      ∀ slot ∈ handle, slot ∈ slots ∧ store.Backs slot cell := by
  induction type using PropertyType.induction_on generalizing location mask value slots with
  | scalar type hstorage => cases hcell <;> simp_all
  | bits => cases hcell <;> simp_all [PropertyType.storage]
  | text =>
      cases hcell with
      | here =>
          rcases holds_str.mp h with ⟨hhandle, -, rfl⟩ | ⟨slot, text, hhandle, hcontent, -, rfl⟩
          · exact ⟨none, hhandle, by simp⟩
          · refine ⟨some slot, hhandle, ?_⟩
            rintro other hother
            obtain rfl := Option.some.inj hother
            exact ⟨by simp, .text (content_slot.mp hcontent).1⟩
      | part hstorage => cases hstorage
      | unit hstorage => cases hstorage
  | inline type hstorage ih =>
      cases hcell with
      | here h => simp_all
      | part _ hpart hcell =>
          obtain ⟨-, values, -, hparts⟩ := (holds_inline hstorage).mp h
          obtain ⟨value, -, first, hsub, hfirst⟩ := hparts.of_mem hpart
          obtain ⟨handle, hhandle, hnames⟩ := ih _ hpart hfirst hcell
          refine ⟨handle, hhandle, fun slot hslot => ?_⟩
          exact ⟨hsub slot (hnames slot hslot).1, (hnames slot hslot).2⟩
      | unit h => cases hstorage.symm.trans h
  | container type hstorage ih =>
      cases hcell with
      | here =>
          rcases (holds_container hstorage).mp h with ⟨hhandle, -, rfl⟩ |
            ⟨slot, count, values, inner, ⟨hhandle, bytes, hcontent, hsize⟩, -, -, rfl⟩
          · exact ⟨none, hhandle, by simp⟩
          · refine ⟨some slot, hhandle, ?_⟩
            rintro other hother
            obtain rfl := Option.some.inj hother
            exact ⟨by simp, backs_container hstorage hcontent hsize⟩
      | part h => cases hstorage.symm.trans h
      | unit _ hhandle hcount hpart hcell =>
          rcases (holds_container hstorage).mp h with ⟨hnone, -, -⟩ |
            ⟨slot, count, values, inner, hbuffer, hunits, -, rfl⟩
          · cases hnone.symm.trans hhandle
          · obtain rfl := Option.some.inj (Except.ok.inj (hbuffer.handle.symm.trans hhandle))
            obtain ⟨bytes, hcontent, -⟩ := hbuffer.content
            obtain rfl := Except.ok.inj ((count_eq_ok.mpr ⟨bytes, hcontent⟩).symm.trans hcount)
            obtain ⟨value, -, first, hsub, hfirst⟩ := hunits.of_mem hpart
            obtain ⟨handle, hhandle', hnames⟩ := ih _ _ hpart hfirst hcell
            refine ⟨handle, hhandle', fun other hother => ?_⟩
            exact ⟨List.mem_cons_of_mem _ (hsub other (hnames other hother).1),
              (hnames other hother).2⟩

/-- Every owned slot is named by a cell that is reached. -/
theorem Holds.named (h : store.Holds type location mask value slots) (hslot : slot ∈ slots) :
    ∃ cell cellAt, store.CellOf type location cell cellAt ∧
      store.handle cellAt = .ok (some slot) := by
  induction type using PropertyType.induction_on generalizing location mask value slots with
  | scalar type hstorage =>
      obtain ⟨-, -, -, rfl⟩ := (holds_scalar hstorage).mp h
      cases hslot
  | bits =>
      obtain ⟨-, -, -, rfl⟩ := holds_bool.mp h
      cases hslot
  | text =>
      rcases holds_str.mp h with ⟨-, -, rfl⟩ | ⟨slot, text, hhandle, -, -, rfl⟩
      · cases hslot
      · obtain rfl := List.mem_singleton.mp hslot
        exact ⟨_, _, .here (Or.inl rfl), hhandle⟩
  | inline type hstorage ih =>
      obtain ⟨-, values, -, hparts⟩ := (holds_inline hstorage).mp h
      obtain ⟨part, hpart, value, first, hmem, hfirst⟩ := hparts.of_mem_slots hslot
      obtain ⟨cell, cellAt, hcell, hhandle⟩ := ih part hpart hfirst hmem
      exact ⟨cell, cellAt, .part hstorage hpart hcell, hhandle⟩
  | container type hstorage ih =>
      rcases (holds_container hstorage).mp h with ⟨-, -, rfl⟩ |
        ⟨buffer, count, values, inner, hbuffer, hunits, -, rfl⟩
      · cases hslot
      · rcases List.mem_cons.mp hslot with rfl | hslot
        · exact ⟨_, _, .here (Or.inr hstorage), hbuffer.handle⟩
        · obtain ⟨part, hpart, value, first, hmem, hfirst⟩ := hunits.of_mem_slots hslot
          obtain ⟨cell, cellAt, hcell, hhandle⟩ := ih count part hpart hfirst hmem
          obtain ⟨bytes, hcontent, -⟩ := hbuffer.content
          exact ⟨cell, cellAt, .unit hstorage hbuffer.handle (count_eq_ok.mpr ⟨bytes, hcontent⟩)
            hpart hcell, hhandle⟩

/-- Two cells that name one slot are the same cell. -/
def NamesOnce (store : Store) (type : PropertyType) (location : Location) : Prop :=
  ∀ {cell cell' : PropertyType} {cellAt cellAt' : Location} {slot : Nat},
    store.CellOf type location cell cellAt → store.handle cellAt = .ok (some slot) →
    store.CellOf type location cell' cellAt' → store.handle cellAt' = .ok (some slot) →
    cell = cell' ∧ cellAt = cellAt'

theorem Holds.mem_of_names (h : store.Holds type location mask value slots)
    (hcell : store.CellOf type location cell cellAt) (hhandle : store.handle cellAt = .ok (some slot)) :
    slot ∈ slots := by
  obtain ⟨handle, hhandle', hnames⟩ := h.names hcell
  obtain rfl := Except.ok.inj (hhandle'.symm.trans hhandle)
  exact (hnames slot rfl).1

theorem HoldsAll.names_once (h : store.HoldsAll location parts values slots) (hnodup : slots.Nodup)
    (honce : ∀ part ∈ parts, ∀ value first,
      store.Holds part.type (location.shift part.offset) part.mask value first → first.Nodup →
        store.NamesOnce part.type (location.shift part.offset))
    {left right : Part} (hleft : left ∈ parts) (hright : right ∈ parts)
    {cell cell' : PropertyType} {cellAt cellAt' : Location}
    (hcell : store.CellOf left.type (location.shift left.offset) cell cellAt)
    (hhandle : store.handle cellAt = .ok (some slot))
    (hcell' : store.CellOf right.type (location.shift right.offset) cell' cellAt')
    (hhandle' : store.handle cellAt' = .ok (some slot)) : cell = cell' ∧ cellAt = cellAt' := by
  induction parts generalizing values slots with
  | nil => cases hleft
  | cons part parts ih =>
      cases h with
      | @cons _ _ _ value values first rest hfirst hrest =>
          obtain ⟨hnodupFirst, hnodupRest, hdisjoint⟩ := List.nodup_append.mp hnodup
          have hlast {other : Part} (hother : other ∈ parts) {cell : PropertyType}
              {cellAt : Location}
              (hcell : store.CellOf other.type (location.shift other.offset) cell cellAt)
              (hhandle : store.handle cellAt = .ok (some slot)) : slot ∈ rest := by
            obtain ⟨value, -, inner, hsub, hinner⟩ := hrest.of_mem hother
            exact hsub slot (hinner.mem_of_names hcell hhandle)
          rcases List.mem_cons.mp hleft with rfl | hleft
          · have hslot := hfirst.mem_of_names hcell hhandle
            rcases List.mem_cons.mp hright with rfl | hright
            · exact honce _ List.mem_cons_self _ _ hfirst hnodupFirst hcell hhandle hcell' hhandle'
            · exact absurd rfl (hdisjoint slot hslot slot (hlast hright hcell' hhandle'))
          · have hslot := hlast hleft hcell hhandle
            rcases List.mem_cons.mp hright with rfl | hright
            · have hslot' := hfirst.mem_of_names hcell' hhandle'
              exact absurd rfl (hdisjoint slot hslot' slot hslot)
            · exact ih hrest hnodupRest
                (fun part hpart => honce part (List.mem_cons_of_mem _ hpart)) hleft hright

/-- Where no slot is owned twice, none is named twice. -/
theorem Holds.names_once (h : store.Holds type location mask value slots) (hnodup : slots.Nodup) :
    store.NamesOnce type location := by
  induction type using PropertyType.induction_on generalizing location mask value slots with
  | scalar type hstorage =>
      intro cell cell' cellAt cellAt' slot hcell
      cases hcell <;> simp_all
  | bits =>
      intro cell cell' cellAt cellAt' slot hcell
      cases hcell <;> simp_all [PropertyType.storage]
  | text =>
      intro cell cell' cellAt cellAt' slot hcell _ hcell' _
      cases hcell with
      | here =>
          cases hcell' with
          | here => exact ⟨rfl, rfl⟩
          | part hstorage => cases hstorage
          | unit hstorage => cases hstorage
      | part hstorage => cases hstorage
      | unit hstorage => cases hstorage
  | inline type hstorage ih =>
      intro cell cell' cellAt cellAt' slot hcell hhandle hcell' hhandle'
      obtain ⟨-, values, -, hparts⟩ := (holds_inline hstorage).mp h
      cases hcell with
      | here h => simp_all
      | unit h => cases hstorage.symm.trans h
      | part _ hpart hcell =>
          cases hcell' with
          | here h => simp_all
          | unit h => cases hstorage.symm.trans h
          | part _ hpart' hcell' =>
              exact hparts.names_once hnodup (fun part hpart _ _ => ih part hpart) hpart hpart'
                hcell hhandle hcell' hhandle'
  | container type hstorage ih =>
      intro cell cell' cellAt cellAt' slot hcell hhandle hcell' hhandle'
      rcases (holds_container hstorage).mp h with ⟨hnone, -, -⟩ |
        ⟨buffer, count, values, inner, hbuffer, hunits, -, rfl⟩
      · cases hcell with
        | here => cases hnone.symm.trans hhandle
        | part h => cases hstorage.symm.trans h
        | unit _ hsome => cases hnone.symm.trans hsome
      · obtain ⟨hbufferNew, hnodupInner⟩ := List.nodup_cons.mp hnodup
        obtain ⟨bytes, hcontent, -⟩ := hbuffer.content
        -- a cell is the container itself, or one in a unit that names an inner slot
        have hcases {cell : PropertyType} {cellAt : Location}
            (hcell : store.CellOf type location cell cellAt)
            (hhandle : store.handle cellAt = .ok (some slot)) :
            (cell = type ∧ cellAt = location ∧ slot = buffer) ∨
              slot ∈ inner ∧ ∃ part ∈ type.unitParts count,
                store.CellOf part.type ((Location.element buffer 0).shift part.offset) cell
                  cellAt := by
          cases hcell with
          | here =>
              have hslot := hhandle.symm.trans hbuffer.handle
              exact Or.inl ⟨rfl, rfl, Option.some.inj (Except.ok.inj hslot)⟩
          | part h => cases hstorage.symm.trans h
          | unit _ hsome hcount hpart hcell =>
              obtain rfl := Option.some.inj (Except.ok.inj (hbuffer.handle.symm.trans hsome))
              obtain rfl := Except.ok.inj ((count_eq_ok.mpr ⟨bytes, hcontent⟩).symm.trans hcount)
              obtain ⟨value, -, first, hsub, hfirst⟩ := hunits.of_mem hpart
              exact Or.inr ⟨hsub slot (hfirst.mem_of_names hcell hhandle), _, hpart, hcell⟩
        rcases hcases hcell hhandle with ⟨rfl, rfl, rfl⟩ | ⟨hinner, part, hpart, hunit⟩
        · rcases hcases hcell' hhandle' with ⟨rfl, rfl, -⟩ | ⟨hinner, -⟩
          · exact ⟨rfl, rfl⟩
          · exact absurd hinner hbufferNew
        · rcases hcases hcell' hhandle' with ⟨-, -, rfl⟩ | ⟨-, part', hpart', hunit'⟩
          · exact absurd hinner hbufferNew
          · exact hunits.names_once hnodupInner (fun part hpart _ _ => ih count part hpart) hpart
              hpart' hunit hhandle hunit' hhandle'

end Store

end ObjectPackage
