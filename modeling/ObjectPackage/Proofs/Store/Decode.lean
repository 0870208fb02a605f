/-
Values of a stream.  The bytes alone decide which value they stand for and where the next
one starts; no store has a part in it.  A saved value stands behind its own bytes, and
what is wrong with other bytes is wrong with the stream.
-/
import ObjectPackage.Proofs.Store.Payload

namespace ObjectPackage

/-- Decoding reports what loading reports, but it has a cursor only. -/
abbrev Decoder := ExceptT PropertyError (StateM Cursor)

variable {α β : Type}

namespace Decoder

def read (action : Read α) : Decoder α := do
  match (← get).read action with
  | (.ok value, cursor) =>
      set cursor
      return value
  | (.error error, cursor) =>
      set cursor
      throw (.stream error)

/-- Number of elements of a container, which is not above the number of bytes left. -/
def count : Decoder Nat := do
  let count := (← read Read.index).toInt
  let rest := (← get).rest
  if count < 0 ∨ (rest.take count.toNat).length < count.toNat then
    throw (.invalidCount count rest.length)
  return count.toNat

/-- The values of so many runs, in order. -/
def times (action : Decoder (List Value)) : Nat → Decoder (List Value)
  | 0 => return []
  | count + 1 => return (← action) ++ (← times action count)

theorem runFrom_read (cursor : Cursor) (action : Read α) :
    runFrom cursor (read action) =
      match runFrom cursor action with
      | (.ok value, next) => (.ok value, next)
      | (.error error, next) => (.error (.stream error), next) := by
  rw [read, runFrom_bind_ok (runFrom_get _)]
  cases hrun : runFrom cursor action with
  | mk result next =>
      have hread : cursor.read action = (result, next) := hrun
      rw [hread]
      cases result <;> rfl

/-- The decoder takes exactly these bytes to the value. -/
def Takes (action : Decoder α) (input : List UInt8) (value : α) : Prop :=
  ∀ pos rest, runFrom ⟨pos, input ++ rest⟩ action = (.ok value, ⟨pos + input.length, rest⟩)

namespace Takes

variable {action : Decoder α} {input more : List UInt8} {value : α}

theorem read {action : Read α} (h : action.Takes input value) :
    (Decoder.read action).Takes input value := by
  intro pos rest
  rw [runFrom_read, h pos rest]

theorem pure (value : α) : Takes (Pure.pure value) [] value :=
  fun _ _ => rfl

theorem bind {next : α → Decoder β} {result : β} (h : action.Takes input value)
    (hnext : (next value).Takes more result) : (action >>= next).Takes (input ++ more) result := by
  intro pos rest
  rw [List.append_assoc, runFrom_bind_ok (h pos (more ++ rest)), hnext, List.length_append,
    Nat.add_assoc]

theorem map (f : α → β) (h : action.Takes input value) : (f <$> action).Takes input (f value) := by
  intro pos rest
  rw [runFrom_map, h]

end Takes

/-- A count is taken if there is a byte for each unit in what follows it. -/
theorem takes_count {next : Nat → Decoder α} {count : Nat} {more : List UInt8} {result : α}
    (hcount : count < 2 ^ 31) (hunits : count ≤ more.length) (h : (next count).Takes more result) :
    (Decoder.count >>= next).Takes (Encode.index (Int32.ofNat count) ++ more) result := by
  intro pos rest
  have hvalue : (Int32.ofNat count).toInt = count := Int32.toInt_ofNat_of_lt hcount
  have henough : ¬((count : Int) < 0 ∨ ((more ++ rest).take count).length < count) := by
    rw [List.length_take, List.length_append]
    omega
  have hrun : runFrom ⟨pos, Encode.index (Int32.ofNat count) ++ (more ++ rest)⟩ Decoder.count =
      (.ok count, ⟨pos + (Encode.index (Int32.ofNat count)).length, more ++ rest⟩) := by
    rw [Decoder.count, runFrom_bind_ok (Takes.read (Read.takes_index _) pos (more ++ rest)),
      runFrom_bind_ok (runFrom_get _)]
    simp only [hvalue, Int.toNat_natCast, if_neg henough]
    rfl
  rw [List.append_assoc, runFrom_bind_ok hrun, h, List.length_append, Nat.add_assoc]

end Decoder

namespace PropertyType

mutual

/-- The value that a stream holds for a type. -/
def decode (package : Package) : PropertyType → Decoder Value
  | .byte => Value.byte <$> Decoder.read Read.u8
  | .int => (fun word => Value.int word.toInt32) <$> Decoder.read Read.u32
  | .bool => (fun byte => Value.bool (byte != 0)) <$> Decoder.read Read.u8
  | .float => Value.float <$> Decoder.read Read.u32
  | .name => Value.name <$> Decoder.read (Read.name package.names)
  | .object _ => Value.object <$> Decoder.read (Read.handle package.objects)
  | .classRef _ => Value.object <$> Decoder.read (Read.handle package.objects)
  | .str => Value.str <$> Decoder.read Read.string
  | .struct ⟨_, _, properties, _, _, _, _⟩ =>
      (fun values => .struct (gatherMembers properties values)) <$>
        decodeMembers package properties
  | .fixedArray element count =>
      Value.array <$> Decoder.times (List.singleton <$> element.decode package) count
  | .array element => do
      let count ← Decoder.count
      Value.array <$> Decoder.times (List.singleton <$> element.decode package) count
  | .map key value => do
      let count ← Decoder.count
      (fun values => Value.map (gatherEntries values)) <$> Decoder.times (do
        return [← key.decode package, ← value.decode package]) count

/-- The values of the elements of members, one member after the other. -/
def decodeMembers (package : Package) : List Property → Decoder (List Value)
  | [] => return []
  | ⟨_, _, _, type, dimension, _, _, _⟩ :: rest => do
      let values ← Decoder.times (List.singleton <$> type.decode package) dimension
      return values ++ (← decodeMembers package rest)

end

/-- Values of some types, one after the other. -/
def decodeAll (package : Package) : List PropertyType → Decoder (List Value)
  | [] => return []
  | type :: rest => return (← type.decode package) :: (← decodeAll package rest)

variable {package : Package} {type : PropertyType} {types : List PropertyType}
  {values : List Value}

section Equations

theorem decodeAll_single (package : Package) (type : PropertyType) :
    decodeAll package [type] = List.singleton <$> type.decode package := by
  rw [decodeAll]
  simp only [decodeAll, bind_pure_comp]
  rfl

theorem decodeAll_append (package : Package) (types more : List PropertyType) :
    decodeAll package (types ++ more) = (do
      let values ← decodeAll package types
      return values ++ (← decodeAll package more)) := by
  induction types with
  | nil => simp [decodeAll]
  | cons type types ih => simp [decodeAll, ih]

theorem times_decodeAll (package : Package) (types : List PropertyType) (count : Nat) :
    Decoder.times (decodeAll package types) count =
      decodeAll package (List.replicate count types).flatten := by
  induction count with
  | zero => rfl
  | succ count ih =>
      rw [Decoder.times, ih, List.replicate_succ, List.flatten_cons, decodeAll_append]

theorem times_decode (package : Package) (type : PropertyType) (count : Nat) :
    Decoder.times (List.singleton <$> type.decode package) count =
      decodeAll package (List.replicate count type) := by
  rw [← decodeAll_single, times_decodeAll]
  congr 1
  induction count with
  | zero => rfl
  | succ count ih => simp [List.replicate_succ]

theorem decodeMembers_eq (package : Package) (members : List Property) :
    decodeMembers package members = decodeAll package ((memberParts members).map Part.type) := by
  induction members with
  | nil => rfl
  | cons member rest ih =>
      rw [memberTypes, decodeAll_append, ← times_decode, ← ih]
      obtain ⟨_, _, _, _, _, _, _, _⟩ := member
      rfl

/-- A value that lies inline is made of its parts. -/
theorem decode_inline (hstorage : type.storage = .inline) :
    type.decode package = type.gather <$> decodeAll package (type.parts.map Part.type) := by
  cases type with
  | struct layout =>
      obtain ⟨_, _, properties, _, _, _, _⟩ := layout
      rw [decode, decodeMembers_eq]
      rfl
  | fixedArray element count =>
      rw [decode, times_decode, parts, elementTypes]
      rfl
  | _ => cases hstorage

/-- A container is made of the units that its count announces. -/
theorem decode_container (hstorage : type.storage = .container) :
    type.decode package = Decoder.count >>= fun count =>
      type.gather <$> decodeAll package ((type.unitParts count).map Part.type) := by
  cases type with
  | array element =>
      rw [decode]
      simp only [times_decode, unitParts, elementTypes]
      rfl
  | map key value =>
      have hpair : (do return [← key.decode package, ← value.decode package]) =
          decodeAll package [key, value] := by simp [decodeAll]
      rw [decode, hpair]
      simp only [times_decodeAll, unitParts, entryTypes]
      rfl
  | _ => cases hstorage

end Equations

/-- A scalar is read and written down, which makes the value that is decoded; from the
bytes of a saved scalar the same one is made. -/
theorem scalar_form (package : Package) (location : Location) (mask : UInt32)
    (hstorage : type.storage = .scalar) :
    ∃ (β : Type) (action : Read β) (form : β → List UInt8),
      (∀ found, (form found).length = type.size) ∧
      load package location mask type =
        (Load.read action >>= fun found => Load.update (Update.write location (form found))) ∧
      type.decode package = (fun found => type.scalar (form found)) <$> Decoder.read action ∧
      ∀ bytes, type.Portable package (type.scalar bytes) → ∃ found,
        action.Takes (type.encode (type.scalar bytes)) found ∧
          type.scalar (form found) = type.scalar bytes := by
  cases type with
  | byte =>
      refine ⟨_, Read.u8, fun value => [value], fun _ => rfl, by rw [load], ?_, ?_⟩
      · simp only [decode, scalar, uint8_ofLittleEndian]
      · intro bytes _
        exact ⟨_, Read.takes_u8 _, by simp only [scalar, uint8_ofLittleEndian]⟩
  | int =>
      refine ⟨_, Read.u32, fun value => littleEndian 4 value.toNat,
        fun _ => length_littleEndian _ _, by rw [load]; rfl, ?_, ?_⟩
      · simp only [decode, scalar, uint32_ofLittleEndian]
      · intro bytes _
        refine ⟨_, Read.takes_u32 _, ?_⟩
        simp only [scalar, uint32_ofLittleEndian]
        rfl
  | float =>
      refine ⟨_, Read.u32, fun value => littleEndian 4 value.toNat,
        fun _ => length_littleEndian _ _, by rw [load]; rfl, ?_, ?_⟩
      · simp only [decode, scalar, uint32_ofLittleEndian]
      · intro bytes _
        exact ⟨_, Read.takes_u32 _, by simp only [scalar, uint32_ofLittleEndian]⟩
  | name =>
      refine ⟨_, Read.name package.names, fun id => littleEndian 4 id.val.toNat,
        fun _ => length_littleEndian _ _, by rw [load]; rfl, ?_, ?_⟩
      · simp only [decode, scalar, uint32_ofLittleEndian]
      · intro bytes hportable
        exact ⟨_, Read.takes_name hportable.1 hportable.2, by simp only [scalar, uint32_ofLittleEndian]⟩
  | object _ =>
      refine ⟨_, Read.handle package.objects, fun handle => littleEndian 8 handle.bits.toNat,
        fun _ => length_littleEndian _ _, by rw [load]; rfl, ?_, ?_⟩
      · simp only [decode, scalar, uint64_ofLittleEndian]
      · rintro bytes ⟨reference, hresolve⟩
        exact ⟨_, Read.takes_handle hresolve, by simp only [scalar, uint64_ofLittleEndian]⟩
  | classRef _ =>
      refine ⟨_, Read.handle package.objects, fun handle => littleEndian 8 handle.bits.toNat,
        fun _ => length_littleEndian _ _, by rw [load]; rfl, ?_, ?_⟩
      · simp only [decode, scalar, uint64_ofLittleEndian]
      · rintro bytes ⟨reference, hresolve⟩
        exact ⟨_, Read.takes_handle hresolve, by simp only [scalar, uint64_ofLittleEndian]⟩
  | _ => cases hstorage

/-- Values are taken in turn, each from its own bytes. -/
theorem takes_decodeAll
    (h : List.Forall₂ (fun type value => (decode package type).Takes (type.encode value) value)
      types values) : (decodeAll package types).Takes (encodeAll types values) values := by
  induction h with
  | nil => exact .pure []
  | @cons _ value _ _ hfirst _ ih => exact hfirst.bind (ih.map (value :: ·))

/-- A saved value stands behind its own bytes. -/
theorem takes_decode {value : Value} (h : type.Savable package value) :
    (type.decode package).Takes (type.encode value) value := by
  induction type using PropertyType.induction_on generalizing value with
  | scalar type hstorage =>
      obtain ⟨store, location, mask, slots, hholds⟩ := h.held
      obtain ⟨bytes, -, rfl, -⟩ := (Store.holds_scalar hstorage).mp hholds
      obtain ⟨β, action, form, -, -, hdecode, htakes⟩ := scalar_form package location mask hstorage
      obtain ⟨found, htake, hsame⟩ := htakes bytes h.portable
      rw [hdecode, ← hsame]
      rw [← hsame] at htake
      exact (Decoder.Takes.read htake).map _
  | bits =>
      obtain ⟨store, location, mask, slots, hholds⟩ := h.held
      obtain ⟨set, -, rfl, -⟩ := Store.holds_bool.mp hholds
      have htake := (Decoder.Takes.read (Read.takes_u8 (if set then 1 else 0))).map
        fun byte => Value.bool (byte != 0)
      cases set <;> exact htake
  | text =>
      obtain ⟨store, location, mask, slots, hholds⟩ := h.held
      obtain ⟨text, -, rfl⟩ := hholds.ownedText
      exact (Decoder.Takes.read (Read.takes_string h.portable)).map _
  | inline type hstorage ih =>
      obtain ⟨values, rfl, hall⟩ := h.inline hstorage
      rw [decode_inline hstorage, encode_inline hstorage (length_of_held hall)]
      refine (takes_decodeAll (List.forall₂_iff_zip.mpr ⟨hall.length_eq, fun hpair => ?_⟩)).map _
      obtain ⟨part, hpart, rfl⟩ := List.mem_map.mp (List.of_mem_zip hpair).1
      exact ih part hpart (List.forall₂_zip hall hpair)
  | container type hstorage ih =>
      obtain ⟨count, values, rfl, hcount, hunits, hall⟩ := h.container hstorage
      rw [decode_container hstorage, encode_container hstorage (length_of_held hall)]
      refine Decoder.takes_count hcount hunits ((takes_decodeAll
        (List.forall₂_iff_zip.mpr ⟨hall.length_eq, fun hpair => ?_⟩)).map _)
      obtain ⟨part, hpart, rfl⟩ := List.mem_map.mp (List.of_mem_zip hpair).1
      exact ih count part hpart (List.forall₂_zip hall hpair)

end PropertyType

end ObjectPackage
