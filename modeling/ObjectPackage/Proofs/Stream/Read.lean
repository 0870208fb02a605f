/-
Reads as parsers.  A read takes some bytes to a value when it does so wherever they
stand and whatever follows them; it uses a number of bytes when no success leaves
more than the rest.  Both laws pass through sequences of reads.
-/
import ObjectPackage.Proofs.Bytes
import ObjectPackage.Proofs.Effect
import ObjectPackage.Stream.Encode
import ObjectPackage.Stream.Read

namespace ObjectPackage

theorem Cursor.read_eq {α : Type} (cursor : Cursor) (action : Read α) :
    cursor.read action = runFrom cursor action := rfl

namespace Read

variable {α β : Type}

/-- The action takes exactly these bytes to the value. -/
def Takes (action : Read α) (input : List UInt8) (value : α) : Prop :=
  ∀ pos rest, runFrom ⟨pos, input ++ rest⟩ action = (.ok value, ⟨pos + input.length, rest⟩)

/-- Every success of the action uses that many bytes or more. -/
def Uses (action : Read α) (count : Nat) : Prop :=
  ∀ cursor value next, runFrom cursor action = (.ok value, next) →
    next.rest.length + count ≤ cursor.rest.length

namespace Takes

variable {action : Read α} {input more : List UInt8} {value : α}

theorem pure (value : α) : Takes (Pure.pure value) [] value :=
  fun _ _ => rfl

/-- The cursor moves past the bytes that were taken. -/
theorem run (h : action.Takes input value) {cursor : Cursor} {rest : List UInt8}
    (hrest : cursor.rest = input ++ rest) :
    runFrom cursor action = (.ok value, cursor.advance input.length) := by
  obtain ⟨pos, _⟩ := cursor
  subst hrest
  rw [h pos rest, Cursor.advance, List.drop_left]

theorem bind {next : α → Read β} {result : β} (h : action.Takes input value)
    (hnext : (next value).Takes more result) : (action >>= next).Takes (input ++ more) result := by
  intro pos rest
  rw [List.append_assoc, runFrom_bind_ok (h pos (more ++ rest)), hnext]
  rw [List.length_append, Nat.add_assoc]

/-- An action that takes nothing can stand before or after another one. -/
theorem bind_nil {next : α → Read β} {result : β} (h : action.Takes input value)
    (hnext : (next value).Takes [] result) : (action >>= next).Takes input result := by
  simpa using h.bind hnext

theorem map (f : α → β) (h : action.Takes input value) : (f <$> action).Takes input (f value) := by
  intro pos rest
  rw [runFrom_map, h]

end Takes

namespace Uses

variable {action : Read α} {count more : Nat}

theorem pure (value : α) : Uses (Pure.pure value) 0 := by
  intro cursor result next h
  obtain ⟨-, rfl⟩ := Prod.mk.inj h
  exact Nat.le_refl _

theorem throw (error : StreamError) : Uses (throw error : Read α) count := by
  intro cursor result next h
  cases h

theorem bind {next : α → Read β} (h : action.Uses count) (hnext : ∀ value, (next value).Uses more) :
    (action >>= next).Uses (count + more) := by
  intro cursor result final hrun
  obtain ⟨value, middle, hfirst, hsecond⟩ := runFrom_bind_eq_ok.mp hrun
  have hcount := h cursor value middle hfirst
  have hmore := hnext value middle result final hsecond
  omega

theorem mono (h : action.Uses count) (hle : more ≤ count) : action.Uses more := by
  intro cursor value next hrun
  have hcount := h cursor value next hrun
  omega

theorem map (f : α → β) (h : action.Uses count) : (f <$> action).Uses count := by
  intro cursor result next hrun
  obtain ⟨value, hvalue, -⟩ := runFrom_map_eq_ok.mp hrun
  exact h cursor value next hvalue

end Uses

/-- All of the bytes are there, or none is taken. -/
theorem runFrom_bytes (cursor : Cursor) (count : Nat) :
    runFrom cursor (bytes count) =
      if cursor.rest.length < count then (.error (.unexpectedEnd cursor.pos count), cursor)
      else (.ok (cursor.rest.take count), cursor.advance count) := by
  have hshort : (cursor.rest.take count).length < count ↔ cursor.rest.length < count := by
    rw [List.length_take]
    omega
  simp only [bytes, runFrom_bind, runFrom_get, hshort]
  split <;> rfl

theorem takes_bytes (piece : List UInt8) : (bytes piece.length).Takes piece piece := by
  intro pos rest
  simp [bytes, runFrom_bind, runFrom_map, Cursor.advance]

theorem takes_skip (piece : List UInt8) : (skip piece.length).Takes piece () :=
  (takes_bytes piece).map fun _ => ()

theorem skip_advances {count : Nat} {cursor next : Cursor}
    (h : runFrom cursor (skip count) = (.ok (), next)) : next = cursor.advance count := by
  have hskip : skip count = (fun _ => ()) <$> bytes count := rfl
  rw [hskip] at h
  obtain ⟨piece, hpiece, -⟩ := runFrom_map_eq_ok.mp h
  rw [runFrom_bytes] at hpiece
  split at hpiece
  · cases hpiece
  · exact (Prod.mk.inj hpiece).2.symm

theorem uses_bytes (count : Nat) : (bytes count).Uses count := by
  intro cursor piece next h
  rw [runFrom_bytes] at h
  split at h
  · cases h
  · next hlength =>
      obtain ⟨-, rfl⟩ := Prod.mk.inj h
      rw [Cursor.advance, List.length_drop]
      omega

theorem takes_word (count value : Nat) :
    (word count).Takes (littleEndian count value) (value % 256 ^ count) := by
  have hbytes := takes_bytes (littleEndian count value)
  rw [length_littleEndian] at hbytes
  have hmap := hbytes.map ofLittleEndian
  rwa [ofLittleEndian_littleEndian] at hmap

theorem takes_u8 (value : UInt8) : u8.Takes (Encode.u8 value) value := by
  have h := (takes_word 1 value.toNat).map UInt8.ofNat
  have hbytes : littleEndian 1 value.toNat = Encode.u8 value := by simp [littleEndian, Encode.u8]
  have hlt : value.toNat < 256 ^ 1 := value.toNat_lt
  rw [hbytes, Nat.mod_eq_of_lt hlt, UInt8.ofNat_toNat] at h
  exact h

theorem takes_u16 (value : UInt16) : u16.Takes (Encode.u16 value) value := by
  have h := (takes_word 2 value.toNat).map UInt16.ofNat
  have hlt : value.toNat < 256 ^ 2 := value.toNat_lt
  rw [Nat.mod_eq_of_lt hlt, UInt16.ofNat_toNat] at h
  exact h

theorem takes_u32 (value : UInt32) : u32.Takes (Encode.u32 value) value := by
  have h := (takes_word 4 value.toNat).map UInt32.ofNat
  have hlt : value.toNat < 256 ^ 4 := value.toNat_lt
  rw [Nat.mod_eq_of_lt hlt, UInt32.ofNat_toNat] at h
  exact h

theorem takes_i32 (value : Int32) : i32.Takes (Encode.i32 value) value := by
  have h := (takes_u32 value.toUInt32).map UInt32.toInt32
  exact h

theorem uses_word (count : Nat) : (word count).Uses count :=
  (uses_bytes count).map ofLittleEndian

theorem uses_u8 : u8.Uses 1 := (uses_word 1).map _

theorem uses_u16 : u16.Uses 2 := (uses_word 2).map _

theorem uses_u32 : u32.Uses 4 := (uses_word 4).map _

theorem uses_units (count : Nat) : (units count).Uses (2 * count) := by
  induction count with
  | zero => exact .pure _
  | succ count ih => exact (uses_u16.bind fun unit => ih.map _).mono (by omega)

theorem uses_position : position.Uses 0 := by
  intro cursor start next h
  obtain ⟨-, rfl⟩ := Prod.mk.inj h
  exact Nat.le_refl _

theorem uses_indexTail (start more : Nat) : (indexTail start more).Uses 0 := by
  induction more with
  | zero => exact Uses.throw _
  | succ more ih =>
      refine (uses_u8.bind fun byte => ?_).mono (Nat.zero_le (1 + 0))
      dsimp only
      split
      · exact Uses.pure _
      · exact ih.map _

theorem uses_index : index.Uses 1 := by
  refine (uses_position.bind fun start => uses_u8.bind fun byte => ?_).mono
    (show 1 ≤ 0 + (1 + (0 + 0)) by omega)
  have hvalue (value : Int) :
      Uses (if Int32.minValue.toInt ≤ value ∧ value ≤ Int32.maxValue.toInt then
        pure (Int32.ofInt value) else throw (.indexOverflow start)) 0 := by
    split
    · exact Uses.pure _
    · exact Uses.throw _
  dsimp only
  split
  · exact (uses_indexTail start 4).bind fun tail => hvalue _
  · exact (Uses.pure 0).bind fun tail => hvalue _

theorem uses_name (names : NameTable) : (name names).Uses 1 := by
  refine uses_index.bind fun slot => show Uses _ 0 from ?_
  dsimp only
  split
  · exact Uses.throw _
  · exact Uses.pure _

/-- What a name read gives is a slot of the table that has a compact index. -/
theorem name_index_range {names : NameTable} {cursor next : Cursor} {id : NameId}
    (h : runFrom cursor (name names) = (.ok id, next)) :
    id.index < names.size ∧ id.index < 2 ^ 31 := by
  obtain ⟨slot, middle, -, hslot⟩ := runFrom_bind_eq_ok.mp h
  dsimp only at hslot
  split at hslot
  · cases hslot
  · next hrange =>
      obtain ⟨rfl, -⟩ : NameId.ofIndex slot.toInt.toNat = id ∧ middle = next := by
        simpa using hslot
      have hlt : slot.toInt < 2 ^ 31 := slot.toInt_lt
      have hsize : slot.toInt.toNat < UInt32.size := by
        simp only [UInt32.size]
        omega
      rw [NameId.index, NameId.ofIndex, UInt32.toNat_ofNat_of_lt' hsize]
      simp only [Int.ofNat_eq_natCast] at hrange
      omega

theorem name_index_lt {names : NameTable} {cursor next : Cursor} {id : NameId}
    (h : runFrom cursor (name names) = (.ok id, next)) : id.index < names.size :=
  (name_index_range h).1

section Terminated

theorem takeWhile_append_zero {bytes : List UInt8} (h : 0 ∉ bytes) (rest : List UInt8) :
    (bytes ++ 0 :: rest).takeWhile (· != 0) = bytes ∧
      (bytes ++ 0 :: rest).dropWhile (· != 0) = 0 :: rest := by
  have hall : ∀ byte ∈ bytes, (byte != 0) = true := by
    intro byte hmem
    rw [bne_iff_ne]
    rintro rfl
    exact h hmem
  constructor
  · rw [List.takeWhile_append_of_pos hall]
    simp
  · rw [List.dropWhile_append_of_pos hall]
    simp

theorem zero_notMem_takeWhile (bytes : List UInt8) : 0 ∉ bytes.takeWhile (· != 0) := by
  intro hmem
  have h := List.all_eq_true.mp List.all_takeWhile 0 hmem
  simp at h

theorem takes_bytesZ {bytes : List UInt8} (h : 0 ∉ bytes) : bytesZ.Takes (bytes ++ [0]) bytes := by
  intro pos rest
  obtain ⟨htake, hdrop⟩ := takeWhile_append_zero h rest
  rw [List.append_assoc, List.singleton_append, bytesZ, runFrom_bind_ok (runFrom_get _)]
  simp [-List.isEmpty_iff, runFrom_map, htake, hdrop, Cursor.advance]

/-- Text that is read holds no zero, and its terminator is used as well. -/
theorem bytesZ_eq_ok {cursor next : Cursor} {text : List UInt8}
    (h : runFrom cursor bytesZ = (.ok text, next)) :
    0 ∉ text ∧ next.rest.length + 1 ≤ cursor.rest.length := by
  simp only [bytesZ, runFrom_bind, runFrom_get] at h
  split at h
  · cases h
  · next hnonempty =>
      obtain ⟨htext, rfl⟩ := Prod.mk.inj h
      obtain rfl := Except.ok.inj htext
      refine ⟨zero_notMem_takeWhile cursor.rest, ?_⟩
      have hsplit := congrArg List.length (@List.takeWhile_append_dropWhile _ (· != 0) cursor.rest)
      rw [List.isEmpty_iff, ← List.length_eq_zero_iff] at hnonempty
      simp only [Cursor.advance, List.length_drop, List.length_append] at hsplit ⊢
      omega

theorem scanUnits_append {units : List UInt16} (h : 0 ∉ units) (rest : List UInt8) :
    scanUnits (units.flatMap Encode.u16 ++ (Encode.u16 0 ++ rest)) = (units, true) := by
  have hword (unit : UInt16) (after : List UInt8) : ∃ low high,
      Encode.u16 unit ++ after = low :: high :: after ∧
        UInt16.ofNat (ofLittleEndian [low, high]) = unit := by
    refine ⟨_, _, rfl, ?_⟩
    have hvalue := ofLittleEndian_littleEndian 2 unit.toNat
    have hlt : unit.toNat < 256 ^ 2 := unit.toNat_lt
    rw [Nat.mod_eq_of_lt hlt] at hvalue
    exact (congrArg UInt16.ofNat hvalue).trans UInt16.ofNat_toNat
  induction units with
  | nil =>
      obtain ⟨low, high, hbytes, hunit⟩ := hword 0 rest
      simp [hbytes, scanUnits, hunit]
  | cons unit units ih =>
      rw [List.mem_cons, not_or] at h
      obtain ⟨hne, hrest⟩ := h
      obtain ⟨low, high, hbytes, hunit⟩ :=
        hword unit (units.flatMap Encode.u16 ++ (Encode.u16 0 ++ rest))
      rw [List.flatMap_cons, List.append_assoc, hbytes, scanUnits]
      simp [hunit, Ne.symm hne, ih hrest]

theorem scanUnits_eq_true {bytes : List UInt8} {units : List UInt16}
    (h : scanUnits bytes = (units, true)) :
    0 ∉ units ∧ 2 * (units.length + 1) ≤ bytes.length := by
  fun_induction scanUnits bytes generalizing units with
  | case1 =>
      obtain ⟨rfl, -⟩ := Prod.mk.inj h
      simp
  | case2 low high rest unit =>
      rename_i hzero found ended hscan ih
      obtain ⟨rfl, rfl⟩ := Prod.mk.inj h
      obtain ⟨hrest, hlength⟩ := ih hscan
      refine ⟨?_, ?_⟩
      · rw [List.mem_cons, not_or]
        exact ⟨fun heq => hzero (beq_iff_eq.mpr heq.symm), hrest⟩
      · simp only [List.length_cons]
        omega
  | case3 bytes hshort => cases h

theorem length_flatMap_u16 (units : List UInt16) :
    (units.flatMap Encode.u16).length = 2 * units.length := by
  induction units with
  | nil => rfl
  | cons unit units ih =>
      simp only [List.flatMap_cons, List.length_append, ih, Encode.u16, length_littleEndian,
        List.length_cons]
      omega

theorem takes_unitsZ {units : List UInt16} (h : 0 ∉ units) :
    unitsZ.Takes (units.flatMap Encode.u16 ++ Encode.u16 0) units := by
  intro pos rest
  have hlength : (units.flatMap Encode.u16 ++ Encode.u16 0).length = 2 * (units.length + 1) := by
    have hsum := length_flatMap_u16 units
    simp only [List.length_append, hsum, Encode.u16, length_littleEndian]
    omega
  have hdrop : ((units.flatMap Encode.u16 ++ Encode.u16 0) ++ rest).drop
      (2 * (units.length + 1)) = rest := List.drop_left' hlength
  have hscan : scanUnits ((units.flatMap Encode.u16 ++ Encode.u16 0) ++ rest) = (units, true) := by
    rw [List.append_assoc]
    exact scanUnits_append h rest
  simp only [unitsZ, runFrom_bind, runFrom_get, hscan, if_true, runFrom_set, runFrom_pure,
    Cursor.advance, hdrop, hlength]

theorem unitsZ_eq_ok {cursor next : Cursor} {units : List UInt16}
    (h : runFrom cursor unitsZ = (.ok units, next)) :
    0 ∉ units ∧ next.rest.length + 2 ≤ cursor.rest.length := by
  simp only [unitsZ, runFrom_bind, runFrom_get] at h
  split at h
  · next hended =>
      obtain ⟨hunits, rfl⟩ := Prod.mk.inj h
      obtain rfl := Except.ok.inj hunits
      obtain ⟨hzero, hlength⟩ := scanUnits_eq_true (Prod.ext rfl hended)
      refine ⟨hzero, ?_⟩
      simp only [Cursor.advance, List.length_drop]
      omega
  · cases h

end Terminated

end Read

end ObjectPackage
