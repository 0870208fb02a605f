/-
Self-delimiting reads.  What such a read takes is taken to the same value wherever it
stands and whatever follows it, and no part of it in front of a cut is enough: there the
read runs out of input, or a text that is read through its zero has none.
-/
import ObjectPackage.Proofs.Stream.Read

namespace ObjectPackage

namespace Read

variable {α β : Type}

/-- Alone with these bytes the action runs out of input. -/
def RunsOut (action : Read α) (input : List UInt8) : Prop :=
  ∀ pos, ∃ error stop, runFrom ⟨pos, input⟩ action = (.error error, stop) ∧ error.isEnd = true

/-- Where the one action succeeds, the other takes the same bytes to the same value and runs
out of input in every shorter part of them. -/
def Delimits (action other : Read α) : Prop :=
  ∀ ⦃cursor value next⦄, runFrom cursor action = (.ok value, next) →
    ∃ used, cursor.rest = used ++ next.rest ∧ next.pos = cursor.pos + used.length ∧
      other.Takes used value ∧ ∀ cut < used.length, other.RunsOut (used.take cut)

theorem RunsOut.bind {action : Read α} {input : List UInt8} (h : action.RunsOut input)
    (next : α → Read β) : (action >>= next).RunsOut input := by
  intro pos
  obtain ⟨error, stop, hrun, hend⟩ := h pos
  exact ⟨error, stop, runFrom_bind_error hrun next, hend⟩

theorem Takes.runsOut {action : Read α} {input more : List UInt8} {value : α}
    {next : α → Read β} (h : action.Takes input value) (hnext : (next value).RunsOut more) :
    (action >>= next).RunsOut (input ++ more) := by
  intro pos
  obtain ⟨error, stop, hrun, hend⟩ := hnext (pos + input.length)
  exact ⟨error, stop, (runFrom_bind_ok (h pos more) next).trans hrun, hend⟩

namespace Delimits

variable {action other : Read α}

theorem pure (value : α) : Delimits (Pure.pure value) (Pure.pure value) := by
  intro cursor result next h
  obtain ⟨hvalue, rfl⟩ := Prod.mk.inj h
  obtain rfl := Except.ok.inj hvalue
  exact ⟨[], rfl, rfl, .pure _, fun cut hcut => absurd hcut (Nat.not_lt_zero cut)⟩

theorem throw (error : StreamError) : Delimits (throw error) other := by
  intro cursor value next h
  cases h

theorem bind {next next' : α → Read β} (h : Delimits action other)
    (hnext : ∀ value, Delimits (next value) (next' value)) :
    Delimits (action >>= next) (other >>= next') := by
  intro cursor result last hrun
  obtain ⟨value, middle, hfirst, hsecond⟩ := runFrom_bind_eq_ok.mp hrun
  obtain ⟨used, hused, hpos, htakes, hshort⟩ := h hfirst
  obtain ⟨more, hmore, hpos', htakes', hshort'⟩ := hnext value hsecond
  refine ⟨used ++ more, ?_, ?_, htakes.bind htakes', fun cut hcut => ?_⟩
  · rw [hused, hmore, List.append_assoc]
  · rw [hpos', hpos, List.length_append, Nat.add_assoc]
  -- the cut is in the bytes of the first action, or behind all of them
  · rw [List.take_append]
    by_cases hfront : cut < used.length
    · rw [Nat.sub_eq_zero_of_le (Nat.le_of_lt hfront), List.take_zero, List.append_nil]
      exact (hshort cut hfront).bind next'
    · rw [List.length_append] at hcut
      rw [List.take_of_length_le (Nat.le_of_not_lt hfront)]
      exact htakes.runsOut (hshort' (cut - used.length) (by omega))

theorem map (f : α → β) (h : Delimits action other) : Delimits (f <$> action) (f <$> other) := by
  rw [map_eq_pure_bind, map_eq_pure_bind]
  exact h.bind fun value => .pure (f value)

end Delimits

/-- The place of a read shows in failures alone. -/
theorem delimits_position {next next' : Nat → Read α}
    (h : ∀ start start', Delimits (next start) (next' start')) :
    Delimits (position >>= next) (position >>= next') := by
  intro cursor value last hrun
  obtain ⟨used, hused, hpos, -⟩ := h cursor.pos cursor.pos hrun
  have hthere (pos : Nat) : (next' pos).Takes used value ∧
      ∀ cut < used.length, (next' pos).RunsOut (used.take cut) := by
    obtain ⟨used', hused', -, htakes⟩ := h cursor.pos pos hrun
    obtain rfl : used' = used := List.append_cancel_right (hused'.symm.trans hused)
    exact htakes
  exact ⟨used, hused, hpos, fun pos rest => (hthere pos).1 pos rest,
    fun cut hcut pos => (hthere pos).2 cut hcut pos⟩

theorem delimits_bytes (count : Nat) : Delimits (bytes count) (bytes count) := by
  intro cursor piece next h
  rw [runFrom_bytes] at h
  split at h
  · cases h
  · next hlength =>
      obtain ⟨hpiece, rfl⟩ := Prod.mk.inj h
      obtain rfl := Except.ok.inj hpiece
      have hcount : (cursor.rest.take count).length = count :=
        List.length_take_of_le (Nat.le_of_not_lt hlength)
      refine ⟨cursor.rest.take count, (List.take_append_drop count cursor.rest).symm, ?_, ?_, ?_⟩
      · rw [Cursor.advance, hcount]
      · have htakes := takes_bytes (cursor.rest.take count)
        rwa [hcount] at htakes
      · intro cut hcut pos
        have hshort : ((cursor.rest.take count).take cut).length < count := by
          rw [List.length_take]
          omega
        refine ⟨.unexpectedEnd pos count, ⟨pos, (cursor.rest.take count).take cut⟩, ?_, rfl⟩
        rw [runFrom_bytes, if_pos hshort]

theorem delimits_skip (count : Nat) : Delimits (skip count) (skip count) :=
  (delimits_bytes count).map fun _ => ()

theorem delimits_u8 : Delimits u8 u8 := ((delimits_bytes 1).map _).map _

theorem delimits_u16 : Delimits u16 u16 := ((delimits_bytes 2).map _).map _

theorem delimits_u32 : Delimits u32 u32 := ((delimits_bytes 4).map _).map _

theorem delimits_indexTail (start start' more : Nat) :
    Delimits (indexTail start more) (indexTail start' more) := by
  induction more with
  | zero => exact .throw _
  | succ more ih =>
      refine delimits_u8.bind fun byte => ?_
      dsimp only
      split
      · exact .pure _
      · exact ih.map _

theorem delimits_index : Delimits index index := by
  refine delimits_position fun start start' => delimits_u8.bind fun byte => ?_
  have hvalue (value : Int) :
      Delimits
        (if Int32.minValue.toInt ≤ value ∧ value ≤ Int32.maxValue.toInt then
          pure (Int32.ofInt value) else throw (.indexOverflow start))
        (if Int32.minValue.toInt ≤ value ∧ value ≤ Int32.maxValue.toInt then
          pure (Int32.ofInt value) else throw (.indexOverflow start')) := by
    split
    · exact .pure _
    · exact .throw _
  dsimp only
  split
  · exact (delimits_indexTail start start' 4).bind fun tail => hvalue _
  · exact (Delimits.pure 0).bind fun tail => hvalue _

theorem delimits_arrayIndex : Delimits arrayIndex arrayIndex := by
  refine delimits_u8.bind fun first => ?_
  dsimp only
  split
  · exact .pure _
  · split
    · exact delimits_u8.bind fun low => .pure _
    · exact delimits_u8.bind fun high => delimits_u8.bind fun middle =>
        delimits_u8.bind fun low => .pure _

theorem delimits_name (names : NameTable) : Delimits (name names) (name names) := by
  refine delimits_index.bind fun slot => ?_
  dsimp only
  split
  · exact .throw _
  · exact .pure _

theorem delimits_handle (objects : ObjectTable) : Delimits (handle objects) (handle objects) := by
  refine (delimits_index.map ObjectRef.mk).bind fun reference => ?_
  split
  · exact .pure _
  · exact .throw _

theorem delimits_units (count : Nat) : Delimits (units count) (units count) := by
  induction count with
  | zero => exact .pure _
  | succ count ih => exact delimits_u16.bind fun unit => ih.map _

theorem delimits_string : Delimits string string := by
  refine delimits_position fun start start' => delimits_index.bind fun length => ?_
  dsimp only
  split
  · exact .pure _
  · split
    · refine (delimits_bytes _).bind fun text => ?_
      split
      · exact .pure _
      · exact .throw _
    · refine (delimits_units _).bind fun text => ?_
      split
      · split
        · exact .pure _
        · exact .throw _
      · exact .throw _

section Terminated

/-- A text with its zero is split off the input. -/
theorem bytesZ_splits {cursor next : Cursor} {text : List UInt8}
    (h : runFrom cursor bytesZ = (.ok text, next)) :
    0 ∉ text ∧ cursor.rest = (text ++ [0]) ++ next.rest ∧
      next.pos = cursor.pos + (text ++ [0]).length := by
  have hzero := (bytesZ_eq_ok h).1
  simp only [bytesZ, runFrom_bind, runFrom_get] at h
  split at h
  · cases h
  · next hnonempty =>
      obtain ⟨htext, rfl⟩ := Prod.mk.inj h
      obtain rfl := Except.ok.inj htext
      obtain ⟨first, rest, hdrop⟩ := List.exists_cons_of_ne_nil (fun hnil => hnonempty
        (List.isEmpty_iff.mpr hnil) : cursor.rest.dropWhile (· != 0) ≠ [])
      have hfirst : first = 0 := by
        have hhead := List.head?_dropWhile_not (· != 0) cursor.rest
        rw [hdrop] at hhead
        simpa using hhead
      have hsplit : cursor.rest = (cursor.rest.takeWhile (· != 0) ++ [0]) ++ rest := by
        rw [hfirst] at hdrop
        rw [List.append_assoc, List.singleton_append, ← hdrop, List.takeWhile_append_dropWhile]
      have hlength : (cursor.rest.takeWhile (· != 0) ++ [0]).length =
          (cursor.rest.takeWhile (· != 0)).length + 1 := List.length_append
      have hrest := congrArg (List.drop ((cursor.rest.takeWhile (· != 0)).length + 1)) hsplit
      rw [List.drop_left' hlength] at hrest
      refine ⟨hzero, ?_, ?_⟩
      · rw [Cursor.advance, hrest]
        exact hsplit
      · rw [Cursor.advance, List.length_append]
        rfl

/-- Without a zero a text is not terminated, and nothing is taken. -/
theorem bytesZ_unterminated {bytes : List UInt8} (h : 0 ∉ bytes) (pos : Nat) :
    runFrom ⟨pos, bytes⟩ bytesZ = (.error (.unterminatedString pos), ⟨pos, bytes⟩) := by
  have hnone : bytes.dropWhile (· != 0) = [] := by
    refine List.dropWhile_eq_nil_iff.mpr fun byte hbyte => bne_iff_ne.mpr ?_
    rintro rfl
    exact h hbyte
  rw [bytesZ, runFrom_bind_ok (runFrom_get _)]
  simp only [hnone, List.isEmpty_nil, if_true]
  rfl

/-- No part of a text is terminated that ends in front of its zero. -/
theorem bytesZ_cut {text : List UInt8} (h : 0 ∉ text) {cut : Nat}
    (hcut : cut < (text ++ [0]).length) (pos : Nat) :
    ∃ stop, runFrom ⟨pos, (text ++ [0]).take cut⟩ bytesZ =
      (.error (.unterminatedString pos), stop) := by
  have hfront : (text ++ [0]).take cut = text.take cut := by
    rw [List.length_append] at hcut
    exact List.take_append_of_le_length (Nat.le_of_lt_succ hcut)
  rw [hfront]
  exact ⟨_, bytesZ_unterminated (fun hzero => h (List.mem_of_mem_take hzero)) pos⟩

theorem scanUnits_splits {bytes : List UInt8} {units : List UInt16}
    (h : scanUnits bytes = (units, true)) :
    bytes = units.flatMap Encode.u16 ++ (Encode.u16 0 ++ bytes.drop (2 * (units.length + 1))) := by
  have hunit (low high : UInt8) :
      Encode.u16 (UInt16.ofNat (ofLittleEndian [low, high])) = [low, high] := by
    have hlt : ofLittleEndian [low, high] < 256 ^ 2 := ofLittleEndian_lt [low, high]
    have hbytes := littleEndian_ofLittleEndian [low, high]
    rwa [Encode.u16, UInt16.toNat_ofNat_of_lt' hlt]
  fun_induction scanUnits bytes generalizing units with
  | case1 low high rest unit =>
      rename_i hzero
      obtain ⟨rfl, -⟩ := Prod.mk.inj h
      rw [← beq_iff_eq.mp hzero, hunit low high]
      rfl
  | case2 low high rest unit =>
      rename_i hzero found ended hscan ih
      obtain ⟨rfl, rfl⟩ := Prod.mk.inj h
      have hrest := ih hscan
      have hlength : 2 * (found.length + 1 + 1) = 2 * (found.length + 1) + 2 := by omega
      rw [List.flatMap_cons, hunit low high, List.length_cons, hlength]
      simpa using hrest
  | case3 bytes hshort => cases h

/-- Without their zero some units are not terminated. -/
theorem scanUnits_cut {units : List UInt16} (h : 0 ∉ units) {cut : Nat}
    (hcut : cut < (units.flatMap Encode.u16 ++ Encode.u16 0).length) :
    (scanUnits ((units.flatMap Encode.u16 ++ Encode.u16 0).take cut)).2 = false := by
  by_contra hended
  obtain ⟨found, hfound⟩ : ∃ found, scanUnits
      ((units.flatMap Encode.u16 ++ Encode.u16 0).take cut) = (found, true) :=
    ⟨_, Prod.ext rfl (Bool.not_eq_false _ ▸ hended)⟩
  -- the units that end in front of the cut end in the whole text as well
  have hsplit := scanUnits_splits hfound
  have hwhole := scanUnits_append h []
  rw [List.append_nil, ← List.take_append_drop cut (units.flatMap Encode.u16 ++ Encode.u16 0),
    hsplit, List.append_assoc, List.append_assoc,
    scanUnits_append (scanUnits_eq_true hfound).1] at hwhole
  obtain rfl := (Prod.mk.inj hwhole).1
  have hlength := (scanUnits_eq_true hfound).2
  have hall := length_flatMap_u16 found
  simp only [List.length_take, List.length_append, hall, Encode.u16, length_littleEndian]
    at hlength hcut
  omega

theorem unitsZ_splits {cursor next : Cursor} {units : List UInt16}
    (h : runFrom cursor unitsZ = (.ok units, next)) :
    0 ∉ units ∧ cursor.rest = (units.flatMap Encode.u16 ++ Encode.u16 0) ++ next.rest ∧
      next.pos = cursor.pos + (units.flatMap Encode.u16 ++ Encode.u16 0).length := by
  have hzero := (unitsZ_eq_ok h).1
  simp only [unitsZ, runFrom_bind, runFrom_get] at h
  split at h
  · next hended =>
      obtain ⟨hunits, rfl⟩ := Prod.mk.inj h
      obtain rfl := Except.ok.inj hunits
      have hsplit := scanUnits_splits (Prod.ext rfl hended)
      refine ⟨hzero, by rwa [List.append_assoc], ?_⟩
      have hall := length_flatMap_u16 (scanUnits cursor.rest).1
      rw [Cursor.advance, List.length_append, hall, Encode.u16, length_littleEndian]
      rfl
  · cases h

theorem unitsZ_cut {units : List UInt16} (h : 0 ∉ units) {cut : Nat}
    (hcut : cut < (units.flatMap Encode.u16 ++ Encode.u16 0).length) (pos : Nat) :
    ∃ stop, runFrom ⟨pos, (units.flatMap Encode.u16 ++ Encode.u16 0).take cut⟩ unitsZ =
      (.error (.unterminatedString pos), stop) := by
  have hended := scanUnits_cut h hcut
  rw [unitsZ, runFrom_bind_ok (runFrom_get _)]
  simp only [hended]
  exact ⟨_, rfl⟩

end Terminated

end Read

end ObjectPackage
