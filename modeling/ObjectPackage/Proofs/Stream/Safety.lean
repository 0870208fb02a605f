/-
Streams that are used on.  Whatever is read from a stream, and however each of the reads ends,
the cursor is one of the slice that the stream was opened on.  A read of a fixed width takes its
bytes or none; a read of several units that fails has gone past whole ones.
-/
import ObjectPackage.Proofs.Stream.Forward
import ObjectPackage.Proofs.Stream.Index
import ObjectPackage.Proofs.Tagged.Suffix

namespace ObjectPackage

namespace Cursor

/-- The later cursor is the earlier one behind so many units of a width. -/
def Past (width count : Nat) (before after : Cursor) : Prop :=
  width * count ≤ before.rest.length ∧ after = before.advance (width * count)

variable {width count more : Nat} {before middle after : Cursor}

theorem Past.zero (width : Nat) (cursor : Cursor) : Past width 0 cursor cursor :=
  ⟨Nat.zero_le _, rfl⟩

theorem Past.one (h : width ≤ before.rest.length) : Past width 1 before (before.advance width) := by
  rw [Past, Nat.mul_one]
  exact ⟨h, rfl⟩

theorem Past.trans (h : Past width count before middle) (h' : Past width more middle after) :
    Past width (count + more) before after := by
  obtain ⟨hlength, rfl⟩ := h
  obtain ⟨hlength', rfl⟩ := h'
  rw [advance, List.length_drop] at hlength'
  rw [Past, Nat.mul_add, advance, advance, advance, List.drop_drop, Nat.add_assoc]
  exact ⟨by omega, rfl⟩

theorem past_of_append {used : List UInt8} (hrest : before.rest = used ++ after.rest)
    (hpos : after.pos = before.pos + used.length) : Past 1 used.length before after := by
  obtain ⟨pos, rest⟩ := after
  rw [Past, Nat.one_mul, advance, hrest, List.drop_left, List.length_append, ← hpos]
  exact ⟨Nat.le_add_right _ _, rfl⟩

end Cursor

namespace Read

variable {α β : Type}

section Fixed

/-- The action takes so many bytes, or fails and takes none where there are fewer. -/
def Fixed (width : Nat) (action : Read α) : Prop :=
  ∀ cursor,
    (width ≤ cursor.rest.length →
      ∃ value, runFrom cursor action = (.ok value, cursor.advance width)) ∧
    (cursor.rest.length < width →
      runFrom cursor action = (.error (.unexpectedEnd cursor.pos width), cursor))

variable {width : Nat} {action : Read α} {cursor next : Cursor}

theorem Fixed.map (f : α → β) (h : action.Fixed width) : (f <$> action).Fixed width := by
  intro cursor
  obtain ⟨hok, herror⟩ := h cursor
  constructor
  · intro hlength
    obtain ⟨value, hvalue⟩ := hok hlength
    exact ⟨f value, runFrom_map_eq_ok.mpr ⟨value, hvalue, rfl⟩⟩
  · intro hlength
    exact runFrom_map_eq_error.mpr (herror hlength)

theorem Fixed.of_ok {value : α} (h : action.Fixed width)
    (hrun : runFrom cursor action = (.ok value, next)) :
    width ≤ cursor.rest.length ∧ next = cursor.advance width := by
  obtain ⟨hok, herror⟩ := h cursor
  by_cases hlength : width ≤ cursor.rest.length
  · obtain ⟨_, hvalue⟩ := hok hlength
    exact ⟨hlength, (Prod.mk.inj (hrun.symm.trans hvalue)).2⟩
  · rw [herror (Nat.lt_of_not_le hlength)] at hrun
    cases hrun

theorem Fixed.of_error {error : StreamError} (h : action.Fixed width)
    (hrun : runFrom cursor action = (.error error, next)) :
    cursor.rest.length < width ∧ next = cursor := by
  obtain ⟨hok, herror⟩ := h cursor
  by_cases hlength : width ≤ cursor.rest.length
  · obtain ⟨_, hvalue⟩ := hok hlength
    rw [hvalue] at hrun
    cases hrun
  · have hshort := Nat.lt_of_not_le hlength
    exact ⟨hshort, (Prod.mk.inj (hrun.symm.trans (herror hshort))).2⟩

theorem fixed_bytes (count : Nat) : (bytes count).Fixed count := by
  intro cursor
  rw [runFrom_bytes]
  exact ⟨fun hlength => ⟨_, if_neg (Nat.not_lt_of_le hlength)⟩, fun hlength => if_pos hlength⟩

theorem fixed_u8 : u8.Fixed 1 := ((fixed_bytes 1).map _).map _

theorem fixed_u16 : u16.Fixed 2 := ((fixed_bytes 2).map _).map _

theorem fixed_u32 : u32.Fixed 4 := ((fixed_bytes 4).map _).map _

/-- The reads of a fixed width.  Floating-point numbers are read as the words of their bits. -/
inductive FixedWidth : Nat → {α : Type} → Read α → Prop
  | u8 : FixedWidth 1 Read.u8
  | u16 : FixedWidth 2 Read.u16
  | u32 : FixedWidth 4 Read.u32
  | u64 : FixedWidth 8 Read.u64
  | i32 : FixedWidth 4 Read.i32
  | skip (count : Nat) : FixedWidth count (Read.skip count)
  | bytes (count : Nat) : FixedWidth count (Read.bytes count)

theorem FixedWidth.fixed (h : FixedWidth width action) : action.Fixed width := by
  cases h with
  | u8 => exact fixed_u8
  | u16 => exact fixed_u16
  | u32 => exact fixed_u32
  | u64 => exact ((fixed_bytes 8).map _).map _
  | i32 => exact fixed_u32.map _
  | skip => exact (fixed_bytes width).map fun _ => ()
  | bytes => exact fixed_bytes width

end Fixed

section Units

/-- The action fails only behind fewer units than the bound, where there is no other one. -/
def RunsShort (width bound : Nat) (action : Read α) : Prop :=
  ∀ ⦃cursor error next⦄, runFrom cursor action = (.error error, next) →
    ∃ count < bound, cursor.Past width count next ∧ next.rest.length < width

variable {width bound : Nat} {action : Read α}

theorem RunsShort.pure (value : α) : RunsShort width bound (Pure.pure value) := by
  intro cursor error next h
  cases h

theorem RunsShort.map (f : α → β) (h : action.RunsShort width bound) :
    (f <$> action).RunsShort width bound := by
  intro cursor error next hrun
  exact h (runFrom_map_eq_error.mp hrun)

/-- One more unit in front. -/
theorem RunsShort.bind {next : α → Read β} (h : action.Fixed width)
    (hnext : ∀ value, (next value).RunsShort width bound) :
    (action >>= next).RunsShort width (bound + 1) := by
  intro cursor error last hrun
  rcases runFrom_bind_cases hrun with ⟨error', -, hfirst⟩ | ⟨value, middle, hfirst, hsecond⟩
  · obtain ⟨hshort, rfl⟩ := h.of_error hfirst
    exact ⟨0, Nat.succ_pos bound, .zero width last, hshort⟩
  · obtain ⟨hlength, rfl⟩ := h.of_ok hfirst
    obtain ⟨count, hcount, hpast, hshort⟩ := hnext value hsecond
    refine ⟨1 + count, by omega, (Cursor.Past.one hlength).trans hpast, hshort⟩

theorem runsShort_arrayIndex : arrayIndex.RunsShort 1 4 := by
  refine .bind fixed_u8 fun first => ?_
  dsimp only
  split
  · exact .pure _
  · split
    · exact .bind fixed_u8 fun low => .pure _
    · exact .bind fixed_u8 fun high => .bind fixed_u8 fun middle => .bind fixed_u8 fun low =>
        .pure _

theorem runsShort_units (count : Nat) : (units count).RunsShort 2 count := by
  induction count with
  | zero => exact .pure _
  | succ count ih => exact .bind fixed_u16 fun unit => ih.map _

theorem units_eq_ok {count : Nat} {cursor next : Cursor} {text : List UInt16}
    (h : runFrom cursor (units count) = (.ok text, next)) : cursor.Past 2 count next := by
  induction count generalizing cursor text with
  | zero =>
      obtain ⟨-, rfl⟩ := Prod.mk.inj h
      exact .zero 2 _
  | succ count ih =>
      obtain ⟨unit, middle, hfirst, hsecond⟩ := runFrom_bind_eq_ok.mp h
      obtain ⟨hlength, rfl⟩ := fixed_u16.of_ok hfirst
      obtain ⟨more, hmore, -⟩ := runFrom_map_eq_ok.mp hsecond
      rw [Nat.add_comm]
      exact (Cursor.Past.one hlength).trans (ih hmore)

end Units

section Index

open CompactIndex

theorem tailNumber_lt (tail : List UInt8) : tailNumber tail < 128 ^ tail.length := by
  induction tail with
  | nil => exact Nat.one_pos
  | cons byte tail ih =>
      have hlow := Nat.mod_lt byte.toNat (show 0 < 128 by omega)
      rw [tailNumber, List.length_cons, Nat.pow_succ]
      omega

/-- The bits of four bytes fit. -/
theorem fits_of_length_le {bytes : List UInt8} (h : bytes.length ≤ 4) : Fits (number bytes) := by
  cases bytes with
  | nil => decide
  | cons first tail =>
      have hpow : 128 ^ tail.length ≤ 128 ^ 3 :=
        Nat.pow_le_pow_right (by omega) (Nat.le_of_succ_le_succ h)
      have htail := Nat.lt_of_lt_of_le (tailNumber_lt tail) hpow
      rw [number, signed, Fits]
      simp only [Int.ofNat_eq_natCast]
      split <;> omega

/-- A failed read of an index is behind five bytes, or behind fewer at the end of the input. -/
theorem index_eq_error {cursor next : Cursor} {error : StreamError}
    (h : runFrom cursor index = (.error error, next)) :
    ∃ count ≤ 5, cursor.Past 1 count next ∧ (count < 5 → next.rest = []) := by
  obtain ⟨pos, bytes⟩ := cursor
  rcases form_cases bytes with ⟨used, rest, rfl, hlength, hused⟩ |
    ⟨used, rest, rfl, hlength, hused⟩ | ⟨hopen, hshort⟩
  · rw [index_finished hused hlength, Prod.mk.injEq, settled_eq_error] at h
    obtain ⟨⟨hout, -⟩, rfl⟩ := h
    refine ⟨used.length, hlength, Cursor.past_of_append rfl rfl, fun hshort => ?_⟩
    exact absurd (fits_of_length_le (Nat.le_of_lt_succ hshort)) hout
  · rw [index_unfinished hused hlength] at h
    obtain ⟨-, rfl⟩ := Prod.mk.inj h
    rw [← hlength]
    exact ⟨used.length, Nat.le_refl _, Cursor.past_of_append rfl rfl,
      fun hshort => absurd hshort (Nat.lt_irrefl _)⟩
  · rw [index_ends hopen hshort] at h
    obtain ⟨-, rfl⟩ := Prod.mk.inj h
    exact ⟨bytes.length, Nat.le_of_lt hshort,
      Cursor.past_of_append (List.append_nil bytes).symm rfl, fun _ => rfl⟩

end Index

section Terminated

/-- A text is the bytes up to the first zero, and without one nothing is taken. -/
theorem bytesZ_cases (cursor : Cursor) :
    (∃ length, 0 ∉ cursor.rest.take length ∧ cursor.rest[length]? = some 0 ∧
      runFrom cursor bytesZ = (.ok (cursor.rest.take length), cursor.advance (length + 1))) ∨
    (0 ∉ cursor.rest ∧
      runFrom cursor bytesZ = (.error (.unterminatedString cursor.pos), cursor)) := by
  by_cases hzero : 0 ∈ cursor.rest
  · obtain ⟨front, rest, hrest, hfront⟩ := List.eq_append_cons_of_mem hzero
    refine Or.inl ⟨front.length, ?_, ?_, ?_⟩
    · rwa [hrest, List.take_left]
    · rw [hrest, List.getElem?_append_right (Nat.le_refl _), Nat.sub_self]
      rfl
    · have hsplit : cursor.rest = (front ++ [0]) ++ rest := by
        rw [hrest, List.append_assoc, List.singleton_append]
      rw [(takes_bytesZ hfront).run hsplit, hrest, List.take_left, List.length_append]
      rfl
  · exact Or.inr ⟨hzero, bytesZ_unterminated hzero cursor.pos⟩

theorem scanUnits_eq_false {bytes : List UInt8} {units : List UInt16}
    (h : scanUnits bytes = (units, false)) : bytes.length < 2 * units.length + 2 := by
  fun_induction scanUnits bytes generalizing units with
  | case1 => cases h
  | case2 low high rest unit =>
      rename_i hzero found ended hscan ih
      obtain ⟨rfl, rfl⟩ := Prod.mk.inj h
      have hrest := ih hscan
      simp only [List.length_cons]
      omega
  | case3 bytes hshort =>
      obtain ⟨rfl, -⟩ := Prod.mk.inj h
      rcases bytes with _ | ⟨low, _ | ⟨high, rest⟩⟩
      · exact Nat.two_pos
      · exact Nat.one_lt_two
      · exact absurd rfl (hshort low high rest)

/-- Without their zero all whole units are taken. -/
theorem unitsZ_eq_error {cursor next : Cursor} {error : StreamError}
    (h : runFrom cursor unitsZ = (.error error, next)) :
    ∃ count, cursor.Past 2 count next ∧ next.rest.length < 2 := by
  obtain ⟨units, ended, hscan⟩ : ∃ units ended, scanUnits cursor.rest = (units, ended) :=
    ⟨_, _, rfl⟩
  have hlength := length_scanUnits cursor.rest
  simp only [unitsZ, runFrom_bind, runFrom_get, hscan] at h hlength
  cases ended with
  | true => cases h
  | false =>
      obtain ⟨-, rfl⟩ := Prod.mk.inj h
      have hshort := scanUnits_eq_false hscan
      refine ⟨units.length, ⟨hlength, rfl⟩, ?_⟩
      rw [Cursor.advance, List.length_drop]
      omega

end Terminated

section Text

/-- Where a read of a text with its length in front can have failed: in the length, before
bytes that are not all there, behind all of them, or behind some of its units. -/
inductive StringStop (before : Cursor) : Cursor → Prop
  | length {error after} (h : before.read index = (.error error, after)) :
      StringStop before after
  | short {length middle} (h : before.read index = (.ok length, middle))
      (hpos : 0 < length.toInt) (hshort : middle.rest.length < length.toInt.toNat) :
      StringStop before middle
  | bytes {length middle after} (h : before.read index = (.ok length, middle))
      (hpos : 0 < length.toInt) (hpast : middle.Past 1 length.toInt.toNat after) :
      StringStop before after
  | units {length middle after count} (h : before.read index = (.ok length, middle))
      (hneg : length.toInt < 0) (hcount : count ≤ length.toInt.natAbs)
      (hpast : middle.Past 2 count after)
      (hshort : count < length.toInt.natAbs → after.rest.length < 2) :
      StringStop before after

theorem string_eq_error {cursor next : Cursor} {error : StreamError}
    (h : runFrom cursor string = (.error error, next)) : StringStop cursor next := by
  have hplace : runFrom cursor position = (.ok cursor.pos, cursor) := rfl
  rw [string, runFrom_bind_ok hplace] at h
  rcases runFrom_bind_cases h with ⟨failure, -, hindex⟩ | ⟨length, middle, hindex, hrest⟩
  · exact .length hindex
  · dsimp only at hrest
    split at hrest
    · cases hrest
    · next hnonzero =>
        split at hrest
        · next hpos =>
            rcases runFrom_bind_cases hrest with ⟨failure, -, hbytes⟩ | ⟨text, behind, hbytes, hend⟩
            · obtain ⟨hshort, rfl⟩ := (fixed_bytes _).of_error hbytes
              exact .short hindex hpos hshort
            · obtain ⟨hlength, rfl⟩ := (fixed_bytes _).of_ok hbytes
              split at hend
              · cases hend
              · obtain ⟨-, rfl⟩ := Prod.mk.inj hend
                refine .bytes hindex hpos ?_
                rw [Cursor.Past, Nat.one_mul]
                exact ⟨hlength, rfl⟩
        · next hnotpos =>
            have hneg : length.toInt < 0 := by omega
            rcases runFrom_bind_cases hrest with ⟨failure, -, hunits⟩ | ⟨text, behind, hunits, hend⟩
            · obtain ⟨count, hcount, hpast, hshort⟩ := runsShort_units _ hunits
              exact .units hindex hneg (Nat.le_of_lt hcount) hpast fun _ => hshort
            · obtain rfl : behind = next := by
                split at hend
                · split at hend
                  · cases hend
                  · exact (Prod.mk.inj hend).2
                · exact (Prod.mk.inj hend).2
              exact .units hindex hneg (Nat.le_refl _) (units_eq_ok hunits)
                fun hshort => absurd hshort (Nat.lt_irrefl _)

end Text

theorem forward_nameText (names : NameTable) : (nameText names).Forward := by
  refine (forward_name names).bind fun id => ?_
  split
  · exact .pure _
  · exact .throw _

theorem forward_unicodeZ : unicodeZ.Forward := by
  refine (Moves.get.map _).bind fun start => forward_unitsZ.bind fun units => ?_
  split
  · exact .pure _
  · exact .throw _

theorem Offered.forward {package : Package} {action : Read α} (h : Offered package action) :
    action.Forward := by
  cases h with
  | u8 => exact forward_u8
  | u16 => exact forward_u16
  | u32 => exact forward_u32
  | u64 => exact ((forward_bytes 8).map _).map _
  | i32 => exact forward_i32
  | index => exact forward_index
  | arrayIndex => exact forward_arrayIndex
  | name => exact forward_name _
  | nameText => exact forward_nameText _
  | object => exact forward_index.map _
  | bytes count => exact forward_bytes count
  | skip count => exact forward_skip count
  | bytesZ => exact forward_bytesZ
  | unitsZ => exact forward_unitsZ
  | asciiZ => exact forward_bytesZ.map _
  | unicodeZ => exact forward_unicodeZ
  | string => exact forward_string

/-- A read that a program does, with its arguments. -/
structure Call (package : Package) where
  {α : Type}
  action : Read α
  offered : Offered package action

end Read

namespace Cursor

variable {package : Package} {slice : List UInt8} {cursor : Cursor}

/-- The cursor after some reads one after the other, each of which succeeds or fails. -/
def after (cursor : Cursor) (calls : List (Read.Call package)) : Cursor :=
  calls.foldl (fun cursor call => (cursor.read call.action).2) cursor

theorem reaches_after (cursor : Cursor) (calls : List (Read.Call package)) :
    cursor.Reaches (cursor.after calls) := by
  induction calls generalizing cursor with
  | nil => exact refl_of Reaches cursor
  | cons call calls ih => exact trans_of Reaches (call.offered.forward cursor) (ih _)

/-- A cursor that was reached in a slice is at a place of it, with the rest of it in front. -/
theorem Reaches.of_slice (h : (ofBytes slice).Reaches cursor) :
    cursor.pos ≤ slice.length ∧ cursor.rest = slice.drop cursor.pos := by
  obtain ⟨used, hused, hpos⟩ := h
  obtain rfl : slice = used ++ cursor.rest := hused
  rw [hpos, ofBytes, Nat.zero_add, List.length_append, List.drop_left]
  exact ⟨Nat.le_add_right _ _, rfl⟩

theorem Reaches.pos_le {later : Cursor} (h : cursor.Reaches later) : cursor.pos ≤ later.pos := by
  obtain ⟨used, -, hpos⟩ := h
  rw [hpos]
  exact Nat.le_add_right _ _

/-- Safety of streams.  After any reads of a slice, each of which succeeds or fails, the cursor is
at a place of the slice, and it is the one that a new stream of the slice has after it skipped to
that place; from there the place only grows.  A read of a fixed width takes its bytes or, where
they end before, none.  Bytes that are read, and a text up to its zero, are parts of the slice
from the place on, and without a zero the cursor stays.  An index that cannot be read leaves the
cursor behind five bytes or at the end, an array index at the end behind fewer than four, units
without a zero behind all whole ones, and a text with its length behind whole parts of it. -/
theorem stream_safe (slice : List UInt8) (calls : List (Read.Call package)) :
    let cursor := (ofBytes slice).after calls
    (cursor.pos ≤ slice.length ∧ cursor.rest = slice.drop cursor.pos ∧
      (ofBytes slice).read (Read.skip cursor.pos) = (.ok (), cursor)) ∧
    (∀ more : List (Read.Call package), cursor.pos ≤ (cursor.after more).pos) ∧
    (∀ {α : Type} (width : Nat) (action : Read α), Read.FixedWidth width action →
      (cursor.pos + width ≤ slice.length →
        ∃ value, cursor.read action = (.ok value, cursor.advance width)) ∧
      (slice.length < cursor.pos + width →
        cursor.read action = (.error (.unexpectedEnd cursor.pos width), cursor))) ∧
    (∀ count piece next, cursor.read (Read.bytes count) = (.ok piece, next) →
      cursor.pos + count ≤ slice.length ∧ piece = (slice.drop cursor.pos).take count ∧
        next.pos = cursor.pos + count) ∧
    ((∃ length, 0 ∉ (slice.drop cursor.pos).take length ∧
        slice[cursor.pos + length]? = some 0 ∧ cursor.read Read.bytesZ =
          (.ok ((slice.drop cursor.pos).take length), cursor.advance (length + 1))) ∨
      (0 ∉ slice.drop cursor.pos ∧
        cursor.read Read.bytesZ = (.error (.unterminatedString cursor.pos), cursor))) ∧
    (∀ error next, cursor.read Read.index = (.error error, next) →
      ∃ count ≤ 5, cursor.Past 1 count next ∧ (count < 5 → next.rest = [])) ∧
    (∀ error next, cursor.read Read.arrayIndex = (.error error, next) →
      ∃ count < 4, cursor.Past 1 count next ∧ next.rest = []) ∧
    (∀ error next, cursor.read Read.unitsZ = (.error error, next) →
      ∃ count, cursor.Past 2 count next ∧ next.rest.length < 2) ∧
    ∀ error next, cursor.read Read.string = (.error error, next) →
      Read.StringStop cursor next := by
  intro cursor
  have hreaches : (ofBytes slice).Reaches cursor := reaches_after (ofBytes slice) calls
  obtain ⟨hpos, hrest⟩ := hreaches.of_slice
  have hlength : cursor.rest.length = slice.length - cursor.pos := by
    rw [hrest, List.length_drop]
  refine ⟨⟨hpos, hrest, ?_⟩, fun more => (reaches_after cursor more).pos_le, ?_, ?_, ?_,
    fun error next => Read.index_eq_error, ?_, fun error next => Read.unitsZ_eq_error,
    fun error next => Read.string_eq_error⟩
  · obtain ⟨used, hused, hplace⟩ := hreaches
    have hskip := (Read.takes_skip used).run hused
    have hback : (ofBytes slice).advance cursor.pos = cursor := by
      rw [advance, ofBytes, Nat.zero_add, ← hrest]
    obtain hcount : cursor.pos = used.length := hplace.trans (Nat.zero_add _)
    rwa [← hcount, hback] at hskip
  · intro α width action hwidth
    obtain ⟨hok, herror⟩ := hwidth.fixed cursor
    exact ⟨fun hin => hok (by omega), fun hout => herror (by omega)⟩
  · intro count piece next hread
    rw [read_eq, Read.runFrom_bytes] at hread
    split at hread
    · cases hread
    · obtain ⟨hpiece, rfl⟩ := Prod.mk.inj hread
      rw [← hrest]
      exact ⟨by omega, (Except.ok.inj hpiece).symm, rfl⟩
  · have hcases := Read.bytesZ_cases cursor
    simp only [hrest, List.getElem?_drop] at hcases
    exact hcases
  · intro error next hread
    obtain ⟨count, hcount, hpast, hshort⟩ := Read.runsShort_arrayIndex hread
    exact ⟨count, hcount, hpast, List.eq_nil_of_length_eq_zero (Nat.lt_one_iff.mp hshort)⟩

end Cursor

namespace CutIndex

/-- A text with its zero, and an index without its last byte. -/
def slice : List UInt8 := [65, 0, 0xc1, 0xff]

def calls : List (Read.Call RatedPawn.package) :=
  [⟨Read.bytesZ, .bytesZ⟩, ⟨Read.index, .index⟩]

/-- The index cannot be read; a word behind it cannot be read, either, and takes nothing. -/
theorem index_stream_safe :
    (Cursor.ofBytes slice).after calls = ⟨4, []⟩ ∧
      (Cursor.ofBytes slice).read (Read.skip 4) = (.ok (), ⟨4, []⟩) ∧
      Cursor.read ⟨4, []⟩ Read.u16 = (.error (.unexpectedEnd 4 2), ⟨4, []⟩) := by
  obtain ⟨⟨-, -, hskip⟩, -, hfixed, -⟩ := Cursor.stream_safe slice calls
  have hafter : (Cursor.ofBytes slice).after calls = ⟨4, []⟩ := by rfl
  rw [hafter] at hskip hfixed
  exact ⟨hafter, hskip, (hfixed 2 Read.u16 .u16).2 (by decide)⟩

end CutIndex

end ObjectPackage
