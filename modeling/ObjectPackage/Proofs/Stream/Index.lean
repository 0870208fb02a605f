/-
Compact indices byte by byte.  A form is a first byte with the bytes that it announces, and
its value is a sign and the bits of its bytes.  A read takes the form that it stands on if
this has at most five bytes and its value fits, and of all forms of a value the one that is
saved is the shortest.
-/
import ObjectPackage.Proofs.Stream.Codec

namespace ObjectPackage

namespace CompactIndex

/-- Each of the bytes announces another one, the first by 0x40 and the others by 0x80. -/
def Unfinished : List UInt8 → Prop
  | [] => True
  | first :: tail => first.toNat / 64 % 2 = 1 ∧ ∀ byte ∈ tail, 128 ≤ byte.toNat

/-- The last of the bytes is the first one that announces no other. -/
def Finished (bytes : List UInt8) : Prop :=
  Unfinished bytes.dropLast ∧ ¬Unfinished bytes

/-- Seven bits of each byte, lowest first. -/
def tailNumber : List UInt8 → Nat
  | [] => 0
  | byte :: tail => byte.toNat % 128 + 128 * tailNumber tail

/-- Six bits of the first byte in front of a number; the bit 0x80 is the sign. -/
def signed (first : UInt8) (tail : Nat) : Int :=
  let magnitude : Int := Int.ofNat (first.toNat % 64 + 64 * tail)
  if 128 ≤ first.toNat then -magnitude else magnitude

/-- The value of a form. -/
def number : List UInt8 → Int
  | [] => 0
  | first :: tail => signed first (tailNumber tail)

/-- The number is one of 32 bits. -/
def Fits (number : Int) : Prop :=
  -2 ^ 31 ≤ number ∧ number < 2 ^ 31

instance (number : Int) : Decidable (Fits number) :=
  inferInstanceAs (Decidable (_ ∧ _))

/-- What is made of the value of a form that starts at a place. -/
def settled (start : Nat) (number : Int) : Except StreamError Int32 :=
  if Fits number then .ok (Int32.ofInt number) else .error (.indexOverflow start)

theorem fits_toInt (value : Int32) : Fits value.toInt :=
  ⟨value.le_toInt, value.toInt_lt⟩

/-- A finished form is one byte, or bytes that announce one another up to the last one. -/
theorem finished_cases {bytes : List UInt8} (h : Finished bytes) :
    (∃ first, bytes = [first] ∧ first.toNat / 64 % 2 ≠ 1) ∨
      ∃ first front last, bytes = first :: (front ++ [last]) ∧ first.toNat / 64 % 2 = 1 ∧
        (∀ byte ∈ front, 128 ≤ byte.toNat) ∧ last.toNat < 128 := by
  obtain ⟨hfront, hlast⟩ := h
  cases bytes with
  | nil => exact absurd trivial hlast
  | cons first tail =>
      rcases List.eq_nil_or_concat tail with rfl | ⟨front, last, rfl⟩
      · exact Or.inl ⟨first, rfl, fun hmore => hlast ⟨hmore, nofun⟩⟩
      · have hdrop : (first :: (front ++ [last])).dropLast = first :: front := by
          rw [List.dropLast_cons_of_ne_nil (by simp), List.dropLast_concat]
        rw [List.concat_eq_append, hdrop] at hfront
        rw [List.concat_eq_append] at hlast ⊢
        obtain ⟨hmore, hall⟩ := hfront
        refine Or.inr ⟨first, front, last, rfl, hmore, hall, ?_⟩
        by_contra hlarge
        refine hlast ⟨hmore, fun byte hbyte => ?_⟩
        rcases List.mem_append.mp hbyte with hbyte | hbyte
        · exact hall byte hbyte
        · rw [List.mem_singleton.mp hbyte]
          exact Nat.le_of_not_lt hlarge

/-- A form is finished within some bytes, or all of these announce others. -/
theorem finished_or_unfinished (bytes : List UInt8) (count : Nat) :
    (∃ used rest, bytes = used ++ rest ∧ used.length ≤ count ∧ Finished used) ∨
      Unfinished (bytes.take count) := by
  induction count with
  | zero =>
      rw [List.take_zero]
      exact Or.inr trivial
  | succ count ih =>
      rcases ih with ⟨used, rest, hbytes, hlength, hused⟩ | hopen
      · exact Or.inl ⟨used, rest, hbytes, Nat.le_succ_of_le hlength, hused⟩
      · by_cases hnext : Unfinished (bytes.take (count + 1))
        · exact Or.inr hnext
        · refine Or.inl ⟨bytes.take (count + 1), bytes.drop (count + 1),
            (List.take_append_drop _ _).symm, List.length_take_le _ _, ?_, hnext⟩
          -- the bytes are longer than `count`, or the two parts of them would be the same
          have hlong : count + 1 ≤ bytes.length := by
            by_contra hshort
            rw [List.take_of_length_le (by omega)] at hopen hnext
            exact hnext hopen
          rw [List.dropLast_eq_take, List.length_take_of_le hlong, List.take_take,
            Nat.add_sub_cancel, Nat.min_eq_left (Nat.le_succ count)]
          exact hopen

/-- What is in front of the cursor: a form of up to five bytes, five bytes that announce more,
or the end of the input before that. -/
theorem form_cases (bytes : List UInt8) :
    (∃ used rest, bytes = used ++ rest ∧ used.length ≤ 5 ∧ Finished used) ∨
      (∃ used rest, bytes = used ++ rest ∧ used.length = 5 ∧ Unfinished used) ∨
      (Unfinished bytes ∧ bytes.length < 5) := by
  rcases finished_or_unfinished bytes 5 with hfinished | hopen
  · exact Or.inl hfinished
  · by_cases hshort : bytes.length < 5
    · rw [List.take_of_length_le (Nat.le_of_lt hshort)] at hopen
      exact Or.inr (Or.inr ⟨hopen, hshort⟩)
    · exact Or.inr (Or.inl ⟨bytes.take 5, bytes.drop 5, (List.take_append_drop _ _).symm,
        List.length_take_of_le (Nat.le_of_not_lt hshort), hopen⟩)

end CompactIndex

namespace Read

open CompactIndex

section Tail

variable {first : UInt8} {front : List UInt8} {last : UInt8} {more : Nat}

/-- A byte that announces another one is put in front of what follows it. -/
theorem indexTail_open (hfirst : 128 ≤ first.toNat) (start more pos : Nat) (rest : List UInt8) :
    runFrom ⟨pos, first :: rest⟩ (indexTail start (more + 1)) =
      runFrom ⟨pos + 1, rest⟩ ((fun tail => first.toNat % 128 + 128 * tail) <$>
        indexTail start more) := by
  have hread := takes_u8 first pos rest
  have hlarge : ¬first.toNat < 128 := Nat.not_lt_of_le hfirst
  rw [indexTail, runFrom_bind_ok (show runFrom ⟨pos, first :: rest⟩ u8 = _ from hread)]
  simp only [if_neg hlarge]
  rfl

theorem takes_tail (hfront : ∀ byte ∈ front, 128 ≤ byte.toNat) (hlast : last.toNat < 128)
    (hlength : front.length < more) (start : Nat) :
    (indexTail start more).Takes (front ++ [last]) (tailNumber (front ++ [last])) := by
  induction front generalizing more with
  | nil =>
      obtain ⟨more, rfl⟩ := Nat.exists_eq_add_of_lt hlength
      rw [List.length_nil, Nat.zero_add, indexTail]
      refine (takes_u8 last).bind_nil ?_
      simp only [if_pos hlast]
      exact .pure _
  | cons byte front ih =>
      obtain ⟨hbyte, hfront⟩ := List.forall_mem_cons.mp hfront
      rw [List.length_cons] at hlength
      obtain ⟨more, rfl⟩ : ∃ less, more = less + 1 := ⟨more - 1, by omega⟩
      intro pos rest
      have hrest := ((ih hfront (Nat.lt_of_succ_lt_succ hlength)).map fun tail =>
        byte.toNat % 128 + 128 * tail) (pos + 1) rest
      rw [List.cons_append, List.cons_append, indexTail_open hbyte, hrest, List.length_cons,
        Nat.add_assoc, Nat.add_comm 1, tailNumber]

theorem indexTail_overflows (hfront : ∀ byte ∈ front, 128 ≤ byte.toNat) (start pos : Nat)
    (rest : List UInt8) :
    runFrom ⟨pos, front ++ rest⟩ (indexTail start front.length) =
      (.error (.indexOverflow start), ⟨pos + front.length, rest⟩) := by
  induction front generalizing pos with
  | nil => rfl
  | cons byte front ih =>
      obtain ⟨hbyte, hfront⟩ := List.forall_mem_cons.mp hfront
      rw [List.cons_append, List.length_cons, indexTail_open hbyte, runFrom_map, ih hfront,
        Nat.add_assoc, Nat.add_comm 1]

theorem indexTail_ends (hfront : ∀ byte ∈ front, 128 ≤ byte.toNat) (hlength : front.length < more)
    (start pos : Nat) :
    runFrom ⟨pos, front⟩ (indexTail start more) =
      (.error (.unexpectedEnd (pos + front.length) 1), ⟨pos + front.length, []⟩) := by
  induction front generalizing more pos with
  | nil =>
      obtain ⟨more, rfl⟩ := Nat.exists_eq_add_of_lt hlength
      rw [List.length_nil, Nat.zero_add, indexTail]
      rfl
  | cons byte front ih =>
      obtain ⟨hbyte, hfront⟩ := List.forall_mem_cons.mp hfront
      rw [List.length_cons] at hlength
      obtain ⟨more, rfl⟩ : ∃ less, more = less + 1 := ⟨more - 1, by omega⟩
      rw [indexTail_open hbyte, runFrom_map, ih hfront (Nat.lt_of_succ_lt_succ hlength),
        List.length_cons, Nat.add_assoc, Nat.add_comm 1]

end Tail

section Form

variable {used : List UInt8}

/-- The first byte alone, or the first byte and what it announces, is checked for its range. -/
theorem runFrom_index (pos : Nat) (first : UInt8) (rest : List UInt8) :
    runFrom ⟨pos, first :: rest⟩ index =
      if first.toNat / 64 % 2 = 1 then
        match runFrom ⟨pos + 1, rest⟩ (indexTail pos 4) with
        | (.ok tail, next) => (settled pos (signed first tail), next)
        | (.error error, next) => (.error error, next)
      else (settled pos (signed first 0), ⟨pos + 1, rest⟩) := by
  have hcheck (value : Int) (cursor : Cursor) :
      runFrom cursor (if Int32.minValue.toInt ≤ value ∧ value ≤ Int32.maxValue.toInt then
        pure (Int32.ofInt value) else throw (StreamError.indexOverflow pos)) =
      (settled pos value, cursor) := by
    have hrange : (Int32.minValue.toInt ≤ value ∧ value ≤ Int32.maxValue.toInt) ↔ Fits value := by
      have hmin : Int32.minValue.toInt = -2 ^ 31 := by decide
      have hmax : Int32.maxValue.toInt = 2 ^ 31 - 1 := by decide
      rw [hmin, hmax, Fits]
      omega
    simp only [hrange, settled]
    split <;> rfl
  have hplace : runFrom ⟨pos, first :: rest⟩ position = (.ok pos, ⟨pos, first :: rest⟩) := rfl
  have hread : runFrom ⟨pos, first :: rest⟩ u8 = (.ok first, ⟨pos + 1, rest⟩) :=
    takes_u8 first pos rest
  rw [index, runFrom_bind_ok hplace, runFrom_bind_ok hread]
  dsimp only
  split
  · cases htail : runFrom ⟨pos + 1, rest⟩ (indexTail pos 4) with
    | mk outcome next =>
        cases outcome with
        | error error => exact runFrom_bind_error htail _
        | ok tail => exact (runFrom_bind_ok htail _).trans (hcheck _ _)
  · exact (runFrom_bind_ok (runFrom_pure _ 0) _).trans (hcheck _ _)

/-- A form is taken if its value fits, and refused behind it otherwise. -/
theorem index_finished (h : Finished used) (hlength : used.length ≤ 5) (pos : Nat)
    (rest : List UInt8) :
    runFrom ⟨pos, used ++ rest⟩ index =
      (settled pos (number used), ⟨pos + used.length, rest⟩) := by
  rcases finished_cases h with ⟨first, rfl, hlast⟩ | ⟨first, front, last, rfl, hmore, hfront, hlast⟩
  · rw [List.singleton_append, runFrom_index, if_neg hlast]
    rfl
  · have hfour : front.length < 4 := by
      simp only [List.length_cons, List.length_append, List.length_nil] at hlength
      omega
    have htail := takes_tail hfront hlast hfour pos (pos + 1) rest
    rw [List.cons_append, runFrom_index, if_pos hmore, htail, List.length_cons, Nat.add_assoc,
      Nat.add_comm 1]
    rfl

/-- Five bytes that announce more are refused behind them. -/
theorem index_unfinished (h : Unfinished used) (hlength : used.length = 5) (pos : Nat)
    (rest : List UInt8) :
    runFrom ⟨pos, used ++ rest⟩ index = (.error (.indexOverflow pos), ⟨pos + 5, rest⟩) := by
  cases used with
  | nil => cases hlength
  | cons first tail =>
      obtain ⟨hmore, htail⟩ := h
      obtain hfour : tail.length = 4 := Nat.succ.inj hlength
      have hrun := indexTail_overflows htail pos (pos + 1) rest
      rw [hfour] at hrun
      rw [List.cons_append, runFrom_index, if_pos hmore, hrun]

/-- Where the input ends before the form does, the read is at the end. -/
theorem index_ends (h : Unfinished used) (hlength : used.length < 5) (pos : Nat) :
    runFrom ⟨pos, used⟩ index =
      (.error (.unexpectedEnd (pos + used.length) 1), ⟨pos + used.length, []⟩) := by
  cases used with
  | nil => rfl
  | cons first tail =>
      obtain ⟨hmore, htail⟩ := h
      have hrun := indexTail_ends htail (Nat.lt_of_succ_lt_succ hlength) pos (pos + 1)
      rw [runFrom_index, if_pos hmore, hrun, List.length_cons, Nat.add_assoc, Nat.add_comm 1]

end Form

end Read

namespace Encode

open CompactIndex

theorem indexTail_zero (more : Nat) : indexTail more 0 = [] := by
  cases more <;> rfl

theorem length_indexTail_le (more number : Nat) : (indexTail more number).length ≤ more := by
  induction more generalizing number with
  | zero => exact Nat.le_refl 0
  | succ more ih =>
      rw [indexTail]
      split
      · exact Nat.zero_le _
      · exact Nat.succ_le_succ (ih _)

theorem length_index_le (value : Int32) : (index value).length ≤ 5 :=
  Nat.succ_le_succ (length_indexTail_le 4 _)

/-- Of the bytes that can follow a first byte for a number the saved ones are the fewest. -/
theorem indexTail_shortest {front : List UInt8} {last : UInt8} {more : Nat}
    (hfront : ∀ byte ∈ front, 128 ≤ byte.toNat) (hlast : last.toNat < 128)
    (hlength : front.length < more) :
    (indexTail more (tailNumber (front ++ [last]))).length ≤ (front ++ [last]).length ∧
      ((indexTail more (tailNumber (front ++ [last]))).length = (front ++ [last]).length →
        indexTail more (tailNumber (front ++ [last])) = front ++ [last]) := by
  obtain ⟨more, rfl⟩ := Nat.exists_eq_add_of_lt (Nat.zero_lt_of_lt hlength)
  rw [Nat.zero_add] at hlength ⊢
  induction front generalizing more with
  | nil =>
      have hnumber : tailNumber ([] ++ [last]) = last.toNat := by
        rw [List.nil_append, tailNumber, tailNumber, Nat.mod_eq_of_lt hlast, Nat.mul_zero,
          Nat.add_zero]
      rw [hnumber, indexTail]
      split
      · simp
      · have hhigh : last.toNat / 128 = 0 := Nat.div_eq_of_lt hlast
        simp [hhigh, indexTail_zero, Nat.mod_eq_of_lt hlast]
  | cons byte front ih =>
      obtain ⟨hbyte, hfront⟩ := List.forall_mem_cons.mp hfront
      obtain ⟨more, rfl⟩ : ∃ less, more = less + 1 := ⟨more - 1, by
        rw [List.length_cons] at hlength
        omega⟩
      obtain ⟨hle, heq⟩ := ih hfront more (Nat.lt_of_succ_lt_succ hlength)
      obtain ⟨high, hhigh⟩ : ∃ high, tailNumber (front ++ [last]) = high := ⟨_, rfl⟩
      rw [hhigh] at hle heq
      have hlow := byte.toNat_lt
      have hdiv : (byte.toNat % 128 + 128 * high) / 128 = high := by omega
      have hmod : (byte.toNat % 128 + 128 * high) % 128 = byte.toNat % 128 := by omega
      rw [List.cons_append, tailNumber, hhigh, indexTail, hdiv, hmod]
      split
      · simp
      · by_cases hzero : high = 0
        · -- an idle last byte is not saved
          subst hzero
          simp [indexTail_zero]
        · have hfirst : UInt8.ofNat (byte.toNat % 128 + 128) = byte := by
            rw [← UInt8.toNat_inj, UInt8.toNat_ofNat']
            omega
          simp only [if_neg hzero, hfirst, List.length_cons]
          exact ⟨Nat.succ_le_succ hle, fun hsame => by rw [heq (Nat.succ.inj hsame)]⟩

/-- The saved form of a number whose sign and first bits are those of a byte. -/
theorem index_signed {first : UInt8} {tail : Nat} {value : Int32}
    (h : signed first tail = value.toInt) :
    index value = UInt8.ofNat (first.toNat % 64 + (if value.toInt < 0 then 128 else 0) +
      if tail = 0 then 0 else 64) :: indexTail 4 tail := by
  have hmagnitude : value.toInt.natAbs = first.toNat % 64 + 64 * tail := by
    rw [← h, signed]
    split
    · rw [Int.natAbs_neg]
      rfl
    · rfl
  have hdiv : (first.toNat % 64 + 64 * tail) / 64 = tail := by omega
  have hmod : (first.toNat % 64 + 64 * tail) % 64 = first.toNat % 64 := by omega
  simp only [index, hmagnitude, hdiv, hmod]

/-- That first byte is the byte itself, unless the sign is the one of a zero. -/
theorem first_signed {first : UInt8} {tail : Nat} {value : Int32}
    (h : signed first tail = value.toInt)
    (hmark : first.toNat / 64 % 2 = if tail = 0 then 0 else 1)
    (hsign : value.toInt = 0 → first.toNat < 128) :
    UInt8.ofNat (first.toNat % 64 + (if value.toInt < 0 then 128 else 0) +
      if tail = 0 then 0 else 64) = first := by
  have hbyte := first.toNat_lt
  rw [← UInt8.toNat_inj, UInt8.toNat_ofNat']
  simp only [signed, Int.ofNat_eq_natCast] at h
  split at h <;> split at hmark <;> split <;> omega

/-- Of the forms of a number the saved one is the shortest, and only a zero with a sign is
another one of its length. -/
theorem index_shortest {used : List UInt8} {value : Int32} (h : Finished used)
    (hlength : used.length ≤ 5) (hvalue : number used = value.toInt) :
    (index value).length ≤ used.length ∧
      ((index value).length = used.length → index value = used ∨ value = 0 ∧ used = [0x80]) := by
  rcases finished_cases h with ⟨first, rfl, hlast⟩ | ⟨first, front, last, rfl, hmore, hfront, hlast⟩
  · have hsigned : signed first 0 = value.toInt := hvalue
    have hmark : first.toNat / 64 % 2 = if 0 = 0 then 0 else 1 := Nat.mod_two_ne_one.mp hlast
    rw [index_signed hsigned, indexTail_zero]
    refine ⟨Nat.le_refl 1, fun _ => ?_⟩
    by_cases hzero : value.toInt = 0 ∧ 128 ≤ first.toNat
    · obtain ⟨hzero, hnegative⟩ := hzero
      have hbyte := first.toNat_lt
      have hfirst : first.toNat = 128 := by
        simp only [signed, if_pos hnegative, Int.ofNat_eq_natCast] at hsigned
        omega
      refine Or.inr ⟨Int32.toInt_inj.mp hzero, ?_⟩
      rw [UInt8.toNat_inj.mp (show first.toNat = (0x80 : UInt8).toNat from hfirst)]
    · rw [first_signed hsigned hmark fun hvalue =>
        Nat.lt_of_not_le fun hnegative => hzero ⟨hvalue, hnegative⟩]
      exact Or.inl rfl
  · have hsigned : signed first (tailNumber (front ++ [last])) = value.toInt := hvalue
    have hfour : front.length < 4 := by
      simp only [List.length_cons, List.length_append, List.length_nil] at hlength
      omega
    obtain ⟨hle, heq⟩ := indexTail_shortest hfront hlast hfour
    obtain ⟨tail, htail⟩ : ∃ tail, tailNumber (front ++ [last]) = tail := ⟨_, rfl⟩
    rw [htail] at hsigned hle heq
    rw [index_signed hsigned]
    refine ⟨Nat.succ_le_succ hle, fun hsame => Or.inl ?_⟩
    have hsame := heq (Nat.succ.inj hsame)
    -- a tail that is saved is not zero, so neither is the value
    have hne : tail ≠ 0 := by
      rintro rfl
      rw [indexTail_zero] at hsame
      exact absurd hsame.symm (List.append_ne_nil_of_right_ne_nil _ (List.cons_ne_nil _ _))
    rw [hsame, first_signed hsigned (by rw [if_neg hne, hmore]) fun hzero => ?_]
    simp only [signed, Int.ofNat_eq_natCast] at hsigned
    split at hsigned <;> omega

end Encode

namespace Read

open CompactIndex

theorem settled_eq_ok {start : Nat} {number : Int} {value : Int32} :
    settled start number = .ok value ↔ number = value.toInt := by
  rw [settled]
  split
  · next hfits =>
      have hback : (Int32.ofInt number).toInt = number := Int32.toInt_ofInt_of_le hfits.1 hfits.2
      rw [Except.ok.injEq, ← Int32.toInt_inj, hback]
  · next hout =>
      refine iff_of_false nofun ?_
      rintro rfl
      exact hout (fits_toInt value)

theorem settled_eq_error {start : Nat} {number : Int} {error : StreamError} :
    settled start number = .error error ↔ ¬Fits number ∧ error = .indexOverflow start := by
  rw [settled]
  split
  · next hfits => exact iff_of_false nofun fun h => h.1 hfits
  · next hout => rw [Except.error.injEq, eq_comm, and_iff_right hout]

variable {cursor next : Cursor}

theorem index_eq_ok {value : Int32} :
    runFrom cursor index = (.ok value, next) ↔
      ∃ used, used.length ≤ 5 ∧ Finished used ∧ number used = value.toInt ∧
        cursor.rest = used ++ next.rest ∧ next.pos = cursor.pos + used.length := by
  obtain ⟨pos, bytes⟩ := cursor
  constructor
  · intro h
    rcases form_cases bytes with ⟨used, rest, rfl, hlength, hused⟩ | ⟨used, rest, rfl, hlength, hused⟩ |
      ⟨hopen, hshort⟩
    · rw [index_finished hused hlength, Prod.mk.injEq, settled_eq_ok] at h
      obtain ⟨hvalue, rfl⟩ := h
      exact ⟨used, hlength, hused, hvalue, rfl, rfl⟩
    · rw [index_unfinished hused hlength] at h
      cases h
    · rw [index_ends hopen hshort] at h
      cases h
  · rintro ⟨used, hlength, hused, hvalue, hrest, hpos⟩
    obtain ⟨pos', rest⟩ := next
    obtain rfl : bytes = used ++ rest := hrest
    obtain rfl : pos' = pos + used.length := hpos
    rw [index_finished hused hlength, settled_eq_ok.mpr hvalue]

theorem index_eq_overflow {offset : Nat} :
    (runFrom cursor index).1 = .error (.indexOverflow offset) ↔ offset = cursor.pos ∧
      ∃ used rest, cursor.rest = used ++ rest ∧ (used.length = 5 ∧ Unfinished used ∨
        used.length ≤ 5 ∧ Finished used ∧ ¬Fits (number used)) := by
  obtain ⟨pos, bytes⟩ := cursor
  constructor
  · intro h
    rcases form_cases bytes with ⟨used, rest, rfl, hlength, hused⟩ | ⟨used, rest, rfl, hlength, hused⟩ |
      ⟨hopen, hshort⟩
    · rw [index_finished hused hlength] at h
      obtain ⟨hout, hoffset⟩ := settled_eq_error.mp h
      exact ⟨StreamError.indexOverflow.inj hoffset, used, rest, rfl,
        Or.inr ⟨hlength, hused, hout⟩⟩
    · rw [index_unfinished hused hlength] at h
      exact ⟨(StreamError.indexOverflow.inj (Except.error.inj h)).symm, used, rest, rfl,
        Or.inl ⟨hlength, hused⟩⟩
    · rw [index_ends hopen hshort] at h
      cases h
  · rintro ⟨rfl, used, rest, hrest, hform⟩
    obtain rfl : bytes = used ++ rest := hrest
    rcases hform with ⟨hlength, hused⟩ | ⟨hlength, hused, hout⟩
    · rw [index_unfinished hused hlength]
    · rw [index_finished hused hlength]
      exact settled_eq_error.mpr ⟨hout, rfl⟩

theorem index_eq_end {offset wanted : Nat} :
    (runFrom cursor index).1 = .error (.unexpectedEnd offset wanted) ↔
      (offset = cursor.size ∧ wanted = 1) ∧ Unfinished cursor.rest ∧ cursor.rest.length < 5 := by
  obtain ⟨pos, bytes⟩ := cursor
  constructor
  · intro h
    rcases form_cases bytes with ⟨used, rest, rfl, hlength, hused⟩ | ⟨used, rest, rfl, hlength, hused⟩ |
      ⟨hopen, hshort⟩
    · rw [index_finished hused hlength] at h
      cases (settled_eq_error.mp h).2
    · rw [index_unfinished hused hlength] at h
      cases h
    · rw [index_ends hopen hshort] at h
      obtain ⟨hoffset, hwanted⟩ := StreamError.unexpectedEnd.inj (Except.error.inj h)
      exact ⟨⟨hoffset.symm, hwanted.symm⟩, hopen, hshort⟩
  · rintro ⟨⟨rfl, rfl⟩, hopen, hshort⟩
    rw [index_ends hopen hshort]
    rfl

/-- What a read takes is no shorter than the saved form of its value. -/
theorem index_takes_shortest {value : Int32} {used : List UInt8}
    (h : runFrom cursor index = (.ok value, next)) (hused : cursor.rest = used ++ next.rest) :
    (Encode.index value).length ≤ used.length ∧
      ((Encode.index value).length = used.length →
        Encode.index value = used ∨ value = 0 ∧ used = [0x80]) := by
  obtain ⟨taken, hlength, htaken, hvalue, hrest, -⟩ := index_eq_ok.mp h
  obtain rfl : used = taken := List.append_cancel_right (hused.symm.trans hrest)
  exact Encode.index_shortest htaken hlength hvalue

/-- A read gives a value exactly if a form of at most five bytes stands at the cursor and its
value fits 32 bits; it overflows exactly if the fifth byte announces another one or the value
does not fit; and it meets the end exactly if the input ends before the form does.  The saved
form of a value is never longer than the form that the value was read from, and is as long only
if it is the same or that one is a zero with a sign; it never has more than five bytes. -/
theorem index_exact (cursor : Cursor) :
    (∀ value next, cursor.read index = (.ok value, next) ↔
      ∃ used, used.length ≤ 5 ∧ Finished used ∧ number used = value.toInt ∧
        cursor.rest = used ++ next.rest ∧ next.pos = cursor.pos + used.length) ∧
    (∀ offset, (cursor.read index).1 = .error (.indexOverflow offset) ↔ offset = cursor.pos ∧
      ∃ used rest, cursor.rest = used ++ rest ∧ (used.length = 5 ∧ Unfinished used ∨
        used.length ≤ 5 ∧ Finished used ∧ ¬Fits (number used))) ∧
    (∀ offset wanted, (cursor.read index).1 = .error (.unexpectedEnd offset wanted) ↔
      (offset = cursor.size ∧ wanted = 1) ∧ Unfinished cursor.rest ∧ cursor.rest.length < 5) ∧
    (∀ value next used, cursor.read index = (.ok value, next) → cursor.rest = used ++ next.rest →
      (Encode.index value).length ≤ used.length ∧
        ((Encode.index value).length = used.length →
          Encode.index value = used ∨ value = 0 ∧ used = [0x80])) ∧
    ∀ value, (Encode.index value).length ≤ 5 :=
  ⟨fun _ _ => index_eq_ok, fun _ => index_eq_overflow, fun _ _ => index_eq_end,
    fun _ _ _ => index_takes_shortest, Encode.length_index_le⟩

/-- The least number of 32 bits has five bytes, and one more has no form that is taken. -/
example :
    ((Cursor.ofBytes [0xc0, 0x80, 0x80, 0x80, 0x10]).read index).1 = .ok Int32.minValue ∧
      ((Cursor.ofBytes [0x40, 0x80, 0x80, 0x80, 0x10]).read index).1 =
        .error (.indexOverflow 0) := by decide

end Read

end ObjectPackage
