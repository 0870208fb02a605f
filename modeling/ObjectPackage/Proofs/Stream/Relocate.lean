/-
Reads are local.  What a read takes is a prefix of the input, and the prefix is taken to
the same value at any other place of a stream, whatever follows it there, as long as it is
not shorter: a container announces no more units than there are bytes behind its count.
-/
import ObjectPackage.Proofs.Stream.Delimit
import ObjectPackage.Tagged.Header

namespace ObjectPackage

variable {ε ε' α β : Type}

/-- Where the one action succeeds, the other one does so from the same bytes in front of at
least as many others.  The two differ in what they tell about a failure. -/
def Relocates (action : ExceptT ε (StateM Cursor) α) (other : ExceptT ε' (StateM Cursor) α) :
    Prop :=
  ∀ ⦃cursor value next⦄, runFrom cursor action = (.ok value, next) →
    ∃ used, cursor.rest = used ++ next.rest ∧ next.pos = cursor.pos + used.length ∧
      ∀ pos rest, next.rest.length ≤ rest.length →
        runFrom ⟨pos, used ++ rest⟩ other = (.ok value, ⟨pos + used.length, rest⟩)

namespace Relocates

variable {action : ExceptT ε (StateM Cursor) α} {other : ExceptT ε' (StateM Cursor) α}

theorem pure (value : α) : Relocates (Pure.pure value : ExceptT ε (StateM Cursor) α)
    (Pure.pure value : ExceptT ε' (StateM Cursor) α) := by
  intro cursor result next h
  obtain ⟨hvalue, rfl⟩ := Prod.mk.inj h
  obtain rfl := Except.ok.inj hvalue
  exact ⟨[], rfl, rfl, fun _ _ _ => rfl⟩

theorem throw (error : ε) : Relocates (throw error : ExceptT ε (StateM Cursor) α) other := by
  intro cursor value next h
  cases h

theorem bind {next : α → ExceptT ε (StateM Cursor) β} {next' : α → ExceptT ε' (StateM Cursor) β}
    (h : Relocates action other) (hnext : ∀ value, Relocates (next value) (next' value)) :
    Relocates (action >>= next) (other >>= next') := by
  intro cursor result last hrun
  obtain ⟨value, middle, hfirst, hsecond⟩ := runFrom_bind_eq_ok.mp hrun
  obtain ⟨used, hused, hpos, hother⟩ := h hfirst
  obtain ⟨more, hmore, hpos', hother'⟩ := hnext value hsecond
  refine ⟨used ++ more, ?_, ?_, ?_⟩
  · rw [hused, hmore, List.append_assoc]
  · rw [hpos', hpos, List.length_append, Nat.add_assoc]
  · intro pos rest hrest
    have henough : middle.rest.length ≤ (more ++ rest).length := by
      rw [hmore, List.length_append, List.length_append]
      omega
    rw [List.append_assoc, runFrom_bind_ok (hother pos _ henough), hother' _ _ hrest,
      List.length_append, Nat.add_assoc]

theorem map (f : α → β) (h : Relocates action other) : Relocates (f <$> action) (f <$> other) := by
  intro cursor result next hrun
  obtain ⟨value, hvalue, rfl⟩ := runFrom_map_eq_ok.mp hrun
  obtain ⟨used, hused, hpos, hother⟩ := h hvalue
  refine ⟨used, hused, hpos, fun pos rest hrest => ?_⟩
  rw [runFrom_map, hother pos rest hrest]

/-- No success makes bytes. -/
theorem length_le (h : Relocates action other) {cursor next : Cursor} {value : α}
    (hrun : runFrom cursor action = (.ok value, next)) :
    next.rest.length ≤ cursor.rest.length := by
  obtain ⟨used, hused, -⟩ := h hrun
  rw [hused, List.length_append]
  exact Nat.le_add_left _ _

/-- A success moves the cursor forward. -/
theorem eq_advance (h : Relocates action other) {cursor next : Cursor} {value : α}
    (hrun : runFrom cursor action = (.ok value, next)) :
    next = cursor.advance (next.pos - cursor.pos) := by
  obtain ⟨used, hused, hpos, -⟩ := h hrun
  obtain ⟨pos, rest⟩ := next
  dsimp only at hused hpos ⊢
  rw [hpos, Nat.add_sub_cancel_left, Cursor.advance, hused, List.drop_left]

/-- The number of bytes that were taken may be checked. -/
theorem checked {check : Nat → Except ε Unit} {last : ExceptT ε (StateM Cursor) α}
    (h : Relocates action action) (hlast : ∀ cursor, runFrom cursor last =
      ((runFrom cursor action).1.bind fun value =>
        (check ((runFrom cursor action).2.pos - cursor.pos)).map fun _ => value,
        (runFrom cursor action).2)) : Relocates last last := by
  intro cursor value next hrun
  rw [hlast] at hrun
  obtain ⟨hvalue, rfl⟩ := Prod.mk.inj hrun
  cases haction : runFrom cursor action with
  | mk result middle =>
      rw [haction] at hvalue
      cases result with
      | error error => cases hvalue
      | ok found =>
          obtain ⟨used, hused, hpos, hother⟩ := h haction
          refine ⟨used, hused, hpos, fun pos rest hrest => ?_⟩
          have hsize : middle.pos - cursor.pos = pos + used.length - pos := by omega
          rw [hlast, hother pos rest hrest]
          dsimp only at hvalue ⊢
          rw [← hsize, hvalue]

end Relocates

namespace Read

/-- A read that is self-delimiting is local. -/
theorem Delimits.relocates {action other : Read α} (h : Delimits action other) :
    Relocates action other := by
  intro cursor value next hrun
  obtain ⟨used, hused, hpos, htakes, -⟩ := h hrun
  exact ⟨used, hused, hpos, fun pos rest _ => htakes pos rest⟩

theorem relocates_skip (count : Nat) : Relocates (skip count) (skip count) :=
  (delimits_skip count).relocates

theorem relocates_u8 : Relocates u8 u8 := delimits_u8.relocates

theorem relocates_u16 : Relocates u16 u16 := delimits_u16.relocates

theorem relocates_u32 : Relocates u32 u32 := delimits_u32.relocates

theorem relocates_index : Relocates index index := delimits_index.relocates

theorem relocates_arrayIndex : Relocates arrayIndex arrayIndex := delimits_arrayIndex.relocates

theorem relocates_name (names : NameTable) : Relocates (name names) (name names) :=
  (delimits_name names).relocates

theorem relocates_handle (objects : ObjectTable) : Relocates (handle objects) (handle objects) :=
  (delimits_handle objects).relocates

theorem relocates_string : Relocates string string := delimits_string.relocates

end Read

namespace Header

theorem relocates_readSize (sizeClass : Nat) :
    Relocates (readSize sizeClass) (readSize sizeClass) := by
  rw [readSize]
  split
  · exact .pure _
  · split
    · exact Read.relocates_u8.map _
    · split
      · exact Read.relocates_u16.map _
      · exact Read.relocates_u32

/-- What follows the name of a header. -/
theorem read_eq_bind (names : NameTable) : ∃ tail : NameId → Read (Option Header),
    read names = Read.name names >>= tail ∧ ∀ name, Relocates (tail name) (tail name) := by
  refine ⟨_, rfl, fun name => ?_⟩
  split
  · exact .pure _
  · refine Read.relocates_u8.bind fun info => ?_
    dsimp only
    split
    on_goal 1 => refine ((Read.relocates_name names).map some).bind fun structName => ?_
    on_goal 2 => refine (Relocates.pure none).bind fun structName => ?_
    all_goals
      refine (relocates_readSize _).bind fun size => ?_
      split
      · exact .pure _
      · split
        · exact Read.relocates_arrayIndex.bind fun index => .pure _
        · exact (Relocates.pure 0).bind fun index => .pure _

/-- A header is the same header at another place. -/
theorem relocates_read (names : NameTable) : Relocates (read names) (read names) := by
  obtain ⟨tail, htail, hrelocates⟩ := read_eq_bind names
  rw [htail]
  exact (Read.relocates_name names).bind hrelocates

theorem uses_read (names : NameTable) : (read names).Uses 1 := by
  obtain ⟨tail, htail, hrelocates⟩ := read_eq_bind names
  rw [htail]
  have hshort (name : NameId) : (tail name).Uses 0 := fun _ _ _ h => (hrelocates name).length_le h
  exact (Read.uses_name names).bind hshort

end Header

end ObjectPackage
