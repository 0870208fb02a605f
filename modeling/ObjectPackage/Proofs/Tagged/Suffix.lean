/-
Nothing depends on what is left.  Whatever succeeds on a stream succeeds on every stream that
goes on behind it, with the same result, and stops at the same place: the reads a stream
offers, headers, scripts, and property lists with the block that they are loaded into.
-/
import ObjectPackage.Proofs.Script.Cut
import ObjectPackage.Proofs.Tagged.Listing

namespace ObjectPackage

variable {ε ε' α : Type}

/-- The same place of a stream that goes on with more bytes. -/
def Cursor.followedBy (cursor : Cursor) (suffix : List UInt8) : Cursor :=
  ⟨cursor.pos, cursor.rest ++ suffix⟩

/-- What an action takes it takes before a longer rest as well. -/
theorem Relocates.followedBy {action : ExceptT ε (StateM Cursor) α}
    (h : Relocates action action) {cursor next : Cursor} {value : α}
    (hrun : runFrom cursor action = (.ok value, next)) (suffix : List UInt8) :
    runFrom (cursor.followedBy suffix) action = (.ok value, next.followedBy suffix) := by
  obtain ⟨used, hused, hpos, hother⟩ := h hrun
  have hlonger : next.rest.length ≤ (next.rest ++ suffix).length := by
    rw [List.length_append]
    exact Nat.le_add_right _ _
  rw [Cursor.followedBy, hused, List.append_assoc, hother cursor.pos _ hlonger, ← hpos]
  rfl

namespace Read

/-- The place of a read shows in failures alone. -/
theorem relocates_position {next next' : Nat → Read α}
    (h : ∀ start start', Relocates (next start) (next' start')) :
    Relocates (position >>= next) (position >>= next') := by
  intro cursor value last hrun
  obtain ⟨used, hused, hpos, -⟩ := h cursor.pos cursor.pos hrun
  refine ⟨used, hused, hpos, fun pos rest hrest => ?_⟩
  obtain ⟨used', hused', -, hother⟩ := h cursor.pos pos hrun
  obtain rfl : used' = used := List.append_cancel_right (hused'.symm.trans hused)
  exact hother pos rest hrest

theorem relocates_bytesZ : Relocates bytesZ bytesZ := by
  intro cursor text next hrun
  obtain ⟨hzero, hrest, hpos⟩ := bytesZ_splits hrun
  exact ⟨text ++ [0], hrest, hpos, fun pos rest _ => takes_bytesZ hzero pos rest⟩

theorem relocates_unitsZ : Relocates unitsZ unitsZ := by
  intro cursor units next hrun
  obtain ⟨hzero, hrest, hpos⟩ := unitsZ_splits hrun
  exact ⟨_, hrest, hpos, fun pos rest _ => takes_unitsZ hzero pos rest⟩

theorem relocates_unicodeZ : Relocates unicodeZ unicodeZ := by
  refine relocates_position fun start start' => relocates_unitsZ.bind fun units => ?_
  split
  · exact .pure _
  · exact .throw _

theorem relocates_nameText (names : NameTable) :
    Relocates (nameText names) (nameText names) := by
  refine (relocates_name names).bind fun id => ?_
  split
  · exact .pure _
  · exact .throw _

/-- The reads that the stream of a package offers.  Floating-point numbers are read as the words
of their bits. -/
inductive Offered (package : Package) : {α : Type} → Read α → Prop
  | u8 : Offered package Read.u8
  | u16 : Offered package Read.u16
  | u32 : Offered package Read.u32
  | u64 : Offered package Read.u64
  | i32 : Offered package Read.i32
  | index : Offered package Read.index
  | arrayIndex : Offered package Read.arrayIndex
  | name : Offered package (Read.name package.names)
  | nameText : Offered package (Read.nameText package.names)
  | object : Offered package Read.object
  | bytes (count : Nat) : Offered package (Read.bytes count)
  | skip (count : Nat) : Offered package (Read.skip count)
  | bytesZ : Offered package Read.bytesZ
  | unitsZ : Offered package Read.unitsZ
  | asciiZ : Offered package Read.asciiZ
  | unicodeZ : Offered package Read.unicodeZ
  | string : Offered package Read.string

theorem Offered.relocates {package : Package} {action : Read α} (h : Offered package action) :
    Relocates action action := by
  cases h with
  | u8 => exact relocates_u8
  | u16 => exact relocates_u16
  | u32 => exact relocates_u32
  | u64 => exact (((delimits_bytes 8).map _).map _).relocates
  | i32 => exact relocates_u32.map _
  | index => exact relocates_index
  | arrayIndex => exact relocates_arrayIndex
  | name => exact relocates_name _
  | nameText => exact relocates_nameText _
  | object => exact relocates_index.map _
  | bytes count => exact (delimits_bytes count).relocates
  | skip count => exact relocates_skip count
  | bytesZ => exact relocates_bytesZ
  | unitsZ => exact relocates_unitsZ
  | asciiZ => exact relocates_bytesZ.map _
  | unicodeZ => exact relocates_unicodeZ
  | string => exact relocates_string

end Read

theorem Script.decode_followedBy {package : Package} {cursor : Cursor} {size : Nat}
    {script : Script} {final : DecodeState}
    (h : cursor.decode (decode package size) = (.ok script, final)) (suffix : List UInt8) :
    (cursor.followedBy suffix).decode (decode package size) =
      (.ok script, ⟨final.cursor.followedBy suffix, final.decoded⟩) := by
  obtain ⟨used, hused, hanywhere⟩ := decode_anywhere h
  have hhere := hanywhere cursor.pos final.cursor.rest
  rw [← hused] at hhere
  have hfinal := congrArg DecodeState.cursor (Prod.mk.inj (h.symm.trans hhere)).2
  have hthere := hanywhere cursor.pos (final.cursor.rest ++ suffix)
  rw [← List.append_assoc, ← hused] at hthere
  rw [Cursor.followedBy, hthere, hfinal]
  rfl

namespace Load

variable {package : Package} {layout : StructLayout}

/-- An entry leaves the same store, whatever follows it, and no more bytes than there were. -/
theorem item_followedBy {header : Header} {store : Store} {cursor : Cursor}
    {skipped : Option String} {after : Filling}
    (h : runFrom ⟨store, cursor⟩ (item package layout header) = (.ok skipped, after))
    (suffix : List UInt8) :
    runFrom ⟨store, cursor.followedBy suffix⟩ (item package layout header) =
        (.ok skipped, ⟨after.store, after.cursor.followedBy suffix⟩) ∧
      after.cursor.rest.length ≤ cursor.rest.length := by
  have hlocal := item_local package layout header store
  have hupon := runFrom_upon_eq_ok.mpr h
  exact ⟨runFrom_upon_eq_ok.mp (hlocal.followedBy hupon suffix), hlocal.length_le hupon⟩

/-- The loop ends at the same place.  Each header takes a byte of the budget that is enough for
the bytes at hand, so a larger budget changes nothing. -/
theorem entries_followedBy {budget more : Nat} {report result : LoadReport} {store : Store}
    {cursor : Cursor} {after : Filling} (hbudget : cursor.rest.length < budget)
    (hmore : budget ≤ more)
    (h : runFrom ⟨store, cursor⟩ (entries package layout budget report) = (.ok result, after))
    (suffix : List UInt8) :
    runFrom ⟨store, cursor.followedBy suffix⟩ (entries package layout more report) =
      (.ok result, ⟨after.store, after.cursor.followedBy suffix⟩) := by
  induction budget generalizing more report store cursor with
  | zero => exact absurd hbudget (Nat.not_lt_zero _)
  | succ budget ih =>
      obtain ⟨more, rfl⟩ := Nat.exists_eq_succ_of_ne_zero (Nat.ne_zero_of_lt hmore)
      cases hheader : runFrom cursor (Header.read package.names) with
      | mk found behind =>
          cases found with
          | error error =>
              have hread := runFrom_read ⟨store, cursor⟩ (Header.read package.names)
              rw [hheader] at hread
              rw [entries_succ, runFrom_bind_error hread] at h
              cases h
          | ok found =>
              have hthere := (Header.relocates_read package.names).followedBy hheader suffix
              cases found with
              | none =>
                  rw [runFrom_entries_none hheader] at h
                  obtain ⟨hresult, rfl⟩ := Prod.mk.inj h
                  obtain rfl := Except.ok.inj hresult
                  exact runFrom_entries_none hthere _ _ _
              | some header =>
                  rw [runFrom_entries_some hheader] at h
                  obtain ⟨skipped, middle, hitem, hrest⟩ := runFrom_bind_eq_ok.mp h
                  obtain ⟨hthereItem, hlength⟩ := item_followedBy hitem suffix
                  have huses := Header.uses_read package.names _ _ _ hheader
                  rw [runFrom_entries_some hthere, runFrom_bind_ok hthereItem]
                  exact ih (by omega) (Nat.le_of_succ_le_succ hmore) hrest

end Load

theorem Block.loadProperties_followedBy {package : Package} {block after : Block}
    {cursor next : Cursor} {report : LoadReport}
    (h : block.loadProperties package cursor = (.ok report, after, next))
    (suffix : List UInt8) :
    block.loadProperties package (cursor.followedBy suffix) =
      (.ok report, after, next.followedBy suffix) := by
  obtain ⟨outcome, filled, hrun⟩ : ∃ outcome filled, runFrom ⟨block.store, cursor⟩
      (Load.entries package block.layout (cursor.rest.length + 1) ⟨0, []⟩) = (outcome, filled) :=
    ⟨_, _, rfl⟩
  obtain ⟨rfl, hended⟩ := Prod.mk.inj (h.symm.trans (loadProperties_eq hrun))
  obtain ⟨rfl, rfl⟩ := Prod.mk.inj hended
  have hlonger : cursor.rest.length + 1 ≤ (cursor.followedBy suffix).rest.length + 1 := by
    rw [Cursor.followedBy, List.length_append]
    omega
  exact loadProperties_eq (Load.entries_followedBy (Nat.lt_succ_self _) hlonger hrun suffix)

/-- Results depend on the bytes that are consumed alone.  What succeeds somewhere in a stream
succeeds there in the stream with any suffix, with the same result and at the same place: a read,
a header, a script of any size, and a property list, which leaves the same block. -/
theorem Cursor.suffix_unread (package : Package) (cursor : Cursor) (suffix : List UInt8) :
    (∀ {α : Type} (action : Read α), Read.Offered package action → ∀ value next,
      cursor.read action = (.ok value, next) →
        (cursor.followedBy suffix).read action = (.ok value, next.followedBy suffix)) ∧
    (∀ header next, cursor.read (Header.read package.names) = (.ok header, next) →
      (cursor.followedBy suffix).read (Header.read package.names) =
        (.ok header, next.followedBy suffix)) ∧
    (∀ size script final, cursor.decode (Script.decode package size) = (.ok script, final) →
      (cursor.followedBy suffix).decode (Script.decode package size) =
        (.ok script, ⟨final.cursor.followedBy suffix, final.decoded⟩)) ∧
    ∀ (block after : Block) (report : LoadReport) (next : Cursor),
      block.loadProperties package cursor = (.ok report, after, next) →
        block.loadProperties package (cursor.followedBy suffix) =
          (.ok report, after, next.followedBy suffix) := by
  refine ⟨?_, ?_, ?_, ?_⟩
  · intro α action hoffered value next hread
    exact hoffered.relocates.followedBy hread suffix
  · intro header next hread
    exact (Header.relocates_read package.names).followedBy hread suffix
  · intro size script final hdecode
    exact Script.decode_followedBy hdecode suffix
  · intro block after report next hload
    exact Block.loadProperties_followedBy hload suffix

namespace RatedPawn

def package : Package := ⟨69, ⟨["None", "Rank"]⟩, default⟩

/-- A pawn has a rank. -/
def layout : StructLayout :=
  ⟨"Pawn", none, [⟨0, "Pawn", "Rank", .byte, 1, .empty, 0, 0⟩], 0, [], 1, 1⟩

def unrated : Block := ⟨layout, ⟨#[0], #[]⟩⟩

def rated : Block := ⟨layout, ⟨#[7], #[]⟩⟩

/-- The bytes of a rank, and of a text constant, before two more bytes. -/
theorem rank_suffix_unread :
    (Cursor.ofBytes [1, 1, 7, 0, 5, 5]).read (Read.name package.names) =
      (.ok ⟨1⟩, ⟨1, [1, 7, 0, 5, 5]⟩) ∧
    (Cursor.ofBytes [1, 1, 7, 0, 5, 5]).read (Header.read package.names) =
      (.ok (some ⟨⟨1⟩, .byte, 1, 0, none, false⟩), ⟨2, [7, 0, 5, 5]⟩) ∧
    (Cursor.ofBytes [0x1f, 65, 0, 5, 5]).decode (Script.decode package 3) =
      (.ok ⟨69, [.node .stringConst [.leaf (.text [65])]]⟩, ⟨⟨3, [5, 5]⟩, 3⟩) ∧
    unrated.loadProperties package (Cursor.ofBytes [1, 1, 7, 0, 5, 5]) =
      (.ok ⟨1, []⟩, rated, ⟨4, [5, 5]⟩) := by
  obtain ⟨hread, hheader, -, hload⟩ :=
    Cursor.suffix_unread package (Cursor.ofBytes [1, 1, 7, 0]) [5, 5]
  obtain ⟨-, -, hscript, -⟩ := Cursor.suffix_unread package (Cursor.ofBytes [0x1f, 65, 0]) [5, 5]
  refine ⟨?_, ?_, ?_, ?_⟩
  · exact hread (Read.name package.names) .name ⟨1⟩ ⟨1, [1, 7, 0]⟩ (by decide)
  · exact hheader (some ⟨⟨1⟩, .byte, 1, 0, none, false⟩) ⟨2, [7, 0]⟩ (by decide)
  · exact hscript 3 ⟨69, [.node .stringConst [.leaf (.text [65])]]⟩ ⟨⟨3, []⟩, 3⟩ (by rfl)
  · exact hload unrated rated ⟨1, []⟩ ⟨4, []⟩ (by rfl)

end RatedPawn

end ObjectPackage
