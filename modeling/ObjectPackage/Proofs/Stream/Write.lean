/-
What is written can be read.  The reads that match a list of writes give the values back in
their order, and each one stops where the write of its value has stopped.
-/
import ObjectPackage.Proofs.Stream.Codec
import ObjectPackage.Stream.Write

namespace ObjectPackage

/-- The character that ends a text is not in it. -/
def ZeroFree (text : String) : Prop :=
  Char.ofNat 0 ∉ text.toList

instance (text : String) : Decidable (ZeroFree text) :=
  inferInstanceAs (Decidable (Char.ofNat 0 ∉ text.toList))

theorem ZeroFree.toNat_ne {text : String} (h : ZeroFree text) {c : Char} (hc : c ∈ text.toList) :
    c.toNat ≠ 0 := by
  intro hzero
  rw [← Char.ofNat_toNat c, hzero] at hc
  exact h hc

/-- Array indices of more than thirty bits have none. -/
theorem Encode.arrayIndex_error {value : UInt32} (h : maxArrayIndex < value.toNat) :
    arrayIndex value = .error (.arrayIndexTooLarge value.toNat) := by
  have hlarge : 0x3fffffff < value.toNat := h
  simp only [arrayIndex]
  rw [if_neg (by omega), if_neg (by omega), if_neg (Nat.not_le_of_lt h)]

namespace Read

theorem takes_u64 (value : UInt64) : u64.Takes (Encode.u64 value) value := by
  have h := (takes_word 8 value.toNat).map UInt64.ofNat
  have hlt : value.toNat < 256 ^ 8 := value.toNat_lt
  rw [Nat.mod_eq_of_lt hlt, UInt64.ofNat_toNat] at h
  exact h

theorem takes_object (reference : ObjectRef) : object.Takes (Encode.object reference) reference :=
  (takes_index reference.val).map ObjectRef.mk

/-- Text is read through its zero if all its characters are other Latin-1 characters. -/
theorem takes_asciiZ {text : String} (hlatin : isLatin1 text = true) (hfree : ZeroFree text) :
    asciiZ.Takes (Encode.asciiZ text) text := by
  have hzero : 0 ∉ text.toList.map latin1Byte := by
    intro hmem
    obtain ⟨c, hc, hbyte⟩ := List.mem_map.mp hmem
    have hsmall : c.toNat ≤ 0xff := by
      have hall := List.all_eq_true.mp hlatin c hc
      simpa using hall
    rw [latin1Byte, if_pos hsmall] at hbyte
    have hnumber := congrArg UInt8.toNat hbyte
    rw [UInt8.toNat_ofNat_of_lt' (show c.toNat < 256 by omega)] at hnumber
    exact hfree.toNat_ne hc hnumber
  have h := (takes_bytesZ hzero).map latin1
  rwa [latin1_latin1Byte hlatin] at h

/-- A unit of a character is zero for the character zero alone. -/
theorem zero_notMem_charUnits {c : Char} (h : c.toNat ≠ 0) : 0 ∉ charUnits c := by
  have hvalid : c.toNat < 0xd800 ∨ 0xdfff < c.toNat ∧ c.toNat < 0x110000 := c.valid
  have hunit {number : Nat} (hzero : number ≠ 0) (hlt : number < 0x10000) :
      0 ≠ UInt16.ofNat number := by
    intro heq
    have hnumber := congrArg UInt16.toNat heq
    rw [UInt16.toNat_ofNat_of_lt' hlt] at hnumber
    exact hzero hnumber.symm
  rw [charUnits]
  split
  · next hbasic =>
      rw [List.mem_singleton]
      exact hunit h hbasic
  · next hlarge =>
      have hhigh : 0xd800 + (c.toNat - 0x10000) / 0x400 < 0x10000 := by omega
      have hlow : 0xdc00 + (c.toNat - 0x10000) % 0x400 < 0x10000 := by omega
      rw [List.mem_pair, not_or]
      exact ⟨hunit (by omega) hhigh, hunit (by omega) hlow⟩

theorem takes_unicodeZ {text : String} (hfree : ZeroFree text) :
    unicodeZ.Takes (Encode.unicodeZ text) text := by
  have hzero : 0 ∉ utf16Units text := by
    intro hmem
    obtain ⟨c, hc, hunit⟩ := List.mem_flatMap.mp hmem
    exact zero_notMem_charUnits (hfree.toNat_ne hc) hunit
  refine takes_position fun start => (takes_unitsZ hzero).bind_nil ?_
  rw [textOfUnits?_utf16Units]
  exact .pure _

end Read

namespace Item

/-- The read that matches the write of a value.  It is told of what kind the value is, and
how many raw bytes there are. -/
def read (package : Package) : Item → Read Item
  | .u8 _ => .u8 <$> Read.u8
  | .u16 _ => .u16 <$> Read.u16
  | .u32 _ => .u32 <$> Read.u32
  | .i32 _ => .i32 <$> Read.i32
  | .u64 _ => .u64 <$> Read.u64
  | .f32 _ => .f32 <$> Read.u32
  | .f64 _ => .f64 <$> Read.u64
  | .bytes raw => .bytes <$> Read.bytes raw.length
  | .index _ => .index <$> Read.index
  | .arrayIndex _ => .arrayIndex <$> Read.arrayIndex
  | .name _ => .name <$> Read.name package.names
  | .object _ => .object <$> Read.object
  | .asciiZ _ => .asciiZ <$> Read.asciiZ
  | .unicodeZ _ => .unicodeZ <$> Read.unicodeZ
  | .string _ => .string <$> Read.string

/-- Values whose bytes stand for them: array indices of thirty bits, names of the table,
texts without a zero where a zero ends them, and counted texts with a count that has an index.
A character of Latin-1 is one unit. -/
def Readable (package : Package) : Item → Prop
  | .arrayIndex value => value.toNat ≤ Encode.maxArrayIndex
  | .name id => id.index < package.names.size
  | .asciiZ text => isLatin1 text = true ∧ ZeroFree text
  | .unicodeZ text => ZeroFree text
  | .string text => (utf16Units text).length < 2 ^ 31 - 1
  | _ => True

instance (package : Package) : (item : Item) → Decidable (item.Readable package)
  | .arrayIndex value => inferInstanceAs (Decidable (value.toNat ≤ Encode.maxArrayIndex))
  | .name id => inferInstanceAs (Decidable (id.index < package.names.size))
  | .asciiZ text => inferInstanceAs (Decidable (isLatin1 text = true ∧ ZeroFree text))
  | .unicodeZ text => inferInstanceAs (Decidable (ZeroFree text))
  | .string text => inferInstanceAs (Decidable ((utf16Units text).length < 2 ^ 31 - 1))
  | .u8 _ | .u16 _ | .u32 _ | .i32 _ | .u64 _ | .f32 _ | .f64 _ | .bytes _ | .index _
  | .object _ => .isTrue trivial

variable {package : Package} {item : Item}

theorem Readable.encode_ok (h : item.Readable package) : ∃ bytes, item.encode = .ok bytes := by
  cases item with
  | arrayIndex value => exact Read.arrayIndex_ok h
  | _ => exact ⟨_, rfl⟩

/-- The bytes of a value are taken back to it. -/
theorem Readable.takes (h : item.Readable package) (hsize : package.names.size ≤ 2 ^ 31)
    {bytes : List UInt8} (hbytes : item.encode = .ok bytes) :
    (item.read package).Takes bytes item := by
  cases item with
  | arrayIndex value => exact (Read.takes_arrayIndex hbytes).map _
  | u8 value =>
      obtain rfl := Except.ok.inj hbytes
      exact (Read.takes_u8 value).map _
  | u16 value =>
      obtain rfl := Except.ok.inj hbytes
      exact (Read.takes_u16 value).map _
  | u32 value =>
      obtain rfl := Except.ok.inj hbytes
      exact (Read.takes_u32 value).map _
  | i32 value =>
      obtain rfl := Except.ok.inj hbytes
      exact (Read.takes_i32 value).map _
  | u64 value =>
      obtain rfl := Except.ok.inj hbytes
      exact (Read.takes_u64 value).map _
  | f32 bits =>
      obtain rfl := Except.ok.inj hbytes
      exact (Read.takes_u32 bits).map _
  | f64 bits =>
      obtain rfl := Except.ok.inj hbytes
      exact (Read.takes_u64 bits).map _
  | bytes raw =>
      obtain rfl := Except.ok.inj hbytes
      exact (Read.takes_bytes raw).map _
  | index value =>
      obtain rfl := Except.ok.inj hbytes
      exact (Read.takes_index value).map _
  | name id =>
      obtain rfl := Except.ok.inj hbytes
      exact (Read.takes_name h (Nat.lt_of_lt_of_le h hsize)).map _
  | object reference =>
      obtain rfl := Except.ok.inj hbytes
      exact (Read.takes_object reference).map _
  | asciiZ text =>
      obtain rfl := Except.ok.inj hbytes
      exact (Read.takes_asciiZ h.1 h.2).map _
  | unicodeZ text =>
      obtain rfl := Except.ok.inj hbytes
      exact (Read.takes_unicodeZ h).map _
  | string text =>
      obtain rfl := Except.ok.inj hbytes
      exact (Read.takes_string (Nat.add_lt_of_lt_sub h)).map _

/-- What one write adds is all that the matching read takes. -/
theorem Readable.write_read (h : item.Readable package) (hsize : package.names.size ≤ 2 ^ 31)
    (output : List UInt8) : ∃ bytes, runFrom output item.write = (.ok (), output ++ bytes) ∧
      ∀ rest, runFrom ⟨output.length, bytes ++ rest⟩ (item.read package) =
        (.ok item, ⟨(output ++ bytes).length, rest⟩) := by
  obtain ⟨bytes, hbytes⟩ := h.encode_ok
  refine ⟨bytes, ?_, fun rest => ?_⟩
  · rw [write, hbytes]
    rfl
  · rw [h.takes hsize hbytes, List.length_append]

/-- Write values one after the other, and note where each one ends. -/
def writeAll (items : List Item) : Write (List (Item × Nat)) :=
  items.mapM fun item => do
    item.write
    return (item, (← get).length)

/-- The matching reads; what they give, and where each one ends. -/
def readAll (package : Package) (items : List Item) : Read (List (Item × Nat)) :=
  items.mapM fun item => do
    return (← item.read package, ← Read.position)

/-- The reads start where the writes started, behind any output and before anything. -/
theorem writeAll_readAll {items : List Item} (h : ∀ item ∈ items, item.Readable package)
    (hsize : package.names.size ≤ 2 ^ 31) (output : List UInt8) : ∃ written bytes,
      runFrom output (writeAll items) = (.ok written, output ++ bytes) ∧
        written.map Prod.fst = items ∧
        ∀ rest, runFrom ⟨output.length, bytes ++ rest⟩ (readAll package items) =
          (.ok written, ⟨(output ++ bytes).length, rest⟩) := by
  induction items generalizing output with
  | nil =>
      refine ⟨[], [], ?_, rfl, fun rest => ?_⟩
      · rw [List.append_nil]
        rfl
      · rw [List.append_nil]
        rfl
  | cons item items ih =>
      obtain ⟨hitem, hitems⟩ := List.forall_mem_cons.mp h
      obtain ⟨first, hwrite, hread⟩ := hitem.write_read hsize output
      obtain ⟨written, bytes, hwrites, hsame, hreads⟩ := ih hitems (output ++ first)
      refine ⟨(item, (output ++ first).length) :: written, first ++ bytes, ?_, ?_, fun rest => ?_⟩
      · rw [writeAll] at hwrites
        rw [writeAll, List.mapM_cons, runFrom_bind_ok
          (runFrom_bind_ok hwrite _ |>.trans (runFrom_bind_ok (runFrom_get _) _)), ← List.append_assoc,
          runFrom_bind_ok hwrites]
        rfl
      · rw [List.map_cons, hsame]
      · have hrun := hreads rest
        rw [readAll] at hrun
        rw [readAll, List.mapM_cons, List.append_assoc, runFrom_bind_ok (runFrom_bind_ok (hread _) _ |>.trans
          (runFrom_bind_ok (runFrom_get _) _)), ← List.append_assoc, runFrom_bind_ok hrun]
        rfl

/-- Anything that is written is read back.  The writes of any list of readable values succeed;
the matching reads of their bytes give the same values in the same order, each one ends where its
write has ended, and then nothing is left.  An array index of more than thirty bits is refused
and adds nothing.  The table has at most `2 ^ 31` names, as a name is written as an index. -/
theorem written_readable (package : Package) (hsize : package.names.size ≤ 2 ^ 31) :
    (∀ items : List Item, (∀ item ∈ items, item.Readable package) → ∃ written output,
      runFrom [] (writeAll items) = (.ok written, output) ∧ written.map Prod.fst = items ∧
        (Cursor.ofBytes output).read (readAll package items) =
          (.ok written, ⟨output.length, []⟩)) ∧
    ∀ (value : UInt32) (output : List UInt8), Encode.maxArrayIndex < value.toNat →
      runFrom output (arrayIndex value).write =
        (.error (.arrayIndexTooLarge value.toNat), output) := by
  refine ⟨fun items hitems => ?_, fun value output hlarge => ?_⟩
  · obtain ⟨written, output, hwrite, hsame, hread⟩ := writeAll_readAll hitems hsize []
    refine ⟨written, output, hwrite, hsame, ?_⟩
    have hrun := hread []
    rw [List.append_nil] at hrun
    exact hrun
  · rw [write, encode, Encode.arrayIndex_error hlarge]
    rfl

end Item

namespace MixedItems

def package : Package := ⟨69, ⟨["None", "Pawn"]⟩, default⟩

/-- The least index, an array index of four bytes, and texts with a zero and a surrogate pair. -/
def items : List Item :=
  [.u16 7, .index Int32.minValue, .arrayIndex 0x4000, .name ⟨1⟩, .bytes [1, 0, 2],
    .asciiZ "caf\u00e9", .string "a\x00b", .string "𝄞"]

theorem items_read_back : package.names.size ≤ 2 ^ 31 ∧
    (∀ item ∈ items, item.Readable package) ∧
    (∃ written output, runFrom [] (Item.writeAll items) = (.ok written, output) ∧
      written.map Prod.fst = items ∧
      (Cursor.ofBytes output).read (Item.readAll package items) =
        (.ok written, ⟨output.length, []⟩)) ∧
    runFrom [7] (Item.arrayIndex 0x40000000).write =
      (.error (.arrayIndexTooLarge 0x40000000), [7]) := by
  have hsize : package.names.size ≤ 2 ^ 31 := by decide
  have hitems : ∀ item ∈ items, item.Readable package := by decide +kernel
  obtain ⟨hread, hrefused⟩ := Item.written_readable package hsize
  exact ⟨hsize, hitems, hread items hitems, hrefused 0x40000000 [7] (by decide)⟩

end MixedItems

end ObjectPackage
