/-
Round trip of property flags.  Whatever bits are set, the text of the flags is read as the same
flags: named bits through their names, the others through one hexadecimal number.
-/
import ObjectPackage.Property.TypeTag

namespace ObjectPackage

namespace PropertyFlags

section Pieces

/-- A piece of a flags text: not empty, without bars and blanks. -/
structure Word (piece : List Char) : Prop where
  ne_nil : piece ≠ []
  solid : ∀ c ∈ piece, c ≠ '|' ∧ isBlank c = false

variable {piece : List Char} {pieces : List (List Char)}

theorem dropWhile_blank_append {blanks text : List Char} (hblanks : ∀ c ∈ blanks, isBlank c = true)
    (htext : ∀ c ∈ text.head?, isBlank c = false) :
    (blanks ++ text).dropWhile isBlank = text := by
  rw [List.dropWhile_append_of_pos hblanks]
  cases text with
  | nil => rfl
  | cons c text => exact List.dropWhile_cons_of_neg (by simp [htext c rfl])

/-- Blanks around a text that has none at its ends are taken away. -/
theorem trim_append {before text after : List Char} (hbefore : ∀ c ∈ before, isBlank c = true)
    (hafter : ∀ c ∈ after, isBlank c = true) (hne : text ≠ [])
    (hhead : ∀ c ∈ text.head?, isBlank c = false)
    (hlast : ∀ c ∈ text.getLast?, isBlank c = false) : trim (before ++ text ++ after) = text := by
  have hfront : (before ++ text ++ after).dropWhile isBlank = text ++ after := by
    rw [List.append_assoc]
    refine dropWhile_blank_append hbefore fun c hc => hhead c ?_
    obtain ⟨first, rest, rfl⟩ := List.exists_cons_of_ne_nil hne
    exact hc
  rw [trim, hfront, List.reverse_append, dropWhile_blank_append]
  · exact List.reverse_reverse text
  · exact fun c hc => hafter c (List.mem_reverse.mp hc)
  · rw [List.head?_reverse]
    exact hlast

theorem Word.trim (h : Word piece) {before after : List Char}
    (hbefore : ∀ c ∈ before, isBlank c = true) (hafter : ∀ c ∈ after, isBlank c = true) :
    trim (before ++ piece ++ after) = piece :=
  trim_append hbefore hafter h.ne_nil (fun c hc => (h.solid c (List.mem_of_head? hc)).2)
    fun c hc => (h.solid c (List.mem_of_getLast? hc)).2

/-- A text is split at its first bar. -/
theorem splitBars_append {before : List Char} (h : ∀ c ∈ before, c ≠ '|') (rest : List Char) :
    splitBars (before ++ '|' :: rest) = before :: splitBars rest := by
  induction before with
  | nil => simp [splitBars]
  | cons c before ih =>
      obtain ⟨hc, hbefore⟩ := List.forall_mem_cons.mp h
      rw [List.cons_append, splitBars, if_neg hc, ih hbefore]

theorem splitBars_single {text : List Char} (h : ∀ c ∈ text, c ≠ '|') :
    splitBars text = [text] := by
  induction text with
  | nil => rfl
  | cons c text ih =>
      obtain ⟨hc, htext⟩ := List.forall_mem_cons.mp h
      rw [splitBars, if_neg hc, ih htext]

/-- What stands between two pieces. -/
def bar : List Char := [' ', '|', ' ']

/-- Pieces that are joined are found again, with blanks before them or not. -/
theorem map_trim_splitBars (hne : pieces ≠ []) (h : ∀ piece ∈ pieces, Word piece)
    {before : List Char} (hbefore : ∀ c ∈ before, c = ' ') :
    (splitBars (before ++ bar.intercalate pieces)).map trim = pieces := by
  have hblank {blanks : List Char} (hblanks : ∀ c ∈ blanks, c = ' ') :
      ∀ c ∈ blanks, isBlank c = true ∧ c ≠ '|' := by
    intro c hc
    obtain rfl := hblanks c hc
    decide
  induction pieces generalizing before with
  | nil => exact absurd rfl hne
  | cons piece pieces ih =>
      obtain ⟨hpiece, hpieces⟩ := List.forall_mem_cons.mp h
      have hbars : ∀ c ∈ before ++ piece, c ≠ '|' := by
        intro c hc
        rcases List.mem_append.mp hc with hc | hc
        · exact (hblank hbefore c hc).2
        · exact (hpiece.solid c hc).1
      have hfirst {after : List Char} (hafter : ∀ c ∈ after, c = ' ') :
          trim (before ++ piece ++ after) = piece :=
        hpiece.trim (fun c hc => (hblank hbefore c hc).1) fun c hc => (hblank hafter c hc).1
      cases pieces with
      | nil =>
          have hsingle := @hfirst [] (by simp)
          rw [List.append_nil] at hsingle
          rw [List.intercalate_singleton, splitBars_single hbars, List.map_singleton, hsingle]
      | cons next pieces =>
          have hrest := @ih (by simp) hpieces [' '] (by simp)
          have hjoined : before ++ bar.intercalate (piece :: next :: pieces) =
              (before ++ piece ++ [' ']) ++ '|' :: ([' '] ++ bar.intercalate (next :: pieces)) := by
            rw [List.intercalate_cons_cons, bar]
            simp
          rw [hjoined, splitBars_append, List.map_cons, hrest, hfirst (by simp)]
          intro c hc
          rcases List.mem_append.mp hc with hc | hc
          · exact hbars c hc
          · exact (hblank (by simp) c hc).2

/-- Pieces that are joined have no blanks around them. -/
theorem trim_intercalate (hne : pieces ≠ []) (h : ∀ piece ∈ pieces, Word piece) :
    trim (bar.intercalate pieces) = bar.intercalate pieces ∧ bar.intercalate pieces ≠ [] := by
  have hends : bar.intercalate pieces ≠ [] ∧
      (∀ c ∈ (bar.intercalate pieces).head?, isBlank c = false) ∧
      ∀ c ∈ (bar.intercalate pieces).getLast?, isBlank c = false := by
    induction pieces with
    | nil => exact absurd rfl hne
    | cons piece pieces ih =>
        obtain ⟨hpiece, hpieces⟩ := List.forall_mem_cons.mp h
        have hhead : ∀ c ∈ piece.head?, isBlank c = false := fun c hc =>
          (hpiece.solid c (List.mem_of_head? hc)).2
        cases pieces with
        | nil =>
            rw [List.intercalate_singleton]
            exact ⟨hpiece.ne_nil, hhead,
              fun c hc => (hpiece.solid c (List.mem_of_getLast? hc)).2⟩
        | cons next pieces =>
            obtain ⟨hrest, -, hlast⟩ := ih (by simp) hpieces
            obtain ⟨first, others, rfl⟩ := List.exists_cons_of_ne_nil hpiece.ne_nil
            obtain ⟨last, hsome⟩ :=
              Option.ne_none_iff_exists'.mp (mt List.getLast?_eq_none_iff.mp hrest)
            rw [List.intercalate_cons_cons]
            refine ⟨by simp, hhead, fun c hc => hlast c ?_⟩
            rw [List.getLast?_append, hsome, Option.some_or] at hc
            rw [hsome]
            exact hc
  obtain ⟨hne', hhead, hlast⟩ := hends
  have htrim := @trim_append [] (bar.intercalate pieces) [] (by simp) (by simp) hne' hhead hlast
  rw [List.nil_append, List.append_nil] at htrim
  exact ⟨htrim, hne'⟩

end Pieces

section Hexadecimal

theorem mem_hexDigits {number : Nat} {c : Char} (h : c ∈ Nat.toDigits 16 number) :
    ∃ digit < 16, c = Nat.digitChar digit := by
  induction number using Nat.strongRecOn with
  | ind number ih =>
      rw [Nat.toDigits_eq_if (by decide)] at h
      split at h
      · next hsmall => exact ⟨number, hsmall, List.mem_singleton.mp h⟩
      · rcases List.mem_append.mp h with h | h
        · exact ih (number / 16) (by omega) h
        · exact ⟨number % 16, Nat.mod_lt _ (by decide), List.mem_singleton.mp h⟩

/-- Hexadecimal digits have their values, and these make up the number. -/
theorem hexDigit?_digits (number : Nat) : ∃ values,
    (Nat.toDigits 16 number).mapM hexDigit? = some values ∧
      values.foldl (fun total digit => total * 16 + digit) 0 = number := by
  have hdigit : ∀ digit < 16, hexDigit? (Nat.digitChar digit) = some digit := by decide
  induction number using Nat.strongRecOn with
  | ind number ih =>
      rw [Nat.toDigits_eq_if (by decide)]
      split
      · next hsmall => exact ⟨[number], by simp [hdigit number hsmall], by simp⟩
      · obtain ⟨values, hvalues, hnumber⟩ := ih (number / 16) (by omega)
        refine ⟨values ++ [number % 16], ?_, ?_⟩
        · simp [List.mapM_append, hvalues, hdigit (number % 16) (Nat.mod_lt _ (by decide))]
        · rw [List.foldl_append, hnumber, List.foldl_cons, List.foldl_nil]
          omega

/-- The text of bits without a name. -/
def leftover (rest : UInt32) : String :=
  "0x" ++ hexDigits 1 rest.toNat

theorem toList_leftover (rest : UInt32) :
    (leftover rest).toList = '0' :: 'x' :: Nat.toDigits 16 rest.toNat := by
  have hpad : 1 - (Nat.toDigits 16 rest.toNat).length = 0 := by
    have hlength := @Nat.length_toDigits_pos 16 rest.toNat
    omega
  simp [leftover, hexDigits, hpad]

theorem word_leftover (rest : UInt32) : Word (leftover rest).toList := by
  rw [toList_leftover]
  refine ⟨by simp, fun c hc => ?_⟩
  rcases List.mem_cons.mp hc with rfl | hc
  · decide
  · rcases List.mem_cons.mp hc with rfl | hc
    · decide
    · have hdigit : ∀ digit < 16,
          Nat.digitChar digit ≠ '|' ∧ isBlank (Nat.digitChar digit) = false := by
        decide
      obtain ⟨digit, hlt, rfl⟩ := mem_hexDigits hc
      exact hdigit digit hlt

theorem piece?_leftover (rest : UInt32) : piece? (leftover rest).toList = some rest := by
  obtain ⟨values, hvalues, hnumber⟩ := hexDigit?_digits rest.toNat
  have hplus : ∀ more, Nat.toDigits 16 rest.toNat ≠ '+' :: more := by
    intro more heq
    have hsign : ∀ digit < 16, '+' ≠ Nat.digitChar digit := by decide
    obtain ⟨digit, hlt, hchar⟩ := mem_hexDigits (heq ▸ List.mem_cons_self)
    exact hsign digit hlt hchar
  rw [toList_leftover, piece?, hexWord?]
  · simp [hvalues, hnumber, rest.toNat_lt]
  · exact hplus

end Hexadecimal

section Names

/-- A name stands for its bit. -/
theorem named_words : ∀ entry ∈ named,
    Word entry.1.toList ∧ piece? entry.1.toList = some entry.2 := by
  have hnamed : ∀ entry ∈ named, entry.1.toList ≠ [] ∧
      entry.1.toList.all (fun c => c != '|' && !isBlank c) = true ∧
      piece? entry.1.toList = some entry.2 := by decide +kernel
  intro entry hentry
  obtain ⟨hne, hsolid, hpiece⟩ := hnamed entry hentry
  exact ⟨⟨hne, by simpa using hsolid⟩, hpiece⟩

/-- A single bit is set as a whole or not at all. -/
theorem and_twoPow (bits : UInt32) (place : Nat) (h : bits &&& ⟨BitVec.twoPow 32 place⟩ ≠ 0) :
    bits &&& ⟨BitVec.twoPow 32 place⟩ = ⟨BitVec.twoPow 32 place⟩ := by
  have hcases : bits.toBitVec &&& BitVec.twoPow 32 place = 0 ∨
      bits.toBitVec &&& BitVec.twoPow 32 place = BitVec.twoPow 32 place := by
    rw [BitVec.and_twoPow]
    split
    · exact Or.inr rfl
    · exact Or.inl rfl
  rcases hcases with hzero | hone
  · exact absurd (UInt32.toBitVec_inj.mp hzero) h
  · exact UInt32.toBitVec_inj.mp hone

theorem named_single : ∀ entry ∈ named, ∀ bits : UInt32, bits &&& entry.2 ≠ 0 →
    bits &&& entry.2 = entry.2 := by
  have hplaces : ∀ entry ∈ named, ∃ place < 32, entry.2 = ⟨BitVec.twoPow 32 place⟩ := by
    decide
  intro entry hentry bits hset
  obtain ⟨place, -, hbit⟩ := hplaces entry hentry
  rw [hbit] at hset ⊢
  exact and_twoPow bits place hset

/-- The bits of the names that are listed are the named bits that are set. -/
theorem foldl_set (bits : UInt32) {entries : List (String × UInt32)}
    (h : ∀ entry ∈ entries, bits &&& entry.2 ≠ 0 → bits &&& entry.2 = entry.2) (known : UInt32) :
    ((entries.filter fun entry => bits &&& entry.2 != 0).map Prod.snd).foldl (· ||| ·)
        (bits &&& known) =
      bits &&& entries.foldl (fun known entry => known ||| entry.2) known := by
  induction entries generalizing known with
  | nil => rfl
  | cons entry entries ih =>
      obtain ⟨hentry, hentries⟩ := List.forall_mem_cons.mp h
      have hjoin : bits &&& (known ||| entry.2) = bits &&& known ||| bits &&& entry.2 :=
        UInt32.toBitVec_inj.mp (by simpa using BitVec.and_or_distrib_left)
      rw [List.foldl_cons, ← ih hentries, hjoin]
      by_cases hset : bits &&& entry.2 = 0
      · simp [hset]
      · rw [List.filter_cons_of_pos (by simpa using hset), List.map_cons, List.foldl_cons,
          hentry hset]

theorem mapM_piece? {entries : List (String × UInt32)}
    (h : ∀ entry ∈ entries, piece? entry.1.toList = some entry.2) :
    ((entries.map Prod.fst).map String.toList).mapM piece? = some (entries.map Prod.snd) := by
  induction entries with
  | nil => rfl
  | cons entry entries ih =>
      obtain ⟨hentry, hentries⟩ := List.forall_mem_cons.mp h
      simp only [List.map_cons, List.mapM_cons, hentry, ih hentries]
      rfl

end Names

/-- Names and bits of the pieces that a flags text is joined from. -/
def listed (flags : PropertyFlags) : List (String × UInt32) :=
  let rest := flags.split.2
  named.filter (fun entry => flags.bits &&& entry.2 != 0) ++
    if rest = 0 then [] else [(leftover rest, rest)]

theorem text_eq (flags : PropertyFlags) :
    flags.text = " | ".intercalate (flags.listed.map Prod.fst) := by
  rw [text, listed, List.map_append]
  by_cases hrest : flags.split.2 = 0
  · simp only [hrest]
    rfl
  · simp only [hrest]
    rfl

theorem listed_words (flags : PropertyFlags) : ∀ entry ∈ flags.listed,
    Word entry.1.toList ∧ piece? entry.1.toList = some entry.2 := by
  intro entry hentry
  rcases List.mem_append.mp hentry with hentry | hentry
  · exact named_words entry (List.mem_filter.mp hentry).1
  · split at hentry
    · cases hentry
    · obtain rfl := List.mem_singleton.mp hentry
      exact ⟨word_leftover _, piece?_leftover _⟩

/-- All bits are listed. -/
theorem foldl_listed (flags : PropertyFlags) :
    (flags.listed.map Prod.snd).foldl (· ||| ·) 0 = flags.bits := by
  have hset := foldl_set flags.bits (fun entry hentry => named_single entry hentry flags.bits) 0
  rw [UInt32.and_zero] at hset
  have hunion (known : UInt32) :
      flags.bits &&& known ||| flags.bits &&& ~~~known = flags.bits := by
    apply UInt32.toBitVec_inj.mp
    apply BitVec.eq_of_getLsbD_eq
    intro place hplace
    simp only [UInt32.toBitVec_or, UInt32.toBitVec_and, UInt32.toBitVec_not, BitVec.getLsbD_or,
      BitVec.getLsbD_and, BitVec.getLsbD_not, hplace, decide_true, Bool.true_and]
    cases flags.bits.toBitVec.getLsbD place <;> simp
  rw [listed, List.map_append, List.foldl_append, hset]
  by_cases hrest : flags.split.2 = 0
  · have hall := hunion (named.foldl (fun known entry => known ||| entry.2) 0)
    rw [show flags.bits &&& ~~~named.foldl (fun known entry => known ||| entry.2) 0 = 0 from hrest]
      at hall
    simpa [hrest] using hall
  · simp only [hrest, if_false]
    exact hunion _

/-- The text of flags is read as the flags. -/
theorem ofText?_text (flags : PropertyFlags) : ofText? flags.text = some flags := by
  let pieces := (flags.listed.map Prod.fst).map String.toList
  have htext : flags.text.toList = bar.intercalate pieces := by
    rw [text_eq, String.toList_intercalate]
    rfl
  have hwords : ∀ piece ∈ pieces, Word piece := by
    intro piece hpiece
    obtain ⟨name, hname, rfl⟩ := List.mem_map.mp hpiece
    obtain ⟨entry, hentry, rfl⟩ := List.mem_map.mp hname
    exact (flags.listed_words entry hentry).1
  have hfound : pieces.mapM piece? = some (flags.listed.map Prod.snd) :=
    mapM_piece? fun entry hentry => (flags.listed_words entry hentry).2
  have hbits := flags.foldl_listed
  rw [ofText?]
  by_cases hne : pieces = []
  · have hlisted : flags.listed = [] := by simpa [pieces] using hne
    have hempty : flags = empty := by
      cases flags
      rw [hlisted] at hbits
      exact congrArg PropertyFlags.mk hbits.symm
    rw [htext, hne, hempty]
    rfl
  · obtain ⟨htrim, hjoined⟩ := trim_intercalate hne hwords
    have hsplit := @map_trim_splitBars _ hne hwords [] (by simp)
    rw [List.nil_append] at hsplit
    simp only [htext, htrim, hsplit, hfound, List.isEmpty_iff, hjoined, if_false,
      Option.bind_eq_bind, Option.bind_some, hbits]
    rfl

end PropertyFlags

end ObjectPackage
