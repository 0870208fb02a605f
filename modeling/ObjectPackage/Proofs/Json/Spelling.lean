/-
Spelling of tokens.  A natural number of 64 bits in decimal digits and a text in quotes are read
as what they were written for, and the scanner stops where they end.
-/
import Mathlib.Tactic.SplitIfs
import ObjectPackage.Json.Parse

namespace ObjectPackage

namespace JsonText

theorem codesOfText_append (left right : String) :
    codesOfText (left ++ right) = codesOfText left ++ codesOfText right := by
  simp [codesOfText]

section Digits

/-- Decimal digits of a number, as codes. -/
def decimal (number : Nat) : List Nat :=
  (Nat.toDigits 10 number).map Char.toNat

theorem codesOfText_toString (number : Nat) : codesOfText (toString number) = decimal number := by
  rw [codesOfText, Nat.toString_eq_ofList_toDigits, String.toList_ofList, decimal]

theorem isDigit_of_mem_decimal {number code : Nat} (h : code ∈ decimal number) :
    isDigit code = true := by
  obtain ⟨c, hc, rfl⟩ := List.mem_map.mp h
  have hdigit := Nat.isDigit_of_mem_toDigits (by decide) (by decide) hc
  simpa [Char.isDigit, isDigit, UInt32.le_iff_toNat_le] using hdigit

theorem decimal_ne_nil (number : Nat) : decimal number ≠ [] := by
  simp [decimal]

theorem digitsValue_decimal (number : Nat) : digitsValue (decimal number) = number := by
  have hvalue := @Nat.ofDigitChars_ten_toDigits number
  simp only [Nat.ofDigitChars_eq_foldl, Nat.mul_comm 10] at hvalue
  rw [digitsValue, decimal, List.foldl_map]
  exact hvalue

/-- Only zero starts with a zero. -/
theorem eq_zero_of_head?_decimal {number : Nat} (h : (decimal number).head? = some 48) :
    number = 0 := by
  induction number using Nat.strongRecOn with
  | ind number ih =>
      by_cases hsmall : number < 10
      · rw [decimal, Nat.toDigits_of_lt_base hsmall] at h
        have hchar := Nat.toNat_digitChar_of_lt_ten hsmall
        simp only [List.map_cons, List.head?_cons, Option.some.injEq] at h
        omega
      · have hparts := @Nat.toDigits_of_base_le 10 number (by decide) (by omega)
        obtain ⟨code, rest, hcodes⟩ := List.exists_cons_of_ne_nil (decimal_ne_nil (number / 10))
        rw [decimal, hparts, List.map_append, ← decimal, hcodes] at h
        have hzero := ih (number / 10) (by omega) (by rw [hcodes]; exact h)
        omega

theorem le_foldl_digits (codes : List Nat) (significand : Nat) :
    significand ≤ codes.foldl (fun total code => total * 10 + (code - 48)) significand := by
  induction codes generalizing significand with
  | nil => exact Nat.le_refl _
  | cons code rest ih =>
      have hrest := ih (significand * 10 + (code - 48))
      rw [List.foldl_cons]
      omega

/-- A number that fits is taken in as a whole. -/
theorem appendDigits_eq {codes : List Nat} {significand : Nat}
    (h : codes.foldl (fun total code => total * 10 + (code - 48)) significand < UInt64.size) :
    appendDigits significand codes =
      (codes.foldl (fun total code => total * 10 + (code - 48)) significand, []) := by
  induction codes generalizing significand with
  | nil => rfl
  | cons code rest ih =>
      rw [List.foldl_cons] at h ⊢
      have hstep := le_foldl_digits rest (significand * 10 + (code - 48))
      rw [appendDigits]
      exact (if_pos (by omega)).trans (ih h)

/-- A comma or a closing bracket comes next, if anything does. -/
def Ends (codes : List Nat) : Prop :=
  ∀ code ∈ codes.head?, code = 0x2c ∨ code = 0x5d ∨ code = 0x7d

theorem Ends.append {left right : List Nat} (hleft : Ends left) (hright : Ends right) :
    Ends (left ++ right) := by
  cases left with
  | nil => exact hright
  | cons code rest => exact hleft

theorem ends_nil : Ends [] := by simp [Ends]

theorem digits?_append {codes rest : List Nat} (hne : codes ≠ [])
    (hcodes : ∀ code ∈ codes, isDigit code = true) (hrest : Ends rest) :
    digits? (codes ++ rest) = some (codes, rest) := by
  have hstop : rest.takeWhile isDigit = [] ∧ rest.dropWhile isDigit = rest := by
    cases rest with
    | nil => exact ⟨rfl, rfl⟩
    | cons code rest =>
        have hcode : isDigit code = false := by
          rcases hrest code rfl with rfl | rfl | rfl <;> rfl
        simp [hcode]
  rw [digits?, List.takeWhile_append_of_pos hcodes, List.dropWhile_append_of_pos hcodes, hstop.1,
    hstop.2, List.append_nil]
  simp [hne]

/-- A natural number of 64 bits is read from its digits. -/
theorem number?_decimal {number : Nat} (h : number < UInt64.size) {rest : List Nat}
    (hrest : Ends rest) :
    number? (decimal number ++ rest) = some (some (.integer (Int.ofNat number)), rest) := by
  have hdigits := digits?_append (decimal_ne_nil number) (fun _ => isDigit_of_mem_decimal) hrest
  have hvalue : appendDigits 0 (decimal number) = (number, []) := by
    have hfold := digitsValue_decimal number
    rw [digitsValue] at hfold
    rw [appendDigits_eq (by rw [hfold]; exact h), hfold]
  have hzero : ¬((decimal number).head? = some 48 ∧ 1 < (decimal number).length) := by
    rintro ⟨hhead, hlength⟩
    obtain rfl := eq_zero_of_head?_decimal hhead
    simp [decimal] at hlength
  have hfraction : fraction? rest = some ([], rest) ∧ (rest.head? == some 0x2e) = false ∧
      exponent? rest = some (none, rest) := by
    cases rest with
    | nil => exact ⟨rfl, rfl, rfl⟩
    | cons code rest => rcases hrest code rfl with rfl | rfl | rfl <;> exact ⟨rfl, rfl, rfl⟩
  obtain ⟨hfraction, hpoint, hexponent⟩ := hfraction
  have hminus : ∀ codes, decimal number ++ rest ≠ 0x2d :: codes := by
    intro codes heq
    obtain ⟨code, more, hcodes⟩ := List.exists_cons_of_ne_nil (decimal_ne_nil number)
    rw [hcodes] at heq
    have hcode := isDigit_of_mem_decimal (hcodes ▸ List.mem_cons_self)
    rw [(List.cons.inj heq).1] at hcode
    cases hcode
  have hnumber : numberOf false (decimal number) [] none false =
      some (.integer (Int.ofNat number)) := by
    simp [numberOf, hvalue, appendDigits, inRange]
  rw [number?, hdigits]
  · simp only [Option.bind_eq_bind, Option.bind_some, if_neg hzero, hpoint, hfraction, hexponent,
      hnumber]
    rfl
  · exact hminus

end Digits

section Quoted

/-- The last digits of a control character; there are two zeros before them. -/
def controlDigits (code : Nat) : Nat × Nat :=
  ((Nat.digitChar (code / 16)).toNat, (Nat.digitChar (code % 16)).toNat)

theorem hexUnit?_control : ∀ code < 0x20,
    (List.replicate (4 - (Nat.toDigits 16 code).length) '0' ++ Nat.toDigits 16 code).map
        Char.toNat = [48, 48, (controlDigits code).1, (controlDigits code).2] ∧
      hexUnit? 48 48 (controlDigits code).1 (controlDigits code).2 = some code := by
  decide

theorem quoted?_quote (rest : List Nat) : quoted? (quoteCode :: rest) = some ([], rest) := by
  rw [quoted?.eq_def]
  exact if_pos rfl

theorem quoted?_letter {letter code : Nat} (hletter : letter ≠ unicodeCode)
    (hcode : escaped? letter = some code) (rest : List Nat) :
    quoted? (backslashCode :: letter :: rest) =
      (quoted? rest).map fun (codes, rest) => (code :: codes, rest) := by
  rw [quoted?.eq_def]
  simp only [backslashCode, quoteCode, Nat.reduceEqDiff, Nat.reduceLT, if_false, if_true,
    if_neg hletter, hcode]
  cases quoted? rest <;> rfl

theorem quoted?_unicode {a b c d code : Nat} (hcode : hexUnit? a b c d = some code)
    (rest : List Nat) : quoted? (backslashCode :: unicodeCode :: a :: b :: c :: d :: rest) =
      (quoted? rest).map fun (codes, rest) => (code :: codes, rest) := by
  rw [quoted?.eq_def]
  simp only [backslashCode, quoteCode, Nat.reduceEqDiff, Nat.reduceLT, if_false, if_true, hcode]
  cases quoted? rest <;> rfl

theorem quoted?_plain {code : Nat} (hquote : code ≠ quoteCode) (hbackslash : code ≠ backslashCode)
    (hcontrol : ¬code < 0x20) (rest : List Nat) : quoted? (code :: rest) =
      (quoted? rest).map fun (codes, rest) => (code :: codes, rest) := by
  rw [quoted?.eq_def]
  simp only [if_neg hquote, if_neg hbackslash, if_neg hcontrol]
  cases quoted? rest <;> rfl

/-- A character inside quotes is read back, escaped or not. -/
theorem quoted?_escape (c : Char) (rest : List Nat) :
    quoted? ((JsonValue.escape c).map Char.toNat ++ rest) =
      (quoted? rest).map fun (codes, rest) => (c.toNat :: codes, rest) := by
  rw [JsonValue.escape]
  split_ifs with hquote hbackslash hline hreturn htab hback hfeed hcontrol
  · subst hquote
    exact quoted?_letter (by decide) rfl rest
  · subst hbackslash
    exact quoted?_letter (by decide) rfl rest
  · subst hline
    exact quoted?_letter (by decide) rfl rest
  · subst hreturn
    exact quoted?_letter (by decide) rfl rest
  · subst htab
    exact quoted?_letter (by decide) rfl rest
  · rw [hback]
    exact quoted?_letter (by decide) rfl rest
  · rw [hfeed]
    exact quoted?_letter (by decide) rfl rest
  · obtain ⟨hdigits, hunit⟩ := hexUnit?_control c.toNat hcontrol
    rw [List.map_cons, List.map_cons, hexDigits, String.toList_ofList, hdigits]
    exact quoted?_unicode hunit rest
  · exact quoted?_plain (fun h => hquote (Char.toNat_inj.mp h))
      (fun h => hbackslash (Char.toNat_inj.mp h)) hcontrol rest

theorem quoted?_escaped (chars : List Char) (rest : List Nat) :
    quoted? ((chars.flatMap JsonValue.escape).map Char.toNat ++ quoteCode :: rest) =
      some (chars.map Char.toNat, rest) := by
  induction chars with
  | nil => exact quoted?_quote rest
  | cons c chars ih =>
      rw [List.flatMap_cons, List.map_append, List.append_assoc, quoted?_escape, ih]
      rfl

theorem joinPairs_chars (chars : List Char) :
    joinPairs (chars.map Char.toNat) = chars.map Char.toNat := by
  induction chars with
  | nil => rfl
  | cons c chars ih =>
      cases chars with
      | nil => rfl
      | cons next chars =>
          have hhigh : isHigh c.toNat = false := by
            have hvalid : c.toNat < 0xd800 ∨ 0xdfff < c.toNat ∧ c.toNat < 0x110000 := c.valid
            simp only [isHigh, Bool.and_eq_false_iff, decide_eq_false_iff_not]
            omega
          rw [List.map_cons, List.map_cons, joinPairs, hhigh, Bool.false_and, if_neg (by simp)]
          rw [← List.map_cons, ih]

theorem text?_chars (text : String) : text? (text.toList.map Char.toNat) = some text := by
  have hchars : ∀ chars : List Char, (chars.map Char.toNat).mapM char? = some chars := by
    intro chars
    induction chars with
    | nil => rfl
    | cons c chars ih =>
        have hchar : char? c.toNat = some c := by
          rw [char?, if_pos (show c.toNat.isValidChar from c.valid), Char.ofNat_toNat]
        rw [List.map_cons, List.mapM_cons, hchar, ih]
        rfl
  rw [text?, joinPairs_chars, hchars]
  simp

end Quoted

section Tokens

/-- Codes that are read as some tokens, wherever a value may end after them. -/
structure Spells (codes : List Nat) (tokens : List JsonToken) : Prop where
  short : tokens.length ≤ codes.length
  run : ∀ budget rest, Ends rest → tokensWithin (tokens.length + budget) (codes ++ rest) =
    (tokensWithin budget rest).map (tokens ++ ·)

variable {code : Nat} {more codes right : List Nat} {token : JsonToken}
  {tokens rightTokens : List JsonToken}

theorem tokensWithin_token {rest : List Nat} (hblank : isBlank code = false)
    (htoken : token? (code :: more) = some (token, rest)) (budget : Nat) :
    tokensWithin (budget + 1) (code :: more) = (tokensWithin budget rest).map (token :: ·) := by
  rw [tokensWithin, List.dropWhile_cons_of_neg (by simp [hblank])]
  simp only [htoken, Option.bind_eq_bind, Option.bind_some]
  cases tokensWithin budget rest <;> rfl

theorem Spells.append (hleft : Spells codes tokens) (hright : Spells right rightTokens)
    (hends : Ends right) : Spells (codes ++ right) (tokens ++ rightTokens) where
  short := by
    have hleftShort := hleft.short
    have hrightShort := hright.short
    simp only [List.length_append]
    omega
  run budget rest hrest := by
    rw [List.length_append, Nat.add_assoc, List.append_assoc,
      hleft.run _ _ (hends.append hrest), hright.run _ _ hrest, Option.map_map]
    congr 1
    funext others
    exact (List.append_assoc _ _ _).symm

/-- A token that may stand before everything. -/
theorem Spells.cons (hblank : isBlank code = false)
    (htoken : ∀ rest, token? (code :: more ++ rest) = some (token, rest))
    (h : Spells codes tokens) : Spells (code :: more ++ codes) (token :: tokens) where
  short := by
    have hshort := h.short
    simp only [List.length_cons, List.length_append]
    omega
  run budget rest hrest := by
    have htoken' : token? (code :: (more ++ (codes ++ rest))) = some (token, codes ++ rest) :=
      htoken (codes ++ rest)
    rw [List.length_cons, Nat.add_right_comm, List.append_assoc, List.cons_append,
      tokensWithin_token hblank htoken', h.run _ _ hrest, Option.map_map]
    rfl

/-- A token of a single code. -/
theorem Spells.mark (hblank : isBlank code = false)
    (htoken : ∀ rest, token? (code :: rest) = some (token, rest)) (h : Spells codes tokens) :
    Spells (code :: codes) (token :: tokens) :=
  @Spells.cons code [] codes token tokens hblank htoken h

/-- A token that ends where a value may end. -/
theorem Spells.single (hblank : isBlank code = false)
    (htoken : ∀ rest, Ends rest → token? (code :: more ++ rest) = some (token, rest)) :
    Spells (code :: more) [token] where
  short := by simp
  run budget rest hrest := by
    rw [List.length_singleton, Nat.add_comm]
    exact tokensWithin_token hblank (htoken rest hrest) budget

theorem Spells.nil : Spells [] [] where
  short := Nat.le_refl _
  run budget rest _ := by simp

/-- All codes of a text are read as its tokens. -/
theorem Spells.tokens? (h : Spells codes tokens) : tokens? codes = some tokens := by
  obtain ⟨spare, hspare⟩ := Nat.exists_eq_add_of_le h.short
  have hrun := h.run (spare + 1) [] ends_nil
  rw [List.append_nil, ← Nat.add_assoc, ← hspare] at hrun
  rw [JsonText.tokens?, hrun]
  simp [tokensWithin]

theorem spells_decimal {number : Nat} (h : number < UInt64.size) :
    Spells (decimal number) [.number (some (.integer (Int.ofNat number)))] := by
  obtain ⟨code, more, hcodes⟩ := List.exists_cons_of_ne_nil (decimal_ne_nil number)
  have hdigit := isDigit_of_mem_decimal (hcodes ▸ List.mem_cons_self)
  have hrange : 48 ≤ code ∧ code ≤ 57 := by simpa [isDigit] using hdigit
  rw [hcodes]
  refine .single ?_ fun rest hrest => ?_
  · simp only [isBlank, Bool.or_eq_false_iff, beq_eq_false_iff_ne]
    omega
  · have hnumber := number?_decimal h hrest
    rw [hcodes] at hnumber
    rw [List.cons_append] at hnumber ⊢
    have hkind : code = 0x2d ∨ isDigit code = true := Or.inr hdigit
    rw [token?, if_neg (by omega), if_neg (by omega), if_neg (by omega), if_neg (by omega),
      if_neg (by omega), if_neg (by omega), if_neg (by simp only [quoteCode]; omega),
      if_pos hkind, hnumber]
    rfl

/-- A text in quotes, before everything. -/
theorem Spells.text_append (text : String) (h : Spells codes tokens) :
    Spells (codesOfText (JsonValue.quote text) ++ codes) (.text (some text) :: tokens) := by
  have hquote : codesOfText (JsonValue.quote text) =
      quoteCode :: ((text.toList.flatMap JsonValue.escape).map Char.toNat ++ [quoteCode]) := by
    simp [JsonValue.quote, codesOfText, quoteCode]
  rw [hquote]
  refine .cons rfl (fun rest => ?_) h
  have hinside := quoted?_escaped text.toList rest
  rw [List.cons_append, List.append_assoc, List.singleton_append]
  simp only [token?, quoteCode] at hinside ⊢
  rw [hinside]
  simp [text?_chars]

end Tokens

end JsonText

end ObjectPackage
