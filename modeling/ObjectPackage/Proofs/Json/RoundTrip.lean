/-
Round trip of values.  The compact text of a value that is made of texts, truth values, natural
numbers of 64 bits, arrays and objects is read as that value.
-/
import ObjectPackage.Proofs.Json.Spelling

namespace ObjectPackage

namespace JsonValue

open JsonText

/-- A value that a writer of data makes: its numbers are natural numbers of 64 bits, and
everything in it stands for something. -/
inductive Plain : JsonValue → Prop
  | null : Plain .null
  | bool (value : Bool) : Plain (.bool value)
  | natural {number : Nat} (h : number < UInt64.size) : Plain (.ofNat number)
  | string (text : String) : Plain (.string text)
  | array {items : List JsonValue} (h : ∀ item ∈ items, Plain item) : Plain (.array items)
  | object {members : List JsonMember} (h : ∀ member ∈ members, Plain member.value) :
      Plain (.object members)

@[simp] theorem plain_string (text : String) : (string text).Plain := .string text

@[simp] theorem plain_array {items : List JsonValue} : (array items).Plain ↔ ∀ item ∈ items, item.Plain :=
  ⟨fun h => by cases h; assumption, .array⟩

@[simp] theorem plain_object {members : List JsonMember} :
    (object members).Plain ↔ ∀ member ∈ members, member.value.Plain :=
  ⟨fun h => by cases h; assumption, .object⟩

/-- Codes that are read as tokens, from which a parser makes something.  A container that they
are the inside of does not end right away. -/
structure Written {α : Type} (parse : Nat → List JsonToken → Option (α × List JsonToken))
    (close : JsonToken) (codes : List Nat) (result : α) (tokens : List JsonToken) : Prop where
  spells : Spells codes tokens
  starts : ∃ token rest, tokens = token :: rest ∧ token ≠ close
  parses : ∀ budget rest, 2 * tokens.length ≤ budget →
    parse budget (tokens ++ rest) = some (result, rest)

variable {item value : JsonValue} {items : List JsonValue} {members : List JsonMember}
  {key : String} {codes more : List Nat} {tokens moreTokens : List JsonToken}

/-- A value without values inside. -/
theorem written_leaf {token : JsonToken} (hspells : Spells codes (token :: tokens))
    (hclose : token ≠ .closeBracket) (hparses : ∀ budget rest,
      valueWithin (budget + 1) (token :: tokens ++ rest) = some (value, rest)) :
    Written valueWithin .closeBracket codes value (token :: tokens) where
  spells := hspells
  starts := ⟨token, tokens, rfl, hclose⟩
  parses budget rest hbudget := by
    rw [List.length_cons] at hbudget
    obtain ⟨budget, rfl⟩ := Nat.exists_eq_add_of_le' (show 1 ≤ budget by omega)
    exact hparses budget rest

section Items

theorem written_item (h : Written valueWithin .closeBracket codes item tokens) :
    Written itemsWithin .closeBracket (codes ++ [0x5d]) [item] (tokens ++ [.closeBracket]) where
  spells := h.spells.append (.mark rfl (fun _ => rfl) .nil) (by simp [Ends])
  starts := by
    obtain ⟨token, others, rfl, hclose⟩ := h.starts
    exact ⟨token, others ++ [.closeBracket], rfl, hclose⟩
  parses budget rest hbudget := by
    rw [List.length_append, List.length_singleton] at hbudget
    obtain ⟨budget, rfl⟩ := Nat.exists_eq_add_of_le' (show 1 ≤ budget by omega)
    rw [List.append_assoc, itemsWithin, h.parses budget _ (by omega)]
    rfl

theorem written_item_cons (h : Written valueWithin .closeBracket codes item tokens)
    (hmore : Written itemsWithin .closeBracket more items moreTokens) :
    Written itemsWithin .closeBracket (codes ++ 0x2c :: more) (item :: items)
      (tokens ++ .comma :: moreTokens) where
  spells := h.spells.append (.mark rfl (fun _ => rfl) hmore.spells) (by simp [Ends])
  starts := by
    obtain ⟨token, others, rfl, hclose⟩ := h.starts
    exact ⟨token, others ++ .comma :: moreTokens, rfl, hclose⟩
  parses budget rest hbudget := by
    rw [List.length_append, List.length_cons] at hbudget
    obtain ⟨budget, rfl⟩ := Nat.exists_eq_add_of_le' (show 1 ≤ budget by omega)
    rw [List.append_assoc, itemsWithin, h.parses budget _ (by omega)]
    simp only [Option.bind_eq_bind, Option.bind_some, List.cons_append,
      hmore.parses budget rest (by omega)]
    rfl

/-- Items in brackets. -/
theorem written_array (h : Written itemsWithin .closeBracket codes items tokens) :
    Written valueWithin .closeBracket (0x5b :: codes) (.array items) (.openBracket :: tokens) where
  spells := .mark rfl (fun _ => rfl) h.spells
  starts := ⟨_, _, rfl, by simp⟩
  parses budget rest hbudget := by
    obtain ⟨token, others, rfl, hclose⟩ := h.starts
    rw [List.length_cons] at hbudget
    obtain ⟨budget, rfl⟩ := Nat.exists_eq_add_of_le' (show 1 ≤ budget by omega)
    have hparses := h.parses budget rest (by omega)
    rw [List.cons_append] at hparses
    rw [List.cons_append, List.cons_append, valueWithin, hparses]
    · rfl
    · exact fun _ heq => hclose (List.cons.inj heq).1

/-- Some values, separated by commas. -/
theorem exists_written_items (hne : items ≠ []) (h : ∀ item ∈ items, ∃ tokens,
      Written valueWithin .closeBracket (codesOfText item.compact) item tokens) :
    ∃ tokens, Written itemsWithin .closeBracket
      (codesOfText (",".intercalate (compactItems items)) ++ [0x5d]) items tokens := by
  induction items with
  | nil => exact absurd rfl hne
  | cons item items ih =>
      obtain ⟨hitem, hitems⟩ := List.forall_mem_cons.mp h
      obtain ⟨tokens, hwritten⟩ := hitem
      cases items with
      | nil =>
          rw [compactItems, compactItems, String.intercalate_singleton]
          exact ⟨_, written_item hwritten⟩
      | cons next items =>
          obtain ⟨moreTokens, hmore⟩ := ih (by simp) hitems
          rw [compactItems, compactItems, String.intercalate_cons_cons, ← compactItems,
            codesOfText_append, codesOfText_append, List.append_assoc, List.append_assoc]
          exact ⟨_, written_item_cons hwritten hmore⟩

end Items

section Members

/-- Members as the parser of members returns them. -/
def parsedMembers (members : List JsonMember) : List (Option String × JsonValue) :=
  members.map fun member => (some member.key, member.value)

theorem ofMembers_parsed (members : List JsonMember) :
    ofMembers (parsedMembers members) = .object members := by
  have hmapped : (parsedMembers members).mapM
      (fun member => member.1.map fun key => JsonMember.mk key member.2) = some members := by
    induction members with
    | nil => rfl
    | cons member members ih =>
        cases member
        rw [parsedMembers] at ih ⊢
        simp [List.mapM_cons, ih]
  rw [ofMembers]
  simp [hmapped]

theorem spells_key (key : String) (h : Spells codes tokens) :
    Spells (codesOfText (quote key) ++ 0x3a :: codes) (.text (some key) :: .colon :: tokens) :=
  .text_append key (.mark rfl (fun _ => rfl) h)

theorem written_member (h : Written valueWithin .closeBracket codes value tokens) :
    Written membersWithin .closeBrace (codesOfText (quote key) ++ 0x3a :: (codes ++ [0x7d]))
      (parsedMembers [⟨key, value⟩])
      (.text (some key) :: .colon :: (tokens ++ [.closeBrace])) where
  spells := spells_key key (h.spells.append (.mark rfl (fun _ => rfl) .nil) (by simp [Ends]))
  starts := ⟨_, _, rfl, by simp⟩
  parses budget rest hbudget := by
    simp only [List.length_cons, List.length_append] at hbudget
    obtain ⟨budget, rfl⟩ := Nat.exists_eq_add_of_le' (show 1 ≤ budget by omega)
    rw [List.cons_append, List.cons_append, List.append_assoc, membersWithin,
      h.parses budget _ (by omega)]
    rfl

theorem written_member_cons (h : Written valueWithin .closeBracket codes value tokens)
    (hmore : Written membersWithin .closeBrace more (parsedMembers members) moreTokens) :
    Written membersWithin .closeBrace (codesOfText (quote key) ++ 0x3a :: (codes ++ 0x2c :: more))
      (parsedMembers (⟨key, value⟩ :: members))
      (.text (some key) :: .colon :: (tokens ++ .comma :: moreTokens)) where
  spells := spells_key key
    (h.spells.append (.mark rfl (fun _ => rfl) hmore.spells) (by simp [Ends]))
  starts := ⟨_, _, rfl, by simp⟩
  parses budget rest hbudget := by
    simp only [List.length_cons, List.length_append] at hbudget
    obtain ⟨budget, rfl⟩ := Nat.exists_eq_add_of_le' (show 1 ≤ budget by omega)
    rw [List.cons_append, List.cons_append, List.append_assoc, membersWithin,
      h.parses budget _ (by omega)]
    simp only [Option.bind_eq_bind, Option.bind_some, List.cons_append,
      hmore.parses budget rest (by omega)]
    rfl

/-- Members in braces. -/
theorem written_object
    (h : Written membersWithin .closeBrace codes (parsedMembers members) tokens) :
    Written valueWithin .closeBracket (0x7b :: codes) (.object members) (.openBrace :: tokens) where
  spells := .mark rfl (fun _ => rfl) h.spells
  starts := ⟨_, _, rfl, by simp⟩
  parses budget rest hbudget := by
    obtain ⟨token, others, rfl, hclose⟩ := h.starts
    rw [List.length_cons] at hbudget
    obtain ⟨budget, rfl⟩ := Nat.exists_eq_add_of_le' (show 1 ≤ budget by omega)
    have hparses := h.parses budget rest (by omega)
    rw [List.cons_append] at hparses
    rw [List.cons_append, List.cons_append, valueWithin, hparses]
    · simp [ofMembers_parsed]
    · exact fun _ heq => hclose (List.cons.inj heq).1

theorem compactMembers_cons (member : JsonMember) (members : List JsonMember) :
    compactMembers (member :: members) =
      (quote member.key ++ ":" ++ member.value.compact) :: compactMembers members := by
  cases member
  rfl

/-- Some members, separated by commas. -/
theorem exists_written_members (hne : members ≠ []) (h : ∀ member ∈ members, ∃ tokens,
      Written valueWithin .closeBracket (codesOfText member.value.compact) member.value tokens) :
    ∃ tokens, Written membersWithin .closeBrace
      (codesOfText (",".intercalate (compactMembers members)) ++ [0x7d]) (parsedMembers members)
      tokens := by
  have hmember (key : String) (value : JsonValue) (codes : List Nat) :
      codesOfText (quote key ++ ":" ++ value.compact) ++ codes =
        codesOfText (quote key) ++ 0x3a :: (codesOfText value.compact ++ codes) := by
    rw [codesOfText_append, codesOfText_append, List.append_assoc, List.append_assoc]
    rfl
  induction members with
  | nil => exact absurd rfl hne
  | cons member members ih =>
      obtain ⟨hvalue, hvalues⟩ := List.forall_mem_cons.mp h
      obtain ⟨tokens, hwritten⟩ := hvalue
      obtain ⟨key, value⟩ := member
      cases members with
      | nil =>
          rw [compactMembers_cons, compactMembers, String.intercalate_singleton, hmember]
          exact ⟨_, written_member hwritten⟩
      | cons next members =>
          obtain ⟨moreTokens, hmore⟩ := ih (by simp) hvalues
          rw [compactMembers_cons, compactMembers_cons, String.intercalate_cons_cons,
            ← compactMembers_cons, codesOfText_append, codesOfText_append, List.append_assoc,
            List.append_assoc, hmember]
          exact ⟨_, written_member_cons hwritten hmore⟩

end Members

/-- The text of a plain value is read as that value. -/
theorem Plain.exists_written (h : Plain value) : ∃ tokens,
    Written valueWithin .closeBracket (codesOfText value.compact) value tokens := by
  induction h with
  | null =>
      have hspells : Spells (codesOfText "null") [.null] :=
        @Spells.cons 0x6e [0x75, 0x6c, 0x6c] [] .null [] rfl (fun _ => rfl) .nil
      exact ⟨_, written_leaf hspells (by simp) fun _ _ => rfl⟩
  | bool value =>
      cases value with
      | false =>
          have hspells : Spells (codesOfText "false") [.bool false] :=
            @Spells.cons 0x66 [0x61, 0x6c, 0x73, 0x65] [] (.bool false) [] rfl (fun _ => rfl) .nil
          exact ⟨_, written_leaf hspells (by simp) fun _ _ => rfl⟩
      | true =>
          have hspells : Spells (codesOfText "true") [.bool true] :=
            @Spells.cons 0x74 [0x72, 0x75, 0x65] [] (.bool true) [] rfl (fun _ => rfl) .nil
          exact ⟨_, written_leaf hspells (by simp) fun _ _ => rfl⟩
  | @natural number h =>
      have hspells := spells_decimal h
      rw [← codesOfText_toString] at hspells
      exact ⟨_, written_leaf hspells (by simp) fun _ _ => rfl⟩
  | string text =>
      have hspells := Spells.text_append text .nil
      rw [List.append_nil] at hspells
      exact ⟨_, written_leaf hspells (by simp) fun _ _ => rfl⟩
  | @array items _ ih =>
      by_cases hne : items = []
      · have hspells : Spells [0x5b, 0x5d] [.openBracket, .closeBracket] :=
          .mark rfl (fun _ => rfl) (.mark rfl (fun _ => rfl) .nil)
        rw [hne, compact, compactItems]
        exact ⟨_, written_leaf hspells (by simp) fun _ _ => rfl⟩
      · obtain ⟨tokens, hwritten⟩ := exists_written_items hne ih
        rw [compact, bracketed, codesOfText_append, codesOfText_append, List.append_assoc]
        exact ⟨_, written_array hwritten⟩
  | @object members _ ih =>
      by_cases hne : members = []
      · have hspells : Spells [0x7b, 0x7d] [.openBrace, .closeBrace] :=
          .mark rfl (fun _ => rfl) (.mark rfl (fun _ => rfl) .nil)
        rw [hne, compact, compactMembers]
        exact ⟨_, written_leaf hspells (by simp) fun _ _ => rfl⟩
      · obtain ⟨tokens, hwritten⟩ := exists_written_members hne ih
        rw [compact, braced, codesOfText_append, codesOfText_append, List.append_assoc]
        exact ⟨_, written_object hwritten⟩

/-- A plain value is what its compact text stands for. -/
theorem Plain.ofText?_compact (h : Plain value) : ofText? value.compact = some value := by
  obtain ⟨tokens, hwritten⟩ := h.exists_written
  have hparses := hwritten.parses (tokenBudget tokens.length) [] (by simp [tokenBudget])
  rw [List.append_nil] at hparses
  rw [ofText?, ofCodes?, hwritten.spells.tokens?, Option.bind_eq_bind, Option.bind_some, ofTokens?,
    hparses]
  rfl

end JsonValue

end ObjectPackage
