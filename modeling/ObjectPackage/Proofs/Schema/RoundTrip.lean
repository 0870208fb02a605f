/-
Round trip of schemas.  A schema is read from the text that it is written as, unless that text
nests too deep; so is a schema that was read from another text, with everything written out
that had been left out there.
-/
import ObjectPackage.Proofs.Json.Utf8
import ObjectPackage.Proofs.Schema.Write

namespace ObjectPackage

namespace Schema

variable {schema : Schema} {json : JsonValue}

theorem ofJson?_toJson (hfit : CountsFit schema.counts) :
    ofJson? schema.toJson = if schema.toJson.usable maxNesting then some schema else none := by
  split
  · next husable =>
      exact ofJson?_eq_some.mpr ⟨toJson_describes hfit, fieldsUsable_toJson.mpr husable⟩
  · next hdeep =>
      rw [Option.eq_none_iff_forall_not_mem]
      intro other hother
      obtain ⟨-, husable⟩ := ofJson?_eq_some.mp hother
      exact hdeep (fieldsUsable_toJson.mp husable)

theorem ofText?_toJson (hfit : CountsFit schema.counts) :
    ofText? schema.toJson.compact =
      if schema.toJson.usable maxNesting then some schema else none := by
  rw [ofText?, (toJson_plain hfit).ofText?_compact]
  exact ofJson?_toJson hfit

theorem ofBytes?_toUTF8 (text : String) : ofBytes? text.toUTF8.data.toList = ofText? text := by
  rw [ofBytes?, JsonValue.ofBytes?_toUTF8, ofText?]

/-- What holds of a schema that a document is read as.  The document describes it and no other,
and it is read again from what it is written as unless that nests too deep.  That nests one
container too deep at most, and only where some field in the document nests as deep as it may. -/
structure Returns (schema : Schema) (json : JsonValue) : Prop where
  described : schema.DescribedBy json
  unique : ∀ other : Schema, other.DescribedBy json → other = schema
  fits : CountsFit schema.counts
  nests : schema.toJson.usable (maxNesting + 1) = true
  shallow : FieldsUsable (maxNesting - 5) json → schema.toJson.usable maxNesting = true
  again : ofText? schema.toJson.compact =
    if schema.toJson.usable maxNesting then some schema else none

theorem returns_of_ofJson? (h : ofJson? json = some schema) : schema.Returns json := by
  obtain ⟨hdescribed, husable⟩ := ofJson?_eq_some.mp h
  have hunique (other : Schema) (hother : other.DescribedBy json) : other = schema := by
    have hagain := ofJson?_eq_some.mpr ⟨hother, husable⟩
    exact Option.some.inj (hagain.symm.trans h)
  exact ⟨hdescribed, hunique, hdescribed.countsFit, hdescribed.toJson_usable husable,
    hdescribed.toJson_usable, ofText?_toJson hdescribed.countsFit⟩

/-- A schema with counts of 64 bits is read from what it is written as, unless that nests too
deep, and then nothing is.  A schema that is read from a text is the one that the text
describes, and it is written at most one container deeper than texts may nest.  What is said of
texts holds of their bytes. -/
theorem document_roundTrip :
    (∀ schema : Schema, CountsFit schema.counts → ofText? schema.toJson.compact =
      if schema.toJson.usable maxNesting then some schema else none) ∧
    (∀ text schema, ofText? text = some schema →
      ∃ json, JsonValue.ofText? text = some json ∧ schema.Returns json) ∧
    (∀ bytes schema, ofBytes? bytes = some schema →
      ∃ json, JsonValue.ofBytes? bytes = some json ∧ schema.Returns json) ∧
    ∀ text, ofBytes? text.toUTF8.data.toList = ofText? text := by
  refine ⟨fun schema hfit => ofText?_toJson hfit, fun text schema h => ?_,
    fun bytes schema h => ?_, ofBytes?_toUTF8⟩
  · obtain ⟨json, hjson, h⟩ := Option.bind_eq_some_iff.mp h
    exact ⟨json, hjson, returns_of_ofJson? h⟩
  · obtain ⟨json, hjson, h⟩ := Option.bind_eq_some_iff.mp h
    exact ⟨json, hjson, returns_of_ofJson? h⟩

/-- A document that leaves out what it may. -/
def briefDocument : JsonValue :=
  .object [⟨"structs", .array [.object [⟨"name", .string "A"⟩, ⟨"fields", .array [
    .object [⟨"field", .string "property"⟩, ⟨"name", .string "X"⟩,
      ⟨"type", .object [⟨"kind", .string "object"⟩]⟩],
    .object [⟨"field", .string "struct"⟩, ⟨"name", .string "B"⟩]]⟩]]⟩]

def briefSchema : Schema :=
  ⟨[⟨"A", none, [.property (.plain "X" (.object defaultClass)), .struct ⟨"B", none, []⟩]⟩]⟩

theorem ofText?_briefDocument : ofText? briefDocument.compact = some briefSchema := by
  have hplain : briefDocument.Plain := by
    simp [briefDocument]
  rw [ofText?, hplain.ofText?_compact]
  rfl

theorem briefDocument_roundTrip :
    ofText? briefDocument.compact = some briefSchema ∧
    ofText? briefSchema.toJson.compact = some briefSchema ∧
    (∃ json, JsonValue.ofText? briefDocument.compact = some json ∧ briefSchema.Returns json) ∧
    ∃ json, JsonValue.ofBytes? briefDocument.compact.toUTF8.data.toList = some json ∧
      briefSchema.Returns json := by
  obtain ⟨hwritten, htext, hbytes, hsame⟩ := document_roundTrip
  refine ⟨ofText?_briefDocument, hwritten briefSchema (by decide),
    htext _ _ ofText?_briefDocument, hbytes _ _ ?_⟩
  rw [hsame]
  exact ofText?_briefDocument

/-- Structs inside of structs, the innermost without a list of fields. -/
def nestedVariant : Nat → JsonValue
  | 0 => .object [⟨"field", .string "struct"⟩, ⟨"name", .string "A"⟩]
  | depth + 1 => .object [⟨"field", .string "struct"⟩, ⟨"name", .string "A"⟩,
      ⟨"fields", .array [nestedVariant depth]⟩]

def nestedDocument (depth : Nat) : JsonValue :=
  .object [⟨"structs", .array [.object [⟨"name", .string "A"⟩,
    ⟨"fields", .array [nestedVariant depth]⟩]]⟩]

def nestedDecl : Nat → StructDecl
  | 0 => ⟨"A", none, []⟩
  | depth + 1 => ⟨"A", none, [.struct (nestedDecl depth)]⟩

theorem nestedDocument_plain (depth : Nat) : (nestedDocument depth).Plain := by
  have hvariant : (nestedVariant depth).Plain := by
    induction depth with
    | zero => simp [nestedVariant]
    | succ depth ih => simp [nestedVariant, ih]
  simp [nestedDocument, hvariant]

set_option maxRecDepth 10000 in
/-- A text that nests 127 containers is read, but what is written of it is not. -/
theorem nestedDocument_not_again : ∃ schema,
    ofText? (nestedDocument 61).compact = some schema ∧ ofText? schema.toJson.compact = none := by
  have hread : ofJson? (nestedDocument 61) = some ⟨[nestedDecl 62]⟩ := rfl
  refine ⟨⟨[nestedDecl 62]⟩, ?_, ?_⟩
  · rw [ofText?, (nestedDocument_plain 61).ofText?_compact]
    exact hread
  · rw [(returns_of_ofJson? hread).again]
    exact if_neg (by decide)

end Schema

end ObjectPackage
