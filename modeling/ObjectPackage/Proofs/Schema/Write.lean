/-
The documents that schemas are written as.  Such a document describes its schema, as long as
the counts in the schema fit 64 bits, and it nests hardly deeper than any other document that
describes the schema does.
-/
import ObjectPackage.Proofs.Json.RoundTrip
import ObjectPackage.Proofs.Schema.Decode
import ObjectPackage.Proofs.Schema.Flags

namespace ObjectPackage

/-- The counts of elements in a type. -/
def TypeExpr.counts : TypeExpr → List Nat
  | fixedArray element count => count :: element.counts
  | array element => element.counts
  | map key value => key.counts ++ value.counts
  | _ => []

def PropertyDecl.counts (decl : PropertyDecl) : List Nat :=
  decl.dimension :: decl.type.counts

mutual

/-- The counts in a struct, and in all that it declares. -/
def StructDecl.counts : StructDecl → List Nat
  | ⟨_, _, fields⟩ => fieldCounts fields

def fieldCounts : List FieldDecl → List Nat
  | [] => []
  | .property decl :: rest => decl.counts ++ fieldCounts rest
  | .struct decl :: rest => decl.counts ++ fieldCounts rest

end

def FieldDecl.counts : FieldDecl → List Nat
  | .property decl => decl.counts
  | .struct decl => decl.counts

def Schema.counts (schema : Schema) : List Nat :=
  schema.structs.flatMap StructDecl.counts

/-- Counts of 64 bits. -/
def CountsFit (counts : List Nat) : Prop :=
  ∀ count ∈ counts, count < UInt64.size

instance (counts : List Nat) : Decidable (CountsFit counts) :=
  inferInstanceAs (Decidable (∀ count ∈ counts, count < UInt64.size))

/-- A field as it is written. -/
def FieldDecl.toJson : FieldDecl → JsonValue
  | .property decl => .object (⟨"field", .string "property"⟩ :: decl.members)
  | .struct decl => .object (⟨"field", .string "struct"⟩ :: decl.members)

/-- What holds of a struct whenever it holds of the structs inside of it holds of every struct. -/
theorem StructDecl.nested_induction {motive : StructDecl → Prop}
    (h : ∀ decl : StructDecl,
      (∀ nested, .struct nested ∈ decl.fields → motive nested) → motive decl)
    (decl : StructDecl) : motive decl :=
  h decl fun nested _ => nested_induction h nested
termination_by sizeOf decl
decreasing_by
  have hsize := List.sizeOf_lt_of_mem ‹_›
  cases decl
  simp only [FieldDecl.struct.sizeOf_spec, mk.sizeOf_spec] at hsize ⊢
  omega

theorem fieldCounts_eq (fields : List FieldDecl) :
    fieldCounts fields = fields.flatMap FieldDecl.counts := by
  induction fields with
  | nil => rfl
  | cons field fields ih => cases field <;> simp [fieldCounts, FieldDecl.counts, ih]

theorem fieldsJson_eq (fields : List FieldDecl) :
    fieldsJson fields = fields.map FieldDecl.toJson := by
  induction fields with
  | nil => rfl
  | cons field fields ih => cases field <;> simp [fieldsJson, FieldDecl.toJson, ih]

theorem countsFit_cons {count : Nat} {counts : List Nat} :
    CountsFit (count :: counts) ↔ count < UInt64.size ∧ CountsFit counts :=
  List.forall_mem_cons

theorem countsFit_append {counts more : List Nat} :
    CountsFit (counts ++ more) ↔ CountsFit counts ∧ CountsFit more :=
  List.forall_mem_append

theorem countsFit_flatMap {α : Type} {items : List α} {counts : α → List Nat} :
    CountsFit (items.flatMap counts) ↔ ∀ item ∈ items, CountsFit (counts item) :=
  List.forall_mem_flatMap

theorem StructDecl.countsFit_iff {decl : StructDecl} :
    CountsFit decl.counts ↔ ∀ field ∈ decl.fields, CountsFit field.counts := by
  cases decl
  rw [counts, fieldCounts_eq, countsFit_flatMap]

namespace TypeExpr.DescribedBy

variable {json : JsonValue} {element key value : TypeExpr} {count : Nat}

theorem of_fixedArray (h : (fixedArray element count).DescribedBy json) :
    count < UInt64.size ∧ ∃ inner, json.Encloses 1 inner ∧ element.DescribedBy inner := by
  cases h with
  | mk h =>
      cases h with
      | scalar _ hscalar => simp [scalarKinds] at hscalar
      | fixedArray hkind hfields hinner hcount =>
          exact ⟨hcount.2, _, hkind.fields?_encloses hfields (by simp), hinner⟩

theorem of_array (h : (array element).DescribedBy json) :
    ∃ inner, json.Encloses 1 inner ∧ element.DescribedBy inner := by
  cases h with
  | mk h =>
      cases h with
      | scalar _ hscalar => simp [scalarKinds] at hscalar
      | array hkind hfields hinner =>
          exact ⟨_, hkind.fields?_encloses hfields (by simp), hinner⟩

theorem of_map (h : (map key value).DescribedBy json) :
    (∃ inner, json.Encloses 1 inner ∧ key.DescribedBy inner) ∧
      ∃ inner, json.Encloses 1 inner ∧ value.DescribedBy inner := by
  cases h with
  | mk h =>
      cases h with
      | scalar _ hscalar => simp [scalarKinds] at hscalar
      | map hkind hfields hkey hvalue =>
          exact ⟨⟨_, hkind.fields?_encloses hfields (by simp), hkey⟩,
            _, hkind.fields?_encloses hfields (by simp), hvalue⟩

end TypeExpr.DescribedBy

/-! ## Counts -/

section Counts

theorem Given.count_lt {field : Option JsonValue} {default count : Nat}
    (h : Given IsCount default field count) (hdefault : default < UInt64.size) :
    count < UInt64.size := by
  cases h with
  | written h => exact h.2
  | omitted => exact hdefault

/-- Counts that are read from a document fit. -/
theorem TypeExpr.DescribedBy.countsFit {type : TypeExpr} {json : JsonValue}
    (h : type.DescribedBy json) : CountsFit type.counts := by
  induction type generalizing json with
  | fixedArray element count ih =>
      obtain ⟨hcount, inner, -, hinner⟩ := h.of_fixedArray
      exact countsFit_cons.mpr ⟨hcount, ih hinner⟩
  | array element ih =>
      obtain ⟨inner, -, hinner⟩ := h.of_array
      exact ih hinner
  | map key value ihKey ihValue =>
      obtain ⟨⟨keyJson, -, hkey⟩, valueJson, -, hvalue⟩ := h.of_map
      exact countsFit_append.mpr ⟨ihKey hkey, ihValue hvalue⟩
  | _ => simp [counts, CountsFit]

theorem PropertyDecl.DescribedBy.countsFit {decl : PropertyDecl} {json : JsonValue}
    (h : decl.DescribedBy json) : CountsFit decl.counts := by
  cases h with
  | mk hfields htype hdimension hflags =>
      exact countsFit_cons.mpr ⟨hdimension.count_lt (by decide), htype.countsFit⟩

/-- The fields of a struct are described, each by an item of its document. -/
theorem StructDecl.DescribedBy.exists_item {inside : Bool} {decl : StructDecl} {json : JsonValue}
    (h : decl.DescribedBy inside json) {field : FieldDecl} (hfield : field ∈ decl.fields) :
    ∃ item, json.Lists item ∧ field.DescribedBy inside item := by
  cases h with
  | mk hfields hbase hlist =>
      cases hlist with
      | omitted => cases hfield
      | written hlist =>
          obtain ⟨item, hitem, hfield⟩ := exists_of_forall₂ hlist hfield
          exact ⟨item, ⟨_, _, _, hfields, hitem⟩, hfield⟩

/-- Counts that are read fit, given that those of a struct inside do. -/
theorem FieldDecl.DescribedBy.countsFit {inside : Bool} {field : FieldDecl} {json : JsonValue}
    (h : field.DescribedBy inside json) (hstruct : ∀ decl record, field = .struct decl →
      decl.DescribedBy true record → CountsFit decl.counts) : CountsFit field.counts := by
  cases h with
  | property hkind hdecl => exact hdecl.countsFit
  | struct hkind hdecl => exact hstruct _ _ rfl (StructDecl.nestedBy_iff.mp hdecl)

theorem StructDecl.DescribedBy.countsFit {inside : Bool} {decl : StructDecl} {json : JsonValue}
    (h : decl.DescribedBy inside json) : CountsFit decl.counts := by
  induction decl using StructDecl.nested_induction generalizing inside json with
  | h decl ih =>
      refine countsFit_iff.mpr fun field hfield => ?_
      obtain ⟨item, -, hitem⟩ := h.exists_item hfield
      exact hitem.countsFit fun nested record heq => ih nested (heq ▸ hfield)

theorem Schema.DescribedBy.countsFit {schema : Schema} {json : JsonValue}
    (h : schema.DescribedBy json) : CountsFit schema.counts := by
  obtain ⟨items, -, hstructs⟩ := h
  refine countsFit_flatMap.mpr fun decl hdecl => ?_
  obtain ⟨item, -, hitem⟩ := exists_of_forall₂ hstructs hdecl
  exact hitem.countsFit

end Counts

/-! ## Written documents describe -/

section Written

/-- A variant as it is written, its tag first. -/
theorem variant_object {key kind : String} {inside : Bool} {names : List String}
    {members : List JsonMember} (hkind : kind ∈ names)
    (hkeys : ∀ member ∈ members, member.key ≠ key) :
    (JsonValue.object (⟨key, .string kind⟩ :: members)).Variant key inside names kind
      (.object members) := by
  refine ⟨.string kind, ?_, by simp [JsonValue.variant?, hkind]⟩
  have hnone : members.filter (fun member => member.key == key) = [] := by
    simpa [List.filter_eq_nil_iff] using hkeys
  have hall : members.filter (fun member => member.key != key) = members := by
    simpa [List.filter_eq_self] using hkeys
  simp [JsonValue.tagged?, hnone, hall]

theorem TypeExpr.toJson_describes {type : TypeExpr}
    (hfit : CountsFit type.counts) : type.DescribedBy type.toJson := by
  have hvariant {kind : String} {members : List JsonMember} (hkind : kind ∈ typeKinds)
      (hkeys : ∀ member ∈ members, member.key ≠ "kind") :
      (variantJson kind members).Variant "kind" true typeKinds kind (.object members) :=
    variant_object hkind hkeys
  induction type with
  | object className =>
      exact .mk (.object (hvariant (by decide) (by simp)) (by simp [JsonValue.fields?])
        (.written rfl))
  | classRef metaClass =>
      exact .mk (.classRef (hvariant (by decide) (by simp)) (by simp [JsonValue.fields?])
        (.written rfl))
  | struct name =>
      exact .mk (.struct (hvariant (by decide) (by simp)) (by simp [JsonValue.fields?]))
  | fixedArray element count ih =>
      rw [counts, countsFit_cons] at hfit
      exact .mk (.fixedArray (hvariant (by decide) (by simp)) (by simp [JsonValue.fields?])
        (ih hfit.2) ⟨rfl, hfit.1⟩)
  | array element ih =>
      exact .mk (.array (hvariant (by decide) (by simp)) (by simp [JsonValue.fields?]) (ih hfit))
  | map key value ihKey ihValue =>
      rw [counts, countsFit_append] at hfit
      exact .mk (.map (hvariant (by decide) (by simp)) (by simp [JsonValue.fields?])
        (ihKey hfit.1) (ihValue hfit.2))
  | _ =>
      exact .mk (.scalar (hvariant (by decide) (by simp)) (by simp [scalarKinds]) (by simp))

theorem PropertyDecl.members_describe {decl : PropertyDecl}
    (hfit : CountsFit decl.counts) : decl.DescribedBy (.object decl.members) := by
  rw [counts, countsFit_cons] at hfit
  exact .mk (by simp [JsonValue.fields?, members]) (TypeExpr.toJson_describes hfit.2)
    (.written ⟨rfl, hfit.1⟩) (.written ⟨_, rfl, PropertyFlags.ofText?_text decl.flags⟩)

theorem StructDecl.members_fields? (decl : StructDecl) :
    (JsonValue.object decl.members).fields? ["name", "base", "fields"] =
      some [some (.string decl.name), decl.base.map .string,
        some (.array (decl.fields.map FieldDecl.toJson))] := by
  obtain ⟨name, base, fields⟩ := decl
  cases base <;> simp [JsonValue.fields?, members, fieldsJson_eq]

theorem StructDecl.members_record {reads : FieldDecl → JsonValue → Prop} {decl : StructDecl}
    (h : ∀ field ∈ decl.fields, reads field field.toJson) :
    Record reads decl (.object decl.members) := by
  have hlist : List.Forall₂ reads decl.fields (decl.fields.map FieldDecl.toJson) :=
    List.forall₂_map_right_iff.mpr (List.forall₂_same.mpr h)
  obtain ⟨name, base, fields⟩ := decl
  refine .mk (members_fields? _) ?_ (.written hlist)
  cases base with
  | none => exact .omitted
  | some base => exact .written rfl

theorem FieldDecl.toJson_describes {inside : Bool} {field : FieldDecl}
    (hfit : CountsFit field.counts)
    (hstruct : ∀ decl, field = .struct decl → CountsFit decl.counts →
      decl.DescribedBy true (.object decl.members)) :
    field.DescribedBy inside field.toJson := by
  cases field with
  | property decl =>
      refine .property (variant_object (by decide) ?_) (PropertyDecl.members_describe hfit)
      simp [PropertyDecl.members]
  | struct decl =>
      refine .struct (variant_object (by decide) ?_)
        (StructDecl.nestedBy_iff.mpr (hstruct decl rfl hfit))
      obtain ⟨name, base, fields⟩ := decl
      cases base <;> simp [StructDecl.members]

theorem StructDecl.members_describe {inside : Bool} {decl : StructDecl}
    (hfit : CountsFit decl.counts) : decl.DescribedBy inside (.object decl.members) := by
  induction decl using nested_induction generalizing inside with
  | h decl ih =>
      refine members_record fun field hfield => ?_
      exact FieldDecl.toJson_describes (countsFit_iff.mp hfit field hfield)
        fun nested heq => ih nested (heq ▸ hfield)

theorem Schema.toJson_fields? (schema : Schema) : schema.toJson.fields? ["structs"] =
    some [some (.array (schema.structs.map fun decl => .object decl.members))] := by
  simp [toJson, JsonValue.fields?]

/-- What a schema is written as describes it. -/
theorem Schema.toJson_describes {schema : Schema} (hfit : CountsFit schema.counts) :
    schema.DescribedBy schema.toJson := by
  refine ⟨_, schema.toJson_fields?, ?_⟩
  refine List.forall₂_map_right_iff.mpr (List.forall₂_same.mpr fun decl hdecl => ?_)
  exact StructDecl.members_describe (countsFit_flatMap.mp hfit decl hdecl)

end Written

/-! ## Written documents as text -/

section Plain

theorem TypeExpr.toJson_plain {type : TypeExpr} (hfit : CountsFit type.counts) :
    type.toJson.Plain := by
  induction type with
  | fixedArray element count ih =>
      rw [counts, countsFit_cons] at hfit
      simpa [toJson, variantJson] using ⟨ih hfit.2, .natural hfit.1⟩
  | array element ih => simpa [toJson, variantJson] using ih hfit
  | map key value ihKey ihValue =>
      rw [counts, countsFit_append] at hfit
      simpa [toJson, variantJson] using ⟨ihKey hfit.1, ihValue hfit.2⟩
  | _ => simp [toJson, variantJson]

theorem PropertyDecl.members_plain {decl : PropertyDecl} (hfit : CountsFit decl.counts) :
    ∀ member ∈ decl.members, member.value.Plain := by
  rw [counts, countsFit_cons] at hfit
  simpa [members] using ⟨TypeExpr.toJson_plain hfit.2, .natural hfit.1⟩

theorem StructDecl.members_plain {decl : StructDecl}
    (h : ∀ field ∈ decl.fields, field.toJson.Plain) :
    ∀ member ∈ decl.members, member.value.Plain := by
  obtain ⟨name, base, fields⟩ := decl
  cases base <;> simpa [members, fieldsJson_eq] using h

theorem FieldDecl.toJson_plain {field : FieldDecl}
    (hfit : CountsFit field.counts)
    (hstruct : ∀ decl, field = .struct decl → CountsFit decl.counts →
      ∀ member ∈ decl.members, member.value.Plain) :
    field.toJson.Plain := by
  cases field with
  | property decl =>
      exact .object (List.forall_mem_cons.mpr ⟨.string _, PropertyDecl.members_plain hfit⟩)
  | struct decl => exact .object (List.forall_mem_cons.mpr ⟨.string _, hstruct decl rfl hfit⟩)

theorem StructDecl.nested_plain {decl : StructDecl}
    (hfit : CountsFit decl.counts) :
    ∀ member ∈ decl.members, member.value.Plain := by
  induction decl using nested_induction with
  | h decl ih =>
      refine members_plain fun field hfield => ?_
      exact FieldDecl.toJson_plain (countsFit_iff.mp hfit field hfield)
        fun nested heq => ih nested (heq ▸ hfield)

theorem Schema.toJson_plain {schema : Schema} (hfit : CountsFit schema.counts) :
    schema.toJson.Plain := by
  have hdecls : ∀ decl ∈ schema.structs, (JsonValue.object decl.members).Plain :=
    fun decl hdecl => .object (StructDecl.nested_plain (countsFit_flatMap.mp hfit decl hdecl))
  simpa [toJson] using hdecls

end Plain

/-! ## How deep written documents nest -/

section Nesting

variable {json : JsonValue} {levels : Nat}

theorem usable_text_cons {key text : String} {members : List JsonMember} :
    (JsonValue.object (⟨key, .string text⟩ :: members)).usable levels = true ↔
      (JsonValue.object members).usable levels = true := by
  simp [JsonValue.usable_object]

/-- A type is not written deeper than it is described. -/
theorem TypeExpr.DescribedBy.toJson_usable {type : TypeExpr} (h : type.DescribedBy json)
    (husable : json.usable levels = true) : type.toJson.usable levels = true := by
  have hone := h.encloses husable
  induction type generalizing json levels with
  | fixedArray element count ih =>
      obtain ⟨-, inner, hstands, hinner⟩ := h.of_fixedArray
      obtain ⟨-, husable⟩ := hstands levels husable
      refine usable_text_cons.mpr (JsonValue.usable_object.mpr ⟨hone, ?_⟩)
      simpa using ih hinner husable (hinner.encloses husable)
  | array element ih =>
      obtain ⟨inner, hstands, hinner⟩ := h.of_array
      obtain ⟨-, husable⟩ := hstands levels husable
      refine usable_text_cons.mpr (JsonValue.usable_object.mpr ⟨hone, ?_⟩)
      simpa using ih hinner husable (hinner.encloses husable)
  | map key value ihKey ihValue =>
      obtain ⟨⟨keyJson, hkeyStands, hkey⟩, valueJson, hvalueStands, hvalue⟩ := h.of_map
      obtain ⟨-, hkeyUsable⟩ := hkeyStands levels husable
      obtain ⟨-, hvalueUsable⟩ := hvalueStands levels husable
      refine usable_text_cons.mpr (JsonValue.usable_object.mpr ⟨hone, ?_⟩)
      simpa using ⟨ihKey hkey hkeyUsable (hkey.encloses hkeyUsable),
        ihValue hvalue hvalueUsable (hvalue.encloses hvalueUsable)⟩
  | _ =>
      refine JsonValue.usable_object.mpr ⟨hone, ?_⟩
      simp

theorem PropertyDecl.DescribedBy.members_usable {decl : PropertyDecl} (h : decl.DescribedBy json)
    (husable : json.usable levels = true) :
    (JsonValue.object decl.members).usable levels = true := by
  cases h with
  | mk hfields htype hdimension hflags =>
      have hinner : ∃ inner, json.Encloses 1 inner ∧ TypeExpr.DescribedBy _ inner :=
        ⟨_, JsonValue.fields?_encloses hfields (by simp), htype⟩
      obtain ⟨inner, hstands, htype⟩ := hinner
      obtain ⟨hone, husable⟩ := hstands levels husable
      refine usable_text_cons.mpr (JsonValue.usable_object.mpr ⟨hone, ?_⟩)
      simpa using htype.toJson_usable husable

theorem StructDecl.members_usable {decl : StructDecl} :
    (JsonValue.object decl.members).usable levels = true ↔
      2 ≤ levels ∧ ∀ field ∈ decl.fields, field.toJson.usable (levels - 2) = true := by
  obtain ⟨name, base, fields⟩ := decl
  have hfields : (JsonValue.object [⟨"fields", .array (fieldsJson fields)⟩]).usable levels = true ↔
      2 ≤ levels ∧ ∀ field ∈ fields, field.toJson.usable (levels - 2) = true := by
    rw [JsonValue.usable_object, List.forall_mem_singleton, JsonValue.usable_array, fieldsJson_eq,
      List.forall_mem_map, ← and_assoc, Nat.sub_sub]
    exact and_congr_left' (by omega)
  cases base with
  | none => exact usable_text_cons.trans hfields
  | some base => exact usable_text_cons.trans (usable_text_cons.trans hfields)

/-- Fields are written one container deeper at most, given that a struct inside is. -/
theorem FieldDecl.DescribedBy.toJson_usable {inside : Bool} {field : FieldDecl}
    (h : field.DescribedBy inside json) (husable : json.usable levels = true)
    (hstruct : ∀ decl record, field = .struct decl → decl.DescribedBy true record →
      record.usable levels = true → (JsonValue.object decl.members).usable (levels + 1) = true) :
    field.toJson.usable (levels + 1) = true := by
  cases h with
  | property hkind hdecl =>
      have husable := hdecl.members_usable (hkind.encloses.1 levels husable).2
      exact JsonValue.usable_mono (usable_text_cons.mpr husable) (Nat.le_succ levels)
  | struct hkind hdecl =>
      exact usable_text_cons.mpr (hstruct _ _ rfl (StructDecl.nestedBy_iff.mp hdecl)
        (hkind.encloses.1 levels husable).2)

/-- A struct is written one container deeper at most: that is the list of its fields, which may
have been left out. -/
theorem StructDecl.DescribedBy.members_usable {inside : Bool} {decl : StructDecl}
    (h : decl.DescribedBy inside json) (husable : json.usable levels = true) :
    (JsonValue.object decl.members).usable (levels + 1) = true := by
  induction decl using StructDecl.nested_induction generalizing inside json levels with
  | h decl ih =>
      have hone := h.encloses husable
      refine StructDecl.members_usable.mpr ⟨by omega, fun field hfield => ?_⟩
      obtain ⟨item, hlists, hitem⟩ := h.exists_item hfield
      obtain ⟨htwo, husable⟩ := hlists.encloses levels husable
      have hfield := hitem.toJson_usable husable fun nested record heq => ih nested (heq ▸ hfield)
      rwa [show levels + 1 - 2 = levels - 2 + 1 by omega]

theorem Schema.toJson_usable {schema : Schema} :
    schema.toJson.usable (levels + 4) = true ↔
      ∀ decl ∈ schema.structs, ∀ field ∈ decl.fields, field.toJson.usable levels = true := by
  rw [toJson, JsonValue.usable_object, List.forall_mem_singleton, JsonValue.usable_array,
    List.forall_mem_map]
  simp [StructDecl.members_usable]

theorem Schema.fieldsUsable_toJson {schema : Schema} :
    FieldsUsable levels schema.toJson ↔ schema.toJson.usable (levels + 4) = true := by
  rw [toJson_usable]
  constructor
  · intro h decl hdecl field hfield
    exact h _ schema.toJson_fields? _ (List.mem_map_of_mem hdecl) _
      ⟨_, _, _, decl.members_fields?, List.mem_map_of_mem hfield⟩
  · rintro h items hfields record hrecord item ⟨name, base, listed, hlisted, hitem⟩
    rw [toJson_fields?] at hfields
    simp only [Option.some.injEq, List.cons.injEq, JsonValue.array.injEq, and_true] at hfields
    subst hfields
    obtain ⟨decl, hdecl, rfl⟩ := List.mem_map.mp hrecord
    rw [StructDecl.members_fields?] at hlisted
    simp only [Option.some.injEq, List.cons.injEq, JsonValue.array.injEq, and_true] at hlisted
    obtain ⟨-, -, rfl⟩ := hlisted
    obtain ⟨field, hfield, rfl⟩ := List.mem_map.mp hitem
    exact h decl hdecl field hfield

/-- A schema is written one container deeper at most than the fields of its structs are
described. -/
theorem Schema.DescribedBy.toJson_usable {schema : Schema} (h : schema.DescribedBy json)
    (husable : FieldsUsable levels json) : schema.toJson.usable (levels + 5) = true := by
  obtain ⟨items, hfields, hstructs⟩ := h
  refine Schema.toJson_usable.mpr fun decl hdecl field hfield => ?_
  obtain ⟨record, hrecord, hdecl⟩ := exists_of_forall₂ hstructs hdecl
  obtain ⟨item, hlists, hitem⟩ := hdecl.exists_item hfield
  exact hitem.toJson_usable (husable items hfields record hrecord item hlists)
    fun _ _ _ hnested => hnested.members_usable

end Nesting

end ObjectPackage
