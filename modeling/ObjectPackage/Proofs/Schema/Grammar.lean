/-
The grammar of schema documents.  It says of a document which schema it describes, field by
field: what a field may hold, and what it is taken for where it is left out.  The decoder gives
a schema for a document exactly where the grammar does, level by level.
-/
import Mathlib.Data.List.Forall2
import ObjectPackage.Schema.Document

namespace ObjectPackage

namespace JsonValue

/-- A variant of a kind, with its record. -/
def Variant (json : JsonValue) (key : String) (inside : Bool) (names : List String)
    (kind : String) (record : JsonValue) : Prop :=
  ∃ tag, json.tagged? key = some (tag, record) ∧ tag.variant? inside names = some kind

theorem string?_eq_some {json : JsonValue} {text : String} :
    json.string? = some text ↔ json = .string text := by
  cases json <;> simp [string?]

theorem array?_eq_some {json : JsonValue} {items : List JsonValue} :
    json.array? = some items ↔ json = .array items := by
  cases json <;> simp [array?]

theorem count?_eq_some {json : JsonValue} {count : Nat} :
    json.count? = some count ↔ json = .ofNat count ∧ count < UInt64.size := by
  have hnatural : json.natural? = some count ↔ json = .ofNat count := by
    cases json with
    | number value =>
        cases value with
        | integer value =>
            simp only [natural?, ofNat, Option.ite_none_right_eq_some, Option.some.injEq,
              number.injEq, JsonNumber.integer.injEq, Int.ofNat_eq_natCast]
            omega
        | decimal mantissa exponent => simp [natural?, ofNat]
    | _ => simp [natural?, ofNat]
  rw [count?, Option.bind_eq_bind, Option.bind_eq_some_iff]
  constructor
  · rintro ⟨number, hnumber, h⟩
    split at h
    · next hlt =>
        obtain rfl := Option.some.inj h
        exact ⟨hnatural.mp hnumber, hlt⟩
    · cases h
  · rintro ⟨hjson, hlt⟩
    exact ⟨count, hnatural.mpr hjson, if_pos hlt⟩

end JsonValue

/-- A field that says something, or one that is left out and taken for a default. -/
inductive Given {α : Type} (reads : α → JsonValue → Prop) (default : α) :
    Option JsonValue → α → Prop
  | written {json : JsonValue} {value : α} (h : reads value json) :
      Given reads default (some json) value
  | omitted : Given reads default none default

def IsText (text : String) (json : JsonValue) : Prop :=
  json = .string text

def IsCount (count : Nat) (json : JsonValue) : Prop :=
  json = .ofNat count ∧ count < UInt64.size

def IsFlags (flags : PropertyFlags) (json : JsonValue) : Prop :=
  ∃ text, json = .string text ∧ PropertyFlags.ofText? text = some flags

/-- No base may be written as null, too. -/
def IsBase (base : Option String) (json : JsonValue) : Prop :=
  match base with
  | none => json = .null
  | some name => json = .string name

/-- The value of a field, or the default where it is left out. -/
def orDefault {α : Type} (read : JsonValue → Option α) (default : α) : Option JsonValue → Option α
  | none => some default
  | some json => read json

theorem orDefault_eq_some {α : Type} {read : JsonValue → Option α} {reads : α → JsonValue → Prop}
    (h : ∀ json value, read json = some value ↔ reads value json) {default value : α}
    {field : Option JsonValue} :
    orDefault read default field = some value ↔ Given reads default field value := by
  cases field with
  | none =>
      constructor
      · intro hsome
        obtain rfl := Option.some.inj hsome
        exact .omitted
      · intro hgiven
        cases hgiven
        rfl
  | some json =>
      constructor
      · exact fun hsome => .written ((h json value).mp hsome)
      · intro hgiven
        cases hgiven with
        | written hreads => exact (h json value).mpr hreads

theorem textOr?_eq_some {default text : String} {field : Option JsonValue} :
    JsonValue.textOr? default field = some text ↔ Given IsText default field text := by
  have horDefault : JsonValue.textOr? default field =
      orDefault JsonValue.string? default field := by
    cases field <;> rfl
  rw [horDefault]
  exact orDefault_eq_some fun _ _ => JsonValue.string?_eq_some

def flags? (json : JsonValue) : Option PropertyFlags :=
  json.string?.bind PropertyFlags.ofText?

theorem flags?_eq_some {json : JsonValue} {flags : PropertyFlags} :
    flags? json = some flags ↔ IsFlags flags json := by
  rw [flags?, Option.bind_eq_some_iff]
  exact exists_congr fun text => and_congr_left' JsonValue.string?_eq_some

def base? : JsonValue → Option (Option String)
  | .null => some none
  | json => json.string?.map some

theorem base?_eq_some {json : JsonValue} {base : Option String} :
    base? json = some base ↔ IsBase base json := by
  cases json <;> cases base <;> simp [base?, IsBase, JsonValue.string?, eq_comm]

/-- Types that are told by their kind alone. -/
def scalarKinds : List (String × TypeExpr) :=
  [("byte", .byte), ("int", .int), ("bool", .bool), ("float", .float), ("name", .name),
    ("str", .str)]

/-- What a document says of a type, where it is known what its parts say of types. -/
inductive TypeExpr.Record (reads : TypeExpr → JsonValue → Prop) : TypeExpr → JsonValue → Prop
  | scalar {json record : JsonValue} {kind : String} {type : TypeExpr}
      (hkind : json.Variant "kind" true typeKinds kind record)
      (hscalar : (kind, type) ∈ scalarKinds)
      (hempty : ∀ item items, record ≠ .array (item :: items)) :
      Record reads type json
  | object {json record : JsonValue} {field : Option JsonValue} {className : String}
      (hkind : json.Variant "kind" true typeKinds "object" record)
      (hfields : record.fields? ["class"] = some [field])
      (hclass : Given IsText defaultClass field className) : Record reads (.object className) json
  | classRef {json record : JsonValue} {field : Option JsonValue} {metaClass : String}
      (hkind : json.Variant "kind" true typeKinds "class" record)
      (hfields : record.fields? ["meta_class"] = some [field])
      (hclass : Given IsText defaultClass field metaClass) : Record reads (.classRef metaClass) json
  | struct {json record : JsonValue} {name : String}
      (hkind : json.Variant "kind" true typeKinds "struct" record)
      (hfields : record.fields? ["name"] = some [some (.string name)]) :
      Record reads (.struct name) json
  | fixedArray {json record inner number : JsonValue} {element : TypeExpr} {count : Nat}
      (hkind : json.Variant "kind" true typeKinds "fixed_array" record)
      (hfields : record.fields? ["inner", "count"] = some [some inner, some number])
      (hinner : reads element inner) (hcount : IsCount count number) :
      Record reads (.fixedArray element count) json
  | array {json record inner : JsonValue} {element : TypeExpr}
      (hkind : json.Variant "kind" true typeKinds "array" record)
      (hfields : record.fields? ["inner"] = some [some inner]) (hinner : reads element inner) :
      Record reads (.array element) json
  | map {json record key value : JsonValue} {keyType valueType : TypeExpr}
      (hkind : json.Variant "kind" true typeKinds "map" record)
      (hfields : record.fields? ["key", "value"] = some [some key, some value])
      (hkey : reads keyType key) (hvalue : reads valueType value) :
      Record reads (.map keyType valueType) json

/-- A type is described by a document. -/
inductive TypeExpr.DescribedBy : TypeExpr → JsonValue → Prop
  | mk {type : TypeExpr} {json : JsonValue} (h : TypeExpr.Record TypeExpr.DescribedBy type json) :
      TypeExpr.DescribedBy type json

inductive PropertyDecl.Record (reads : TypeExpr → JsonValue → Prop) :
    PropertyDecl → JsonValue → Prop
  | mk {name : String} {type : TypeExpr} {dimension : Nat} {flags : PropertyFlags}
      {json typeField : JsonValue} {dimensionField flagsField : Option JsonValue}
      (hfields : json.fields? ["name", "type", "array_dim", "flags"] =
        some [some (.string name), some typeField, dimensionField, flagsField])
      (htype : reads type typeField) (hdimension : Given IsCount 1 dimensionField dimension)
      (hflags : Given IsFlags .empty flagsField flags) :
      Record reads ⟨name, type, dimension, flags⟩ json

/-- The fields of a struct, none where they are left out. -/
inductive FieldList (reads : FieldDecl → JsonValue → Prop) :
    List FieldDecl → Option JsonValue → Prop
  | written {fields : List FieldDecl} {items : List JsonValue}
      (h : List.Forall₂ reads fields items) : FieldList reads fields (some (.array items))
  | omitted : FieldList reads [] none

inductive StructDecl.Record (reads : FieldDecl → JsonValue → Prop) : StructDecl → JsonValue → Prop
  | mk {name : String} {base : Option String} {fields : List FieldDecl} {json : JsonValue}
      {baseField listField : Option JsonValue}
      (hfields : json.fields? ["name", "base", "fields"] =
        some [some (.string name), baseField, listField])
      (hbase : Given IsBase none baseField base) (hlist : FieldList reads fields listField) :
      Record reads ⟨name, base, fields⟩ json

inductive FieldDecl.Record (inside : Bool) (readsProperty : PropertyDecl → JsonValue → Prop)
    (readsStruct : StructDecl → JsonValue → Prop) : FieldDecl → JsonValue → Prop
  | property {decl : PropertyDecl} {json record : JsonValue}
      (hkind : json.Variant "field" inside fieldKinds "property" record)
      (h : readsProperty decl record) :
      Record inside readsProperty readsStruct (.property decl) json
  | struct {decl : StructDecl} {json record : JsonValue}
      (hkind : json.Variant "field" inside fieldKinds "struct" record)
      (h : readsStruct decl record) : Record inside readsProperty readsStruct (.struct decl) json

/-- A property is described by a record. -/
def PropertyDecl.DescribedBy : PropertyDecl → JsonValue → Prop :=
  PropertyDecl.Record TypeExpr.DescribedBy

/-- A struct that is declared inside of another one is described by a record. -/
inductive StructDecl.NestedBy : StructDecl → JsonValue → Prop
  | mk {decl : StructDecl} {json : JsonValue}
      (h : StructDecl.Record (FieldDecl.Record true PropertyDecl.DescribedBy StructDecl.NestedBy)
        decl json) : StructDecl.NestedBy decl json

/-- A field is described by a variant.  Its kind is told by name, and inside of a nested struct
by number, too. -/
def FieldDecl.DescribedBy (inside : Bool) : FieldDecl → JsonValue → Prop :=
  FieldDecl.Record inside PropertyDecl.DescribedBy StructDecl.NestedBy

/-- A struct is described by a record.  `inside` tells whether it is itself nested in another. -/
def StructDecl.DescribedBy (inside : Bool) : StructDecl → JsonValue → Prop :=
  StructDecl.Record (FieldDecl.DescribedBy inside)

theorem StructDecl.nestedBy_iff {decl : StructDecl} {json : JsonValue} :
    decl.NestedBy json ↔ decl.DescribedBy true json := by
  constructor
  · intro h
    cases h with
    | mk h => exact h
  · exact .mk

/-- A schema is described by a document. -/
def Schema.DescribedBy (schema : Schema) (json : JsonValue) : Prop :=
  ∃ items, json.fields? ["structs"] = some [some (.array items)] ∧
    List.Forall₂ (StructDecl.DescribedBy false) schema.structs items

namespace TypeExpr

variable {levels : Nat} {type : TypeExpr} {json record : JsonValue}

/-- A type that is told by its kind has no fields. -/
theorem plain_eq_some {scalar : TypeExpr} :
    (match record with
      | .array (_ :: _) => none
      | _ => some scalar) = some type ↔
    type = scalar ∧ ∀ item items, record ≠ .array (item :: items) := by
  split
  · next item items => simp
  · next hne =>
      constructor
      · intro h
        exact ⟨(Option.some.inj h).symm, hne⟩
      · rintro ⟨rfl, -⟩
        rfl

theorem record_of_ofJson? (h : ofJson? (levels + 1) json = some type) :
    Record (fun type json => ofJson? levels json = some type) type json := by
  rw [ofJson?] at h
  simp only [Option.bind_eq_bind, Option.bind_eq_some_iff, Option.pure_def] at h
  obtain ⟨⟨tag, record⟩, htag, kind, hvariant, h⟩ := h
  have hkind : json.Variant "kind" true typeKinds kind record := ⟨tag, htag, hvariant⟩
  -- the cases are the kinds in the order of their numbers
  split at h
  case h_1 | h_2 | h_3 | h_4 | h_5 | h_6 =>
    obtain ⟨rfl, hempty⟩ := plain_eq_some.mp h
    exact .scalar hkind (by simp [scalarKinds]) hempty
  case h_7 =>
    obtain ⟨values, hfields, h⟩ := Option.bind_eq_some_iff.mp h
    split at h
    · obtain ⟨className, hclass, h⟩ := Option.bind_eq_some_iff.mp h
      obtain rfl := Option.some.inj h
      exact .object hkind hfields (textOr?_eq_some.mp hclass)
    · cases h
  case h_8 =>
    obtain ⟨values, hfields, h⟩ := Option.bind_eq_some_iff.mp h
    split at h
    · obtain ⟨metaClass, hclass, h⟩ := Option.bind_eq_some_iff.mp h
      obtain rfl := Option.some.inj h
      exact .classRef hkind hfields (textOr?_eq_some.mp hclass)
    · cases h
  case h_9 =>
    obtain ⟨values, hfields, h⟩ := Option.bind_eq_some_iff.mp h
    split at h
    · obtain ⟨name, hname, h⟩ := Option.bind_eq_some_iff.mp h
      obtain rfl := Option.some.inj h
      obtain rfl := JsonValue.string?_eq_some.mp hname
      exact .struct hkind hfields
    · cases h
  case h_10 =>
    obtain ⟨values, hfields, h⟩ := Option.bind_eq_some_iff.mp h
    split at h
    · obtain ⟨element, hinner, h⟩ := Option.bind_eq_some_iff.mp h
      obtain ⟨count, hcount, h⟩ := Option.bind_eq_some_iff.mp h
      obtain rfl := Option.some.inj h
      exact .fixedArray hkind hfields hinner (JsonValue.count?_eq_some.mp hcount)
    · cases h
  case h_11 =>
    obtain ⟨values, hfields, h⟩ := Option.bind_eq_some_iff.mp h
    split at h
    · obtain ⟨element, hinner, h⟩ := Option.bind_eq_some_iff.mp h
      obtain rfl := Option.some.inj h
      exact .array hkind hfields hinner
    · cases h
  case h_12 =>
    obtain ⟨values, hfields, h⟩ := Option.bind_eq_some_iff.mp h
    split at h
    · obtain ⟨key, hkey, h⟩ := Option.bind_eq_some_iff.mp h
      obtain ⟨value, hvalue, h⟩ := Option.bind_eq_some_iff.mp h
      obtain rfl := Option.some.inj h
      exact .map hkind hfields hkey hvalue
    · cases h
  case h_13 => cases h

theorem ofJson?_of_record
    (h : Record (fun type json => ofJson? levels json = some type) type json) :
    ofJson? (levels + 1) json = some type := by
  rw [ofJson?]
  cases h with
  | scalar hkind hscalar hempty =>
      obtain ⟨tag, htag, hvariant⟩ := hkind
      simp only [scalarKinds, List.mem_cons, Prod.mk.injEq, List.not_mem_nil, or_false] at hscalar
      rcases hscalar with ⟨rfl, rfl⟩ | ⟨rfl, rfl⟩ | ⟨rfl, rfl⟩ | ⟨rfl, rfl⟩ | ⟨rfl, rfl⟩ |
        ⟨rfl, rfl⟩ <;> simp only [htag, hvariant, Option.bind_eq_bind, Option.bind_some]
  | object hkind hfields hclass =>
      obtain ⟨tag, htag, hvariant⟩ := hkind
      simp [htag, hvariant, hfields, textOr?_eq_some.mpr hclass]
  | classRef hkind hfields hclass =>
      obtain ⟨tag, htag, hvariant⟩ := hkind
      simp [htag, hvariant, hfields, textOr?_eq_some.mpr hclass]
  | struct hkind hfields =>
      obtain ⟨tag, htag, hvariant⟩ := hkind
      simp [htag, hvariant, hfields, JsonValue.string?]
  | fixedArray hkind hfields hinner hcount =>
      obtain ⟨tag, htag, hvariant⟩ := hkind
      simp [htag, hvariant, hfields, hinner, JsonValue.count?_eq_some.mpr hcount]
  | array hkind hfields hinner =>
      obtain ⟨tag, htag, hvariant⟩ := hkind
      simp [htag, hvariant, hfields, hinner]
  | map hkind hfields hkey hvalue =>
      obtain ⟨tag, htag, hvariant⟩ := hkind
      simp [htag, hvariant, hfields, hkey, hvalue]

/-- A document of some levels is read as the grammar says, given that its parts are. -/
theorem ofJson?_eq_some : ofJson? (levels + 1) json = some type ↔
    Record (fun type json => ofJson? levels json = some type) type json :=
  ⟨record_of_ofJson?, ofJson?_of_record⟩

end TypeExpr

section Records

variable {json record : JsonValue}

theorem mapM_eq_some_iff {α β : Type} {read : α → Option β} {items : List α} {values : List β} :
    items.mapM read = some values ↔
      List.Forall₂ (fun value item => read item = some value) values items := by
  induction items generalizing values with
  | nil => cases values <;> simp
  | cons item items ih =>
      rw [List.mapM_cons]
      simp only [Option.bind_eq_bind, Option.bind_eq_some_iff, Option.pure_def, Option.some.injEq]
      constructor
      · rintro ⟨value, hvalue, values, hvalues, rfl⟩
        exact .cons hvalue (ih.mp hvalues)
      · intro h
        cases h with
        | cons hvalue hvalues => exact ⟨_, hvalue, _, ih.mpr hvalues, rfl⟩

theorem exists_of_forall₂ {α β : Type} {related : α → β → Prop} {values : List α} {items : List β}
    (h : List.Forall₂ related values items) {value : α} (hvalue : value ∈ values) :
    ∃ item ∈ items, related value item := by
  induction h with
  | nil => cases hvalue
  | cons hrelated _ ih =>
      rcases List.mem_cons.mp hvalue with rfl | hvalue
      · exact ⟨_, List.mem_cons_self, hrelated⟩
      · obtain ⟨item, hitem, hrelated⟩ := ih hvalue
        exact ⟨item, List.mem_cons_of_mem _ hitem, hrelated⟩

theorem PropertyDecl.ofJson?_of_fields {name type : JsonValue} {dimension flags : Option JsonValue}
    (hfields : json.fields? ["name", "type", "array_dim", "flags"] =
      some [some name, some type, dimension, flags]) :
    PropertyDecl.ofJson? json = name.string?.bind fun name =>
      (TypeExpr.ofJson? maxNesting type).bind fun type =>
        (orDefault JsonValue.count? 1 dimension).bind fun dimension =>
          (orDefault flags? .empty flags).bind fun flags =>
            some ⟨name, type, dimension, flags⟩ := by
  rw [PropertyDecl.ofJson?, hfields]
  cases dimension <;> cases flags <;> rfl

/-- A property is read as the grammar says, given that its type is. -/
theorem PropertyDecl.ofJson?_eq_some {decl : PropertyDecl} : PropertyDecl.ofJson? json = some decl ↔
    Record (fun type json => TypeExpr.ofJson? maxNesting json = some type) decl json := by
  constructor
  · intro h
    have hread := h
    rw [PropertyDecl.ofJson?] at h
    obtain ⟨values, hfields, h⟩ := Option.bind_eq_some_iff.mp h
    split at h
    · rw [PropertyDecl.ofJson?_of_fields hfields] at hread
      obtain ⟨name, hname, hread⟩ := Option.bind_eq_some_iff.mp hread
      obtain ⟨type, htype, hread⟩ := Option.bind_eq_some_iff.mp hread
      obtain ⟨dimension, hdimension, hread⟩ := Option.bind_eq_some_iff.mp hread
      obtain ⟨flags, hflags, hread⟩ := Option.bind_eq_some_iff.mp hread
      obtain rfl := Option.some.inj hread
      obtain rfl := JsonValue.string?_eq_some.mp hname
      exact .mk hfields htype
        ((orDefault_eq_some fun _ _ => JsonValue.count?_eq_some).mp hdimension)
        ((orDefault_eq_some fun _ _ => flags?_eq_some).mp hflags)
    · cases h
  · intro h
    cases h with
    | mk hfields htype hdimension hflags =>
        have hcount := (orDefault_eq_some fun _ _ => JsonValue.count?_eq_some).mpr hdimension
        have hset := (orDefault_eq_some fun _ _ => flags?_eq_some).mpr hflags
        simp [PropertyDecl.ofJson?_of_fields hfields, JsonValue.string?, htype, hcount, hset]

theorem StructDecl.ofJson?_of_fields {inside : Bool} {levels : Nat} {name : JsonValue}
    {base fields : Option JsonValue}
    (hfields : json.fields? ["name", "base", "fields"] = some [some name, base, fields]) :
    StructDecl.ofJson? inside (levels + 1) json = name.string?.bind fun name =>
      (orDefault base? none base).bind fun base =>
        (orDefault (fun json => json.array?.bind (List.mapM (FieldDecl.ofJson? inside levels))) []
          fields).bind fun fields => some ⟨name, base, fields⟩ := by
  rw [StructDecl.ofJson?, hfields]
  have hlist (json : JsonValue) {β : Type} (next : List FieldDecl → Option β) :
      ((json.array?.bind (List.mapM (FieldDecl.ofJson? inside levels))).bind next) =
        json.array?.bind fun items =>
          (items.mapM (FieldDecl.ofJson? inside levels)).bind next := Option.bind_assoc _ _ _
  cases fields with
  | none =>
      cases base with
      | none => rfl
      | some json => cases json <;> rfl
  | some value =>
      simp only [orDefault, hlist]
      cases base with
      | none => rfl
      | some json => cases json <;> rfl

theorem orDefault_fields_eq_some {read : JsonValue → Option FieldDecl} {fields : List FieldDecl}
    {field : Option JsonValue} :
    orDefault (fun json => json.array?.bind (List.mapM read)) [] field = some fields ↔
      FieldList (fun field json => read json = some field) fields field := by
  cases field with
  | none =>
      constructor
      · intro h
        obtain rfl := Option.some.inj h
        exact .omitted
      · intro h
        cases h
        rfl
  | some json =>
      constructor
      · intro h
        obtain ⟨items, hitems, hlist⟩ := Option.bind_eq_some_iff.mp h
        obtain rfl := JsonValue.array?_eq_some.mp hitems
        exact .written (mapM_eq_some_iff.mp hlist)
      · intro h
        cases h with
        | written hlist => exact mapM_eq_some_iff.mpr hlist

/-- A struct is read as the grammar says, given that its fields are. -/
theorem StructDecl.ofJson?_eq_some {inside : Bool} {levels : Nat} {decl : StructDecl} :
    StructDecl.ofJson? inside (levels + 1) json = some decl ↔
      Record (fun field json => FieldDecl.ofJson? inside levels json = some field) decl json := by
  constructor
  · intro h
    have hread := h
    rw [StructDecl.ofJson?] at h
    obtain ⟨values, hfields, h⟩ := Option.bind_eq_some_iff.mp h
    split at h
    · rw [StructDecl.ofJson?_of_fields hfields] at hread
      obtain ⟨name, hname, hread⟩ := Option.bind_eq_some_iff.mp hread
      obtain ⟨base, hbase, hread⟩ := Option.bind_eq_some_iff.mp hread
      obtain ⟨fields, hlist, hread⟩ := Option.bind_eq_some_iff.mp hread
      obtain rfl := Option.some.inj hread
      obtain rfl := JsonValue.string?_eq_some.mp hname
      exact .mk hfields ((orDefault_eq_some fun _ _ => base?_eq_some).mp hbase)
        (orDefault_fields_eq_some.mp hlist)
    · cases h
  · intro h
    cases h with
    | mk hfields hbase hlist =>
        have hname := (orDefault_eq_some fun _ _ => base?_eq_some).mpr hbase
        have hread := orDefault_fields_eq_some.mpr hlist
        simp [StructDecl.ofJson?_of_fields hfields, JsonValue.string?, hname, hread]

/-- A field is read as the grammar says, given that what it declares is. -/
theorem FieldDecl.ofJson?_eq_some {inside : Bool} {levels : Nat} {field : FieldDecl} :
    FieldDecl.ofJson? inside (levels + 1) json = some field ↔
      Record inside (fun decl json => PropertyDecl.ofJson? json = some decl)
        (fun decl json => StructDecl.ofJson? true levels json = some decl) field json := by
  constructor
  · intro h
    rw [FieldDecl.ofJson?] at h
    obtain ⟨⟨tag, record⟩, htag, h⟩ := Option.bind_eq_some_iff.mp h
    obtain ⟨kind, hvariant, h⟩ := Option.bind_eq_some_iff.mp h
    have hkind : json.Variant "field" inside fieldKinds kind record := ⟨tag, htag, hvariant⟩
    split at h
    · obtain ⟨decl, hdecl, h⟩ := Option.bind_eq_some_iff.mp h
      obtain rfl := Option.some.inj h
      exact .property hkind hdecl
    · obtain ⟨decl, hdecl, h⟩ := Option.bind_eq_some_iff.mp h
      obtain rfl := Option.some.inj h
      exact .struct hkind hdecl
    · cases h
  · intro h
    rw [FieldDecl.ofJson?]
    cases h with
    | property hkind h =>
        obtain ⟨tag, htag, hvariant⟩ := hkind
        simp [htag, hvariant, h]
    | struct hkind h =>
        obtain ⟨tag, htag, hvariant⟩ := hkind
        simp [htag, hvariant, h]

end Records

end ObjectPackage
