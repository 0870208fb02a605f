/-
Decoding follows the grammar.  What is decoded is what the document describes, and what a
document describes is decoded, as long as the document does not nest too deep.
-/
import ObjectPackage.Proofs.Schema.Grammar

namespace ObjectPackage

namespace JsonValue

variable {json inner record tag : JsonValue} {levels more : Nat}

@[simp] theorem usable_string (text : String) : (string text).usable levels = true := rfl

@[simp] theorem usable_ofNat (number : Nat) : (ofNat number).usable levels = true := rfl

theorem usable_array {items : List JsonValue} :
    (array items).usable levels = true ↔
      1 ≤ levels ∧ ∀ item ∈ items, item.usable (levels - 1) = true := by
  have hitems (levels : Nat) : ∀ items : List JsonValue,
      usableItems levels items = true ↔ ∀ item ∈ items, item.usable levels = true := by
    intro items
    induction items with
    | nil => simp [usableItems]
    | cons item items ih => simp [usableItems, ih]
  rw [usable, Bool.and_eq_true, decide_eq_true_iff, hitems]
  exact Iff.rfl

theorem usable_object {members : List JsonMember} :
    (object members).usable levels = true ↔
      1 ≤ levels ∧ ∀ member ∈ members, member.value.usable (levels - 1) = true := by
  have hmembers (levels : Nat) : ∀ members : List JsonMember,
      usableMembers levels members = true ↔
        ∀ member ∈ members, member.value.usable levels = true := by
    intro members
    induction members with
    | nil => simp [usableMembers]
    | cons member members ih =>
        cases member
        simp [usableMembers, ih]
  rw [usable, Bool.and_eq_true, decide_eq_true_iff, hmembers]
  exact Iff.rfl

/-- More levels do no harm. -/
theorem usable_mono (h : json.usable levels = true) (hle : levels ≤ more) :
    json.usable more = true := by
  induction levels generalizing json more with
  | zero =>
      cases json with
      | array items => cases (usable_array.mp h).1
      | object members => cases (usable_object.mp h).1
      | _ => exact h
  | succ levels ih =>
      cases json with
      | array items =>
          refine usable_array.mpr ⟨by omega, fun item hitem => ?_⟩
          exact ih ((usable_array.mp h).2 item hitem) (by omega)
      | object members =>
          refine usable_object.mpr ⟨by omega, fun member hmember => ?_⟩
          exact ih ((usable_object.mp h).2 member hmember) (by omega)
      | _ => exact h

/-- A document stands in another one, under some more containers. -/
def Encloses (depth : Nat) (json inner : JsonValue) : Prop :=
  ∀ levels, json.usable levels = true → depth ≤ levels ∧ inner.usable (levels - depth) = true

theorem tagged?_encloses {key : String} (h : json.tagged? key = some (tag, record)) :
    json.Encloses 0 record ∧ ∀ levels, json.usable levels = true → 1 ≤ levels := by
  cases json with
  | object members =>
      rw [tagged?] at h
      split at h
      · obtain ⟨-, rfl⟩ := Prod.mk.inj (Option.some.inj h)
        refine ⟨fun levels husable => ⟨Nat.zero_le _, ?_⟩,
          fun _ husable => (usable_object.mp husable).1⟩
        obtain ⟨hlevels, hmembers⟩ := usable_object.mp husable
        exact usable_object.mpr ⟨hlevels, fun member hmember =>
          hmembers member (List.mem_filter.mp hmember).1⟩
      · cases h
  | array items =>
      cases items with
      | nil => cases h
      | cons item items =>
          obtain ⟨-, rfl⟩ := Prod.mk.inj (Option.some.inj h)
          refine ⟨fun levels husable => ⟨Nat.zero_le _, ?_⟩,
            fun _ husable => (usable_array.mp husable).1⟩
          obtain ⟨hlevels, hitems⟩ := usable_array.mp husable
          exact usable_array.mpr ⟨hlevels, fun item hitem =>
            hitems item (List.mem_cons_of_mem _ hitem)⟩
  | _ => cases h

/-- The fields of a record stand in the record. -/
theorem fields?_encloses {names : List String} {fields : List (Option JsonValue)}
    (h : json.fields? names = some fields) (hinner : some inner ∈ fields) :
    json.Encloses 1 inner := by
  intro levels husable
  cases json with
  | object members =>
      obtain ⟨hlevels, hmembers⟩ := usable_object.mp husable
      refine ⟨hlevels, ?_⟩
      obtain ⟨name, -, hname⟩ := exists_of_forall₂ (mapM_eq_some_iff.mp h) hinner
      split at hname
      · cases hname
      · next member hone =>
          obtain rfl := Option.some.inj (Option.some.inj hname)
          have hmember : member ∈ members.filter fun member => member.key == name := by simp [hone]
          exact hmembers member (List.mem_filter.mp hmember).1
      · cases hname
  | array items =>
      obtain ⟨hlevels, hitems⟩ := usable_array.mp husable
      refine ⟨hlevels, hitems inner ?_⟩
      rw [fields?] at h
      split at h
      · obtain rfl := Option.some.inj h
        simpa [List.mem_append, List.mem_replicate] using hinner
      · cases h
  | _ => cases h

/-- An item of the list of fields that a struct has. -/
def Lists (json item : JsonValue) : Prop :=
  ∃ name base items, json.fields? ["name", "base", "fields"] =
    some [name, base, some (.array items)] ∧ item ∈ items

theorem Lists.encloses {item : JsonValue} (h : json.Lists item) : json.Encloses 2 item := by
  obtain ⟨name, base, items, hfields, hitem⟩ := h
  intro levels husable
  have hlist : json.Encloses 1 (.array items) := fields?_encloses hfields (by simp)
  obtain ⟨hone, husable⟩ := hlist levels husable
  obtain ⟨htwo, hitems⟩ := usable_array.mp husable
  refine ⟨by omega, ?_⟩
  rw [show levels - 2 = levels - 1 - 1 by omega]
  exact hitems item hitem

end JsonValue

theorem Schema.usableFields_iff {json : JsonValue} : usableFields json = true ↔
    ∀ item, json.Lists item → item.usable (maxNesting - 4) = true := by
  rw [usableFields]
  constructor
  · rintro h item ⟨name, base, items, hfields, hitem⟩
    rw [hfields] at h
    exact List.all_eq_true.mp h item hitem
  · intro h
    split
    · next name base items hfields =>
        exact List.all_eq_true.mpr fun item hitem => h item ⟨name, base, items, hfields, hitem⟩
    · rfl

section Parts

variable {json : JsonValue} {levels : Nat}

/-- A variant is a container, and its record nests no deeper. -/
theorem JsonValue.Variant.encloses {key kind : String} {inside : Bool} {names : List String}
    {record : JsonValue} (h : json.Variant key inside names kind record) :
    json.Encloses 0 record ∧ ∀ levels, json.usable levels = true → 1 ≤ levels :=
  let ⟨_, htag, _⟩ := h
  tagged?_encloses htag

theorem JsonValue.Variant.fields?_encloses {key kind : String} {inside : Bool}
    {names fieldNames : List String} {record inner : JsonValue} {fields : List (Option JsonValue)}
    (h : json.Variant key inside names kind record)
    (hfields : record.fields? fieldNames = some fields) (hinner : some inner ∈ fields) :
    json.Encloses 1 inner :=
  fun levels husable =>
    JsonValue.fields?_encloses hfields hinner levels (h.encloses.1 levels husable).2

/-- What is known of the parts of a type, one container deeper, is known of the type. -/
theorem TypeExpr.Record.imp {reads more : TypeExpr → JsonValue → Prop} {type : TypeExpr}
    (h : Record reads type json)
    (himp : ∀ type inner, json.Encloses 1 inner → reads type inner → more type inner) :
    Record more type json := by
  cases h with
  | scalar hkind hscalar hempty => exact .scalar hkind hscalar hempty
  | object hkind hfields hclass => exact .object hkind hfields hclass
  | classRef hkind hfields hclass => exact .classRef hkind hfields hclass
  | struct hkind hfields => exact .struct hkind hfields
  | fixedArray hkind hfields hinner hcount =>
      exact .fixedArray hkind hfields (himp _ _ (hkind.fields?_encloses hfields (by simp)) hinner)
        hcount
  | array hkind hfields hinner =>
      exact .array hkind hfields (himp _ _ (hkind.fields?_encloses hfields (by simp)) hinner)
  | map hkind hfields hkey hvalue =>
      exact .map hkind hfields (himp _ _ (hkind.fields?_encloses hfields (by simp)) hkey)
        (himp _ _ (hkind.fields?_encloses hfields (by simp)) hvalue)

theorem TypeExpr.DescribedBy.encloses {type : TypeExpr} (h : type.DescribedBy json)
    (husable : json.usable levels = true) : 1 ≤ levels := by
  cases h with
  | mk h =>
      cases h with
      | _ => exact (JsonValue.Variant.encloses ‹_›).2 levels husable

theorem PropertyDecl.Record.imp {reads more : TypeExpr → JsonValue → Prop} {decl : PropertyDecl}
    (h : Record reads decl json)
    (himp : ∀ type inner, json.Encloses 1 inner → reads type inner → more type inner) :
    Record more decl json := by
  cases h with
  | mk hfields htype hdimension hflags =>
      exact .mk hfields (himp _ _ (JsonValue.fields?_encloses hfields (by simp)) htype) hdimension
        hflags

theorem StructDecl.Record.imp {reads more : FieldDecl → JsonValue → Prop} {decl : StructDecl}
    (h : Record reads decl json)
    (himp : ∀ field item, json.Lists item → reads field item → more field item) :
    Record more decl json := by
  cases h with
  | mk hfields hbase hlist =>
      refine .mk hfields hbase ?_
      cases hlist with
      | omitted => exact .omitted
      | written hlist =>
          obtain ⟨hlength, hpairs⟩ := List.forall₂_iff_zip.mp hlist
          exact .written (List.forall₂_iff_zip.mpr ⟨hlength, fun hpair =>
            himp _ _ ⟨_, _, _, hfields, (List.of_mem_zip hpair).2⟩ (hpairs hpair)⟩)

theorem FieldDecl.Record.imp {inside : Bool}
    {readsProperty moreProperty : PropertyDecl → JsonValue → Prop}
    {readsStruct moreStruct : StructDecl → JsonValue → Prop} {field : FieldDecl}
    (h : Record inside readsProperty readsStruct field json)
    (hproperty : ∀ decl record, json.Encloses 0 record → readsProperty decl record →
      moreProperty decl record)
    (hstruct : ∀ decl record, json.Encloses 0 record → readsStruct decl record →
      moreStruct decl record) : Record inside moreProperty moreStruct field json := by
  cases h with
  | property hkind h => exact .property hkind (hproperty _ _ hkind.encloses.1 h)
  | struct hkind h => exact .struct hkind (hstruct _ _ hkind.encloses.1 h)

theorem StructDecl.DescribedBy.encloses {inside : Bool} {decl : StructDecl}
    (h : decl.DescribedBy inside json) (husable : json.usable levels = true) : 1 ≤ levels := by
  cases h with
  | @mk name _ _ _ _ _ hfields hbase hlist =>
      have hname : json.Encloses 1 (.string name) := JsonValue.fields?_encloses hfields (by simp)
      exact (hname levels husable).1

end Parts

section Decoding

variable {json : JsonValue} {levels nesting : Nat} {inside : Bool}

theorem TypeExpr.ofJson?_sound {type : TypeExpr} (h : ofJson? levels json = some type) :
    type.DescribedBy json := by
  induction levels generalizing type json with
  | zero => cases h
  | succ levels ih => exact .mk ((ofJson?_eq_some.mp h).imp fun _ _ _ hinner => ih hinner)

theorem TypeExpr.ofJson?_complete {type : TypeExpr} (h : type.DescribedBy json)
    (husable : json.usable nesting = true) (hle : nesting ≤ levels) :
    ofJson? levels json = some type := by
  have hone := h.encloses husable
  induction levels generalizing type json nesting with
  | zero => omega
  | succ levels ih =>
      obtain ⟨hrecord⟩ := h
      refine ofJson?_eq_some.mpr (hrecord.imp fun type inner hstands hinner => ?_)
      obtain ⟨-, husable⟩ := hstands nesting husable
      exact ih hinner husable (by omega) (hinner.encloses husable)

theorem PropertyDecl.ofJson?_sound {decl : PropertyDecl} (h : ofJson? json = some decl) :
    decl.DescribedBy json :=
  (ofJson?_eq_some.mp h).imp fun _ _ _ htype => TypeExpr.ofJson?_sound htype

theorem PropertyDecl.ofJson?_complete {decl : PropertyDecl} (h : decl.DescribedBy json)
    (husable : json.usable nesting = true) (hle : nesting ≤ maxNesting + 1) :
    ofJson? json = some decl := by
  refine ofJson?_eq_some.mpr (h.imp fun type inner hstands htype => ?_)
  exact TypeExpr.ofJson?_complete htype (hstands nesting husable).2 (by omega)

/-- A field is what the document describes, given that structs of fewer levels are. -/
theorem FieldDecl.ofJson?_sound {field : FieldDecl} (hstruct : ∀ fewer < levels, ∀ decl record,
      StructDecl.ofJson? true fewer record = some decl → decl.DescribedBy true record)
    (h : ofJson? inside levels json = some field) : field.DescribedBy inside json := by
  cases levels with
  | zero => cases h
  | succ fewer =>
      refine (ofJson?_eq_some.mp h).imp (fun _ _ _ => PropertyDecl.ofJson?_sound)
        fun decl record _ hdecl => StructDecl.nestedBy_iff.mpr ?_
      exact hstruct fewer (Nat.lt_succ_self fewer) decl record hdecl

theorem FieldDecl.ofJson?_complete {field : FieldDecl} (hstruct : ∀ fewer < levels, ∀ decl record,
      decl.DescribedBy true record → record.usable nesting = true → nesting ≤ fewer →
      StructDecl.ofJson? true fewer record = some decl)
    (h : field.DescribedBy inside json) (husable : json.usable nesting = true)
    (hlt : nesting < levels) (hmax : nesting ≤ maxNesting + 1) :
    ofJson? inside levels json = some field := by
  cases levels with
  | zero => omega
  | succ fewer =>
      refine ofJson?_eq_some.mpr (h.imp (fun decl record hstands hdecl => ?_)
        fun decl record hstands hdecl => ?_)
      · exact PropertyDecl.ofJson?_complete hdecl (hstands nesting husable).2 hmax
      · exact hstruct fewer (Nat.lt_succ_self fewer) decl record (StructDecl.nestedBy_iff.mp hdecl)
          (hstands nesting husable).2 (by omega)

theorem StructDecl.ofJson?_sound {decl : StructDecl}
    (h : ofJson? inside levels json = some decl) : decl.DescribedBy inside json := by
  induction levels using Nat.strongRecOn generalizing inside decl json with
  | ind levels ih =>
      cases levels with
      | zero => cases h
      | succ levels =>
          refine (ofJson?_eq_some.mp h).imp fun field item _ hfield => ?_
          exact FieldDecl.ofJson?_sound
            (fun fewer hfewer _ _ => ih fewer (Nat.lt_succ_of_lt hfewer)) hfield

/-- A nested struct takes two levels, and so it does in the document. -/
theorem StructDecl.ofJson?_of_nested {decl : StructDecl} (h : decl.DescribedBy true json)
    (husable : json.usable nesting = true) (hle : nesting ≤ levels)
    (hmax : nesting ≤ maxNesting + 1) : ofJson? true levels json = some decl := by
  induction levels using Nat.strongRecOn generalizing decl json nesting with
  | ind levels ih =>
      have hone := h.encloses husable
      cases levels with
      | zero => omega
      | succ levels =>
          refine ofJson?_eq_some.mpr (h.imp fun field item hlists hfield => ?_)
          obtain ⟨htwo, husable⟩ := hlists.encloses nesting husable
          refine FieldDecl.ofJson?_complete (fun fewer hfewer _ _ hdecl husable hle => ?_) hfield
            husable (by omega) (by omega)
          exact ih fewer (Nat.lt_succ_of_lt hfewer) hdecl husable hle (by omega)

theorem StructDecl.ofJson?_complete {decl : StructDecl} (h : decl.DescribedBy false json)
    (husable : ∀ item, json.Lists item → item.usable (maxNesting - 4) = true) :
    ofJson? false (2 * maxNesting) json = some decl := by
  refine ofJson?_eq_some.mpr (h.imp fun field item hlists hfield => ?_)
  exact FieldDecl.ofJson?_complete (fun _ _ _ _ hdecl husable hle =>
    StructDecl.ofJson?_of_nested hdecl husable hle (by decide)) hfield (husable item hlists)
    (by decide) (by decide)

/-- The fields of the structs in a document nest some levels at most. -/
def Schema.FieldsUsable (levels : Nat) (json : JsonValue) : Prop :=
  ∀ items, json.fields? ["structs"] = some [some (.array items)] →
    ∀ record ∈ items, ∀ item, record.Lists item → item.usable levels = true

/-- A schema is read from a document exactly where the document describes it and does not
nest too deep. -/
theorem Schema.ofJson?_eq_some {schema : Schema} : ofJson? json = some schema ↔
    schema.DescribedBy json ∧ FieldsUsable (maxNesting - 4) json := by
  rw [ofJson?]
  constructor
  · intro h
    obtain ⟨values, hfields, h⟩ := Option.bind_eq_some_iff.mp h
    split at h
    · obtain ⟨items, hitems, hread⟩ := Option.bind_eq_some_iff.mp h
      obtain rfl := JsonValue.array?_eq_some.mp hitems
      split at hread
      · next hall =>
          obtain ⟨structs, hstructs, hread⟩ := Option.bind_eq_some_iff.mp hread
          obtain rfl := Option.some.inj hread
          refine ⟨⟨items, hfields, ?_⟩, fun others hothers record hrecord => ?_⟩
          · exact (mapM_eq_some_iff.mp hstructs).imp fun _ _ => StructDecl.ofJson?_sound
          · rw [hfields] at hothers
            simp only [Option.some.injEq, List.cons.injEq, JsonValue.array.injEq,
              and_true] at hothers
            exact usableFields_iff.mp (List.all_eq_true.mp hall record (hothers ▸ hrecord))
      · cases hread
    · cases h
  · rintro ⟨⟨items, hfields, hstructs⟩, husable⟩
    have hdecls : items.mapM (StructDecl.ofJson? false (2 * maxNesting)) = some schema.structs := by
      obtain ⟨hlength, hpairs⟩ := List.forall₂_iff_zip.mp hstructs
      refine mapM_eq_some_iff.mpr (List.forall₂_iff_zip.mpr ⟨hlength, fun hpair => ?_⟩)
      exact StructDecl.ofJson?_complete (hpairs hpair)
        (husable items hfields _ (List.of_mem_zip hpair).2)
    have hall : ∀ record ∈ items, usableFields record = true :=
      fun record hrecord => usableFields_iff.mpr (husable items hfields record hrecord)
    simpa [hfields, JsonValue.array?, hdecls] using hall

end Decoding

end ObjectPackage
