/-
Where fields are placed.  A draft keeps every property in its own bytes, apart from
single bools, which may share a word when their masks have no common bit; the open
word is the only place where this can still happen.  Layouts inherit this from
their drafts, and properties of a base keep it in what derives from it.
-/
import ObjectPackage.Layout.Build
import ObjectPackage.Proofs.Effect
import ObjectPackage.Proofs.Layout.Parts
import Mathlib.Data.Nat.Bitwise
import Mathlib.Tactic.IntervalCases

namespace ObjectPackage

theorem dvd_eight_cases {alignment : Nat} (h : alignment ∣ 8) :
    alignment = 1 ∨ alignment = 2 ∨ alignment = 4 ∨ alignment = 8 := by
  have hle := Nat.le_of_dvd (by decide) h
  interval_cases alignment <;> simp_all

theorem pos_of_dvd_eight {alignment : Nat} (h : alignment ∣ 8) : 0 < alignment :=
  Nat.pos_of_dvd_of_pos h (by decide)

/-- Of two divisors of eight the smaller one divides the larger one. -/
theorem dvd_max_of_dvd_eight {left right : Nat} (hleft : left ∣ 8) (hright : right ∣ 8) :
    left ∣ max left right ∧ right ∣ max left right ∧ max left right ∣ 8 := by
  rcases dvd_eight_cases hleft with rfl | rfl | rfl | rfl <;>
    rcases dvd_eight_cases hright with rfl | rfl | rfl | rfl <;> decide

theorem dvd_alignUp {alignment : Nat} (value : Nat) (h : alignment ∣ 8) :
    alignment ∣ alignUp value alignment :=
  Nat.dvd_of_mod_eq_zero (alignUp_mod value alignment (pos_of_dvd_eight h))

/-- Struct layouts that a type names, in containers as well. -/
def PropertyType.structs : PropertyType → List StructLayout
  | struct layout => [layout]
  | fixedArray element _ => element.structs
  | array element => element.structs
  | map key value => key.structs ++ value.structs
  | _ => []

def LayoutField.structs : LayoutField → List StructLayout
  | .property _ type _ _ => type.structs
  | .nested layout => [layout]

/-- A layout that was laid out over layouts that were laid out themselves. -/
inductive StructLayout.Built : StructLayout → Prop
  | build {realm : Nat} {name : String} {base : Option StructLayout}
      {fields : List LayoutField} {layout : StructLayout}
      (hbase : ∀ other ∈ base, Built other)
      (hfields : ∀ field ∈ fields, ∀ other ∈ field.structs, Built other)
      (h : buildLayout realm name base fields = .ok layout) : Built layout

/-- All structs in a type have been laid out. -/
def PropertyType.Resolved (type : PropertyType) : Prop :=
  ∀ layout ∈ type.structs, layout.Built

namespace Property

/-- A property lies in the first `size` bytes of a struct with the given alignment. -/
structure Placed (property : Property) (size alignment : Nat) : Prop where
  inside : property.offset + property.size ≤ size
  aligned : property.type.alignment ∣ property.offset
  alignment : property.type.alignment ∣ alignment
  narrow : property.type.alignment ∣ 8
  masked : property.type = .bool → property.mask ≠ 0
  resolved : property.type.Resolved

/-- Two single bools in different bits of one word. -/
structure SharesWord (left right : Property) : Prop where
  left_bool : left.type = .bool
  right_bool : right.type = .bool
  left_single : left.dimension = 1
  right_single : right.dimension = 1
  offset : left.offset = right.offset
  masks : left.mask &&& right.mask = 0

def Apart (left right : Property) : Prop :=
  left.offset + left.size ≤ right.offset ∨ right.offset + right.size ≤ left.offset ∨
    left.SharesWord right

theorem Placed.mono {property : Property} {size size' alignment alignment' : Nat}
    (h : property.Placed size alignment) (hsize : size ≤ size')
    (halignment : alignment ∣ alignment') : property.Placed size' alignment' where
  inside := Nat.le_trans h.inside hsize
  aligned := h.aligned
  alignment := Nat.dvd_trans h.alignment halignment
  narrow := h.narrow
  masked := h.masked
  resolved := h.resolved

end Property

/-- Every property that reaches into the open word is a single bool in a lower bit. -/
structure OpenWord.Free (word : OpenWord) (properties : List Property) : Prop where
  aligned : 4 ∣ word.offset
  bit_lt : word.bit < wordBits
  before : ∀ property ∈ properties, property.offset + property.size ≤ word.offset ∨
    (property.type = .bool ∧ property.dimension = 1 ∧ property.offset = word.offset ∧
      property.mask.toNat < 2 ^ word.bit)

/-- Properties placed side by side in a struct of the given size and alignment. -/
structure Arranged (properties : List Property) (size alignment : Nat) : Prop where
  placed : ∀ property ∈ properties, property.Placed size alignment
  apart : properties.Pairwise Property.Apart
  narrow : alignment ∣ 8

structure LayoutDraft.Sound (draft : LayoutDraft) : Prop where
  arranged : Arranged draft.properties draft.offset draft.alignment
  word : ∀ word ∈ draft.word,
    word.offset + boolWord ≤ draft.offset ∧ word.Free draft.properties

theorem Arranged.push {properties : List Property} {size alignment size' : Nat}
    {property : Property} (h : Arranged properties size alignment)
    (hsize : size ≤ size') (hplaced : property.Placed size' property.type.alignment)
    (hapart : ∀ other ∈ properties, other.Apart property) :
    Arranged (properties ++ [property]) size' (max alignment property.type.alignment) := by
  obtain ⟨hleft, hright, height⟩ := dvd_max_of_dvd_eight h.narrow hplaced.narrow
  refine ⟨?_, ?_, height⟩
  · intro other hother
    rcases List.mem_append.mp hother with hother | hother
    · exact (h.placed other hother).mono hsize hleft
    · rw [List.mem_singleton.mp hother]
      exact hplaced.mono (Nat.le_refl _) hright
  · rw [List.pairwise_append]
    refine ⟨h.apart, List.pairwise_singleton _ _, ?_⟩
    intro other hother last hlast
    rw [List.mem_singleton.mp hlast]
    exact hapart other hother

namespace LayoutDraft

variable {draft : LayoutDraft}

/-- The mask of the next free bit has no bit in common with masks of lower bits. -/
theorem and_eq_zero_of_lt {mask : UInt32} {bit : Nat} (hbit : bit < 32)
    (h : mask.toNat < 2 ^ bit) : mask &&& UInt32.ofNat (1 <<< bit) = 0 := by
  apply UInt32.toNat_inj.mp
  rw [Nat.one_shiftLeft]
  have hpow : 2 ^ bit < 2 ^ 32 := Nat.pow_lt_pow_right (by decide) hbit
  rw [UInt32.toNat_and, UInt32.toNat_ofNat', Nat.mod_eq_of_lt hpow, UInt32.toNat_zero]
  apply Nat.eq_of_testBit_eq
  intro index
  rw [Nat.testBit_and, Nat.testBit_two_pow, Nat.zero_testBit]
  by_cases hindex : bit = index
  · subst hindex
    rw [Nat.testBit_lt_two_pow h, Bool.false_and]
  · simp [hindex]

theorem toNat_bit {bit : Nat} (hbit : bit < 32) : (UInt32.ofNat (1 <<< bit)).toNat = 2 ^ bit := by
  rw [Nat.one_shiftLeft, UInt32.toNat_ofNat', Nat.mod_eq_of_lt (Nat.pow_lt_pow_right (by decide) hbit)]

theorem bit_ne_zero {bit : Nat} (hbit : bit < 32) : UInt32.ofNat (1 <<< bit) ≠ 0 := by
  intro h
  have hnat := congrArg UInt32.toNat h
  rw [toNat_bit hbit] at hnat
  exact absurd hnat (Nat.pos_iff_ne_zero.mp (Nat.two_pow_pos bit))

theorem size_single_bool {property : Property} (htype : property.type = .bool)
    (hdimension : property.dimension = 1) : property.size = 4 := by
  rw [Property.size, htype, hdimension]
  rfl

theorem placed_bool {realm offset size : Nat} {owner name : String} {flags : PropertyFlags}
    {mask : UInt32} (hinside : offset + boolWord ≤ size) (haligned : 4 ∣ offset)
    (hmask : mask ≠ 0) :
    Property.Placed ⟨realm, owner, name, .bool, 1, flags, offset, mask⟩ size 4 where
  inside := by
    rw [size_single_bool rfl rfl]
    exact hinside
  aligned := haligned
  alignment := Nat.dvd_refl 4
  narrow := show 4 ∣ 8 by decide
  masked := fun _ => hmask
  resolved := by
    intro layout hlayout
    cases hlayout

/-- The first bit of a new word behind everything that was placed before. -/
theorem Sound.pushNewWord (h : draft.Sound) (realm : Nat) (owner name : String)
    (flags : PropertyFlags) (names : List String) :
    Sound { draft with
      properties := draft.properties ++
        [⟨realm, owner, name, .bool, 1, flags, alignUp draft.offset boolWord, elementMask⟩]
      names := names
      offset := alignUp draft.offset boolWord + boolWord
      alignment := max draft.alignment 4
      word := some ⟨alignUp draft.offset boolWord, 1⟩ } := by
  have hoffset := le_alignUp draft.offset boolWord
  have hdvd : 4 ∣ alignUp draft.offset boolWord := dvd_alignUp draft.offset (by decide)
  have hbehind : ∀ other ∈ draft.properties,
      other.offset + other.size ≤ alignUp draft.offset boolWord := fun other hother =>
    Nat.le_trans (h.arranged.placed other hother).inside hoffset
  refine ⟨h.arranged.push (Nat.le_trans hoffset (Nat.le_add_right _ _))
    (placed_bool (Nat.le_refl _) hdvd (by decide)) ?_, ?_⟩
  · intro other hother
    exact Or.inl (hbehind other hother)
  · intro word hword
    obtain rfl := Option.some.inj hword
    refine ⟨Nat.le_refl _, hdvd, (show 1 < 32 by decide), ?_⟩
    intro other hother
    rcases List.mem_append.mp hother with hother | hother
    · exact Or.inl (hbehind other hother)
    · rw [List.mem_singleton.mp hother]
      exact Or.inr ⟨rfl, rfl, rfl, (show elementMask.toNat < 2 ^ 1 by decide)⟩

/-- The next free bit of the open word. -/
theorem Sound.pushBit (h : draft.Sound) {word : OpenWord} (hword : draft.word = some word)
    (realm : Nat) (owner name : String) (flags : PropertyFlags) (names : List String) :
    Sound { draft with
      properties := draft.properties ++
        [⟨realm, owner, name, .bool, 1, flags, word.offset, UInt32.ofNat (1 <<< word.bit)⟩]
      names := names
      alignment := max draft.alignment 4
      word := if word.bit + 1 < wordBits then some ⟨word.offset, word.bit + 1⟩ else none } := by
  obtain ⟨hend, hfree⟩ := h.word word hword
  have hbit : word.bit < 32 := hfree.bit_lt
  refine ⟨h.arranged.push (Nat.le_refl _)
    (placed_bool hend hfree.aligned (bit_ne_zero hbit)) ?_, ?_⟩
  · intro other hother
    rcases hfree.before other hother with hbefore | ⟨htype, hdim, hsame, hmask⟩
    · exact Or.inl hbefore
    · exact Or.inr (Or.inr ⟨htype, rfl, hdim, rfl, hsame, and_eq_zero_of_lt hbit hmask⟩)
  · intro next hnext
    simp only [Option.mem_def, Option.ite_none_right_eq_some, Option.some.injEq] at hnext
    obtain ⟨hlt, rfl⟩ := hnext
    have hpow : 2 ^ word.bit < 2 ^ (word.bit + 1) :=
      Nat.pow_lt_pow_right (by decide) (Nat.lt_succ_self _)
    refine ⟨hend, hfree.aligned, hlt, ?_⟩
    intro other hother
    rcases List.mem_append.mp hother with hother | hother
    · rcases hfree.before other hother with hbefore | ⟨htype, hdim, hsame, hmask⟩
      · exact Or.inl hbefore
      · exact Or.inr ⟨htype, hdim, hsame, Nat.lt_trans hmask hpow⟩
    · rw [List.mem_singleton.mp hother]
      refine Or.inr ⟨rfl, rfl, rfl, ?_⟩
      rw [toNat_bit hbit]
      exact hpow

/-- Elements behind everything that was placed before keep a draft sound. -/
theorem Sound.pushElements (h : draft.Sound) {type : PropertyType}
    (hresolved : type.Resolved) (hnarrow : type.alignment ∣ 8) (realm : Nat)
    (owner name : String) (dimension : Nat) (flags : PropertyFlags) (names : List String) :
    Sound { (draft.placeElements type dimension).2.2 with
      properties := draft.properties ++
        [⟨realm, owner, name, type, dimension, flags,
          (draft.placeElements type dimension).1,
          (draft.placeElements type dimension).2.1⟩]
      names := names
      alignment := max draft.alignment type.alignment } := by
  have hoffset := le_alignUp draft.offset type.alignment
  refine ⟨h.arranged.push (Nat.le_trans hoffset (Nat.le_add_right _ _)) ?_ ?_, ?_⟩
  · refine ⟨Nat.le_refl _, dvd_alignUp draft.offset hnarrow, Nat.dvd_refl _, hnarrow, ?_,
      hresolved⟩
    intro hbool
    obtain rfl : type = .bool := hbool
    exact (show elementMask ≠ 0 by decide)
  · intro other hother
    exact Or.inl (Nat.le_trans (h.arranged.placed other hother).inside hoffset)
  · intro word hword
    cases hword

theorem add_property {realm dimension : Nat} {owner name : String} {type : PropertyType}
    {flags : PropertyFlags} {next : LayoutDraft}
    (h : draft.add realm owner (.property name type dimension flags) = .ok next) :
    isIdentifier name = true ∧ foldCase name ∉ draft.names ∧ dimension ≠ 0 ∧
      next = { (draft.place type dimension).2.2 with
        properties := draft.properties ++
          [⟨realm, owner, name, type, dimension, flags, (draft.place type dimension).1,
            (draft.place type dimension).2.1⟩]
        names := draft.names ++ [foldCase name]
        alignment := max draft.alignment type.alignment } := by
  simp only [add] at h
  split at h
  · cases h
  · next hname =>
      split at h
      · cases h
      · next hnew =>
          split at h
          · cases h
          · next hdimension =>
              refine ⟨by simpa using hname, by simpa using hnew, hdimension, ?_⟩
              exact (Except.ok.inj h).symm

/-- Adding a field keeps a draft sound. -/
theorem Sound.add (h : draft.Sound) {realm : Nat} {owner : String} {field : LayoutField}
    {next : LayoutDraft} (hfield : ∀ layout ∈ field.structs, layout.Built)
    (hnarrow : ∀ name type dimension flags, field = .property name type dimension flags →
      type.alignment ∣ 8)
    (hadd : draft.add realm owner field = .ok next) : next.Sound := by
  cases field with
  | nested layout =>
      obtain rfl := Except.ok.inj hadd
      refine ⟨h.arranged, ?_⟩
      intro word hword
      cases hword
  | property name type dimension flags =>
      obtain ⟨-, -, -, rfl⟩ := add_property hadd
      unfold place
      split
      · next hbool =>
          obtain ⟨htype, hdimension⟩ : type = .bool ∧ dimension = 1 := by
            cases type <;> simp_all [PropertyType.isBool]
          subst htype hdimension
          unfold placeBool
          cases hword : draft.word with
          | none => exact h.pushNewWord realm owner name flags _
          | some word => exact h.pushBit hword realm owner name flags _
      · exact h.pushElements hfield (hnarrow _ _ _ _ rfl) realm owner name dimension flags _

theorem addAll_cons {realm : Nat} {owner : String} {field : LayoutField} {rest : List LayoutField}
    {last : LayoutDraft} :
    (field :: rest).foldlM (LayoutDraft.add realm owner) draft = .ok last ↔
      ∃ next, draft.add realm owner field = .ok next ∧
        rest.foldlM (LayoutDraft.add realm owner) next = .ok last := by
  rw [List.foldlM_cons]
  exact bind_eq_ok

theorem addAll_append {realm : Nat} {owner : String} {fields rest : List LayoutField}
    {last : LayoutDraft} :
    (fields ++ rest).foldlM (LayoutDraft.add realm owner) draft = .ok last ↔
      ∃ next, fields.foldlM (LayoutDraft.add realm owner) draft = .ok next ∧
        rest.foldlM (LayoutDraft.add realm owner) next = .ok last := by
  rw [List.foldlM_append]
  exact bind_eq_ok

theorem Sound.addAll {realm : Nat} {owner : String} {fields : List LayoutField}
    (hfields : ∀ field ∈ fields, ∀ layout ∈ field.structs, layout.Built)
    (hnarrow : ∀ name type dimension flags, .property name type dimension flags ∈ fields →
      type.alignment ∣ 8) {next : LayoutDraft} (h : draft.Sound)
    (hadd : fields.foldlM (LayoutDraft.add realm owner) draft = .ok next) : next.Sound := by
  induction fields generalizing draft with
  | nil =>
      obtain rfl := Except.ok.inj hadd
      exact h
  | cons field rest ih =>
      obtain ⟨middle, hfirst, hrest⟩ := addAll_cons.mp hadd
      have hmiddle : middle.Sound := by
        refine h.add (hfields field List.mem_cons_self) ?_ hfirst
        intro name type dimension flags hfield
        exact hnarrow name type dimension flags (hfield ▸ List.mem_cons_self)
      refine ih ?_ ?_ hmiddle hrest
      · intro other hother
        exact hfields other (List.mem_cons_of_mem field hother)
      · intro name type dimension flags hfield
        exact hnarrow name type dimension flags (List.mem_cons_of_mem field hfield)

end LayoutDraft

/-- The alignment of a type divides eight as soon as those of its structs do. -/
theorem PropertyType.alignment_dvd_eight {type : PropertyType}
    (h : ∀ layout ∈ type.structs, layout.alignment ∣ 8) : type.alignment ∣ 8 := by
  cases type with
  | struct layout => exact h layout List.mem_cons_self
  | fixedArray element count => exact @alignment_dvd_eight element h
  | _ => simp only [alignment, handleSize]; decide

/-- What a successful build went through. -/
theorem buildLayout_ok {realm : Nat} {name : String} {base : Option StructLayout}
    {fields : List LayoutField} {layout : StructLayout}
    (h : buildLayout realm name base fields = .ok layout) :
    isIdentifier name = true ∧ ∃ draft,
      fields.foldlM (LayoutDraft.add realm name) (LayoutDraft.start base) = .ok draft ∧
        layout = ⟨name, base, draft.properties, (LayoutDraft.start base).properties.length,
          draft.nested, alignUp draft.offset (sizeGrain name), draft.alignment⟩ := by
  unfold buildLayout at h
  split at h
  · cases h
  · next hname =>
      cases hfold : fields.foldlM (LayoutDraft.add realm name) (LayoutDraft.start base) with
      | error error =>
          rw [hfold] at h
          cases h
      | ok draft =>
          rw [hfold] at h
          simp only [bind, Except.bind] at h
          split at h
          · cases h
          · exact ⟨by simpa using hname, draft, rfl, (Except.ok.inj h).symm⟩

theorem LayoutDraft.start_sound {base : Option StructLayout}
    (h : ∀ other ∈ base, Arranged other.properties other.size other.alignment) :
    (LayoutDraft.start base).Sound := by
  cases base with
  | none => exact ⟨⟨by simp [start], List.Pairwise.nil, Nat.one_dvd 8⟩, by simp [start]⟩
  | some other => exact ⟨h other rfl, by simp [start]⟩

/-- The draft that a layout is made of is sound. -/
theorem LayoutDraft.sound_of_fields {realm : Nat} {name : String}
    {base : Option StructLayout} {fields : List LayoutField} {draft : LayoutDraft}
    (hbase : ∀ other ∈ base, Arranged other.properties other.size other.alignment)
    (hfields : ∀ field ∈ fields, ∀ other ∈ field.structs, other.Built)
    (hnarrow : ∀ field ∈ fields, ∀ other ∈ field.structs, other.alignment ∣ 8)
    (h : fields.foldlM (LayoutDraft.add realm name) (LayoutDraft.start base) = .ok draft) :
    draft.Sound := by
  refine (start_sound hbase).addAll hfields ?_ h
  intro property type dimension flags hfield
  exact PropertyType.alignment_dvd_eight (hnarrow _ hfield)

/-- The properties of a layout are placed side by side. -/
theorem StructLayout.Built.arranged {layout : StructLayout} (h : layout.Built) :
    Arranged layout.properties layout.size layout.alignment := by
  induction h with
  | @build realm name base fields layout hbase hfields h ihbase ihfields =>
      obtain ⟨-, draft, hdraft, rfl⟩ := buildLayout_ok h
      have hsound := LayoutDraft.sound_of_fields ihbase hfields
        (fun field hfield other hother => (ihfields field hfield other hother).narrow) hdraft
      refine ⟨?_, hsound.arranged.apart, hsound.arranged.narrow⟩
      intro property hproperty
      exact (hsound.arranged.placed property hproperty).mono (le_alignUp _ _) (Nat.dvd_refl _)

namespace PropertyType.Resolved

variable {type : PropertyType}

theorem built {layout : StructLayout} (h : Resolved (.struct layout)) : layout.Built :=
  h layout List.mem_cons_self

theorem narrow (h : type.Resolved) : type.alignment ∣ 8 :=
  alignment_dvd_eight fun layout hlayout => (h layout hlayout).arranged.narrow

theorem of_mem_parts (h : type.Resolved) {part : Part} (hpart : part ∈ type.parts) :
    part.type.Resolved := by
  cases type with
  | struct layout =>
      obtain ⟨member, hmember, hpart⟩ := mem_memberParts.mp hpart
      obtain ⟨_, _, rfl⟩ := mem_parts.mp hpart
      exact (h.built.arranged.placed member hmember).resolved
  | fixedArray element count =>
      obtain ⟨_, _, rfl⟩ := mem_elementParts.mp hpart
      exact h
  | _ => cases hpart

theorem of_mem_unitParts (h : type.Resolved) {count : Nat} {part : Part}
    (hpart : part ∈ type.unitParts count) : part.type.Resolved := by
  cases type with
  | array element =>
      obtain ⟨_, _, rfl⟩ := mem_elementParts.mp hpart
      exact h
  | map key value =>
      obtain ⟨_, _, hpart⟩ := mem_entryParts.mp hpart
      simp only [entryPair, List.mem_cons, List.not_mem_nil, or_false] at hpart
      rcases hpart with rfl | rfl
      · exact fun layout hlayout => h layout (List.mem_append_left _ hlayout)
      · exact fun layout hlayout => h layout (List.mem_append_right _ hlayout)
  | _ => cases hpart

end PropertyType.Resolved

end ObjectPackage
