/-
Runs of bools.  Neighbouring single bools share words of 32 bits, in order of declaration.
A run starts behind everything that was placed before it, and whatever ends it leaves the
rest of its last word unused.
-/
import ObjectPackage.Proofs.Layout.Placement

namespace ObjectPackage

namespace LayoutField

def isProperty : LayoutField → Bool
  | .property _ _ _ _ => true
  | .nested _ => false

/-- A bool that is no array, and so takes one bit. -/
def isSingleBool : LayoutField → Bool
  | .property _ type dimension _ => type.isBool && dimension == 1
  | .nested _ => false

end LayoutField

/-- The declaration that a property was placed for. -/
def Property.field (property : Property) : LayoutField :=
  .property property.name property.type property.dimension property.flags

/-- Where the bytes of the properties end, which follow `size` bytes. -/
def placedEnd (size : Nat) (properties : List Property) : Nat :=
  properties.foldl (fun last property => max last (property.offset + property.size)) size

/-- A longest run of single bools in a list of fields. -/
structure BoolRun (fields before run after : List LayoutField) : Prop where
  fields_eq : fields = before ++ run ++ after
  nonempty : run ≠ []
  bools : ∀ field ∈ run, field.isSingleBool = true
  starts : ∀ field ∈ before.getLast?, field.isSingleBool = false
  ends : ∀ field ∈ after.head?, field.isSingleBool = false

theorem BoolRun.filter_run {fields before run after : List LayoutField}
    (hrun : BoolRun fields before run after) : run.filter LayoutField.isProperty = run := by
  refine List.filter_eq_self.mpr fun field hfield => ?_
  have hbool := hrun.bools field hfield
  cases field with
  | nested layout => cases hbool
  | property name type dimension flags => rfl

namespace LayoutDraft

variable {draft next last : LayoutDraft} {realm : Nat} {owner : String} {field : LayoutField}
  {fields : List LayoutField} {more : List Property}

/-- A single bool takes the next bit of the open word, or the first one of a new word. -/
theorem add_bool (hfield : field.isSingleBool = true)
    (hadd : draft.add realm owner field = .ok next) : ∃ property : Property,
      property.field = field ∧ next.properties = draft.properties ++ [property] ∧
      ((draft.word = none ∧ property.offset = alignUp draft.offset boolWord ∧
          property.mask = elementMask ∧ next.offset = property.offset + boolWord ∧
          next.word = some ⟨property.offset, 1⟩) ∨
        ∃ word, draft.word = some word ∧ property.offset = word.offset ∧
          property.mask = UInt32.ofNat (1 <<< word.bit) ∧ next.offset = draft.offset ∧
          next.word = if word.bit + 1 < wordBits then some ⟨word.offset, word.bit + 1⟩ else none) := by
  cases field with
  | nested layout => cases hfield
  | property name type dimension flags =>
      obtain ⟨-, -, -, rfl⟩ := add_property hadd
      have hplace : draft.place type dimension = draft.placeBool := if_pos hfield
      rw [hplace, placeBool]
      split
      · next offset bit hword =>
          exact ⟨_, rfl, rfl, Or.inr ⟨_, hword, rfl, rfl, rfl, rfl⟩⟩
      · next hword =>
          exact ⟨_, rfl, rfl, Or.inl ⟨hword, rfl, rfl, rfl, rfl⟩⟩

/-- Any other field ends the open word, and elements are placed behind everything else. -/
theorem add_other (hfield : field.isSingleBool = false)
    (hadd : draft.add realm owner field = .ok next) : next.word = none ∧
      ((field.isProperty = false ∧ next.properties = draft.properties ∧
          next.offset = draft.offset) ∨
        ∃ property : Property, property.field = field ∧
          next.properties = draft.properties ++ [property] ∧
          property.offset = alignUp draft.offset property.type.alignment ∧
          property.mask = (if property.type.isBool then elementMask else 0) ∧
          next.offset = property.offset + property.size) := by
  cases field with
  | nested layout =>
      obtain rfl := Except.ok.inj hadd
      exact ⟨rfl, Or.inl ⟨rfl, rfl, rfl⟩⟩
  | property name type dimension flags =>
      obtain ⟨-, -, -, rfl⟩ := add_property hadd
      have hplace : draft.place type dimension = draft.placeElements type dimension :=
        if_neg (Bool.eq_false_iff.mp hfield)
      rw [hplace]
      exact ⟨rfl, Or.inr ⟨_, rfl, rfl, rfl, rfl, rfl⟩⟩

/-- A draft ends behind its open word. -/
def Tight (draft : LayoutDraft) : Prop :=
  ∀ word ∈ draft.word, word.offset + boolWord ≤ draft.offset

/-- The fields add these properties, and the draft ends where the properties do. -/
structure Grows (draft next : LayoutDraft) (fields : List LayoutField) (more : List Property) :
    Prop where
  properties : next.properties = draft.properties ++ more
  declared : more.map Property.field = fields.filter LayoutField.isProperty
  offset : next.offset = placedEnd draft.offset more
  arrays : ∀ property ∈ more, property.type = .bool → property.dimension ≠ 1 →
    property.mask = elementMask ∧ boolWord ∣ property.offset

theorem Grows.refl (draft : LayoutDraft) : draft.Grows draft [] [] where
  properties := (List.append_nil _).symm
  declared := rfl
  offset := rfl
  arrays := nofun

theorem Grows.trans {fields' : List LayoutField} {more' : List Property}
    (h : draft.Grows next fields more) (h' : next.Grows last fields' more') :
    draft.Grows last (fields ++ fields') (more ++ more') where
  properties := by rw [h'.properties, h.properties, List.append_assoc]
  declared := by rw [List.map_append, h.declared, h'.declared, List.filter_append]
  offset := by rw [h'.offset, h.offset, placedEnd, placedEnd, placedEnd, List.foldl_append]
  arrays := by
    intro property hproperty
    rcases List.mem_append.mp hproperty with hproperty | hproperty
    · exact h.arrays property hproperty
    · exact h'.arrays property hproperty

theorem Grows.push {property : Property} (hfield : property.field = field)
    (hproperties : next.properties = draft.properties ++ [property])
    (hoffset : next.offset = max draft.offset (property.offset + property.size))
    (harray : property.type = .bool → property.dimension ≠ 1 →
      property.mask = elementMask ∧ boolWord ∣ property.offset) :
    draft.Grows next [field] [property] where
  properties := hproperties
  declared := by rw [← hfield]; rfl
  offset := hoffset
  arrays := List.forall_mem_singleton.mpr harray

theorem alignUp_of_dvd {value : Nat} (h : 4 ∣ value) : alignUp value boolWord = value := by
  have hle := le_alignUp value boolWord
  have hlt := alignUp_lt value boolWord (by decide)
  have hdvd : 4 ∣ alignUp value boolWord := dvd_alignUp value (by decide)
  rw [boolWord] at hlt hle hdvd ⊢
  omega

theorem single_bool {property : Property} (h : property.field.isSingleBool = true) :
    property.type = .bool ∧ property.dimension = 1 := by
  have hboth : (property.type.isBool && property.dimension == 1) = true := h
  rw [Bool.and_eq_true, beq_iff_eq] at hboth
  refine ⟨?_, hboth.2⟩
  cases htype : property.type <;> simp_all [PropertyType.isBool]

/-- Adding a field. -/
theorem Tight.add (h : draft.Tight) (hadd : draft.add realm owner field = .ok next) :
    next.Tight ∧ ∃ more, draft.Grows next [field] more := by
  cases hfield : field.isSingleBool with
  | true =>
      obtain ⟨property, rfl, hproperties, hplace⟩ := add_bool hfield hadd
      obtain ⟨htype, hdimension⟩ := single_bool hfield
      have hsize : property.size = boolWord := size_single_bool htype hdimension
      have harray : property.dimension ≠ 1 → property.mask = elementMask ∧
          boolWord ∣ property.offset := fun hother => absurd hdimension hother
      rcases hplace with ⟨-, hoffset, -, hend, hword⟩ | ⟨word, hopen, hoffset, -, hend, hword⟩
      · have hle := le_alignUp draft.offset boolWord
        refine ⟨?_, [property], .push rfl hproperties (by omega) fun _ => harray⟩
        intro word hmem
        rw [hword] at hmem
        obtain rfl := Option.some.inj hmem
        exact Nat.le_of_eq hend.symm
      · have hle := h word hopen
        refine ⟨?_, [property], .push rfl hproperties (by omega) fun _ => harray⟩
        intro later hmem
        rw [hword] at hmem
        split at hmem
        · obtain rfl := Option.some.inj hmem
          exact hend ▸ hle
        · cases hmem
  | false =>
      obtain ⟨hword, hplace⟩ := add_other hfield hadd
      have htight : next.Tight := by
        intro word hmem
        rw [hword] at hmem
        cases hmem
      rcases hplace with ⟨hnested, hproperties, hend⟩ | ⟨property, rfl, hproperties, hoffset, hmask, hend⟩
      · refine ⟨htight, [], ?_, ?_, hend, nofun⟩
        · rw [hproperties, List.append_nil]
        · rw [List.filter_singleton, hnested]
          rfl
      · have hle := le_alignUp draft.offset property.type.alignment
        refine ⟨htight, [property], .push rfl hproperties (by omega) fun htype _ => ?_⟩
        rw [hmask, hoffset, htype]
        exact ⟨rfl, dvd_alignUp _ (by decide)⟩

theorem Tight.addAll (h : draft.Tight)
    (hadd : fields.foldlM (LayoutDraft.add realm owner) draft = .ok next) :
    next.Tight ∧ ∃ more, draft.Grows next fields more := by
  induction fields generalizing draft with
  | nil =>
      obtain rfl := Except.ok.inj hadd
      exact ⟨h, [], .refl draft⟩
  | cons field rest ih =>
      obtain ⟨middle, hfirst, hrest⟩ := addAll_cons.mp hadd
      obtain ⟨hmiddle, more, hmore⟩ := h.add hfirst
      obtain ⟨hnext, later, hlater⟩ := ih hmiddle hrest
      exact ⟨hnext, more ++ later, hmore.trans hlater⟩

/-- No word is open behind a field that is no single bool. -/
theorem word_eq_none (hstart : draft.word = none)
    (hends : ∀ field ∈ fields.getLast?, field.isSingleBool = false)
    (hadd : fields.foldlM (LayoutDraft.add realm owner) draft = .ok next) : next.word = none := by
  rcases List.eq_nil_or_concat fields with rfl | ⟨front, field, rfl⟩
  · obtain rfl := Except.ok.inj hadd
    exact hstart
  · rw [List.concat_eq_append] at hadd hends
    obtain ⟨middle, -, hlast⟩ := addAll_append.mp hadd
    obtain ⟨next, hfield, hnil⟩ := addAll_cons.mp hlast
    obtain rfl := Except.ok.inj hnil
    exact (add_other (hends field (by simp)) hfield).1

/-- The draft after `count` bools of a run whose words start at `start`. -/
structure Running (draft : LayoutDraft) (start count : Nat) : Prop where
  offset : alignUp draft.offset boolWord = start + 4 * ((count + 31) / 32)
  whole : count ≠ 0 → 4 ∣ draft.offset
  word : draft.word =
    if count % 32 = 0 then none else some ⟨start + 4 * (count / 32), count % 32⟩

/-- The next bool of a run. -/
theorem Running.add {start count : Nat} (h : draft.Running start count) (hstart : 4 ∣ start)
    (hfield : field.isSingleBool = true) (hadd : draft.add realm owner field = .ok next) :
    next.Running start (count + 1) ∧ ∃ property, next.properties = draft.properties ++ [property] ∧
      property.offset = start + 4 * (count / 32) ∧
      property.mask = UInt32.ofNat (2 ^ (count % 32)) := by
  obtain ⟨property, -, hproperties, hplace⟩ := add_bool hfield hadd
  have hword := h.word
  have hoffset := h.offset
  rcases hplace with ⟨hnone, hplace, hmask, hend, hnext⟩ | ⟨word, hsome, hplace, hmask, hend, hnext⟩
  · have hfull : count % 32 = 0 := by
      by_contra hopen
      rw [if_neg hopen, hnone] at hword
      cases hword
    have hplace : property.offset = start + 4 * (count / 32) := by omega
    have hnew : next.offset = start + 4 * (count / 32 + 1) := by rw [hend, hplace]; rfl
    have hwhole : 4 ∣ next.offset := hnew ▸ Nat.dvd_add hstart (Nat.dvd_mul_right _ _)
    refine ⟨⟨?_, fun _ => hwhole, ?_⟩, property, hproperties, hplace, ?_⟩
    · rw [alignUp_of_dvd hwhole, hnew]
      omega
    · rw [hnext, if_neg (by omega), hplace]
      congr 2 <;> omega
    · rw [hmask, hfull]
      rfl
  · have hopen : count % 32 ≠ 0 := by
      intro hfull
      rw [if_pos hfull, hsome] at hword
      cases hword
    rw [if_neg hopen, hsome] at hword
    obtain rfl := Option.some.inj hword
    refine ⟨⟨?_, fun _ => ?_, ?_⟩, property, hproperties, hplace, ?_⟩
    · rw [hend, hoffset]
      omega
    · rw [hend]
      exact h.whole (by omega)
    · rw [hnext, wordBits]
      dsimp only
      split
      · rw [if_neg (by omega)]
        congr 2 <;> omega
      · rw [if_pos (by omega)]
    · rw [hmask, Nat.one_shiftLeft]

/-- A whole run. -/
theorem Running.addAll {start count : Nat} (h : draft.Running start count) (hstart : 4 ∣ start)
    (hfields : ∀ field ∈ fields, field.isSingleBool = true)
    (hadd : fields.foldlM (LayoutDraft.add realm owner) draft = .ok next) :
    next.Running start (count + fields.length) ∧ ∃ more, next.properties = draft.properties ++ more ∧
      ∀ index < fields.length, ∃ property, more[index]? = some property ∧
        property.offset = start + 4 * ((count + index) / 32) ∧
        property.mask = UInt32.ofNat (2 ^ ((count + index) % 32)) := by
  induction fields generalizing draft count with
  | nil =>
      obtain rfl := Except.ok.inj hadd
      exact ⟨h, [], (List.append_nil _).symm, nofun⟩
  | cons field rest ih =>
      obtain ⟨hfield, hrest⟩ := List.forall_mem_cons.mp hfields
      obtain ⟨middle, hfirst, hlater⟩ := addAll_cons.mp hadd
      obtain ⟨hmiddle, property, hproperties, hplace⟩ := h.add hstart hfield hfirst
      obtain ⟨hnext, more, hmore, hplaces⟩ := ih hmiddle hrest hlater
      rw [Nat.add_right_comm] at hnext
      refine ⟨hnext, property :: more, ?_, fun index hindex => ?_⟩
      · rw [hmore, hproperties, List.append_assoc]
        rfl
      · cases index with
        | zero => exact ⟨property, rfl, hplace⟩
        | succ index =>
            have hlater := hplaces index (Nat.lt_of_succ_lt_succ hindex)
            rw [Nat.add_right_comm] at hlater
            exact hlater

theorem Running.start (hword : draft.word = none) :
    draft.Running (alignUp draft.offset boolWord) 0 where
  offset := rfl
  whole := absurd rfl
  word := hword

/-- A whole run ends with its last word. -/
theorem Running.le_offset {start count : Nat} (h : draft.Running start count)
    (hcount : count ≠ 0) : start + 4 * ((count + 31) / 32) ≤ draft.offset := by
  rw [← h.offset, alignUp_of_dvd (h.whole hcount)]

/-- No bit is free in front of the bound. -/
structure Behind (draft : LayoutDraft) (bound : Nat) : Prop where
  offset : bound ≤ draft.offset
  word : ∀ word ∈ draft.word, bound ≤ word.offset

/-- Everything that is added lies behind the bound. -/
def AddsBehind (draft next : LayoutDraft) (bound : Nat) : Prop :=
  ∃ more, next.properties = draft.properties ++ more ∧
    ∀ property ∈ more, bound ≤ property.offset

variable {bound : Nat}

theorem AddsBehind.nil (h : next.properties = draft.properties) : draft.AddsBehind next bound :=
  ⟨[], h.trans (List.append_nil _).symm, nofun⟩

theorem AddsBehind.push {property : Property}
    (h : next.properties = draft.properties ++ [property]) (hbound : bound ≤ property.offset) :
    draft.AddsBehind next bound :=
  ⟨[property], h, List.forall_mem_singleton.mpr hbound⟩

theorem AddsBehind.trans (h : draft.AddsBehind next bound) (h' : next.AddsBehind last bound) :
    draft.AddsBehind last bound := by
  obtain ⟨more, hmore, hbehind⟩ := h
  obtain ⟨later, hlater, hbehind'⟩ := h'
  refine ⟨more ++ later, ?_, List.forall_mem_append.mpr ⟨hbehind, hbehind'⟩⟩
  rw [hlater, hmore, List.append_assoc]

theorem behind_of_other (hbound : bound ≤ draft.offset) (hfield : field.isSingleBool = false)
    (hadd : draft.add realm owner field = .ok next) :
    next.Behind bound ∧ draft.AddsBehind next bound := by
  obtain ⟨hword, hplace⟩ := add_other hfield hadd
  have hclosed : ∀ word ∈ next.word, bound ≤ word.offset := by
    intro word hmem
    rw [hword] at hmem
    cases hmem
  rcases hplace with ⟨-, hproperties, hend⟩ | ⟨property, -, hproperties, hoffset, -, hend⟩
  · exact ⟨⟨hend ▸ hbound, hclosed⟩, .nil hproperties⟩
  · have hle := le_alignUp draft.offset property.type.alignment
    exact ⟨⟨by omega, hclosed⟩, .push hproperties (by omega)⟩

theorem Behind.add (h : draft.Behind bound) (hadd : draft.add realm owner field = .ok next) :
    next.Behind bound ∧ draft.AddsBehind next bound := by
  have hbound := h.offset
  cases hfield : field.isSingleBool with
  | false => exact behind_of_other hbound hfield hadd
  | true =>
      obtain ⟨property, -, hproperties, hplace⟩ := add_bool hfield hadd
      rcases hplace with ⟨-, hoffset, -, hend, hword⟩ | ⟨word, hmem, hoffset, -, hend, hword⟩
      · have hle := le_alignUp draft.offset boolWord
        have hplaced : bound ≤ property.offset := by omega
        refine ⟨⟨by omega, ?_⟩, .push hproperties hplaced⟩
        rw [hword]
        rintro _ ⟨⟩
        exact hplaced
      · have hplaced := h.word word hmem
        refine ⟨⟨by omega, ?_⟩, .push hproperties (by omega)⟩
        rw [hword]
        intro later hlater
        split at hlater
        · obtain rfl := Option.some.inj hlater
          exact hplaced
        · cases hlater

theorem Behind.addAll (h : draft.Behind bound)
    (hadd : fields.foldlM (LayoutDraft.add realm owner) draft = .ok next) :
    next.Behind bound ∧ draft.AddsBehind next bound := by
  induction fields generalizing draft with
  | nil =>
      obtain rfl := Except.ok.inj hadd
      exact ⟨h, .nil rfl⟩
  | cons field rest ih =>
      obtain ⟨middle, hfirst, hrest⟩ := addAll_cons.mp hadd
      obtain ⟨hmiddle, hbehind⟩ := h.add hfirst
      obtain ⟨hnext, hlater⟩ := ih hmiddle hrest
      exact ⟨hnext, hbehind.trans hlater⟩

/-- Once a run has ended, no bit of its words is given away. -/
theorem behind_of_ended (hbound : bound ≤ draft.offset)
    (hends : ∀ field ∈ fields.head?, field.isSingleBool = false)
    (hadd : fields.foldlM (LayoutDraft.add realm owner) draft = .ok next) :
    bound ≤ next.offset ∧ draft.AddsBehind next bound := by
  cases fields with
  | nil =>
      obtain rfl := Except.ok.inj hadd
      exact ⟨hbound, .nil rfl⟩
  | cons field rest =>
      obtain ⟨middle, hfirst, hrest⟩ := addAll_cons.mp hadd
      obtain ⟨hmiddle, hbehind⟩ := behind_of_other hbound (hends field rfl) hfirst
      obtain ⟨hnext, hlater⟩ := hmiddle.addAll hrest
      exact ⟨hnext.offset, hbehind.trans hlater⟩

/-- What is placed for a field list with a run: the properties in front of the run, those of the
run from the end of the others on, and the rest behind its last word. -/
theorem Tight.run {before run after : List LayoutField} (hrun : BoolRun fields before run after)
    (htight : draft.Tight) (hword : draft.word = none)
    (hadd : fields.foldlM (LayoutDraft.add realm owner) draft = .ok last) :
    ∃ front bools rest start, start = alignUp (placedEnd draft.offset front) boolWord ∧
      draft.Grows last (before ++ run ++ after) (front ++ bools ++ rest) ∧
      front.map Property.field = before.filter LayoutField.isProperty ∧
      bools.map Property.field = run ∧
      (∀ index < run.length, ∃ property, bools[index]? = some property ∧
        property.offset = start + 4 * (index / 32) ∧
        property.mask = UInt32.ofNat (2 ^ (index % 32))) ∧
      (∀ property ∈ rest, start + 4 * ((run.length + 31) / 32) ≤ property.offset) ∧
      start + 4 * ((run.length + 31) / 32) ≤ last.offset := by
  rw [hrun.fields_eq] at hadd
  obtain ⟨second, hadd, hafter⟩ := addAll_append.mp hadd
  obtain ⟨first, hbefore, hbools⟩ := addAll_append.mp hadd
  obtain ⟨htight, front, hfront⟩ := htight.addAll hbefore
  obtain ⟨htight, bools, hgrows⟩ := htight.addAll hbools
  obtain ⟨-, rest, hrest⟩ := htight.addAll hafter
  have hstart : 4 ∣ alignUp first.offset boolWord := dvd_alignUp _ (by decide)
  -- no word is open where the run starts
  obtain ⟨hlast, bools', hbools', hplaces⟩ :=
    (Running.start (word_eq_none hword hrun.starts hbefore)).addAll hstart hrun.bools hbools
  obtain rfl := List.append_cancel_left (hgrows.properties.symm.trans hbools')
  rw [Nat.zero_add] at hlast
  obtain ⟨hend, rest', hrest', hbehind⟩ := behind_of_ended
    (hlast.le_offset (List.length_pos_iff.mpr hrun.nonempty).ne') hrun.ends hafter
  obtain rfl := List.append_cancel_left (hrest.properties.symm.trans hrest')
  refine ⟨front, bools, rest, _, ?_, (hfront.trans hgrows).trans hrest, hfront.declared, ?_, ?_,
    hbehind, hend⟩
  · rw [hfront.offset]
  · rw [hgrows.declared, hrun.filter_run]
  · simpa only [Nat.zero_add] using hplaces

end LayoutDraft

section

open LayoutDraft

variable {realm : Nat} {name : String} {base : Option StructLayout} {fields : List LayoutField}
  {layout : StructLayout}

end

namespace SpilledRun

/-- A base that ends in a word with free bits. -/
def pawn : StructLayout :=
  ⟨"Pawn", none, [⟨0, "Pawn", "bHidden", .bool, 1, .empty, 0, 1⟩], 0, [], 8, 4⟩

/-- One bool more than a word has bits. -/
def bools : List LayoutField :=
  ["B0", "B1", "B2", "B3", "B4", "B5", "B6", "B7", "B8", "B9", "B10", "B11", "B12", "B13", "B14",
    "B15", "B16", "B17", "B18", "B19", "B20", "B21", "B22", "B23", "B24", "B25", "B26", "B27",
    "B28", "B29", "B30", "B31", "B32"].map fun name => .property name .bool 1 .empty

/-- A byte in front of the run, and behind it a nested struct, another bool and a bool array. -/
def fields : List LayoutField :=
  [.property "Team" .byte 1 .empty] ++ bools ++
    [.nested pawn, .property "bLast" .bool 1 .empty, .property "Marks" .bool 2 .empty]

end SpilledRun

end ObjectPackage
