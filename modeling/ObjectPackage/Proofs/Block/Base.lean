/-
Defaults over a base block.  A base is accepted for the name of its layout, and its values are
copied by declaration.  Layouts of one registry have names of their own, so there what is
accepted is the layout itself or one of its bases, and all values of the base are inherited.
-/
import ObjectPackage.Proofs.Block.Inherit
import ObjectPackage.Proofs.Registry.Inherited

namespace ObjectPackage

namespace StructLayout

variable {layout base other : StructLayout} {name : String}

/-- One layout is the other, or is derived from it, directly or through others. -/
def Derives : StructLayout → StructLayout → Prop :=
  Relation.ReflTransGen fun layout base => layout.base = some base

theorem isA_eq (layout : StructLayout) (name : String) :
    layout.isA name = (sameName layout.name name || layout.base.any (isA name)) := by
  obtain ⟨own, base, properties, ownStart, nested, size, alignment⟩ := layout
  cases base <;> rfl

/-- A layout is a struct if it derives from a layout of that name. -/
theorem isA_iff (layout : StructLayout) (name : String) :
    layout.isA name = true ↔
      ∃ ancestor, layout.Derives ancestor ∧ sameName ancestor.name name = true := by
  rw [isA_eq, Bool.or_eq_true, Option.any_eq_true]
  constructor
  · rintro (hname | ⟨base, hbase, hisA⟩)
    · exact ⟨layout, .refl, hname⟩
    · have hsmaller := Registry.sizeOf_base_lt hbase
      obtain ⟨ancestor, hderives, hname⟩ := (isA_iff base name).mp hisA
      exact ⟨ancestor, .head hbase hderives, hname⟩
  · rintro ⟨ancestor, hderives, hname⟩
    rcases Relation.ReflTransGen.cases_head hderives with rfl | ⟨base, hbase, hderives⟩
    · exact Or.inl hname
    · have hsmaller := Registry.sizeOf_base_lt hbase
      exact Or.inr ⟨base, hbase, (isA_iff base name).mpr ⟨ancestor, hderives, hname⟩⟩
termination_by sizeOf layout

/-- A base is built as well, and its properties come first. -/
theorem Built.of_base (h : layout.Built) (hbase : layout.base = some base) :
    base.Built ∧ base.properties <+: layout.properties := by
  cases h with
  | @build realm name parent fields _ hparent hfields h =>
      obtain ⟨-, draft, hdraft, rfl⟩ := buildLayout_ok h
      obtain rfl : parent = some base := hbase
      obtain ⟨own, hproperties, -⟩ :=
        (LayoutDraft.start_extends (some base) realm name).addAll hdraft
      exact ⟨hparent base rfl, own, hproperties.symm⟩

/-- What derives from a layout has all of its properties. -/
theorem Derives.subset (h : layout.Derives other) (hlayout : layout.Built) :
    other.properties ⊆ layout.properties := by
  induction h using Relation.ReflTransGen.head_induction_on with
  | refl => exact fun _ h => h
  | head hbase _ ih =>
      obtain ⟨hbuilt, hprefix⟩ := hlayout.of_base hbase
      exact fun _ h => hprefix.subset (ih hbuilt h)

end StructLayout

namespace Registry

variable {registry : Registry} {layout other : StructLayout}

/-- What a loaded layout derives from is loaded under its own name. -/
theorem Closed.get?_of_derives (h : registry.Closed)
    (hget : ∃ name, registry.get? name = some layout) (hderives : layout.Derives other) :
    registry.get? other.name = some other := by
  induction hderives using Relation.ReflTransGen.head_induction_on with
  | refl =>
      obtain ⟨name, hget⟩ := hget
      exact h.get?_name hget
  | head hbase _ ih =>
      obtain ⟨name, hget⟩ := hget
      obtain ⟨decl, -, hrealises⟩ := h.realises_of_get? hget
      exact ih (hrealises.closed.2.1 _ hbase).1

/-- Names tell the loaded layouts apart. -/
theorem Closed.derives_of_isA (h : registry.Closed)
    (hget : ∃ name, registry.get? name = some layout)
    (hother : ∃ name, registry.get? name = some other) (hisA : layout.isA other.name = true) :
    layout.Derives other := by
  obtain ⟨ancestor, hderives, hname⟩ := (StructLayout.isA_iff _ _).mp hisA
  have hancestor := h.get?_of_derives hget hderives
  have hloaded := h.get?_of_derives hother .refl
  rw [get?_eq_some, sameName_eq_true_iff.mp hname, ← get?_eq_some, hloaded] at hancestor
  obtain rfl := Option.some.inj hancestor
  exact hderives

end Registry

namespace Block

variable {layout : StructLayout} {base block : Block}

/-- What is done to an element that starts from a base block. -/
def inheritElement (base : Block) (property : Property) : Nat → Update Unit :=
  if base.layout.contains property then copyElement base.store property
  else constructElement property

theorem newDefault_of_isA (h : layout.isA base.layout.name = true) :
    newDefault layout (some base) =
      fill layout (alignUp layout.size blockGrain) base.inheritElement := if_pos h

theorem newDefault_of_run {store : Store} (h : layout.isA base.layout.name = true)
    (hrun : runFrom (Store.zeroed (alignUp layout.size blockGrain))
      (forElements layout.properties base.inheritElement) = (.ok (), store)) :
    newDefault layout (some base) = .ok ⟨layout, store⟩ := by
  rw [newDefault_of_isA h, fill_eq, hrun]
  rfl

theorem isA_of_newDefault (h : newDefault layout (some base) = .ok block) :
    layout.isA base.layout.name = true := by
  by_contra hisA
  simp only [newDefault, if_neg hisA] at h
  cases h

/-- The element holds what the base holds, if it has the declaration, and a default otherwise. -/
def Inherits (base : Block) (property : Property) (index : Nat) : Ensures Store Value :=
  fun _ outcome _ value _ => outcome = .ok () ∧
    if base.layout.contains property then
      ∃ held, base.store.Holds property.type (elementAt property index) property.mask value held
    else value = property.type.defaultValue

theorem inheritElement_renews (hlayout : layout.Built) (hbase : base.Covers layout)
    {property : Property} (hproperty : property ∈ layout.properties) {index : Nat}
    (hindex : index < property.dimension) :
    Renews id (base.inheritElement property index) property.type (elementAt property index)
      property.mask True (base.Inherits property index) := by
  rw [inheritElement]
  split
  · next hcontains =>
      refine (copyElement_renews hlayout hproperty hindex hbase.sound
        (hbase.shared property hproperty hcontains)).mono id fun _ _ _ _ _ h => ?_
      rw [Inherits, if_pos hcontains]
      exact h
  · next hcontains =>
      refine (constructElement_renews hlayout hproperty hindex).mono id fun _ _ _ _ _ h => ?_
      rw [Inherits, if_neg hcontains]
      exact ⟨h.1, h.2.1⟩

/-- Defaults over a base have the values of the base where the base has the declaration, and
default values elsewhere. -/
theorem newDefault_some_value (hlayout : layout.Built) (hbase : base.Covers layout)
    (h : newDefault layout (some base) = .ok block) (hfits : block.store.Fits) :
    ∀ element ∈ elementsOf layout.properties,
      if base.layout.contains element.1 then
        block.identical element.1 element.2 base = .ok true
      else block.value element.1 element.2 = .ok element.1.type.defaultValue := by
  rw [newDefault_of_isA (isA_of_newDefault h)] at h
  obtain ⟨rfl, -, values, slots, howns, hchain⟩ := fill_sound hlayout (inside_alignUp hlayout)
    (fun _ hproperty _ hindex => inheritElement_renews hlayout hbase hproperty hindex) h hfits
  have hholds := howns.holds
  rw [← map_elementPart] at hholds
  obtain ⟨-, hheld⟩ := hchain.held (fun _ _ _ _ _ _ _ h => h) hholds
  intro element helement
  obtain ⟨value, first, hsure, hvalue⟩ := hheld element helement
  rw [elementPart, shift_root] at hvalue
  obtain ⟨hproperty, hindex⟩ := mem_elementsOf.mp helement
  split
  · next hcontains =>
      rw [if_pos hcontains] at hsure
      obtain ⟨held, hheld⟩ := hsure
      obtain ⟨same, hsame, hiff⟩ := PropertyType.identical_of_holds hvalue hheld
      rw [identical, element_eq_ok.mpr ⟨contains_of_mem hproperty, hindex, rfl⟩,
        element_eq_ok.mpr ⟨hcontains, hindex, rfl⟩, ← hiff.mpr rfl]
      exact hsame
  · next hcontains =>
      rw [if_neg hcontains] at hsure
      rw [value_eq helement, ← hsure]
      exact PropertyType.snapshot_of_holds hvalue

/-- What a base block is good for.  It is refused unless the layout or something that it derives
from has the name of the layout of the base.  Where it is accepted, the properties that are
those of the base hold what they hold there, and all others hold default values.  A layout that
derives from the one of the base has all properties of it, so that none is dropped; among the
layouts of one registry no other base is accepted. -/
theorem newDefault_inherits {layouts : List StructLayout} (hlayouts : Catalogue layouts)
    (hlayout : layout ∈ layouts) (hmember : base.layout ∈ layouts)
    (hsound : base.store.Sound base.layout) :
    ((∀ ancestor, layout.Derives ancestor → sameName ancestor.name base.layout.name = false) →
      newDefault layout (some base) = .error (.layoutMismatch layout.name base.layout.name)) ∧
    ∀ block, newDefault layout (some base) = .ok block → block.store.Fits →
      (∀ property ∈ layout.properties, ∀ index < property.dimension,
        (property ∈ base.layout.properties → block.identical property index base = .ok true) ∧
        (property ∉ base.layout.properties →
          block.value property index = .ok property.type.defaultValue)) ∧
      (layout.Derives base.layout → base.layout.properties ⊆ layout.properties) ∧
      ∀ realm builtins calls, (∃ name, ((Registry.start realm builtins).after calls).get? name =
          some layout) →
        (∃ name, ((Registry.start realm builtins).after calls).get? name = some base.layout) →
          layout.Derives base.layout := by
  have hbuilt := hlayouts.built layout hlayout
  have hshared (property : Property) (hproperty : property ∈ layout.properties) :
      base.layout.contains property = true → property ∈ base.layout.properties :=
    hlayouts.mem_of_contains hlayout hmember hproperty
  refine ⟨fun hnone => ?_, fun block hblock hfits => ⟨fun property hproperty index hindex => ?_,
    fun hderives => hderives.subset hbuilt, fun realm builtins calls hget hother => ?_⟩⟩
  · have hrefused : layout.isA base.layout.name = false := by
      by_contra hisA
      obtain ⟨ancestor, hderives, hname⟩ :=
        (StructLayout.isA_iff _ _).mp (Bool.not_eq_false _ ▸ hisA)
      exact Bool.false_ne_true ((hnone ancestor hderives).symm.trans hname)
    simp only [newDefault, hrefused, Bool.false_eq_true, if_false]
  · have hvalue := newDefault_some_value hbuilt ⟨hsound, hshared⟩ hblock hfits
      (property, index) (mem_elementsOf.mpr ⟨hproperty, hindex⟩)
    dsimp only at hvalue
    split at hvalue
    · next hcontains => exact ⟨fun _ => hvalue, fun hnot => absurd (hshared _ hproperty hcontains) hnot⟩
    · next hcontains => exact ⟨fun hmem => absurd (contains_of_mem hmem) hcontains, fun _ => hvalue⟩
  · exact ((Registry.start_settled realm builtins).after calls).1.closed.derives_of_isA hget hother
      (isA_of_newDefault hblock)

end Block

namespace TwoRealms

def health (realm : Nat) : Property := ⟨realm, "Pawn", "Health", .int, 1, .empty, 0, 0⟩

def rank : Property := ⟨0, "Soldier", "Rank", .int, 1, .empty, 8, 0⟩

/-- Structs of one name in different registries. -/
def pawn (realm : Nat) : StructLayout := ⟨"Pawn", none, [health realm], 0, [], 8, 4⟩

def soldier : StructLayout := ⟨"Soldier", some (pawn 0), [health 0, rank], 1, [], 16, 4⟩

theorem catalogue : Catalogue [pawn 1, soldier, pawn 0] := by
  have hfields (name : String) (other : List StructLayout) : ∀ field ∈
      [LayoutField.property name .int 1 .empty], ∀ layout ∈ field.structs, layout ∈ other := by
    simp [LayoutField.structs, PropertyType.structs]
  have hpawn : Catalogue [pawn 0] :=
    @Catalogue.build [] 0 "Pawn" none _ (pawn 0) .empty (by simp) (hfields "Health" _) (by simp) rfl
  have hsoldier : Catalogue [soldier, pawn 0] :=
    @Catalogue.build _ 0 "Soldier" (some (pawn 0)) _ soldier hpawn (by simp) (hfields "Rank" _)
      (by simp [pawn, health]) rfl
  exact @Catalogue.build _ 1 "Pawn" none _ (pawn 1) hsoldier (by simp) (hfields "Health" _)
    (by simp [soldier, pawn, health, rank]) rfl

def hurt (realm : Nat) : Block := ⟨pawn realm, ⟨#[7, 0, 0, 0, 0, 0, 0, 0], #[]⟩⟩

theorem hurt_sound (realm : Nat) : (hurt realm).store.Sound (hurt realm).layout := by
  have hhealth : (hurt realm).store.Holds .int ((Location.root 0).shift 0) 0 (.int 7) [] :=
    .scalar rfl (show _ = Except.ok [7, 0, 0, 0] from rfl)
  have hparts : memberParts (hurt realm).layout.properties = [⟨.int, 0, 0⟩] := by
    simp [hurt, pawn, memberParts_cons, memberParts_nil, Property.parts, health,
      Property.elementOffset]
  have hall : (hurt realm).store.HoldsAll (.root 0) [⟨.int, 0, 0⟩] [.int 7] [] :=
    @Store.HoldsAll.cons _ _ ⟨.int, 0, 0⟩ _ _ _ _ _ hhealth .nil
  rw [← hparts] at hall
  exact ⟨_, _, hall.owns, fun slot hlive => absurd rfl hlive⟩

/-- A pawn of another registry is accepted for its name, and its health is dropped. -/
theorem hurt_dropped : Catalogue [pawn 1, soldier, pawn 0] ∧
    (hurt 1).store.Sound (hurt 1).layout ∧
    ∃ block, Block.newDefault (pawn 0) (some (hurt 1)) = .ok block ∧
      health 1 ∈ (hurt 1).layout.properties ∧ health 1 ∉ (pawn 0).properties ∧
      (hurt 1).value (health 1) 0 = .ok (.int 7) ∧ block.value (health 0) 0 = .ok (.int 0) := by
  have hmade : Block.newDefault (pawn 0) (some (hurt 1)) = .ok ⟨pawn 0, .zeroed 8⟩ :=
    Block.newDefault_of_run (by decide) (by decide +kernel)
  exact ⟨catalogue, hurt_sound 1, _, hmade, List.mem_singleton.mpr rfl, by simp [pawn, health],
    rfl, rfl⟩

/-- A soldier starts with the health of a pawn. -/
theorem hurt_inherited : Catalogue [pawn 1, soldier, pawn 0] ∧
    (hurt 0).store.Sound (hurt 0).layout ∧
    ∃ block, Block.newDefault soldier (some (hurt 0)) = .ok block ∧ block.store.Fits ∧
      block.identical (health 0) 0 (hurt 0) = .ok true ∧ block.value rank 0 = .ok (.int 0) := by
  have hmade : Block.newDefault soldier (some (hurt 0)) =
      .ok ⟨soldier, #[7, 0, 0, 0, 0, 0, 0, 0, 0, 0, 0, 0, 0, 0, 0, 0], #[]⟩ :=
    Block.newDefault_of_run (by decide) (by decide +kernel)
  obtain ⟨-, hinherits⟩ := @Block.newDefault_inherits soldier (hurt 0) _ catalogue (by simp)
    (by simp [hurt]) (hurt_sound 0)
  obtain ⟨hvalues, -⟩ := hinherits _ hmade (by decide)
  refine ⟨catalogue, hurt_sound 0, _, hmade, by decide, ?_, ?_⟩
  · exact (hvalues (health 0) (by simp [soldier]) 0 (by decide)).1 (by simp [hurt, pawn])
  · exact (hvalues rank (by simp [soldier]) 0 (by decide)).2 (by simp [hurt, pawn, rank, health])

end TwoRealms

end ObjectPackage
