/-
A save shows values only.  Blocks that are identical in what is saved of them are saved alike,
whatever their stores look like, and what was saved once is saved in the same way again under
the table of names that the first save has left.
-/
import ObjectPackage.Proofs.Block.RoundTrip
import ObjectPackage.Proofs.Layout.Catalogue

namespace ObjectPackage

variable {α β γ : Type}

namespace Save

/-- Done again under a later table, an action has the same outcome and adds the same bytes, and
it leaves the table as it is. -/
def Repeats (action : Save α) : Prop :=
  ∀ ⦃state outcome after⦄, runFrom state action = (outcome, after) →
    state.names.Grows after.names ∧ ∃ added : List UInt8, after.output = state.output ++ added ∧
      ∀ names output, after.names.Grows names →
        runFrom ⟨names, output⟩ action = (outcome, ⟨names, output ++ added⟩)

namespace Repeats

/-- An action that needs no table and adds nothing. -/
theorem of_still {action : Save α} (outcome : Except PropertyError α)
    (h : ∀ state, runFrom state action = (outcome, state)) : Repeats action := by
  intro state result after hrun
  obtain ⟨rfl, rfl⟩ := Prod.mk.inj ((h state).symm.trans hrun)
  refine ⟨.refl _, [], Array.appendList_nil.symm, fun names output _ => ?_⟩
  rw [Array.appendList_nil]
  exact h _

theorem pure (value : α) : Repeats (Pure.pure value) :=
  of_still (.ok value) fun _ => rfl

theorem ofExcept (outcome : Except PropertyError α) : Repeats (ofExcept outcome) :=
  of_still outcome fun state => runFrom_ofExcept state outcome

theorem throw (error : PropertyError) : Repeats (throw error : Save α) :=
  of_still (.error error) fun _ => rfl

theorem emit (bytes : List UInt8) : Repeats (emit bytes) := by
  intro state outcome after hrun
  rw [runFrom_emit] at hrun
  obtain ⟨rfl, rfl⟩ := Prod.mk.inj hrun
  exact ⟨.refl _, bytes, rfl, fun names output _ => runFrom_emit _ _⟩

theorem intern (name : String) : Repeats (intern name) := by
  intro state outcome after hrun
  rw [runFrom_intern] at hrun
  obtain ⟨rfl, rfl⟩ := Prod.mk.inj hrun
  refine ⟨state.names.intern_grows name, [], Array.appendList_nil.symm, fun names output hgrows => ?_⟩
  rw [runFrom_intern, NameTable.intern_again hgrows, Array.appendList_nil]

/-- The second action leaves a table that is later than the one of the first. -/
theorem bind {action : Save α} {next : α → Save β} (h : Repeats action)
    (hnext : ∀ value, Repeats (next value)) : Repeats (action >>= next) := by
  intro state outcome after hrun
  rcases runFrom_bind_cases hrun with ⟨error, rfl, hfirst⟩ | ⟨value, middle, hfirst, hlast⟩
  · obtain ⟨hgrows, added, houtput, hagain⟩ := h hfirst
    refine ⟨hgrows, added, houtput, fun names output hnames => ?_⟩
    exact runFrom_bind_error (hagain names output hnames) next
  · obtain ⟨hgrows, added, houtput, hagain⟩ := h hfirst
    obtain ⟨hgrows', more, houtput', hagain'⟩ := hnext value hlast
    have hassoc (output : Array UInt8) : output ++ added ++ more = output ++ (added ++ more) :=
      Array.toList_inj.mp (by simp)
    refine ⟨hgrows.trans hgrows', added ++ more, ?_, fun names output hnames => ?_⟩
    · rw [houtput', houtput, hassoc]
    · rw [runFrom_bind_ok (hagain names output (hgrows'.trans hnames)), hagain' names _ hnames,
        hassoc]

theorem map (f : α → β) {action : Save α} (h : Repeats action) : Repeats (f <$> action) := by
  rw [map_eq_pure_bind]
  exact h.bind fun value => .pure _

theorem foldlM {items : List β} {step : γ → β → Save γ}
    (h : ∀ value item, Repeats (step value item)) (value : γ) :
    Repeats (items.foldlM step value) := by
  induction items generalizing value with
  | nil => exact .pure value
  | cons item items ih => exact (h value item).bind fun next => ih next

theorem header (property : Property) (index size : Nat) (boolValue : Bool) :
    Repeats (header property index size boolValue) := by
  refine (intern _).bind fun name => ?_
  split
  · exact ((intern _).map some).bind fun structName => .pure _
  · exact (Repeats.pure none).bind fun structName => .pure _

theorem element (block : Block) (property : Property) (index : Nat) :
    Repeats (element block property index) := by
  rw [Save.element]
  split
  · exact .throw _
  · refine (Repeats.ofExcept _).bind fun found => (header _ _ _ _).bind fun header =>
      (emit _).bind fun _ => ?_
    split
    · exact (emit _).bind fun _ => emit _
    · exact .throw _

theorem properties (block : Block) (defaults : Option Block) :
    Repeats (properties block defaults) := by
  refine (foldlM (fun written item => Repeats.bind ?_ fun _ => .pure _) 0).bind fun written =>
    (intern _).bind fun id => (emit _).bind fun _ => .pure _
  rw [property]
  split
  · exact .pure 0
  · refine foldlM (fun written index => (Repeats.ofExcept _).bind fun same => ?_) 0
    split
    · exact .pure _
    · exact (element _ _ _).bind fun _ => .pure _

end Repeats

end Save

namespace Block

variable {layouts : List StructLayout} {block other : Block} {defaults defaults' : Option Block}

/-- Defaults that mean the same to a layout: there are none, or they are blocks of one layout
that are identical in the elements which the layouts share and which are saved. -/
inductive SameDefaults (layouts : List StructLayout) (layout : StructLayout) :
    Option Block → Option Block → Prop
  | absent : SameDefaults layouts layout none none
  | blocks {block other : Block} (hmem : block.layout ∈ layouts)
      (hlayout : other.layout = block.layout) (hsound : block.store.Sound block.layout)
      (hother : other.store.Sound other.layout)
      (hidentical : ∀ element ∈ layout.saved, block.layout.contains element.1 = true →
        block.identical element.1 element.2 other = .ok true) :
      SameDefaults layouts layout (some block) (some other)

/-- An element of a sound block is identical to itself. -/
theorem identical_self (hsound : block.store.Sound block.layout) {property : Property} {index : Nat}
    (hproperty : property ∈ block.layout.properties) (hindex : index < property.dimension) :
    block.identical property index block = .ok true := by
  obtain ⟨same, hsame, hiff⟩ := identical_eq hsound hsound hproperty hproperty hindex
  rw [hsame, hiff.mpr rfl]

theorem SameDefaults.left (hlayouts : Catalogue layouts) (hmem : block.layout ∈ layouts)
    (h : SameDefaults layouts block.layout defaults defaults') :
    SameDefaults layouts block.layout defaults defaults := by
  cases h with
  | absent => exact .absent
  | blocks hbaseMem hlayout hsound hother hidentical =>
      refine .blocks hbaseMem rfl hsound hsound fun element helement hcontains => ?_
      obtain ⟨hproperty, -, hindex⟩ := mem_saved.mp helement
      exact identical_self hsound
        (hlayouts.mem_of_contains hmem hbaseMem hproperty hcontains) hindex

end Block

namespace TaggedPawn

/-- The titled pawn, made in the other order, so that its values have other slots. -/
def retitled : Block :=
  ((defaults.setValue tags 0 (.array [.str "b"])).2.setValue title 0 (.str "a")).2

/-- The defaults with a list of no tags that is kept in a slot of its own. -/
def emptied : Block :=
  (defaults.setValue tags 0 (.array [])).2

/-- What is saved of the titled pawn. -/
def list : SaveState :=
  ⟨⟨["None", "Title", "Tags"]⟩, #[1, 0x5d, 3, 2, 97, 0, 2, 0x29, 1, 2, 98, 0, 0]⟩

end TaggedPawn

end ObjectPackage
