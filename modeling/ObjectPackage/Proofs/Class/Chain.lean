/-
Chains of classes.  A class is saved as its script and the values that differ from those of its
base, and all classes share one table of names, which grows while they are saved.  Loaded in
order under the table that is left, each class starts from the class before it and comes to the
values that it was saved with.
-/
import ObjectPackage.ClassObject
import ObjectPackage.Proofs.Block.Kept
import ObjectPackage.Proofs.Registry.Inherited
import ObjectPackage.Proofs.Script.Cut

namespace ObjectPackage

/-- A class to be saved: default values, and a script with its canonical size. -/
structure ClassSource where
  defaults : Block
  script : List UInt8
  scriptSize : Nat

namespace ClassSource

def layout (source : ClassSource) : StructLayout :=
  source.defaults.layout

/-- The bytes of the script are decoded to it and used up.  A class of script size zero has
neither. -/
def Scripts (package : Package) (source : ClassSource) : Option Script → Prop
  | none => source.scriptSize = 0 ∧ source.script = []
  | some script => source.scriptSize ≠ 0 ∧ ∃ final,
      (Cursor.ofBytes source.script).decode (Script.decode package source.scriptSize) =
        (.ok script, final) ∧ final.cursor.rest = []

/-- Save bodies in order, the defaults of each next to those of the one before, into one table
of names. -/
def saveBodies : Option Block → NameTable → List ClassSource →
    Except PropertyError (List (List UInt8)) × NameTable
  | _, names, [] => (.ok [], names)
  | base, names, source :: rest =>
      match source.defaults.saveProperties base names with
      | (.error error, state) => (.error error, state.names)
      | (.ok _, state) =>
          let (bodies, names) := saveBodies (some source.defaults) state.names rest
          (bodies.map ((source.script ++ state.output.toList) :: ·), names)

/-- A class of a registry that can be saved under a table of names: its block is sound, names
are in the table, handles are resolved, payloads have a length, and the script is accepted. -/
structure Savable (registry : Registry) (package : Package) (source : ClassSource) : Prop where
  loaded : ∃ name, registry.get? name = some source.layout
  sound : source.defaults.store.Sound source.layout
  portable : ∀ property index value,
    (property, index) ∈ Block.elementsOf source.layout.properties →
    source.defaults.value property index = .ok value →
      property.type.Portable package value ∧ (property.type.encode value).length < 2 ^ 32
  script : ∃ script, source.Scripts package script

/-- The body of a class, loaded over a base, is used up and gives the class back: its script,
its default values, and instances that have them. -/
structure Returns (package : Package) (base : Option ClassObject) (source : ClassSource)
    (body : List UInt8) (object : ClassObject) : Prop where
  load : ClassObject.load package source.layout base source.scriptSize (Cursor.ofBytes body) =
    (.ok object, ⟨body.length, []⟩)
  script : source.Scripts package object.script
  defaults : ∀ element ∈ Block.elementsOf source.layout.properties,
    object.defaults.identical element.1 element.2 source.defaults = .ok true
  instantiate : ∃ copy, object.instantiate = .ok copy ∧
    ∀ element ∈ Block.elementsOf source.layout.properties,
      copy.identical element.1 element.2 source.defaults = .ok true

/-- Bodies give their classes back in order, each loaded over the class before it. -/
inductive ReturnsAll (package : Package) :
    Option ClassObject → List ClassSource → List (List UInt8) → Prop
  | nil {base : Option ClassObject} : ReturnsAll package base [] []
  | cons {base : Option ClassObject} {source : ClassSource} {sources : List ClassSource}
      {body : List UInt8} {bodies : List (List UInt8)} {object : ClassObject}
      (hfirst : source.Returns package base body object)
      (hrest : ReturnsAll package (some object) sources bodies) :
      ReturnsAll package base (source :: sources) (body :: bodies)

end ClassSource

namespace ClassSource

variable {registry : Registry} {package : Package} {source : ClassSource}
  {sources : List ClassSource} {base : Option Block} {names : NameTable}

/-- One block is followed by a block of a layout derived from its own. -/
def Follows (block next : Block) : Prop :=
  next.layout.base = some block.layout

theorem loadScript_append {script : Option Script} (h : source.Scripts package script)
    (suffix : List UInt8) :
    ClassObject.loadScript package source.scriptSize (Cursor.ofBytes (source.script ++ suffix)) =
      (.ok script, ⟨source.script.length, suffix⟩) := by
  cases script with
  | none =>
      obtain ⟨hsize, hscript⟩ := h
      rw [ClassObject.loadScript, if_pos hsize, hscript]
      rfl
  | some script =>
      obtain ⟨hsize, final, hdecode, hend⟩ := h
      obtain ⟨used, hused, hanywhere⟩ := Script.decode_anywhere hdecode
      rw [hend, List.append_nil] at hused
      obtain rfl : source.script = used := hused
      have hlonger := hanywhere 0 suffix
      rw [Nat.zero_add] at hlonger
      rw [ClassObject.loadScript, if_neg hsize, Cursor.ofBytes, hlonger]

section Registry

variable (hclosed : registry.Closed)

include hclosed

theorem Savable.built (h : source.Savable registry package) : source.layout.Built :=
  hclosed.built _ h.loaded

/-- The last layout of a chain decides for all of them. -/
theorem kept_of_last (hsources : ∀ source ∈ sources, source.Savable registry package)
    (hchain : (sources.map ClassSource.defaults).IsChain Follows)
    (hlast : ∀ last ∈ sources.getLast?, last.layout.Kept) :
    ∀ source ∈ sources, source.layout.Kept := by
  induction sources with
  | nil => simp
  | cons first rest ih =>
      cases rest with
      | nil => simpa using hlast
      | cons second rest =>
          obtain ⟨-, hrest⟩ := List.forall_mem_cons.mp hsources
          obtain ⟨hfollows, hlater⟩ := List.isChain_cons_cons.mp hchain
          have hkept := ih hrest hlater (by simpa using hlast)
          refine List.forall_mem_cons.mpr ⟨?_, hkept⟩
          exact (hkept second List.mem_cons_self).of_continues
            (hclosed.continues (hrest second List.mem_cons_self).loaded hfollows)

theorem covers_of_follows {block : Block} (hblock : block.store.Sound block.layout)
    (h : source.Savable registry package) (hfollows : Follows block source.defaults) :
    block.Covers source.layout :=
  Block.covers_of_continues hblock (hclosed.continues h.loaded hfollows)

end Registry

/-- A table keeps its names while bodies are saved. -/
theorem saveBodies_grows (hsize : (saveBodies base names sources).2.size ≤ 2 ^ 32) :
    names.Grows (saveBodies base names sources).2 := by
  induction sources generalizing base names with
  | nil => exact .refl names
  | cons source rest ih =>
      rw [saveBodies] at hsize ⊢
      cases hsave : source.defaults.saveProperties base names with
      | mk outcome state =>
          rw [hsave] at hsize
          cases outcome with
          | error error => exact (Block.saveProperties_run hsave hsize).1
          | ok count =>
              have hrest := ih hsize
              exact (Block.saveProperties_run hsave
                (Nat.le_trans hrest.size_le hsize)).1.trans hrest

theorem saveBodies_cons_ok {bodies : List (List UInt8)} {final : NameTable}
    (h : saveBodies base names (source :: sources) = (.ok bodies, final)) :
    ∃ count state rest, source.defaults.saveProperties base names = (.ok count, state) ∧
      saveBodies (some source.defaults) state.names sources = (.ok rest, final) ∧
      bodies = (source.script ++ state.output.toList) :: rest := by
  rw [saveBodies] at h
  cases hsave : source.defaults.saveProperties base names with
  | mk outcome state =>
      rw [hsave] at h
      cases outcome with
      | error error => cases h
      | ok count =>
          cases hrest : saveBodies (some source.defaults) state.names sources with
          | mk outcome last =>
              dsimp only at h
              rw [hrest] at h
              cases outcome with
              | error error => cases h
              | ok rest =>
                  obtain ⟨hbodies, rfl⟩ := Prod.mk.inj h
                  exact ⟨count, state, rest, rfl, hrest, (Except.ok.inj hbodies).symm⟩

theorem follows_of_isChain
    (h : (base.toList ++ (source :: sources).map ClassSource.defaults).IsChain Follows) :
    (∀ block ∈ base, Follows block source.defaults) ∧
      ((some source.defaults).toList ++ sources.map ClassSource.defaults).IsChain Follows := by
  cases base with
  | none => exact ⟨nofun, h⟩
  | some block =>
      obtain ⟨hfirst, hrest⟩ := List.isChain_cons_cons.mp h
      exact ⟨fun other hother => Option.some.inj hother ▸ hfirst, hrest⟩

/-- A class that has been loaded stands for the block that it was saved from. -/
structure Restores (credit : Nat) (block : Block) (object : ClassObject) : Prop where
  sound : block.store.Sound block.layout
  agrees : object.defaults.Matches block
  heap : object.defaults.store.heap.size ≤ credit

section Closed

variable (hclosed : registry.Closed)

include hclosed

/-- A chain is saved without failure. -/
theorem saveBodies_ok (hsources : ∀ source ∈ sources, source.Savable registry package)
    (hkept : ∀ source ∈ sources, source.layout.Kept)
    (hbase : ∀ block ∈ base, block.store.Sound block.layout)
    (hchain : (base.toList ++ sources.map ClassSource.defaults).IsChain Follows) :
    ∃ bodies, (saveBodies base names sources).1 = .ok bodies := by
  induction sources generalizing base names with
  | nil => exact ⟨[], rfl⟩
  | cons source rest ih =>
      obtain ⟨hsource, hrest⟩ := List.forall_mem_cons.mp hsources
      obtain ⟨hfirst, hlater⟩ := List.forall_mem_cons.mp hkept
      obtain ⟨hfollows, htail⟩ := follows_of_isChain hchain
      obtain ⟨count, state, hsave⟩ := Save.properties_succeeds hsource.sound hfirst.storable
        (fun block hblock => covers_of_follows hclosed (hbase block hblock) hsource
          (hfollows block hblock)) ⟨names, #[]⟩
      obtain ⟨bodies, hbodies⟩ := @ih (some source.defaults) state.names hrest hlater
        (fun block hblock => Option.some.inj hblock ▸ hsource.sound) htail
      have hsaved : source.defaults.saveProperties base names = (.ok count, state) := hsave
      refine ⟨(source.script ++ state.output.toList) :: bodies, ?_⟩
      rw [saveBodies, hsaved]
      dsimp only
      rw [hbodies]
      rfl

variable {credit : Nat} {object? : Option ClassObject}

theorem covers_of_restores (h : source.Savable registry package)
    (hbase : Option.Rel (Restores credit) base object?)
    (hfollows : ∀ block ∈ base, Follows block source.defaults) :
    ∀ block ∈ base, block.Covers source.layout := by
  intro block hblock
  cases hbase with
  | none => cases hblock
  | some hobject =>
      obtain rfl := Option.some.inj hblock
      exact covers_of_follows hclosed hobject.sound h (hfollows _ rfl)

/-- A class starts from what its base has been loaded to. -/
theorem start_ok (h : source.Savable registry package)
    (hbase : Option.Rel (Restores credit) base object?)
    (hfollows : ∀ block ∈ base, Follows block source.defaults) (hcredit : credit < 2 ^ 64) :
    ∃ target, Block.newDefault source.layout (object?.map ClassObject.defaults) = .ok target ∧
      (target.layout = source.layout ∧ target.store.Sound source.layout) ∧
      target.store.heap.size ≤ credit ∧
      ∀ block ∈ base, ∀ element ∈ Block.elementsOf source.layout.properties,
        block.layout.contains element.1 = true →
          target.value element.1 element.2 = block.value element.1 element.2 := by
  cases hbase with
  | none =>
      obtain ⟨target, hmade, hsound, hheap⟩ := Block.newDefault_none_ok (h.built hclosed)
      exact ⟨target, hmade, hsound, Nat.le_trans hheap (Nat.zero_le _), nofun⟩
  | @some block object hobject =>
      have hderived : source.layout.base = some block.layout := hfollows block rfl
      have hcontinues := hclosed.continues h.loaded hderived
      obtain ⟨hsame, hsound, hvalues⟩ := hobject.agrees
      have hcovers := Block.covers_of_continues hobject.sound hcontinues
      rw [← hsame] at hderived hcontinues
      obtain ⟨target, hmade, htarget, hheap, hcopied⟩ := Block.newDefault_some_ok hsound hcontinues
        (h.built hclosed) (StructLayout.isA_of_base hderived)
        (Nat.lt_of_le_of_lt hobject.heap hcredit)
      refine ⟨target, hmade, htarget, Nat.le_trans hheap hobject.heap, ?_⟩
      intro other hother element helement hcontains
      obtain rfl := Option.some.inj hother
      obtain ⟨hproperty, hindex⟩ := Block.mem_elementsOf.mp helement
      rw [hcopied element helement (by rwa [hsame])]
      exact hvalues element
        (Block.mem_elementsOf.mpr ⟨hcovers.shared _ hproperty hcontains, hindex⟩)

/-- The body of a class gives the class back over a base that stands for the block next to which
it was saved. -/
theorem body_returns {count : Nat} {state : SaveState} (h : source.Savable registry package)
    (hkept : source.layout.Kept) (hbase : Option.Rel (Restores credit) base object?)
    (hfollows : ∀ block ∈ base, Follows block source.defaults)
    (hsave : source.defaults.saveProperties base names = (.ok count, state))
    (hgrows : state.names.Grows package.names) (hsize : package.names.size ≤ 2 ^ 31)
    (hcredit : credit + (source.script ++ state.output.toList).length < 2 ^ 64) :
    ∃ object, source.Returns package object? (source.script ++ state.output.toList) object ∧
      Restores (credit + (source.script ++ state.output.toList).length) source.defaults object := by
  have hlayout := h.built hclosed
  obtain ⟨script, hscript⟩ := h.script
  rw [List.length_append, Array.length_toList] at hcredit
  obtain ⟨target, hmade, htarget, hheap, hcopied⟩ := start_ok hclosed h hbase hfollows (by omega)
  obtain ⟨loaded, hload, hmatches⟩ := Block.saved_returns hlayout hkept h.sound
    (covers_of_restores hclosed h hbase hfollows) h.portable hsave hgrows hsize htarget hcopied
    source.script.length (by omega)
  have hspent := Block.loadProperties_heap package target
    ⟨source.script.length, state.output.toList⟩
  rw [hload] at hspent
  dsimp only at hspent
  rw [Array.length_toList] at hspent
  have hroom : loaded.store.heap.size ≤
      credit + (source.script ++ state.output.toList).length := by
    rw [List.length_append, Array.length_toList]
    omega
  obtain ⟨copy, hcopy, hinstance⟩ := hmatches.newInstance hlayout (Nat.lt_of_le_of_lt hroom (by
    rwa [List.length_append, Array.length_toList]))
  refine ⟨⟨source.layout, loaded, script, ⟨count, []⟩⟩, ⟨?_, hscript,
    hmatches.identical h.sound, copy, hcopy, hinstance.identical h.sound⟩, h.sound, hmatches,
    hroom⟩
  rw [ClassObject.load, loadScript_append hscript]
  dsimp only
  rw [hmade]
  dsimp only
  rw [hload]
  simp only [List.length_append, Array.length_toList]

/-- Bodies of a chain give its classes back. -/
theorem saved_returnsAll {bodies : List (List UInt8)} {final : NameTable}
    (hsources : ∀ source ∈ sources, source.Savable registry package)
    (hkept : ∀ source ∈ sources, source.layout.Kept)
    (hbase : Option.Rel (Restores credit) base object?)
    (hchain : (base.toList ++ sources.map ClassSource.defaults).IsChain Follows)
    (hsave : saveBodies base names sources = (.ok bodies, final))
    (hgrows : final.Grows package.names) (hsize : package.names.size ≤ 2 ^ 31)
    (hcredit : credit + bodies.flatten.length < 2 ^ 64) :
    ReturnsAll package object? sources bodies := by
  induction sources generalizing base names credit object? bodies with
  | nil =>
      obtain rfl := Except.ok.inj (congrArg Prod.fst hsave)
      exact .nil
  | cons source rest ih =>
      obtain ⟨hsource, hrest⟩ := List.forall_mem_cons.mp hsources
      obtain ⟨hfirst, hlater⟩ := List.forall_mem_cons.mp hkept
      obtain ⟨hfollows, htail⟩ := follows_of_isChain hchain
      obtain ⟨count, state, restBodies, hbody, hrestSave, rfl⟩ := saveBodies_cons_ok hsave
      rw [List.flatten_cons, List.length_append, ← Nat.add_assoc] at hcredit
      have hrestGrows := @saveBodies_grows rest (some source.defaults) state.names (by
        rw [hrestSave]
        exact Nat.le_trans hgrows.size_le (Nat.le_trans hsize (by decide)))
      rw [hrestSave] at hrestGrows
      -- the class that comes of the first body is the base of the next one, and the bytes of the
      -- body are credit for the slots that are copied from it
      obtain ⟨object, hreturns, hrestores⟩ := body_returns hclosed hsource hfirst hbase hfollows
        hbody (hrestGrows.trans hgrows) hsize (by omega)
      exact .cons hreturns (ih hrest hlater (.some hrestores) htail hrestSave hcredit)

end Closed

/-- Class chains.  Blocks of a registry, each of a layout derived from the one before it, are
saved each next to the one before it, behind the bytes of a script, into one table of names.
When the last layout is kept as a whole, the save does not fail, and under the table that it
leaves all bodies are loaded in order, each over the class before it: the stream is used up,
the script is what the bytes alone are decoded to, and defaults and instances are identical to
the block that was saved in each element.  The table has at most `2 ^ 31` names, and the bodies
fit an address space together. -/
theorem chain_returns (realm : Nat) (builtins : Bool) (calls : List Registry.Call)
    (hsources : ∀ source ∈ sources,
      source.Savable ((Registry.start realm builtins).after calls) package)
    (hchain : (sources.map ClassSource.defaults).IsChain Follows)
    (hlast : ∀ last ∈ sources.getLast?, last.layout.Kept)
    (hnames : (saveBodies none names sources).2 = package.names)
    (hsize : package.names.size ≤ 2 ^ 31)
    (hmemory : ∀ bodies, (saveBodies none names sources).1 = .ok bodies →
      bodies.flatten.length < 2 ^ 64) :
    ∃ bodies, saveBodies none names sources = (.ok bodies, package.names) ∧
      ReturnsAll package none sources bodies := by
  have hclosed : ((Registry.start realm builtins).after calls).Closed :=
    ((Registry.start_settled realm builtins).after calls).1.closed
  have hkept := kept_of_last hclosed hsources hchain hlast
  obtain ⟨bodies, hbodies⟩ := @saveBodies_ok _ _ sources none names hclosed hsources hkept nofun
    hchain
  have hsave : saveBodies none names sources = (.ok bodies, package.names) :=
    Prod.ext hbodies hnames
  have hcredit : 0 + bodies.flatten.length < 2 ^ 64 := by
    rw [Nat.zero_add]
    exact hmemory bodies hbodies
  exact ⟨bodies, hsave,
    saved_returnsAll hclosed hsources hkept .none hchain hsave (.refl _) hsize hcredit⟩

end ClassSource

namespace TitledPawn

open Registry

def actor : StructDecl :=
  .plain "Actor" [("Health", .int)]

def pawn : StructDecl :=
  ⟨"Pawn", some "Actor", [.property (.plain "Title" .str)]⟩

def calls : List Call :=
  [.register actor, .register pawn, .resolve "Pawn"]

def health : Property := ⟨0, "Actor", "Health", .int, 1, .empty, 0, 0⟩

def title : Property := ⟨0, "Pawn", "Title", .str, 1, .empty, 8, 0⟩

def actorLayout : StructLayout := ⟨"Actor", none, [health], 0, [], 8, 4⟩

def pawnLayout : StructLayout := ⟨"Pawn", some actorLayout, [health, title], 1, [], 16, 8⟩

/-- An actor without a script. -/
def first : ClassSource :=
  ⟨(Block.setValue ⟨actorLayout, .zeroed 8⟩ health 0 (.int 9)).2, [], 0⟩

/-- A pawn that has the health of the actor, a title, and a script that returns. -/
def second : ClassSource :=
  ⟨((Block.setValue ⟨pawnLayout, .zeroed 16⟩ health 0 (.int 9)).2.setValue title 0 (.str "a")).2,
    [0x04, 0x0b], 2⟩

def package : Package := ⟨69, ⟨["None", "Health", "Title"]⟩, default⟩

def script : Script :=
  ⟨69, [.node .returnValue [.expression (.node .nothing [])]]⟩

theorem health_portable : health.type.Portable package (.int 9) ∧
    (health.type.encode (.int 9)).length < 2 ^ 32 :=
  ⟨by simp [health, PropertyType.Portable], by decide⟩

theorem first_savable : first.Savable ((start 0 false).after calls) package where
  loaded := ⟨"Actor", rfl⟩
  sound := by
    have hlayout : actorLayout.Built :=
      ((start_settled 0 false).after calls).1.closed.built _ ⟨"Actor", rfl⟩
    have hsound := (@Block.newDefault_none_sound actorLayout ⟨actorLayout, .zeroed 8⟩ hlayout rfl
      (by decide)).2
    exact (Block.setValue_sound hlayout hsound (fun _ => List.mem_singleton.mpr rfl) 0 (.int 9)
      (by decide)).2.1
  portable property index value helement hvalue := by
    have helements : Block.elementsOf first.layout.properties = [(health, 0)] := rfl
    rw [helements, List.mem_singleton] at helement
    obtain ⟨rfl, rfl⟩ := Prod.mk.inj helement
    have hhealth : first.defaults.value health 0 = .ok (.int 9) := by cbv
    obtain rfl := Except.ok.inj (hhealth.symm.trans hvalue)
    exact health_portable
  script := ⟨none, rfl, rfl⟩

theorem second_savable : second.Savable ((start 0 false).after calls) package where
  loaded := ⟨"Pawn", rfl⟩
  sound := by
    have hlayout : pawnLayout.Built :=
      ((start_settled 0 false).after calls).1.closed.built _ ⟨"Pawn", rfl⟩
    have hsound := (@Block.newDefault_none_sound pawnLayout ⟨pawnLayout, .zeroed 16⟩ hlayout rfl
      (by decide)).2
    obtain ⟨-, hhealthy, -⟩ := Block.setValue_sound hlayout hsound
      (fun _ => (List.mem_cons_self : health ∈ pawnLayout.properties)) 0 (.int 9)
      (by decide)
    exact (@Block.setValue_sound (Block.setValue ⟨pawnLayout, .zeroed 16⟩ health 0 (.int 9)).2
      hlayout hhealthy title (fun _ => List.mem_cons_of_mem health List.mem_cons_self) 0 (.str "a")
      (by decide +kernel)).2.1
  portable property index value helement hvalue := by
    have helements : Block.elementsOf second.layout.properties = [(health, 0), (title, 0)] := rfl
    have hhealth : second.defaults.value health 0 = .ok (.int 9) := by cbv
    have htitle : second.defaults.value title 0 = .ok (.str "a") := by cbv
    rw [helements, List.mem_pair] at helement
    rcases helement with helement | helement <;> obtain ⟨rfl, rfl⟩ := Prod.mk.inj helement
    · obtain rfl := Except.ok.inj (hhealth.symm.trans hvalue)
      exact health_portable
    · obtain rfl := Except.ok.inj (htitle.symm.trans hvalue)
      refine ⟨?_, by decide⟩
      rw [title, PropertyType.Portable]
      decide
  script := ⟨some script, by decide, ⟨⟨2, []⟩, 2⟩, rfl, rfl⟩

theorem kept : pawnLayout.Kept where
  storable :=
    { named := by decide
      distinct := by decide
      single := by simp [pawnLayout, health, title]
      short := by simp [pawnLayout, health, title]
      countable := by decide }
  lasting := by decide

/-- The health of the pawn is that of the actor, so its body has the script and the title. -/
theorem chain_returns_titled :
    ClassSource.saveBodies none ⟨["None"]⟩ [first, second] =
        (.ok [[1, 0x22, 9, 0, 0, 0, 0], [0x04, 0x0b, 2, 0x5d, 3, 2, 97, 0, 0]], package.names) ∧
      ClassSource.ReturnsAll package none [first, second]
        [[1, 0x22, 9, 0, 0, 0, 0], [0x04, 0x0b, 2, 0x5d, 3, 2, 97, 0, 0]] := by
  have hsave : ClassSource.saveBodies none ⟨["None"]⟩ [first, second] =
      (.ok [[1, 0x22, 9, 0, 0, 0, 0], [0x04, 0x0b, 2, 0x5d, 3, 2, 97, 0, 0]], package.names) := by
    decide +kernel
  obtain ⟨bodies, hbodies, hreturns⟩ := ClassSource.chain_returns 0 false calls
    (List.forall_mem_cons.mpr ⟨first_savable, List.forall_mem_singleton.mpr second_savable⟩)
    (List.isChain_pair.mpr (rfl : pawnLayout.base = some actorLayout))
    (fun last hlast => Option.some.inj hlast ▸ kept) (congrArg Prod.snd hsave) (by decide)
    (by
      rw [hsave]
      rintro _ hbodies
      obtain rfl := Except.ok.inj hbodies
      decide)
  obtain rfl := Except.ok.inj (congrArg Prod.fst (hsave.symm.trans hbodies))
  exact ⟨hsave, hreturns⟩

end TitledPawn

end ObjectPackage
