/-
Framing.  Where the entries of a list start is told by their headers.  An entry takes the
payload that it declares, whether the layout of a block knows its name or not; only a bool
that is known takes nothing, whatever it declares.
-/
import ObjectPackage.Proofs.Block.Make
import ObjectPackage.Proofs.Tagged.Listing

namespace ObjectPackage

/-- Whether a layout has a property for a header. -/
def StructLayout.knows (layout : StructLayout) (names : NameTable) (header : Header) : Bool :=
  (layout.resolve? names header).isSome

/-- Number of bytes that an entry takes behind its header. -/
def Header.extent (known : Bool) (header : Header) : Nat :=
  if header.tag = .bool ∧ known = true then 0 else header.size.toNat

/-- The report on entries of which some are known. -/
def LoadReport.ofHeaders (names : NameTable) (knows : Header → Bool) (headers : List Header) :
    LoadReport :=
  ⟨headers.countP knows, (headers.filter fun header => !knows header).map (Header.text names)⟩

/-- A list of headers, each behind the extent of the one before, from a place of a stream to
the end of the terminator. -/
inductive Frames (package : Package) (knows : Header → Bool) : Cursor → List Header → Cursor → Prop
  | terminator {cursor final : Cursor} (hstop : Terminated package cursor final) :
      Frames package knows cursor [] final
  | entry {cursor behind final : Cursor} {header : Header} {headers : List Header}
      (hheader : runFrom cursor (Header.read package.names) = (.ok (some header), behind))
      (hrest : Frames package knows (behind.advance (header.extent (knows header))) headers final) :
      Frames package knows cursor (header :: headers) final

/-- One way of framing a list is as good as another if the extents are the same. -/
theorem Frames.unique {package : Package} {knows knows' : Header → Bool} {cursor final final' : Cursor}
    {headers headers' : List Header} (h : Frames package knows cursor headers final)
    (hsame : ∀ header ∈ headers, header.extent (knows header) = header.extent (knows' header))
    (h' : Frames package knows' cursor headers' final') : headers' = headers ∧ final' = final := by
  induction h generalizing headers' with
  | terminator hstop =>
      cases h' with
      | terminator hstop' => exact ⟨rfl, (Prod.mk.inj (hstop'.symm.trans hstop)).2⟩
      | entry hheader' _ => cases Except.ok.inj (Prod.mk.inj (hstop.symm.trans hheader')).1
  | entry hheader _ ih =>
      cases h' with
      | terminator hstop' => cases Except.ok.inj (Prod.mk.inj (hheader.symm.trans hstop')).1
      | entry hheader' hrest' =>
          obtain ⟨hfound, rfl⟩ := Prod.mk.inj (hheader'.symm.trans hheader)
          obtain rfl := Option.some.inj (Except.ok.inj hfound)
          obtain ⟨hfirst, hothers⟩ := List.forall_mem_cons.mp hsame
          rw [← hfirst] at hrest'
          obtain ⟨rfl, hfinal⟩ := ih hothers hrest'
          exact ⟨rfl, hfinal⟩

namespace Load

variable {package : Package} {layout : StructLayout} {property : Property} {header : Header}
  {state after : Filling}

theorem Local.advances {α : Type} {action : Load α} (h : Local action) {value : α}
    (hrun : runFrom state action = (.ok value, after)) :
    after.cursor = state.cursor.advance (after.cursor.pos - state.cursor.pos) :=
  (h state.store).eq_advance (runFrom_upon_eq_ok.mpr hrun)

/-- A bool is not in the payload. -/
theorem loadEntry_bool {name : String} {location : Location} {mask : UInt32} {type : PropertyType}
    (htag : header.tag = .bool)
    (hrun : runFrom state (type.loadEntry package name header location mask) = (.ok (), after)) :
    after.cursor = state.cursor := by
  cases haccepts : type.accepts .bool with
  | false =>
      rw [PropertyType.loadEntry_eq, PropertyType.checkEntry, htag, haccepts] at hrun
      cases hrun
  | true =>
      obtain rfl := PropertyType.eq_bool_of_accepts haccepts
      obtain ⟨last, hlast, -, hcursor⟩ :=
        lifts_update (Update.setBool location mask header.boolValue) state
      rw [PropertyType.loadEntry_eq, PropertyType.checkEntry_ok htag fun _ h => by cases h] at hrun
      rw [(Prod.mk.inj (hrun.symm.trans hlast)).2]
      exact hcursor

/-- An entry that was loaded took what its header says. -/
theorem entry_extent (hrun : runFrom state (entry package property header) = (.ok (), after)) :
    after.cursor = state.cursor.advance (header.extent true) := by
  by_cases hindex : header.arrayIndex.toNat < property.dimension
  · have hmoved := (entry_local package property header).advances hrun
    rw [runFrom_entry hindex] at hrun
    cases hstored : runFrom state (property.type.loadEntry package property.name header
        (Block.elementAt property header.arrayIndex.toNat) property.mask) with
    | mk result last =>
        rw [hstored] at hrun
        cases result with
        | error error => cases (Prod.mk.inj hrun).1
        | ok _ =>
            obtain ⟨hcheck, rfl⟩ := Prod.mk.inj hrun
            by_cases htag : header.tag = .bool
            · rw [loadEntry_bool htag hstored, Header.extent, if_pos ⟨htag, rfl⟩]
              rfl
            · rw [Header.extent, if_neg fun h => htag h.1]
              have hsize : last.cursor.pos - state.cursor.pos = header.size.toNat := by
                by_contra hne
                change checkSize property header _ = _ at hcheck
                rw [checkSize, if_pos ⟨htag, hne⟩] at hcheck
                cases hcheck
              rw [← hsize]
              exact hmoved
  · rw [runFrom_entry_outside (Nat.le_of_not_lt hindex)] at hrun
    cases hrun

theorem item_extent {skipped : Option String}
    (hrun : runFrom state (item package layout header) = (.ok skipped, after)) :
    after.cursor = state.cursor.advance (header.extent (layout.knows package.names header)) ∧
      skipped = if layout.knows package.names header then none
        else some (header.text package.names) := by
  rw [item] at hrun
  rw [StructLayout.knows]
  cases hfind : layout.resolve? package.names header with
  | some property =>
      rw [hfind] at hrun
      obtain ⟨_, hentry, rfl⟩ := runFrom_map_eq_ok.mp hrun
      exact ⟨entry_extent hentry, rfl⟩
  | none =>
      rw [hfind] at hrun
      obtain ⟨_, hskip, rfl⟩ := runFrom_map_eq_ok.mp hrun
      refine ⟨?_, rfl⟩
      rw [runFrom_skip, Decoder.runFrom_inProperty, Decoder.runFrom_read] at hskip
      rw [Header.extent, Option.isSome_none, if_neg fun h => Bool.false_ne_true h.2]
      cases hread : runFrom state.cursor (Read.skip header.size.toNat) with
      | mk result next =>
          rw [hread] at hskip
          cases result with
          | error error => cases hskip
          | ok _ =>
              obtain ⟨-, rfl⟩ := Prod.mk.inj hskip
              exact Read.skip_advances hread

/-- A run of the loop follows the frames of the stream. -/
theorem entries_frames (budget : Nat) {report result : LoadReport}
    (hbudget : state.cursor.rest.length < budget)
    (hrun : runFrom state (entries package layout budget report) = (.ok result, after)) :
    ∃ headers, Frames package (layout.knows package.names) state.cursor headers after.cursor ∧
      result = ⟨report.loaded +
          (LoadReport.ofHeaders package.names (layout.knows package.names) headers).loaded,
        report.skipped ++
          (LoadReport.ofHeaders package.names (layout.knows package.names) headers).skipped⟩ := by
  induction budget generalizing report state with
  | zero => omega
  | succ budget ih =>
      cases hheader : runFrom state.cursor (Header.read package.names) with
      | mk found behind =>
          cases found with
          | error error =>
              rw [entries_succ, runFrom_bind, runFrom_read, hheader] at hrun
              cases hrun
          | ok found =>
              cases found with
              | none =>
                  obtain ⟨hresult, rfl⟩ :=
                    Prod.mk.inj (hrun.symm.trans (runFrom_entries_none hheader _ _ _))
                  obtain rfl := Except.ok.inj hresult
                  exact ⟨[], .terminator hheader, by simp [LoadReport.ofHeaders]⟩
              | some header =>
                  rw [runFrom_entries_some hheader] at hrun
                  obtain ⟨skipped, middle, hitem, hnext⟩ := runFrom_bind_eq_ok.mp hrun
                  obtain ⟨hcursor, rfl⟩ := item_extent hitem
                  have hshort := Header.uses_read package.names _ _ _ hheader
                  have hlength : middle.cursor.rest.length ≤ behind.rest.length := by
                    rw [hcursor, Cursor.advance, List.length_drop]
                    exact Nat.sub_le _ _
                  obtain ⟨headers, hframes, rfl⟩ := ih (by omega) hnext
                  rw [hcursor] at hframes
                  refine ⟨header :: headers, .entry hheader hframes, ?_⟩
                  cases hknows : layout.knows package.names header with
                  | true => simp [LoadReport.ofHeaders, LoadReport.add, hknows]; omega
                  | false => simp [LoadReport.ofHeaders, LoadReport.add, hknows]

end Load

/-- The bytes decide the framing of a list, and not the block that it is loaded into.  Two
blocks that both load it agree on its headers and on its end, unless there is a bool that is
declared to have a payload and that only one of them knows: to the other one it has the
payload. -/
theorem Block.loadProperties_framing {block other : Block} {package : Package} {cursor : Cursor}
    {report report' : LoadReport} (hok : (block.loadProperties package cursor).1 = .ok report)
    (hok' : (other.loadProperties package cursor).1 = .ok report') :
    ∃ headers headers',
      Frames package (block.layout.knows package.names) cursor headers
        (block.loadProperties package cursor).2.2 ∧
      Frames package (other.layout.knows package.names) cursor headers'
        (other.loadProperties package cursor).2.2 ∧
      report = .ofHeaders package.names (block.layout.knows package.names) headers ∧
      report' = .ofHeaders package.names (other.layout.knows package.names) headers' ∧
      ((∀ header ∈ headers, header.tag = .bool → header.size ≠ 0 →
          block.layout.knows package.names header = other.layout.knows package.names header) →
        headers' = headers ∧
          (other.loadProperties package cursor).2.2 =
            (block.loadProperties package cursor).2.2) := by
  have hframes {block : Block} {report : LoadReport}
      (hok : (block.loadProperties package cursor).1 = .ok report) : ∃ headers,
      Frames package (block.layout.knows package.names) cursor headers
        (block.loadProperties package cursor).2.2 ∧
      report = .ofHeaders package.names (block.layout.knows package.names) headers := by
    cases hrun : runFrom ⟨block.store, cursor⟩
        (Load.entries package block.layout (cursor.rest.length + 1) ⟨0, []⟩) with
    | mk outcome after =>
        rw [loadProperties_eq hrun] at hok ⊢
        obtain rfl : outcome = .ok report := hok
        obtain ⟨headers, hheaders, rfl⟩ := Load.entries_frames _ (Nat.lt_succ_self _) hrun
        exact ⟨headers, hheaders, by simp⟩
  obtain ⟨headers, hheaders, hreport⟩ := hframes hok
  obtain ⟨headers', hheaders', hreport'⟩ := hframes hok'
  refine ⟨headers, headers', hheaders, hheaders', hreport, hreport', fun hbool => ?_⟩
  refine hheaders.unique (fun header hheader => ?_) hheaders'
  by_cases htag : header.tag = .bool
  · by_cases hsize : header.size = 0
    · simp [Header.extent, hsize]
    · rw [hbool header hheader htag hsize]
  · simp [Header.extent, htag]

namespace LitLamp

/-- A lamp is lit or not. -/
def lamp : StructLayout := ⟨"Lamp", none, [⟨0, "Lamp", "bLit", .bool, 1, .empty, 0, 1⟩], 0, [], 8, 4⟩

def stone : StructLayout := ⟨"Stone", none, [], 0, [], 0, 1⟩

/-- Both are laid out from declarations. -/
theorem catalogue : Catalogue [stone, lamp] :=
  @Catalogue.build [lamp] 0 "Stone" none [] stone
    (@Catalogue.build [] 0 "Lamp" none [.property "bLit" .bool 1 .empty] lamp .empty nofun
      (by simp [LayoutField.structs, PropertyType.structs]) nofun rfl)
    nofun nofun (by simp [lamp]) rfl

def package : Package := ⟨69, ⟨["None", "bLit"]⟩, default⟩

def dark : Block := ⟨lamp, .zeroed 8⟩

def pebble : Block := ⟨stone, .zeroed 0⟩

theorem dark_made : Block.Made [stone, lamp] dark :=
  .defaults (List.mem_cons_of_mem _ (List.mem_singleton.mpr rfl)) rfl (by decide)

theorem pebble_made : Block.Made [stone, lamp] pebble :=
  .defaults List.mem_cons_self rfl (by decide)

/-- A bool without a payload is one entry to the lamp and to the stone. -/
theorem framing_agrees : ∃ headers,
    Frames package (lamp.knows package.names) ⟨0, [1, 0x53, 0, 0]⟩ headers ⟨4, []⟩ ∧
      Frames package (stone.knows package.names) ⟨0, [1, 0x53, 0, 0]⟩ headers ⟨4, []⟩ := by
  obtain ⟨headers, headers', hdark, hpebble, -, -, hagree⟩ :=
    @Block.loadProperties_framing dark pebble package ⟨0, [1, 0x53, 0, 0]⟩ ⟨1, []⟩ ⟨0, ["bLit"]⟩
      (by decide) (by decide +kernel)
  have hend : (dark.loadProperties package ⟨0, [1, 0x53, 0, 0]⟩).2.2 = ⟨4, []⟩ := by decide
  have hlist : Frames package (lamp.knows package.names) ⟨0, [1, 0x53, 0, 0]⟩
      [⟨⟨1⟩, .bool, 0, 0, none, false⟩] ⟨4, []⟩ := by
    refine .entry (show _ = (_, (⟨3, [0]⟩ : Cursor)) by decide) (.terminator ?_)
    rw [Terminated]
    decide
  obtain ⟨rfl, -⟩ := hlist.unique (fun _ _ => rfl) hdark
  obtain ⟨rfl, hsame⟩ := hagree (by simp)
  rw [hsame] at hpebble
  rw [hend] at hdark hpebble
  exact ⟨_, hdark, hpebble⟩

/-- A bool that is declared to have a payload has none in the lamp, and the stone skips one
byte, which ends the list of the lamp. -/
theorem framing_of_bool_payload : Block.Made [stone, lamp] dark ∧ Block.Made [stone, lamp] pebble ∧
    (dark.loadProperties package ⟨0, [1, 3, 0, 0]⟩).1 = .ok ⟨1, []⟩ ∧
    (pebble.loadProperties package ⟨0, [1, 3, 0, 0]⟩).1 = .ok ⟨0, ["bLit"]⟩ ∧
    (dark.loadProperties package ⟨0, [1, 3, 0, 0]⟩).2.2.pos = 3 ∧
    (pebble.loadProperties package ⟨0, [1, 3, 0, 0]⟩).2.2.pos = 4 :=
  ⟨dark_made, pebble_made, by decide, by decide +kernel, by decide +kernel,
    by decide⟩

end LitLamp

end ObjectPackage
