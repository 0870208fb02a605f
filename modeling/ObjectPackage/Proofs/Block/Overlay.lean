/-
Lists laid over blocks.  A block takes the value of the last entry for each element and
keeps the others, wherever the list stops; what a list does to an element is decided by
its entries alone.
-/
import ObjectPackage.Proofs.Block.Ownership
import ObjectPackage.Proofs.Tagged.Listing

namespace ObjectPackage

/-- The value of an element in a store. -/
abbrev Store.valueOf (store : Store) (layout : StructLayout) (element : Property × Nat) :
    Except PropertyError Value :=
  Block.value ⟨layout, store⟩ element.1 element.2

namespace Load

variable {package : Package} {layout : StructLayout}

/-- An entry for a property renews the element that its index names, and no other. -/
theorem entry_step (hlayout : layout.Built) {property : Property}
    (hproperty : property ∈ layout.properties) {header : Header} {state after : Filling}
    {outcome : Except PropertyError Unit}
    (hrun : runFrom state (entry package property header) = (outcome, after))
    (hfits : after.store.Fits) (hsound : state.store.Sound layout) :
    after.store.Sound layout ∧
      outcome = (runFrom state.cursor (Decoder.entry package property header)).1.map (fun _ => ()) ∧
      after.cursor = (runFrom state.cursor (Decoder.entry package property header)).2 ∧
      (∀ value, (runFrom state.cursor (Decoder.entry package property header)).1 = .ok value →
        after.store.valueOf layout (property, header.arrayIndex.toNat) = .ok value) ∧
      ∀ element ∈ Block.elementsOf layout.properties,
        element ≠ (property, header.arrayIndex.toNat) →
        after.store.valueOf layout element = state.store.valueOf layout element := by
  by_cases hindex : header.arrayIndex.toNat < property.dimension
  · have hrenews := @entry_decodes package property header hindex
      (property_resolved hlayout hproperty) (element_masked hlayout hproperty hindex)
    obtain ⟨hsound', value, _, ⟨houtcome, hcursor, hvalue⟩, hnew, hothers⟩ :=
      hsound.renew hlayout (Block.mem_elementsOf.mpr ⟨hproperty, hindex⟩) hrenews hrun hfits
    refine ⟨hsound', houtcome, hcursor, fun decoded hdecoded => ?_, hothers⟩
    rw [← hvalue decoded hdecoded]
    exact hnew
  · have houtside := Nat.le_of_not_lt hindex
    rw [runFrom_entry_outside houtside] at hrun
    obtain ⟨rfl, rfl⟩ := Prod.mk.inj hrun
    have hdecoder : runFrom state.cursor (Decoder.entry package property header) =
        (.error (.indexOutOfRange property.name header.arrayIndex.toNat property.dimension),
          state.cursor) := by
      rw [Decoder.entry, if_pos houtside]
      rfl
    rw [hdecoder]
    exact ⟨hsound, rfl, rfl, by rintro _ ⟨⟩, fun _ _ _ => rfl⟩

/-- What an entry does to a store is what its decoder says. -/
structure Settles (package : Package) (layout : StructLayout) (header : Header) (state : Filling)
    (outcome : Except PropertyError (Option String)) (after : Filling) : Prop where
  sound : after.store.Sound layout
  outcome : outcome =
    (runFrom state.cursor (Decoder.item package layout header)).1.map Entry.skipped?
  cursor : after.cursor = (runFrom state.cursor (Decoder.item package layout header)).2
  settles : ∀ entry, (runFrom state.cursor (Decoder.item package layout header)).1 = .ok entry →
    ∀ element ∈ Block.elementsOf layout.properties, after.store.valueOf layout element =
      Entry.settle [entry] element (state.store.valueOf layout element)
  kept : ∀ element ∈ Block.elementsOf layout.properties,
    some element ≠ layout.target? package.names header →
    after.store.valueOf layout element = state.store.valueOf layout element

variable {header : Header} {state after : Filling}

theorem item_skipped {outcome : Except PropertyError (Option String)}
    (hfind : layout.resolve? package.names header = none)
    (hrun : runFrom state (Load.item package layout header) = (outcome, after))
    (hsound : state.store.Sound layout) : Settles package layout header state outcome after := by
  rw [Load.item, hfind, runFrom_map, runFrom_skip] at hrun
  have hitem : Decoder.item package layout header = (do
      Decoder.inProperty (header.text package.names) (Decoder.read (Read.skip header.size.toNat))
      return .skipped (header.text package.names)) := by
    rw [Decoder.item, hfind]
  cases hskip : runFrom state.cursor (Decoder.inProperty (header.text package.names)
      (Decoder.read (Read.skip header.size.toNat))) with
  | mk result next =>
      rw [hskip] at hrun
      cases result with
      | error error =>
          obtain ⟨rfl, rfl⟩ := Prod.mk.inj hrun
          have hdecode := runFrom_bind_error hskip fun _ =>
            (pure (.skipped (header.text package.names)) : Decoder Entry)
          rw [← hitem] at hdecode
          exact ⟨hsound, by rw [hdecode]; rfl, by rw [hdecode], by rw [hdecode]; rintro _ ⟨⟩,
            fun _ _ _ => rfl⟩
      | ok _ =>
          obtain ⟨rfl, rfl⟩ := Prod.mk.inj hrun
          have hdecode := runFrom_bind_ok hskip fun _ =>
            (pure (.skipped (header.text package.names)) : Decoder Entry)
          rw [← hitem, runFrom_pure] at hdecode
          refine ⟨hsound, by rw [hdecode]; rfl, by rw [hdecode], ?_, fun _ _ _ => rfl⟩
          rw [hdecode]
          intro entry hentry element _
          obtain rfl := Except.ok.inj hentry
          exact (Entry.settle_skipped _).symm

theorem item_loaded (hlayout : layout.Built) {outcome : Except PropertyError (Option String)}
    {property : Property} (hfind : layout.resolve? package.names header = some property)
    (hrun : runFrom state (Load.item package layout header) = (outcome, after))
    (hfits : after.store.Fits) (hsound : state.store.Sound layout) :
    Settles package layout header state outcome after := by
  rw [Load.item, hfind, runFrom_map] at hrun
  have hitem : Decoder.item package layout header =
      Entry.loaded property header.arrayIndex.toNat <$>
        Decoder.entry package property header := by
    rw [Decoder.item, hfind]
  cases hstep : runFrom state (entry package property header) with
  | mk result middle =>
      obtain rfl : middle = after := by
        rw [hstep] at hrun
        cases result <;> exact (Prod.mk.inj hrun).2
      obtain ⟨hsound', hresult, hcursor, hvalue, hothers⟩ :=
        entry_step hlayout (mem_of_findTagged? hfind) hstep hfits hsound
      have hkept : ∀ element ∈ Block.elementsOf layout.properties,
          some element ≠ layout.target? package.names header →
          middle.store.valueOf layout element = state.store.valueOf layout element := by
        intro element helement hother
        apply hothers element helement
        rintro rfl
        exact hother (by rw [StructLayout.target?, hfind, Option.map_some])
      rw [hstep] at hrun
      cases hdecode : runFrom state.cursor (Decoder.entry package property header) with
      | mk decoded next =>
          rw [hdecode] at hresult hcursor hvalue
          have hmap := runFrom_map state.cursor
            (Entry.loaded property header.arrayIndex.toNat) (Decoder.entry package property header)
          rw [← hitem, hdecode] at hmap
          cases decoded with
          | error error =>
              obtain rfl : result = .error error := hresult
              obtain ⟨rfl, -⟩ := Prod.mk.inj hrun
              exact ⟨hsound', by rw [hmap]; rfl, by rw [hmap]; exact hcursor,
                by rw [hmap]; rintro _ ⟨⟩, hkept⟩
          | ok value =>
              obtain rfl : result = .ok () := hresult
              obtain ⟨rfl, -⟩ := Prod.mk.inj hrun
              refine ⟨hsound', by rw [hmap]; rfl, by rw [hmap]; exact hcursor, ?_, hkept⟩
              rw [hmap]
              intro entry hentry element helement
              obtain rfl := Except.ok.inj hentry
              by_cases heq : element = (property, header.arrayIndex.toNat)
              · rw [heq, Entry.settle_loaded]
                exact hvalue value rfl
              · rw [hothers element helement heq, Entry.settle_other heq]

theorem item_settles (hlayout : layout.Built) {outcome : Except PropertyError (Option String)}
    (hrun : runFrom state (Load.item package layout header) = (outcome, after))
    (hfits : after.store.Fits) (hsound : state.store.Sound layout) :
    Settles package layout header state outcome after := by
  cases hfind : layout.resolve? package.names header with
  | none => exact item_skipped hfind hrun hsound
  | some property => exact item_loaded hlayout hfind hrun hfits hsound

/-- How a list that was laid over a store has ended. -/
inductive Ended (package : Package) (layout : StructLayout) (report : LoadReport)
    (before : Store) (entries : List Entry) (stop : Cursor) :
    Except PropertyError LoadReport → Filling → Prop
  | terminated {after : Filling} (hstop : Terminated package stop after.cursor)
      (hvalues : ∀ element ∈ Block.elementsOf layout.properties,
        after.store.valueOf layout element =
          Entry.settle entries element (before.valueOf layout element)) :
      Ended package layout report before entries stop (.ok (report.addAll entries)) after
  | refused {after : Filling} {error : PropertyError} {target : Option (Property × Nat)}
      (hstop : Refused package layout stop error target after.cursor)
      (hvalues : ∀ element ∈ Block.elementsOf layout.properties, some element ≠ target →
        after.store.valueOf layout element =
          Entry.settle entries element (before.valueOf layout element)) :
      Ended package layout report before entries stop (.error error) after

/-- A first entry is reported, and what it settles stands until a later one. -/
theorem Ended.cons {report : LoadReport} {before middle : Store} {entry : Entry}
    {entries : List Entry} {stop : Cursor} {outcome : Except PropertyError LoadReport}
    {after : Filling}
    (hsettle : ∀ element ∈ Block.elementsOf layout.properties, middle.valueOf layout element =
      Entry.settle [entry] element (before.valueOf layout element))
    (h : Ended package layout (report.add entry.skipped?) middle entries stop outcome after) :
    Ended package layout report before (entry :: entries) stop outcome after := by
  cases h with
  | terminated hstop hvalues =>
      rw [← LoadReport.addAll_cons]
      refine .terminated hstop fun element helement => ?_
      rw [Entry.settle_cons, ← hsettle element helement]
      exact hvalues element helement
  | refused hstop hvalues =>
      refine .refused hstop fun element helement htarget => ?_
      rw [Entry.settle_cons, ← hsettle element helement]
      exact hvalues element helement htarget

/-- A run of the loop follows the entries of the stream. -/
theorem entries_run (hlayout : layout.Built) (budget : Nat) {report : LoadReport}
    {state after : Filling} {outcome : Except PropertyError LoadReport}
    (hbudget : state.cursor.rest.length < budget)
    (hrun : runFrom state (Load.entries package layout budget report) = (outcome, after))
    (hfits : after.store.Fits) (hsound : state.store.Sound layout) :
    ∃ entries stop, Entries package layout state.cursor entries stop ∧
      Ended package layout report state.store entries stop outcome after := by
  induction budget generalizing report state with
  | zero => omega
  | succ budget ih =>
      rw [entries_succ, runFrom_bind, runFrom_read] at hrun
      cases hheader : runFrom state.cursor (Header.read package.names) with
      | mk result behind =>
          rw [hheader] at hrun
          cases result with
          | error error =>
              obtain ⟨rfl, rfl⟩ := Prod.mk.inj hrun
              exact ⟨[], _, .nil, .refused (.header hheader) fun _ _ _ => rfl⟩
          | ok found =>
              cases found with
              | none =>
                  obtain ⟨rfl, rfl⟩ := Prod.mk.inj hrun
                  have hended := @Ended.terminated package layout report state.store []
                    state.cursor ⟨state.store, behind⟩ hheader fun _ _ => rfl
                  rw [LoadReport.addAll_nil] at hended
                  exact ⟨[], _, .nil, hended⟩
              | some header =>
                  rcases runFrom_bind_cases hrun with ⟨error, rfl, hstep⟩ |
                    ⟨skipped, middle, hstep, hnext⟩
                  · have hitem := item_settles hlayout hstep hfits hsound
                    refine ⟨[], _, .nil, .refused (.entry hheader ?_) hitem.kept⟩
                    exact Prod.ext (map_eq_error.mp hitem.outcome.symm) hitem.cursor.symm
                  · have hgrows := (@entries_safe layout package hlayout budget
                      (report.add skipped)).grows middle
                    rw [hnext] at hgrows
                    have hitem :=
                      item_settles hlayout hstep (Nat.lt_of_le_of_lt hgrows hfits) hsound
                    obtain ⟨entry, hentry, rfl⟩ := map_eq_ok.mp hitem.outcome.symm
                    have hdecode : runFrom behind (Decoder.item package layout header) =
                        (.ok entry, middle.cursor) := Prod.ext hentry hitem.cursor.symm
                    have hshort := Header.uses_read package.names _ _ _ hheader
                    have hlength :=
                      (Decoder.relocates_item package layout header).length_le hdecode
                    obtain ⟨entries, stop, hentries, hended⟩ := ih (by omega) hnext hitem.sound
                    exact ⟨_, stop, .cons hheader hdecode hentries,
                      hended.cons (hitem.settles entry hentry)⟩

/-- A run over some entries comes to a store from which any more entries are loaded, wherever
the bytes stand. -/
theorem entries_resume (hlayout : layout.Built) {cursor middle : Cursor} {front : List Entry}
    (h : Entries package layout cursor front middle) {store : Store} {budget : Nat}
    {report result : LoadReport} {after : Filling} (hbudget : cursor.rest.length < budget)
    (hrun : runFrom ⟨store, cursor⟩ (Load.entries package layout budget report) =
      (.ok result, after)) (hfits : after.store.Fits) (hsound : store.Sound layout) :
    ∃ between used, between.Sound layout ∧ cursor.rest = used ++ middle.rest ∧
      middle.pos = cursor.pos + used.length ∧
      ∀ pos rest budget report, middle.rest.length ≤ rest.length →
        (used ++ rest).length < budget → ∃ left, rest.length < left ∧
          runFrom ⟨store, ⟨pos, used ++ rest⟩⟩ (Load.entries package layout budget report) =
            runFrom ⟨between, ⟨pos + used.length, rest⟩⟩
              (Load.entries package layout left (report.addAll front)) := by
  induction h generalizing store budget report with
  | nil =>
      refine ⟨store, [], hsound, rfl, rfl, fun pos rest budget report _ hlength => ?_⟩
      exact ⟨budget, hlength, by rw [LoadReport.addAll_nil]; rfl⟩
  | @cons cursor behind next last header entry entries hheader hentry _ ih =>
      obtain ⟨budget, rfl⟩ := Nat.exists_eq_succ_of_ne_zero (Nat.ne_zero_of_lt hbudget)
      rw [runFrom_entries_some hheader] at hrun
      obtain ⟨skipped, ⟨store', cursor'⟩, hstep, hnext⟩ := runFrom_bind_eq_ok.mp hrun
      have hgrows := (@entries_safe layout package hlayout budget
        (report.add skipped)).grows ⟨store', cursor'⟩
      rw [hnext] at hgrows
      have hitem := item_settles hlayout hstep (Nat.lt_of_le_of_lt hgrows hfits) hsound
      have hcursor := hitem.cursor
      have houtcome := hitem.outcome
      rw [hentry] at hcursor houtcome
      obtain rfl : cursor' = next := hcursor
      obtain rfl := Except.ok.inj houtcome
      obtain ⟨first, hfirst, hpos, hread⟩ := Header.relocates_read package.names hheader
      obtain ⟨second, hsecond, hpos', hload⟩ :=
        item_local package layout header store (runFrom_upon_eq_ok.mpr hstep)
      have hshort := Header.uses_read package.names _ _ _ hheader
      obtain ⟨between, third, hbetween, hthird, hpos'', hothers⟩ :=
        ih (by rw [hsecond, List.length_append] at hshort; omega) hnext hitem.sound
      refine ⟨between, first ++ (second ++ third), hbetween, ?_, ?_, ?_⟩
      · rw [hfirst, hsecond, hthird, List.append_assoc, List.append_assoc]
      · simp only [hpos'', hpos', hpos, List.length_append, Nat.add_assoc]
      · intro pos rest budget' report' hlength hbudget'
        obtain ⟨budget', rfl⟩ := Nat.exists_eq_succ_of_ne_zero (Nat.ne_zero_of_lt hbudget')
        have hread' := hread pos (second ++ (third ++ rest)) (by
          simp only [hsecond, hthird, List.length_append]
          omega)
        have hload' := runFrom_upon_eq_ok.mp (hload (pos + first.length) (third ++ rest) (by
          simp only [hthird, List.length_append]
          omega))
        have hshort' := Header.uses_read package.names _ _ _ hread'
        obtain ⟨left, hleft, hsame⟩ := hothers (pos + first.length + second.length) rest budget'
          (report'.add entry.skipped?) hlength (by
            simp only [List.length_append] at hbudget' hshort' ⊢
            omega)
        refine ⟨left, hleft, ?_⟩
        rw [LoadReport.addAll_cons, List.append_assoc, List.append_assoc,
          runFrom_entries_some hread', runFrom_bind_ok hload', hsame]
        simp only [List.length_append, Nat.add_assoc]

/-- A list that was loaded is loaded again wherever its bytes stand. -/
theorem entries_again (hlayout : layout.Built) {cursor : Cursor} {store : Store} {budget : Nat}
    {report result : LoadReport} {after : Filling} (hbudget : cursor.rest.length < budget)
    (hrun : runFrom ⟨store, cursor⟩ (Load.entries package layout budget report) =
      (.ok result, after)) (hfits : after.store.Fits) (hsound : store.Sound layout) :
    ∃ entries used, result = report.addAll entries ∧ cursor.rest = used ++ after.cursor.rest ∧
      after.cursor.pos = cursor.pos + used.length ∧
      ∀ pos rest budget report, after.cursor.rest.length ≤ rest.length →
        (used ++ rest).length < budget →
          runFrom ⟨store, ⟨pos, used ++ rest⟩⟩ (Load.entries package layout budget report) =
            (.ok (report.addAll entries), ⟨after.store, ⟨pos + used.length, rest⟩⟩) := by
  obtain ⟨entries, stop, hentries, hended⟩ := entries_run hlayout budget hbudget hrun hfits hsound
  cases hended with
  | terminated hstop _ =>
      obtain ⟨last, hlast, hpos, hread⟩ := Header.relocates_read package.names hstop
      obtain ⟨between, used, -, hused, hpos', hsame⟩ :=
        entries_resume hlayout hentries hbudget hrun hfits hsound
      have hfinal {pos : Nat} {rest : List UInt8} {budget : Nat} (report : LoadReport)
          (hlength : after.cursor.rest.length ≤ rest.length)
          (hbudget : (used ++ (last ++ rest)).length < budget) :
          runFrom ⟨store, ⟨pos, used ++ (last ++ rest)⟩⟩
              (Load.entries package layout budget report) =
            (.ok (report.addAll entries),
              ⟨between, ⟨pos + used.length + last.length, rest⟩⟩) := by
        obtain ⟨left, hleft, heq⟩ := hsame pos (last ++ rest) budget report (by
          simp only [hlast, List.length_append]
          omega) hbudget
        obtain ⟨left, rfl⟩ := Nat.exists_eq_succ_of_ne_zero (Nat.ne_zero_of_lt hleft)
        rw [heq, runFrom_entries_none (hread _ rest hlength)]
      have hcursor : cursor = ⟨cursor.pos, used ++ (last ++ after.cursor.rest)⟩ := by
        rw [← hlast, ← hused]
      have hown := @hfinal cursor.pos _ budget report (Nat.le_refl _) (by rwa [← hlast, ← hused])
      rw [← hcursor, hrun] at hown
      have hbetween : after.store = between := congrArg Filling.store (Prod.mk.inj hown).2
      refine ⟨entries, used ++ last, rfl, ?_, ?_, ?_⟩
      · rw [hused, hlast, List.append_assoc]
      · rw [hpos, hpos', List.length_append, Nat.add_assoc]
      · intro pos rest budget report hlength hbudget
        rw [List.append_assoc] at hbudget ⊢
        rw [hfinal report hlength hbudget, hbetween, List.length_append, Nat.add_assoc]

/-- A name that the layout does not know may stand anywhere in a list. -/
theorem runFrom_entries_unknown {header : Header} {head payload : List UInt8}
    (hhead : (Header.read package.names).Takes head (some header))
    (hunknown : layout.resolve? package.names header = none)
    (hpayload : payload.length = header.size.toNat) (store : Store) (pos : Nat) (rest : List UInt8)
    (budget : Nat) (report : LoadReport) :
    runFrom ⟨store, ⟨pos, head ++ (payload ++ rest)⟩⟩
        (Load.entries package layout (budget + 1) report) =
      runFrom ⟨store, ⟨pos + head.length + payload.length, rest⟩⟩
        (Load.entries package layout budget
          (report.add (some (header.text package.names)))) := by
  have hskip : (Decoder.inProperty (header.text package.names)
      (Decoder.read (Read.skip header.size.toNat))).Takes payload () := by
    intro pos rest
    rw [Decoder.runFrom_inProperty, ← hpayload,
      Decoder.Takes.read (Read.takes_skip payload) pos rest]
    rfl
  rw [runFrom_entries_some (hhead pos (payload ++ rest)), Load.item, hunknown, bind_map_left,
    runFrom_bind, runFrom_skip, hskip]

end Load

namespace Block

variable {package : Package} {block : Block}

/-- An entry of an unknown name is reported, and nothing else comes of it. -/
theorem loadProperties_insert (hlayout : block.layout.Built)
    (hsound : block.store.Sound block.layout) {cursor middle : Cursor}
    {report : LoadReport} (hfits : (block.loadProperties package cursor).2.1.store.Fits)
    (hok : (block.loadProperties package cursor).1 = .ok report) {front : List Entry}
    {used head payload : List UInt8} {header : Header}
    (hfront : Entries package block.layout cursor front middle)
    (hused : cursor.rest = used ++ middle.rest)
    (hhead : (Header.read package.names).Takes head (some header))
    (hunknown : block.layout.resolve? package.names header = none)
    (hpayload : payload.length = header.size.toNat) :
    ∃ back, report.skipped = Entry.skippedNames front ++ back ∧
      block.loadProperties package ⟨cursor.pos, used ++ (head ++ (payload ++ middle.rest))⟩ =
        (.ok ⟨report.loaded, Entry.skippedNames front ++ header.text package.names :: back⟩,
          (block.loadProperties package cursor).2.1,
          ⟨(block.loadProperties package cursor).2.2.pos + (head.length + payload.length),
            (block.loadProperties package cursor).2.2.rest⟩) := by
  cases hrun : runFrom ⟨block.store, cursor⟩
      (Load.entries package block.layout (cursor.rest.length + 1) ⟨0, []⟩) with
  | mk outcome after =>
      have hload := loadProperties_eq hrun
      rw [hload] at hfits hok ⊢
      obtain rfl : outcome = .ok report := hok
      obtain ⟨between, used', hbetween, hused', hpos, hsame⟩ :=
        Load.entries_resume hlayout hfront (Nat.lt_succ_self _) hrun hfits hsound
      obtain rfl : used' = used := List.append_cancel_right (hused'.symm.trans hused)
      -- the list goes on behind its front, and so it does behind the new entry
      obtain ⟨left, hleft, hrest⟩ := hsame cursor.pos middle.rest (cursor.rest.length + 1) ⟨0, []⟩
        (Nat.le_refl _) (by rw [← hused]; exact Nat.lt_succ_self _)
      rw [← hused, ← hpos, hrun] at hrest
      obtain ⟨entries, more, hreport, hmore, hpos', hagain⟩ :=
        Load.entries_again hlayout hleft hrest.symm hfits hbetween
      obtain ⟨left', hleft', hlonger⟩ := hsame cursor.pos (head ++ (payload ++ middle.rest))
        ((used' ++ (head ++ (payload ++ middle.rest))).length + 1) ⟨0, []⟩ (by
          simp only [List.length_append]
          omega) (Nat.lt_succ_self _)
      obtain ⟨left', rfl⟩ := Nat.exists_eq_succ_of_ne_zero (Nat.ne_zero_of_lt hleft')
      have hlast := hagain (cursor.pos + used'.length + head.length + payload.length)
        after.cursor.rest left' (LoadReport.add (LoadReport.addAll ⟨0, []⟩ front)
          (some (header.text package.names))) (Nat.le_refl _) (by
            have hshort := Header.uses_read package.names _ _ _
              (hhead 0 (payload ++ middle.rest))
            simp only [List.length_append, hmore] at hleft' hshort ⊢
            omega)
      rw [← hmore] at hlast
      rw [Load.runFrom_entries_unknown hhead hunknown hpayload, hlast] at hlonger
      refine ⟨Entry.skippedNames entries, ?_, ?_⟩
      · rw [hreport]
        simp [LoadReport.addAll]
      · rw [loadProperties_eq hlonger, hreport, hpos', hpos]
        simp [LoadReport.addAll, LoadReport.add]
        omega

/-- A load follows the entries of the stream up to where it ends. -/
theorem loadProperties_ended (hlayout : block.layout.Built)
    (hsound : block.store.Sound block.layout) {cursor final : Cursor} {loaded : Block}
    {outcome : Except PropertyError LoadReport}
    (hload : block.loadProperties package cursor = (outcome, loaded, final))
    (hfits : loaded.store.Fits) :
    ∃ entries stop, Entries package block.layout cursor entries stop ∧
      Load.Ended package block.layout ⟨0, []⟩ block.store entries stop outcome
        ⟨loaded.store, final⟩ := by
  cases hrun : runFrom ⟨block.store, cursor⟩
      (Load.entries package block.layout (cursor.rest.length + 1) ⟨0, []⟩) with
  | mk result after =>
      obtain ⟨rfl, hrest⟩ := Prod.mk.inj ((loadProperties_eq hrun).symm.trans hload)
      obtain ⟨rfl, rfl⟩ := Prod.mk.inj hrest
      exact Load.entries_run hlayout _ (Nat.lt_succ_self _) hrun hfits hsound

/-- A list that is known to stand in a stream is loaded to its end. -/
theorem loadProperties_of_entries (hlayout : block.layout.Built)
    (hsound : block.store.Sound block.layout) {cursor stop final : Cursor} {entries : List Entry}
    (hentries : Entries package block.layout cursor entries stop)
    (hstop : Terminated package stop final)
    (hfits : (block.loadProperties package cursor).2.1.store.Fits) :
    ∃ loaded, block.loadProperties package cursor =
        (.ok ⟨Entry.loadedCount entries, Entry.skippedNames entries⟩, loaded, final) ∧
      loaded.layout = block.layout ∧ loaded.store.Sound block.layout ∧
      ∀ element ∈ elementsOf block.layout.properties, loaded.value element.1 element.2 =
        Entry.settle entries element (block.value element.1 element.2) := by
  obtain ⟨hsame, hloaded, -⟩ := loadProperties_sound package cursor hlayout hsound hfits
  cases hload : block.loadProperties package cursor with
  | mk outcome ended =>
      obtain ⟨⟨layout, store⟩, last⟩ := ended
      rw [hload] at hfits hloaded hsame
      obtain rfl : layout = block.layout := hsame
      obtain ⟨found, stop', hfound, hended⟩ := loadProperties_ended hlayout hsound hload hfits
      cases hended with
      | terminated hlast hvalues =>
          obtain ⟨rfl, rfl⟩ := hentries.unique (hstop.stops _) hfound (hlast.stops _)
          obtain ⟨-, hfinal⟩ := Prod.mk.inj (hlast.symm.trans hstop)
          refine ⟨⟨block.layout, store⟩, ?_, rfl, hloaded, hvalues⟩
          rw [← hfinal]
          simp [LoadReport.addAll]
      | refused hlast _ =>
          obtain ⟨-, rfl⟩ := hentries.unique (hstop.stops _) hfound hlast.stops
          cases hlast with
          | header hheader => cases (Prod.mk.inj (hheader.symm.trans hstop)).1
          | entry hheader _ => cases Except.ok.inj (Prod.mk.inj (hheader.symm.trans hstop)).1

/-- What a list does to a block.  Its entries are the known ones and the skipped ones in the
order of the stream; an element has the value of the last entry for it, and the value it had
if there is none.  Where a list is refused, this holds for the entries before the refused one
and for all elements but the one that is refused.  An entry of an unknown name with a payload
of its declared size is reported wherever it is put in a list, and changes nothing else. -/
theorem loadProperties_overlay (hlayout : block.layout.Built)
    (hsound : block.store.Sound block.layout) (package : Package) (cursor : Cursor)
    (hfits : (block.loadProperties package cursor).2.1.store.Fits) :
    (∀ report, (block.loadProperties package cursor).1 = .ok report →
      ∃ entries stop, Entries package block.layout cursor entries stop ∧
        Terminated package stop (block.loadProperties package cursor).2.2 ∧
        report.loaded = Entry.loadedCount entries ∧ report.skipped = Entry.skippedNames entries ∧
        ∀ element ∈ elementsOf block.layout.properties,
          (block.loadProperties package cursor).2.1.value element.1 element.2 =
            Entry.settle entries element (block.value element.1 element.2)) ∧
    (∀ error, (block.loadProperties package cursor).1 = .error error →
      ∃ entries stop target, Entries package block.layout cursor entries stop ∧
        Refused package block.layout stop error target (block.loadProperties package cursor).2.2 ∧
        ∀ element ∈ elementsOf block.layout.properties, some element ≠ target →
          (block.loadProperties package cursor).2.1.value element.1 element.2 =
            Entry.settle entries element (block.value element.1 element.2)) ∧
    ∀ report, (block.loadProperties package cursor).1 = .ok report →
      ∀ front middle used, Entries package block.layout cursor front middle →
        cursor.rest = used ++ middle.rest →
        ∀ header head payload, (Header.read package.names).Takes head (some header) →
          block.layout.resolve? package.names header = none →
          payload.length = header.size.toNat →
          ∃ back, report.skipped = Entry.skippedNames front ++ back ∧
            block.loadProperties package
                ⟨cursor.pos, used ++ (head ++ (payload ++ middle.rest))⟩ =
              (.ok ⟨report.loaded, Entry.skippedNames front ++ header.text package.names :: back⟩,
                (block.loadProperties package cursor).2.1,
                ⟨(block.loadProperties package cursor).2.2.pos + (head.length + payload.length),
                  (block.loadProperties package cursor).2.2.rest⟩) := by
  cases hrun : runFrom ⟨block.store, cursor⟩
      (Load.entries package block.layout (cursor.rest.length + 1) ⟨0, []⟩) with
  | mk outcome after =>
      have hload := loadProperties_eq hrun
      have hended : ∃ entries stop, Entries package block.layout cursor entries stop ∧
          Load.Ended package block.layout ⟨0, []⟩ block.store entries stop outcome after :=
        Load.entries_run hlayout _ (Nat.lt_succ_self _) hrun (by rwa [hload] at hfits) hsound
      obtain ⟨entries, stop, hentries, hended⟩ := hended
      refine ⟨?_, ?_, ?_⟩
      · intro report hok
        rw [hload] at hok ⊢
        obtain rfl : outcome = .ok report := hok
        cases hended with
        | terminated hstop hvalues =>
            exact ⟨entries, stop, hentries, hstop, Nat.zero_add _, List.nil_append _, hvalues⟩
      · intro error herror
        rw [hload] at herror ⊢
        obtain rfl : outcome = .error error := herror
        cases hended with
        | refused hstop hvalues => exact ⟨entries, stop, _, hentries, hstop, hvalues⟩
      · intro report hok front middle used hfront hused header head payload hhead hunknown hpayload
        exact loadProperties_insert hlayout hsound hfits hok hfront hused hhead hunknown hpayload

end Block

namespace TaggedPawn

/-- A package whose table has a name that pawns do not know. -/
def haunted : Package := ⟨69, ⟨["None", "Title", "Ghost"]⟩, default⟩

/-- Two titles with a ghost between them. -/
def titles : List UInt8 := [1, 0x5d, 3, 2, 97, 0, 2, 1, 255, 1, 0x5d, 3, 2, 98, 0, 0]

/-- Both titles are loaded, the second one over the first one, and the ghost is skipped. -/
theorem titles_overlay : ∃ entries stop, Entries haunted layout ⟨0, titles⟩ entries stop ∧
    Entry.loadedCount entries = 2 ∧ Entry.skippedNames entries = ["Ghost"] := by
  have hlayout : layout.Built := catalogue.built _ (List.mem_singleton.mpr rfl)
  have hsound := (@Block.newDefault_none_sound layout defaults hlayout rfl (by decide)).2
  obtain ⟨hok, -⟩ := @Block.loadProperties_overlay defaults hlayout hsound haunted ⟨0, titles⟩
    (by decide +kernel)
  obtain ⟨entries, stop, hentries, -, hloaded, hskipped, -⟩ :=
    hok ⟨2, ["Ghost"]⟩ (by decide +kernel)
  exact ⟨entries, stop, hentries, hloaded.symm, hskipped.symm⟩

end TaggedPawn

end ObjectPackage
