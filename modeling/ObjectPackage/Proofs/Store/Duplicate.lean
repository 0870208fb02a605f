/-
Copies.  A copy of a value that is held cannot fail, and is the twin of what it is made
from: every handle that names a slot is given a slot of its own, at every depth, and a
handle that is zero stays zero.  In the root a copy writes the bits of leaves and no
others, so padding is not copied.
-/
import ObjectPackage.Proofs.Store.Twins

namespace ObjectPackage

variable {source : Store} {type : PropertyType} {origin location : Location} {mask : UInt32}
  {parts : List Part} {value : Value} {values : List Value} {held : List Nat}

/-- The action succeeds with a twin of a value that another store holds in some slots. -/
def Twinned (source : Store) (type : PropertyType) (origin location : Location) (mask : UInt32)
    (held : List Nat) : Ensures Store Value :=
  fun _ outcome after _ slots => outcome = .ok () ∧ ∃ pairs : List (Nat × Nat),
    pairs.map (·.1) = held ∧ pairs.map (·.2) = slots ∧
      source.Twins after type origin location mask pairs

/-- As `Twinned`, for all parts at a location. -/
def TwinnedAll (source : Store) (parts : List Part) (origin location : Location)
    (held : List Nat) : Ensures Store (List Value) :=
  fun _ outcome after _ slots => outcome = .ok () ∧ ∃ pairs : List (Nat × Nat),
    pairs.map (·.1) = held ∧ pairs.map (·.2) = slots ∧
      source.TwinsAll after origin location parts pairs

/-- The action succeeds with a value that another store holds. -/
def Copies (source : Store) (type : PropertyType) (origin : Location) (mask : UInt32) :
    Ensures Store Value :=
  fun _ outcome _ value _ => outcome = .ok () ∧ ∃ held, source.Holds type origin mask value held

theorem Chain.copies {δ : Type} {part : δ → Part} {source : Store} {origin : Location}
    {items : List δ} {state after : Store} {outcome : Except PropertyError Unit}
    {values : List Value} {slots : List Nat}
    (h : Chain (fun item => Copies source (part item).type (origin.shift (part item).offset)
      (part item).mask) items state outcome after values slots) :
    outcome = .ok () ∧ ∃ held, source.HoldsAll origin (items.map part) values held := by
  induction h with
  | nil => exact ⟨rfl, [], .nil⟩
  | stop hitem => exact absurd hitem.1 nofun
  | next hitem _ ih =>
      obtain ⟨held, hfirst⟩ := hitem.2
      obtain ⟨hok, others, hrest⟩ := ih
      exact ⟨hok, held ++ others, .cons hfirst hrest⟩

/-- Parts that are made twins one after the other are twins in the end. -/
theorem RenewsAll.twinned {action : Part → Update Unit} (hspread : Spread parts)
    (hsource : source.HoldsAll origin parts values held)
    (h : ∀ part ∈ parts, ∀ value first,
      source.Holds part.type (origin.shift part.offset) part.mask value first →
      Renews id (action part) part.type (location.shift part.offset) part.mask True
        (Twinned source part.type (origin.shift part.offset) (location.shift part.offset) part.mask
          first)) :
    RenewsAll id (parts.forM action) parts location True
      (TwinnedAll source parts origin location held) := by
  induction parts generalizing values held with
  | nil =>
      cases hsource
      refine ⟨.forM (by simp), ?_⟩
      intro state outcome after hrun _ values slots howns _
      obtain ⟨rfl, rfl⟩ := Prod.mk.inj hrun
      have hnil := howns.holds
      cases hnil
      exact ⟨[], [], howns, .refl _ _ _, rfl, [], rfl, rfl, .nil⟩
  | cons part rest ih =>
      cases hsource with
      | @cons _ _ _ _ _ first others hfirst hothers =>
          have hspread' : Spread ([part] ++ rest) := hspread
          have hself : part ∈ [part] := List.mem_singleton_self part
          have hhead := RenewsAll.single (h part List.mem_cons_self _ _ hfirst)
          have htail := ih hspread'.right hothers fun part hpart =>
            h part (List.mem_cons_of_mem _ hpart)
          refine (RenewsAll.append hspread' hhead htail).mono id ?_
          rintro state outcome after _ _ ⟨_, _, owned, last, rfl, rfl, hcases⟩
          rcases hcases with ⟨error, rfl, _, -, hok, -⟩ | ⟨middle, old, ⟨_, -, -, pairs, hheld,
            hpairs, htwins⟩, ⟨rfl, pairs', hheld', hpairs', htwins'⟩, hchange, hnodup, hapart⟩
          · cases hok
          -- the first twin is out of reach of what is done to the others
          have hregion := not_or.mp (mt Region.among_append.mpr hapart)
          have hkept : source.Twins after part.type (origin.shift part.offset)
              (location.shift part.offset) part.mask pairs := by
            refine htwins.of_change hchange hregion.2 (fun pair hpair => ?_) ?_
            · have hslot : pair.2 ∈ owned := hpairs ▸ List.mem_map_of_mem hpair
              refine ⟨fun hold => (List.nodup_append.mp hnodup).2.2 _ hslot _ hold rfl, ?_⟩
              exact fun bit hbit => hregion.1 ⟨pair.2, hslot, hbit.region.symm⟩
            · rintro bit hbit ⟨other, hother, hreach⟩
              have hbit' := Part.reached_of_touched (hspread'.left.resolved part hself) hbit
              exact (hspread'.apart_of_append hself hother).not_reached hbit' hreach
          refine ⟨rfl, pairs ++ pairs', ?_, ?_, .cons hkept htwins'⟩
          · rw [List.map_append, hheld, hheld']
          · rw [List.map_append, hpairs, hpairs']

namespace PropertyType

/-- A copy is a twin of what it is made from. -/
theorem copy_twinned (hresolved : type.Resolved) (hmask : type = .bool → mask ≠ 0)
    (hsource : source.Holds type origin mask value held) :
    Renews id (copy source origin location mask type) type location mask True
      (Twinned source type origin location mask held) := by
  induction type using PropertyType.induction_on generalizing origin location mask value held with
  | scalar type hstorage =>
      obtain ⟨piece, hpiece, rfl, rfl⟩ := (Store.holds_scalar hstorage).mp hsource
      have hlength := Store.length_of_bytes hpiece
      rw [copy_scalar _ _ _ _ hstorage, hpiece, Update.fetch_ok, pure_bind]
      refine (write_renews hstorage hlength).mono False.elim ?_
      rintro _ _ _ _ _ ⟨rfl, rfl, rfl, hbytes⟩
      exact ⟨rfl, [], rfl, rfl, .scalar hstorage hpiece hbytes⟩
  | bits =>
      obtain ⟨set, hset, rfl, rfl⟩ := Store.holds_bool.mp hsource
      rw [copy, hset, Update.fetch_ok, pure_bind]
      refine (setBool_renews (hmask rfl) set).mono False.elim ?_
      rintro _ _ _ _ _ ⟨rfl, -, rfl, hset'⟩
      exact ⟨rfl, [], rfl, rfl, .bits hset hset'⟩
  | text =>
      rw [copy]
      rcases Store.holds_str.mp hsource with
        ⟨hhandle, rfl, rfl⟩ | ⟨slot, text, hhandle, hcontent, rfl, rfl⟩
      · rw [hhandle, Update.fetch_ok, pure_bind]
        refine (noHandle_renews hresolved (Or.inl rfl)).mono id ?_
        rintro _ _ _ _ _ ⟨rfl, -, rfl, hnone⟩
        exact ⟨rfl, [], rfl, rfl, .noText hhandle hnone⟩
      · rw [hhandle, Update.fetch_ok, pure_bind]
        simp only [Store.text_eq_ok.mpr hcontent, Update.fetch_ok, pure_bind]
        refine (newText_renews text).mono id ?_
        rintro _ _ _ _ _ ⟨rfl, rfl, slot', rfl, hhandle', hcontent'⟩
        exact ⟨rfl, [(slot, slot')], rfl, rfl, .text hhandle hhandle' hcontent hcontent'⟩
  | inline type hstorage ih =>
      rw [copy_inline _ _ _ _ hstorage]
      obtain ⟨hroom, values, rfl, hparts⟩ := (Store.holds_inline hstorage).mp hsource
      have hall := RenewsAll.twinned hresolved.spread hparts fun part hpart _ _ hvalue =>
        @ih part hpart (origin.shift part.offset) (location.shift part.offset) part.mask _ _
          (hresolved.of_mem_parts hpart) (hresolved.spread.masked part hpart) hvalue
      refine (hall.inline hresolved hstorage).owned.mono id ?_
      rintro _ _ _ _ _ ⟨howns, _, rfl, rfl, pairs, hheld, hpairs, htwins⟩
      exact ⟨rfl, pairs, hheld, hpairs, .inline hstorage hroom howns.room htwins⟩
  | container type hstorage ih =>
      rw [copy_container _ _ _ _ hstorage]
      rcases (Store.holds_container hstorage).mp hsource with ⟨hhandle, rfl, rfl⟩ |
        ⟨old, count, values, inner, hbuffer, hunits, rfl, rfl⟩
      · rw [Store.container?_none hhandle, Update.fetch_ok, pure_bind]
        refine (noHandle_renews hresolved (Or.inr hstorage)).mono id ?_
        rintro _ _ _ _ _ ⟨rfl, -, rfl, hnone⟩
        exact ⟨rfl, [], rfl, rfl, .noContainer hstorage hhandle hnone⟩
      · rw [hbuffer.container?, Update.fetch_ok, pure_bind]
        have hfill (slot : Nat) := @RenewsAll.twinned source (.element old 0) (.element slot 0) _
          _ _ (fun part => copy source (.element old part.offset) (.element slot part.offset)
            part.mask part.type) (hresolved.unit_spread count) hunits fun part hpart _ _ hvalue => by
            rw [Location.element_shift] at hvalue
            rw [Location.element_shift, Location.element_shift]
            exact @ih count part hpart (.element old part.offset) (.element slot part.offset)
              part.mask _ _ (hresolved.of_mem_unitParts hpart)
              ((hresolved.unit_spread count).masked part hpart) hvalue
        refine (Renews.container_buffer hresolved hstorage (.refl _) hfill).mono id ?_
        rintro _ _ _ _ _ ⟨slot, middle, values, inner', -, -, rfl, rfl, hbuffer', rfl, pairs, rfl,
          rfl, htwins⟩
        exact ⟨rfl, (old, slot) :: pairs, rfl, rfl, .container hstorage hbuffer hbuffer' htwins⟩

/-- A twin has the same value. -/
theorem copy_renews (hresolved : type.Resolved) (hmask : type = .bool → mask ≠ 0)
    (hsource : source.Holds type origin mask value held) :
    Renews id (copy source origin location mask type) type location mask True
      (Copies source type origin mask) := by
  refine (copy_twinned hresolved hmask hsource).owned.mono id ?_
  rintro _ _ _ _ _ ⟨howns, hok, pairs, -, -, htwins⟩
  obtain ⟨_, hheld, hheld'⟩ := htwins.holds
  obtain rfl := howns.holds.unique hheld'
  exact ⟨hok, _, hheld⟩

end PropertyType

/-- An update that changes no bits of the root but some, whatever its outcome. -/
def Update.Confined {α : Type} (action : Update α) (touched : Region → Nat → Prop) : Prop :=
  ∀ store : Store, HeapValue.Agree (touched .root) (store.content .root)
    ((runFrom store action).2.content .root)

namespace Update.Confined

variable {α β : Type} {touched touched' : Region → Nat → Prop}

theorem mono {action : Update α} (h : Confined action touched)
    (hle : ∀ bit, touched .root bit → touched' .root bit) : Confined action touched' :=
  fun store => (h store).mono hle

theorem pure (value : α) : Confined (Pure.pure value) touched :=
  fun _ => .refl _

theorem fetch (query : Store → Except PropertyError α) : Confined (fetch query) touched := by
  intro store
  rw [runFrom_fetch]
  exact .refl _

theorem bind {action : Update α} {next : α → Update β} (h : Confined action touched)
    (hnext : ∀ value, Confined (next value) touched) : Confined (action >>= next) touched := by
  intro store
  have hfirst := h store
  rw [runFrom_bind]
  cases hrun : runFrom store action with
  | mk outcome middle =>
      rw [hrun] at hfirst
      cases outcome with
      | error error => exact hfirst
      | ok value => exact hfirst.trans (hnext value middle)

/-- What is read of another store is settled before the update starts. -/
theorem settled {found : Except PropertyError α} {next : α → Update β}
    (h : ∀ value, found = .ok value → Confined (next value) touched) :
    Confined (Update.fetch (fun _ => found) >>= next) touched := by
  cases found with
  | error error => exact fun _ => .refl _
  | ok value => exact h value rfl

theorem forM {δ : Type} {action : δ → Update Unit} {items : List δ}
    (h : ∀ item ∈ items, Confined (action item) touched) : Confined (items.forM action) touched := by
  induction items with
  | nil => exact pure ()
  | cons item rest ih =>
      obtain ⟨hfirst, hrest⟩ := List.forall_mem_cons.mp h
      exact hfirst.bind fun _ => ih hrest

theorem write (location : Location) (piece : List UInt8) :
    Confined (write location piece) (Store.Range location piece.length) := by
  intro store
  have hcheck : Confined (discard (Update.fetch fun store =>
      store.enclosing location piece.length)) (Store.Range location piece.length) :=
    (fetch _).bind fun _ => pure ()
  refine hcheck.bind (fun _ => ?_) store
  intro store
  exact (Store.change_overwrite store location piece).kept .root (by simp) (by simp)

theorem setHandle (location : Location) (handle : Option Nat) :
    Confined (setHandle location handle) (Store.Range location handleSize) := by
  have hword (value : Nat) :
      Confined (writeWord location handleSize value) (Store.Range location handleSize) := by
    have hwrite := write location (littleEndian handleSize value)
    rw [length_littleEndian] at hwrite
    exact hwrite
  cases handle with
  | none => exact hword 0
  | some slot => exact hword (slot + 1)

theorem setBool (location : Location) (mask : UInt32) (value : Bool) :
    Confined (setBool location mask value) (Store.Masked location mask) := by
  intro store
  cases hword : store.word location 4 with
  | error error =>
      rw [Update.setBool, runFrom_bind, runFrom_fetch, hword]
      exact .refl _
  | ok word =>
      obtain ⟨bytes, hbytes, -⟩ := Store.word_eq_ok.mp hword
      obtain ⟨after, hrun, hchange, -⟩ := @setBool_spec store location mask
        (Store.room_of_bytes hbytes) value
      rw [hrun]
      exact hchange.kept .root (by simp) (by simp)

theorem alloc (value : HeapValue) : Confined (alloc value) touched :=
  fun _ => .refl _

theorem ownElements (location : Location) (count pitch : Nat) :
    Confined (ownElements location count pitch) (Store.Range location handleSize) :=
  (alloc _).bind fun slot => (setHandle location (some slot)).bind fun _ => pure slot

end Update.Confined

namespace PropertyType

/-- A copy writes the bits of leaves, and nothing else of the root. -/
theorem copy_confined : Update.Confined (copy source origin location mask type)
    (type.Touched location mask) := by
  induction type using PropertyType.induction_on generalizing origin location mask with
  | scalar type hstorage =>
      have hbool : type ≠ .bool := PropertyType.ne_bool (by simp [hstorage])
      rw [copy_scalar _ _ _ _ hstorage]
      refine .settled fun piece hpiece => (Update.Confined.write location piece).mono fun bit => ?_
      exact touched_of_range (by simp [hstorage]) hbool (Store.length_of_bytes hpiece)
  | bits =>
      rw [copy]
      refine .settled fun set _ => (Update.Confined.setBool location mask set).mono fun bit => ?_
      exact Store.touched_bool.mpr
  | text =>
      rw [copy]
      have hhandle (handle : Option Nat) : Update.Confined (Update.setHandle location handle)
          (Touched .str location mask) :=
        (Update.Confined.setHandle location handle).mono fun bit =>
          touched_of_range (show storage .str ≠ .inline by decide) (by simp) rfl
      refine .settled fun handle _ => ?_
      cases handle with
      | none => exact hhandle none
      | some slot => exact .settled fun text _ => (Update.Confined.alloc _).bind fun _ => hhandle _
  | inline type hstorage ih =>
      rw [copy_inline _ _ _ _ hstorage]
      refine .forM fun part hpart => (ih part hpart).mono fun bit hbit => ?_
      exact (Store.touched_inline hstorage).mpr ⟨part, hpart, hbit⟩
  | container type hstorage ih =>
      have hbool : type ≠ .bool := PropertyType.ne_bool (by simp [hstorage])
      have hrange (bit : Nat) (hbit : Store.Range location handleSize .root bit) :
          type.Touched location mask .root bit :=
        touched_of_range (by simp [hstorage]) hbool (size_of_container hstorage).symm hbit
      rw [copy_container _ _ _ _ hstorage]
      refine .settled fun found _ => ?_
      cases found with
      | none => exact (Update.Confined.setHandle location none).mono hrange
      | some pair =>
          refine ((Update.Confined.ownElements location _ _).mono hrange).bind fun slot => ?_
          -- units lie in a slot, so nothing of the root is touched for them
          exact .forM fun part hpart => (ih _ part hpart).mono fun bit hbit => by cases hbit.1

end PropertyType

end ObjectPackage
