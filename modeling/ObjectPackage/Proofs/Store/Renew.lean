/-
Actions that renew values.  Such an action takes a value that a location owns and
leaves one there that is owned again, whether it succeeds or stops on the way, and it
changes nothing outside of the location and of the slots that the value owned.  Runs
over the parts of a value are put together from what is done to each part.
-/
import ObjectPackage.Proofs.Store.Owns
import ObjectPackage.Proofs.Store.Update

namespace ObjectPackage

/-- The bits between the ends of some parts. -/
def reachedBy (location : Location) (parts : List Part) (region : Region) (bit : Nat) : Prop :=
  ∃ part ∈ parts, part.Reached location region bit

theorem reachedBy.region {location : Location} {parts : List Part} {region : Region} {bit : Nat}
    (h : reachedBy location parts region bit) : region = location.region := by
  obtain ⟨part, -, hbit⟩ := h
  exact hbit.1

theorem Store.Change.reachedBy {before after : Store} {location : Location}
    {parts more : List Part} {old new : List Nat}
    (h : before.Change after (reachedBy location parts) old new)
    (hsub : ∀ part ∈ parts, part ∈ more) :
    before.Change after (reachedBy location more) old new := by
  refine h.mono ?_
  rintro _ _ ⟨part, hpart, hbit⟩
  exact Or.inl ⟨part, hsub part hpart, hbit⟩

variable {σ : Type} {view : σ → Store}

/-- What holds of the first state, the outcome, the last state, and the value and the
slots in the end. -/
abbrev Ensures (σ α : Type) :=
  σ → Except PropertyError Unit → σ → α → List Nat → Prop

/-- An action renews the value at a location.  An action that is `fresh` needs a value
that owns no slots. -/
structure Renews (view : σ → Store) (action : ExceptT PropertyError (StateM σ) Unit)
    (type : PropertyType) (location : Location) (mask : UInt32) (fresh : Prop)
    (ensures : Ensures σ Value) : Prop where
  grows : Grows view action
  renew : ∀ {state outcome after}, runFrom state action = (outcome, after) →
    (view after).Fits → ∀ {value slots}, (view state).Owns type location mask value slots →
    (fresh → slots = []) → ∃ value' slots', (view after).Owns type location mask value' slots' ∧
      (view state).Change (view after) (type.Reached location mask) slots slots' ∧
      ensures state outcome after value' slots'

/-- As `Renews`, for all parts at a location. -/
structure RenewsAll (view : σ → Store) (action : ExceptT PropertyError (StateM σ) Unit)
    (parts : List Part) (location : Location) (fresh : Prop)
    (ensures : Ensures σ (List Value)) : Prop where
  grows : Grows view action
  renew : ∀ {state outcome after}, runFrom state action = (outcome, after) →
    (view after).Fits → ∀ {values slots}, (view state).OwnsAll location parts values slots →
    (fresh → slots = []) → ∃ values' slots', (view after).OwnsAll location parts values' slots' ∧
      (view state).Change (view after) (reachedBy location parts) slots slots' ∧
      ensures state outcome after values' slots'

theorem Renews.mono {action : ExceptT PropertyError (StateM σ) Unit} {type : PropertyType}
    {location : Location} {mask : UInt32} {fresh fresh' : Prop}
    {ensures ensures' : Ensures σ Value} (h : Renews view action type location mask fresh ensures)
    (hfresh : fresh → fresh') (hensures : ∀ state outcome after value slots,
      ensures state outcome after value slots → ensures' state outcome after value slots) :
    Renews view action type location mask fresh' ensures' := by
  refine ⟨h.grows, fun hrun hfits _ _ howns hslots => ?_⟩
  obtain ⟨value', slots', howns', hchange, hafter⟩ :=
    h.renew hrun hfits howns fun hold => hslots (hfresh hold)
  exact ⟨value', slots', howns', hchange, hensures _ _ _ _ _ hafter⟩

/-- The value in the end is owned, whatever else is ensured of it. -/
theorem Renews.owned {action : ExceptT PropertyError (StateM σ) Unit} {type : PropertyType}
    {location : Location} {mask : UInt32} {fresh : Prop} {ensures : Ensures σ Value}
    (h : Renews view action type location mask fresh ensures) :
    Renews view action type location mask fresh fun state outcome after value slots =>
      (view after).Owns type location mask value slots ∧
        ensures state outcome after value slots := by
  refine ⟨h.grows, fun hrun hfits _ _ howns hslots => ?_⟩
  obtain ⟨value', slots', howns', hchange, hafter⟩ := h.renew hrun hfits howns hslots
  exact ⟨value', slots', howns', hchange, howns', hafter⟩

/-- Two actions that renew the same value, one after the other. -/
theorem Renews.bind {action next : ExceptT PropertyError (StateM σ) Unit} {type : PropertyType}
    {location : Location} {mask : UInt32} {fresh fresh' : Prop} {ensures ensures' : Ensures σ Value}
    (h : Renews view action type location mask fresh ensures)
    (hnext : Renews view next type location mask fresh' ensures')
    (hfresh : ∀ state after value slots, ensures state (.ok ()) after value slots →
      fresh' → slots = []) :
    Renews view (action >>= fun _ => next) type location mask fresh
      fun state outcome after value slots =>
        (∃ error, outcome = .error error ∧ ensures state outcome after value slots) ∨
          ∃ middle value' slots', ensures state (.ok ()) middle value' slots' ∧
            ensures' middle outcome after value slots := by
  refine ⟨h.grows.bind fun _ => hnext.grows, ?_⟩
  intro state outcome after hrun hfits value slots howns hslots
  rcases runFrom_bind_cases hrun with ⟨error, rfl, hstep⟩ | ⟨_, middle, hstep, hlast⟩
  · obtain ⟨value', slots', howns', hchange, hafter⟩ := h.renew hstep hfits howns hslots
    exact ⟨value', slots', howns', hchange, Or.inl ⟨error, rfl, hafter⟩⟩
  · have hgrows := hnext.grows middle
    rw [hlast] at hgrows
    obtain ⟨value', slots', howns', hchange, hafter⟩ :=
      h.renew hstep (Nat.lt_of_le_of_lt hgrows hfits) howns hslots
    obtain ⟨value'', slots'', howns'', hchange', hafter'⟩ :=
      hnext.renew hlast hfits howns' (hfresh _ _ _ _ hafter)
    exact ⟨value'', slots'', howns'', hchange.trans hchange',
      Or.inr ⟨middle, value', slots', hafter, hafter'⟩⟩

/-- An action that does to the store what an update does, and keeps what is beside it. -/
def Lifts {α : Type} (view : σ → Store) (keeps : σ → σ → Prop)
    (action : ExceptT PropertyError (StateM σ) α) (update : Update α) : Prop :=
  ∀ state, ∃ after, runFrom state action = ((runFrom (view state) update).1, after) ∧
    view after = (runFrom (view state) update).2 ∧ keeps state after

theorem Lifts.refl {α : Type} (update : Update α) : Lifts id (fun _ _ => True) update update :=
  fun state => ⟨(runFrom state update).2, rfl, rfl, trivial⟩

theorem Lifts.grows {α : Type} {keeps : σ → σ → Prop}
    {action : ExceptT PropertyError (StateM σ) α} {update : Update α}
    (h : Lifts view keeps action update) (hgrows : Grows id update) : Grows view action := by
  intro state
  obtain ⟨after, hrun, hview, -⟩ := h state
  have hsize := hgrows (view state)
  rw [hrun, hview]
  exact hsize

theorem Lifts.renews {keeps : σ → σ → Prop} {action : ExceptT PropertyError (StateM σ) Unit}
    {update : Update Unit} {type : PropertyType} {location : Location} {mask : UInt32}
    {fresh : Prop} {ensures : Ensures Store Value} (h : Lifts view keeps action update)
    (hupdate : Renews id update type location mask fresh ensures) :
    Renews view action type location mask fresh fun state outcome after value slots =>
      keeps state after ∧ ensures (view state) outcome (view after) value slots := by
  refine ⟨h.grows hupdate.grows, ?_⟩
  intro state outcome after hrun hfits value slots howns hslots
  obtain ⟨after', hrun', hview, hkeeps⟩ := h state
  obtain ⟨rfl, rfl⟩ := Prod.mk.inj (hrun'.symm.trans hrun)
  obtain ⟨value', slots', howns', hchange, hafter⟩ :=
    @Renews.renew _ _ _ _ _ _ _ _ hupdate (view state) _ (view after')
      (Prod.ext rfl hview.symm) hfits _ _ howns hslots
  exact ⟨value', slots', howns', hchange, hkeeps, hafter⟩

namespace RenewsAll

section Around

variable {action : ExceptT PropertyError (StateM σ) Unit} {left right parts : List Part}
  {location : Location} {fresh : Prop} {ensures : Ensures σ (List Value)}

theorem single {part : Part} {ensures : Ensures σ Value}
    (h : Renews view action part.type (location.shift part.offset) part.mask fresh ensures) :
    RenewsAll view action [part] location fresh fun state outcome after values slots =>
      ∃ value, values = [value] ∧ ensures state outcome after value slots := by
  refine ⟨h.grows, ?_⟩
  intro state outcome after hrun hfits values slots howns hslots
  obtain ⟨value, rfl, hvalue⟩ := Store.ownsAll_single.mp howns
  obtain ⟨value', slots', howns', hchange, hafter⟩ := h.renew hrun hfits hvalue hslots
  refine ⟨[value'], slots', Store.ownsAll_single.mpr ⟨value', rfl, howns'⟩, ?_, value', rfl, hafter⟩
  exact hchange.mono fun region bit hbit => Or.inl ⟨part, List.mem_singleton_self part, hbit⟩

/-- Other parts keep what they hold while some are renewed, and nothing else is changed. -/
theorem around (h : RenewsAll view action parts location fresh ensures)
    (hspread : Spread (left ++ parts ++ right)) {state after : σ}
    {outcome : Except PropertyError Unit} (hrun : runFrom state action = (outcome, after))
    (hfits : (view after).Fits) {front inner back : List Value} {first owned last : List Nat}
    (hfirst : (view state).HoldsAll location left front first)
    (howned : (view state).HoldsAll location parts inner owned)
    (hlast : (view state).HoldsAll location right back last)
    (hnodup : (first ++ owned ++ last).Nodup)
    (hapart : ¬location.region.Among (first ++ owned ++ last)) (hfresh : fresh → owned = []) :
    ∃ inner' owned', (view after).HoldsAll location left front first ∧
      (view after).HoldsAll location parts inner' owned' ∧
      (view after).HoldsAll location right back last ∧
      (view after).OwnsAll location (left ++ parts ++ right) (front ++ inner' ++ back)
        (first ++ owned' ++ last) ∧
      (view state).Change (view after) (reachedBy location parts) owned owned' ∧
      ensures state outcome after inner' owned' := by
  have howns : (view state).OwnsAll location parts inner owned := by
    refine ⟨howned, (List.nodup_append.mp (List.nodup_append.mp hnodup).1).2.1, fun hmem => ?_⟩
    exact hapart (by simp only [Region.among_append]; tauto)
  obtain ⟨inner', owned', howns', hchange, hafter⟩ := h.renew hrun hfits howns hfresh
  have hkept : ∀ part ∈ left ++ right, ∀ bit, part.Touched location location.region bit →
      ¬reachedBy location parts location.region bit := by
    rintro part hpart bit hbit ⟨other, hother, hreach⟩
    have hmem : part ∈ left ++ parts ++ right := by
      simp only [List.mem_append] at hpart ⊢
      tauto
    have hbit' := Part.reached_of_touched (hspread.resolved part hmem) hbit
    rcases List.mem_append.mp hpart with hpart | hpart
    · exact (hspread.left.apart_of_append hpart hother).not_reached hbit' hreach
    · have hother' : other ∈ left ++ parts := List.mem_append_right _ hother
      exact (hspread.apart_of_append hother' hpart).not_reached hreach hbit'
  obtain ⟨hfirst', hlast', hall⟩ := Store.OwnsAll.replace hfirst hlast hnodup hapart howns'
    hchange (fun _ _ hbit => hbit.region) hkept
  exact ⟨inner', owned', hfirst', howns'.holds, hlast', hall, hchange, hafter⟩

theorem mono {fresh' : Prop} {ensures' : Ensures σ (List Value)}
    (h : RenewsAll view action parts location fresh ensures) (hfresh : fresh → fresh')
    (hensures : ∀ state outcome after values slots,
      ensures state outcome after values slots → ensures' state outcome after values slots) :
    RenewsAll view action parts location fresh' ensures' := by
  refine ⟨h.grows, fun hrun hfits _ _ howns hslots => ?_⟩
  obtain ⟨values', slots', howns', hchange, hafter⟩ :=
    h.renew hrun hfits howns fun hold => hslots (hfresh hold)
  exact ⟨values', slots', howns', hchange, hensures _ _ _ _ _ hafter⟩

end Around

/-- Two actions that renew the same parts, one after the other. -/
theorem bind {action next : ExceptT PropertyError (StateM σ) Unit} {parts : List Part}
    {location : Location} {ensures ensures' : Ensures σ (List Value)}
    (h : RenewsAll view action parts location False ensures)
    (hnext : RenewsAll view next parts location False ensures') :
    RenewsAll view (action >>= fun _ => next) parts location False
      fun state outcome after values slots =>
        (∃ error, outcome = .error error ∧ ensures state outcome after values slots) ∨
          ∃ middle values' slots', (view middle).HoldsAll location parts values' slots' ∧
            ensures state (.ok ()) middle values' slots' ∧
            ensures' middle outcome after values slots := by
  refine ⟨h.grows.bind fun _ => hnext.grows, ?_⟩
  intro state outcome after hrun hfits values slots howns _
  rcases runFrom_bind_cases hrun with ⟨error, rfl, hstep⟩ | ⟨_, middle, hstep, hlast⟩
  · obtain ⟨values', slots', howns', hchange, hafter⟩ := h.renew hstep hfits howns nofun
    exact ⟨values', slots', howns', hchange, Or.inl ⟨error, rfl, hafter⟩⟩
  · have hgrows := hnext.grows middle
    rw [hlast] at hgrows
    obtain ⟨values', slots', howns', hchange, hafter⟩ :=
      h.renew hstep (Nat.lt_of_le_of_lt hgrows hfits) howns nofun
    obtain ⟨values'', slots'', howns'', hchange', hafter'⟩ := hnext.renew hlast hfits howns' nofun
    exact ⟨values'', slots'', howns'', hchange.trans hchange',
      Or.inr ⟨middle, values', slots', howns'.holds, hafter, hafter'⟩⟩

/-- Two actions that renew parts apart from each other, one after the other.  The second
action stays away from the parts and the slots of the first. -/
theorem append {action next : ExceptT PropertyError (StateM σ) Unit} {left right : List Part}
    {location : Location} {fresh : Prop} {ensures ensures' : Ensures σ (List Value)}
    (hspread : Spread (left ++ right))
    (hleft : RenewsAll view action left location fresh ensures)
    (hright : RenewsAll view next right location fresh ensures') :
    RenewsAll view (action >>= fun _ => next) (left ++ right) location fresh
      fun state outcome after values slots =>
        ∃ front back first last, values = front ++ back ∧ slots = first ++ last ∧
          ((∃ error, outcome = .error error ∧ ensures state outcome after front first) ∨
            ∃ middle old, ensures state (.ok ()) middle front first ∧
              ensures' middle outcome after back last ∧
              (view middle).Change (view after) (reachedBy location right) old last ∧
              (first ++ old).Nodup ∧ ¬location.region.Among (first ++ old)) := by
  refine ⟨hleft.grows.bind fun _ => hright.grows, ?_⟩
  intro state outcome after hrun hfits values slots howns hslots
  obtain ⟨front, back, owned, last, rfl, rfl, hfront, hback⟩ := howns.holds.split
  have hfresh : fresh → owned = [] ∧ last = [] := fun h => List.append_eq_nil_iff.mp (hslots h)
  -- what the first action does, wherever it stops
  have hfirst {reached : Except PropertyError Unit} {middle : σ}
      (hstep : runFrom state action = (reached, middle)) (hfits : (view middle).Fits) :
      ∃ inner owned', (view middle).HoldsAll location left inner owned' ∧
        (view middle).HoldsAll location right back last ∧
        (view middle).OwnsAll location (left ++ right) (inner ++ back) (owned' ++ last) ∧
        (view state).Change (view middle) (reachedBy location (left ++ right)) (owned ++ last)
          (owned' ++ last) ∧ ensures state reached middle inner owned' := by
    obtain ⟨inner, owned', -, hinner, hback', hall, hchange, hafter⟩ :=
      @around _ _ _ [] right _ _ _ _ hleft (by simpa using hspread) _ _ _ hstep hfits _ _ _ _ _ _
        .nil hfront hback (by simpa using howns.nodup) (by simpa using howns.apart)
        fun h => (hfresh h).1
    exact ⟨inner, owned', hinner, hback', hall,
      (hchange.frame [] last).reachedBy fun _ => List.mem_append_left _, hafter⟩
  rcases runFrom_bind_cases hrun with ⟨error, rfl, hstep⟩ | ⟨_, middle, hstep, hnext⟩
  · obtain ⟨inner, owned', -, -, hall, hchange, hafter⟩ := hfirst hstep hfits
    exact ⟨_, _, hall, hchange, inner, back, owned', last, rfl, rfl, Or.inl ⟨error, rfl, hafter⟩⟩
  · have hgrows := hright.grows middle
    rw [hnext] at hgrows
    obtain ⟨inner, owned', hinner, hback', hall, hchange, hafter⟩ :=
      hfirst hstep (Nat.lt_of_le_of_lt hgrows hfits)
    obtain ⟨back', last', -, -, -, hall', hchange', hafter'⟩ :=
      @around _ _ _ left [] _ _ _ _ hright (by simpa using hspread) _ _ _ hnext hfits
        _ _ _ _ _ _ hinner hback' .nil (by simpa using hall.nodup) (by simpa using hall.apart)
        fun h => (hfresh h).2
    simp only [List.append_nil] at hall'
    have hlater := (hchange'.frameLeft owned').reachedBy fun _ => List.mem_append_right left
    exact ⟨_, _, hall', hchange.trans hlater, inner, back', owned', last', rfl, rfl,
      Or.inr ⟨middle, last, hafter, hafter', hchange', hall.nodup, hall.apart⟩⟩

end RenewsAll

/-- What is ensured item by item, up to the first failure. -/
inductive Chain {δ : Type} (ensures : δ → Ensures σ Value) : List δ → Ensures σ (List Value)
  | nil {state : σ} : Chain ensures [] state (.ok ()) state [] []
  | stop {item : δ} {items : List δ} {state after : σ} {error : PropertyError}
      {value : Value} {values : List Value} {first rest : List Nat}
      (hitem : ensures item state (.error error) after value first) :
      Chain ensures (item :: items) state (.error error) after (value :: values) (first ++ rest)
  | next {item : δ} {items : List δ} {state middle after : σ}
      {outcome : Except PropertyError Unit} {value : Value} {values : List Value}
      {first rest : List Nat} (hitem : ensures item state (.ok ()) middle value first)
      (hrest : Chain ensures items middle outcome after values rest) :
      Chain ensures (item :: items) state outcome after (value :: values) (first ++ rest)

/-- A run over items, each of which renews a part of its own. -/
theorem RenewsAll.forM {δ : Type} {part : δ → Part}
    {action : δ → ExceptT PropertyError (StateM σ) Unit} {location : Location} {fresh : Prop}
    {ensures : δ → Ensures σ Value} {items : List δ} (hspread : Spread (items.map part))
    (h : ∀ item ∈ items, Renews view (action item) (part item).type
      (location.shift (part item).offset) (part item).mask fresh (ensures item)) :
    RenewsAll view (items.forM action) (items.map part) location fresh (Chain ensures items) := by
  induction items with
  | nil =>
      refine ⟨.forM (by simp), ?_⟩
      intro state outcome after hrun _ values slots howns _
      obtain ⟨rfl, rfl⟩ := Prod.mk.inj hrun
      have hnil := howns.holds
      cases hnil
      exact ⟨[], [], howns, .refl _ _ _, .nil⟩
  | cons item rest ih =>
      have hspread' : Spread ([part item] ++ rest.map part) := hspread
      have hrest := ih hspread'.right fun item hitem => h item (List.mem_cons_of_mem _ hitem)
      refine (RenewsAll.append hspread' (.single (h item List.mem_cons_self)) hrest).mono id ?_
      rintro state outcome after _ _ ⟨_, values, first, last, rfl, rfl, hcases⟩
      rcases hcases with ⟨error, rfl, value, rfl, hitem⟩ |
        ⟨middle, _, ⟨value, rfl, hitem⟩, hchain, -⟩
      · exact .stop hitem
      · exact .next hitem hchain

/-- A run over the parts themselves. -/
theorem RenewsAll.forParts {action : Part → ExceptT PropertyError (StateM σ) Unit}
    {location : Location} {fresh : Prop} {ensures : Part → Ensures σ Value} {parts : List Part}
    (hspread : Spread parts)
    (h : ∀ part ∈ parts, Renews view (action part) part.type (location.shift part.offset)
      part.mask fresh (ensures part)) :
    RenewsAll view (parts.forM action) parts location fresh (Chain ensures parts) := by
  have hall := @RenewsAll.forM σ view Part (fun part => part) action location fresh ensures parts
  rw [List.map_id'] at hall
  exact hall hspread h

end ObjectPackage
