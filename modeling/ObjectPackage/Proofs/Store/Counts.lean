/-
Counts of a stream.  A container is saved behind the number of its units, and a count is
refused when it is above the number of bytes behind it.  Units may take no bytes at all, so
the bytes of a value are taken back exactly when each count among them has as many bytes
behind it, those of what follows the value included.
-/
import ObjectPackage.Proofs.Layout.Catalogue
import ObjectPackage.Proofs.Store.Load

namespace ObjectPackage

namespace PropertyType

mutual

/-- Among the bytes of a value is a count, with so many bytes of the value behind it. -/
inductive Emits : PropertyType → Value → Nat → Nat → Prop
  | count {type : PropertyType} {values : List Value} {count : Nat}
      (hstorage : type.storage = .container)
      (hlength : values.length = (type.unitParts count).length) :
      Emits type (type.gather values) count
        (encodeAll ((type.unitParts count).map Part.type) values).length
  | unit {type : PropertyType} {values : List Value} {count found behind : Nat}
      (hstorage : type.storage = .container)
      (hlength : values.length = (type.unitParts count).length)
      (h : EmitsAll ((type.unitParts count).map Part.type) values found behind) :
      Emits type (type.gather values) found behind
  | part {type : PropertyType} {values : List Value} {found behind : Nat}
      (hstorage : type.storage = .inline) (hlength : values.length = type.parts.length)
      (h : EmitsAll (type.parts.map Part.type) values found behind) :
      Emits type (type.gather values) found behind

/-- As `Emits`, among the bytes of values of some types, one after the other. -/
inductive EmitsAll : List PropertyType → List Value → Nat → Nat → Prop
  | head {type : PropertyType} {types : List PropertyType} {value : Value} {values : List Value}
      {found behind : Nat} (h : Emits type value found behind) :
      EmitsAll (type :: types) (value :: values) found
        (behind + (encodeAll types values).length)
  | tail {type : PropertyType} {types : List PropertyType} {value : Value} {values : List Value}
      {found behind : Nat} (h : EmitsAll types values found behind) :
      EmitsAll (type :: types) (value :: values) found behind

end

variable {type : PropertyType} {values : List Value} {count found behind : Nat}

theorem not_emits (hinline : type.storage ≠ .inline) (hcontainer : type.storage ≠ .container)
    {value : Value} : ¬type.Emits value found behind := by
  intro h
  cases h with
  | count hstorage => exact hcontainer hstorage
  | unit hstorage => exact hcontainer hstorage
  | part hstorage => exact hinline hstorage

theorem emits_inline (hstorage : type.storage = .inline)
    (hlength : values.length = type.parts.length) :
    type.Emits (type.gather values) found behind ↔
      EmitsAll (type.parts.map Part.type) values found behind := by
  refine ⟨fun h => ?_, .part hstorage hlength⟩
  generalize hvalue : type.gather values = value at h
  cases h with
  | count h => cases hstorage.symm.trans h
  | unit h => cases hstorage.symm.trans h
  | part _ hlength' h => rwa [(gather_inj_inline hstorage hlength hlength').mp hvalue]

theorem emits_container (hstorage : type.storage = .container)
    (hlength : values.length = (type.unitParts count).length) :
    type.Emits (type.gather values) found behind ↔
      found = count ∧
          behind = (encodeAll ((type.unitParts count).map Part.type) values).length ∨
        EmitsAll ((type.unitParts count).map Part.type) values found behind := by
  constructor
  · intro h
    generalize hvalue : type.gather values = value at h
    cases h with
    | part h => cases hstorage.symm.trans h
    | count _ hlength' =>
        obtain ⟨rfl, rfl⟩ := (gather_inj_container hstorage hlength hlength').mp hvalue
        exact Or.inl ⟨rfl, rfl⟩
    | unit _ hlength' h =>
        obtain ⟨rfl, rfl⟩ := (gather_inj_container hstorage hlength hlength').mp hvalue
        exact Or.inr h
  · rintro (⟨rfl, rfl⟩ | h)
    · exact .count hstorage hlength
    · exact .unit hstorage hlength h

end PropertyType

/-- The decoder takes some bytes to the value, if each of the counts among them has as many
bytes behind it; if not, it refuses one of the counts. -/
def Decoder.Settles {α : Type} (action : Decoder α) (input : List UInt8) (value : α)
    (emits : Nat → Nat → Prop) : Prop :=
  ∀ pos rest, ((∀ found behind, emits found behind → found ≤ behind + rest.length) ∧
      runFrom ⟨pos, input ++ rest⟩ action = (.ok value, ⟨pos + input.length, rest⟩)) ∨
    ∃ found behind next, emits found behind ∧ behind + rest.length < found ∧
      runFrom ⟨pos, input ++ rest⟩ action =
        (.error (.invalidCount found (behind + rest.length)), next)

namespace Decoder

variable {α β : Type} {action : Decoder α} {input more : List UInt8} {value : α}
  {emits emits' : Nat → Nat → Prop}

theorem Takes.settles (h : action.Takes input value)
    (hnone : ∀ found behind, ¬emits found behind) : action.Settles input value emits :=
  fun pos rest => Or.inl ⟨fun found behind hemits => absurd hemits (hnone found behind), h pos rest⟩

namespace Settles

theorem map (f : α → β) (h : action.Settles input value emits) :
    (f <$> action).Settles input (f value) emits := by
  intro pos rest
  rcases h pos rest with ⟨hcounts, hrun⟩ | ⟨found, behind, next, hemits, hlt, hrun⟩
  · exact Or.inl ⟨hcounts, by rw [runFrom_map, hrun]⟩
  · exact Or.inr ⟨found, behind, next, hemits, hlt, by rw [runFrom_map, hrun]⟩

/-- What is decoded second stands behind the counts of what is decoded first. -/
theorem bind {next : α → Decoder β} {result : β} (h : action.Settles input value emits)
    (hnext : (next value).Settles more result emits') :
    (action >>= next).Settles (input ++ more) result fun found behind =>
      (∃ inner, emits found inner ∧ behind = inner + more.length) ∨ emits' found behind := by
  intro pos rest
  rw [List.append_assoc]
  rcases h pos (more ++ rest) with ⟨hcounts, hrun⟩ | ⟨found, behind, last, hemits, hlt, hrun⟩
  · rcases hnext (pos + input.length) rest with ⟨hcounts', hrun'⟩ |
      ⟨found, behind, last, hemits, hlt, hrun'⟩
    · refine Or.inl ⟨?_, ?_⟩
      · rintro found behind (⟨inner, hemits, rfl⟩ | hemits)
        · have hle := hcounts found inner hemits
          rw [List.length_append] at hle
          omega
        · exact hcounts' found behind hemits
      · rw [runFrom_bind_ok hrun, hrun', List.length_append, Nat.add_assoc]
    · exact Or.inr ⟨found, behind, last, Or.inr hemits, hlt, by rw [runFrom_bind_ok hrun, hrun']⟩
  · rw [List.length_append, ← Nat.add_assoc] at hlt hrun
    exact Or.inr ⟨found, behind + more.length, last, Or.inl ⟨behind, hemits, rfl⟩, hlt,
      runFrom_bind_error hrun _⟩

/-- A count is settled by the bytes that follow it. -/
theorem count {next : Nat → Decoder α} {count : Nat} {result : α} (hcount : count < 2 ^ 31)
    (h : (next count).Settles more result emits) :
    (Decoder.count >>= next).Settles (Encode.index (Int32.ofNat count) ++ more) result
      fun found behind => found = count ∧ behind = more.length ∨ emits found behind := by
  intro pos rest
  have hvalue : (Int32.ofNat count).toInt = count := Int32.toInt_ofNat_of_lt hcount
  have hread := Takes.read (Read.takes_index (Int32.ofNat count)) pos (more ++ rest)
  have hrun : runFrom ⟨pos, Encode.index (Int32.ofNat count) ++ (more ++ rest)⟩ Decoder.count =
      if more.length + rest.length < count then
        (.error (.invalidCount count (more.length + rest.length)),
          ⟨pos + (Encode.index (Int32.ofNat count)).length, more ++ rest⟩)
      else (.ok count, ⟨pos + (Encode.index (Int32.ofNat count)).length, more ++ rest⟩) := by
    have hcheck : ((count : Int) < 0 ∨ ((more ++ rest).take count).length < count) ↔
        more.length + rest.length < count := by
      rw [List.length_take, List.length_append]
      omega
    rw [Decoder.count, runFrom_bind_ok hread, runFrom_bind_ok (runFrom_get _)]
    simp only [hvalue, Int.toNat_natCast, hcheck, List.length_append]
    split <;> rfl
  rw [List.append_assoc]
  by_cases henough : more.length + rest.length < count
  · rw [if_pos henough] at hrun
    exact Or.inr ⟨count, more.length, _, Or.inl ⟨rfl, rfl⟩, henough, runFrom_bind_error hrun _⟩
  · rw [if_neg henough] at hrun
    rw [runFrom_bind_ok hrun]
    rcases h (pos + (Encode.index (Int32.ofNat count)).length) rest with ⟨hcounts, hrest⟩ |
      ⟨found, behind, last, hemits, hlt, hrest⟩
    · refine Or.inl ⟨?_, by rw [hrest, List.length_append, Nat.add_assoc]⟩
      rintro found behind (⟨rfl, rfl⟩ | hemits)
      · exact Nat.le_of_not_lt henough
      · exact hcounts found behind hemits
    · exact Or.inr ⟨found, behind, last, Or.inr hemits, hlt, hrest⟩

theorem congr (h : action.Settles input value emits)
    (hiff : ∀ found behind, emits found behind ↔ emits' found behind) :
    action.Settles input value emits' := by
  have hsame : emits = emits' := funext fun found => funext fun behind => propext (hiff found behind)
  exact hsame ▸ h

end Settles

end Decoder

namespace PropertyType

variable {package : Package} {type : PropertyType} {types : List PropertyType}
  {values : List Value} {value : Value}

theorem emitsAll_cons {found behind : Nat} :
    EmitsAll (type :: types) (value :: values) found behind ↔
      (∃ inner, type.Emits value found inner ∧
        behind = inner + (encodeAll types values).length) ∨
      EmitsAll types values found behind := by
  constructor
  · intro h
    cases h with
    | head h => exact Or.inl ⟨_, h, rfl⟩
    | tail h => exact Or.inr h
  · rintro (⟨inner, h, rfl⟩ | h)
    · exact .head h
    · exact .tail h

theorem settles_decodeAll
    (h : List.Forall₂ (fun type value =>
      (decode package type).Settles (type.encode value) value (type.Emits value)) types values) :
    (decodeAll package types).Settles (encodeAll types values) values (EmitsAll types values) := by
  induction h with
  | nil => exact (Decoder.Takes.pure []).settles fun _ _ => nofun
  | cons hfirst _ ih => exact (hfirst.bind (ih.map _)).congr fun _ _ => emitsAll_cons.symm

/-- The bytes of a value are taken back, or one of the counts among them is refused. -/
theorem settles_decode (hportable : type.Portable package value) (hheld : type.Held value) :
    (type.decode package).Settles (type.encode value) value (type.Emits value) := by
  induction type using PropertyType.induction_on generalizing value with
  | scalar type hstorage =>
      have hcountable : type.countable = true := by cases type <;> first | rfl | cases hstorage
      exact (takes_decode ⟨hcountable, hportable, hheld⟩).settles fun _ _ =>
        not_emits (by simp [hstorage]) (by simp [hstorage])
  | bits =>
      exact (takes_decode ⟨rfl, hportable, hheld⟩).settles fun _ _ =>
        not_emits (by decide) (by decide)
  | text =>
      exact (takes_decode ⟨rfl, hportable, hheld⟩).settles fun _ _ =>
        not_emits (by decide) (by decide)
  | inline type hstorage ih =>
      obtain ⟨values, rfl, hall⟩ := hheld.inline hstorage
      have hlength := length_of_held hall
      have hparts := portable_inline hstorage hlength hportable
      rw [decode_inline hstorage, encode_inline hstorage hlength]
      refine ((settles_decodeAll (List.forall₂_iff_zip.mpr ⟨hall.length_eq, fun hpair => ?_⟩)).map
        _).congr fun _ _ => (emits_inline hstorage hlength).symm
      obtain ⟨part, hpart, rfl⟩ := List.mem_map.mp (List.of_mem_zip hpair).1
      exact ih part hpart (List.forall₂_zip hparts hpair) (List.forall₂_zip hall hpair)
  | container type hstorage ih =>
      obtain ⟨count, values, rfl, hall⟩ := hheld.container hstorage
      have hlength := length_of_held hall
      obtain ⟨hcount, hunits⟩ := portable_container hstorage hlength hportable
      rw [decode_container hstorage, encode_container hstorage hlength]
      refine (Decoder.Settles.count hcount ((settles_decodeAll (List.forall₂_iff_zip.mpr
        ⟨hall.length_eq, fun hpair => ?_⟩)).map _)).congr
        fun _ _ => (emits_container hstorage hlength).symm
      obtain ⟨part, hpart, rfl⟩ := List.mem_map.mp (List.of_mem_zip hpair).1
      exact ih count part hpart (List.forall₂_zip hunits hpair) (List.forall₂_zip hall hpair)

/-- Where every unit takes a byte, each count has enough bytes behind it. -/
theorem emits_le (hcountable : type.countable = true) (hportable : type.Portable package value)
    (hheld : type.Held value) {found behind : Nat} (h : type.Emits value found behind) :
    found ≤ behind := by
  have htakes := takes_decode ⟨hcountable, hportable, hheld⟩ 0 []
  rcases settles_decode hportable hheld 0 [] with ⟨hcounts, -⟩ | ⟨_, _, _, -, -, hrun⟩
  · exact hcounts found behind h
  · cases (congrArg Prod.fst (htakes.symm.trans hrun))

/-- The bytes of a value are loaded into any place of its type if, and only if, each count
among them has as many bytes behind it; then they are used up and the value is the same.  If
not, such a count is refused.  Where units cannot be empty, no count ever is. -/
theorem load_encoded (hresolved : type.Resolved) {mask originMask : UInt32}
    (hmask : type = .bool → mask ≠ 0) {source target : Store} {origin location : Location}
    {old : Value} {held owned : List Nat}
    (hsource : source.Holds type origin originMask value held)
    (hportable : type.Portable package value) (htarget : target.Owns type location mask old owned)
    (pos : Nat) (suffix : List UInt8) {outcome : Except PropertyError Unit} {after : Filling}
    (hrun : runFrom (⟨target, ⟨pos, type.encode value ++ suffix⟩⟩ : Filling)
      (load package location mask type) = (outcome, after)) (hfits : after.store.Fits) :
    (outcome = .ok () ↔
      ∀ found behind, type.Emits value found behind → found ≤ behind + suffix.length) ∧
    (outcome = .ok () → after.cursor = ⟨pos + (type.encode value).length, suffix⟩ ∧
      type.snapshot after.store location mask = type.snapshot source origin originMask ∧
      (originMask = mask → type.identical source origin after.store location mask = .ok true)) ∧
    (∀ error, outcome = .error error → ∃ found behind, type.Emits value found behind ∧
      behind + suffix.length < found ∧ error = .invalidCount found (behind + suffix.length)) ∧
    (type.countable = true → outcome = .ok ()) := by
  have hheld : type.Held value := ⟨source, origin, originMask, held, hsource⟩
  obtain ⟨value', owned', howns, -, houtcome, hcursor, hvalue⟩ :=
    (load_decodes package hresolved hmask).renew hrun hfits htarget False.elim
  rcases settles_decode hportable hheld pos suffix with ⟨hcounts, hdecode⟩ |
    ⟨found, behind, next, hemits, hlt, hdecode⟩
  · rw [hdecode] at houtcome hcursor hvalue
    obtain rfl : outcome = .ok () := houtcome
    obtain rfl := hvalue value rfl
    refine ⟨⟨fun _ => hcounts, fun _ => rfl⟩, fun _ => ⟨hcursor, ?_, ?_⟩, nofun, fun _ => rfl⟩
    · exact (snapshot_of_holds howns.holds).trans (snapshot_of_holds hsource).symm
    · rintro rfl
      obtain ⟨same, hsame, hiff⟩ := identical_of_holds hsource howns.holds
      rw [hsame, hiff.mpr rfl]
  · rw [hdecode] at houtcome
    obtain rfl : outcome = .error (.invalidCount found (behind + suffix.length)) := houtcome
    refine ⟨⟨nofun, fun hcounts => ?_⟩, nofun, ?_, fun hcountable => ?_⟩
    · exact absurd (hcounts found behind hemits) (Nat.not_le_of_lt hlt)
    · intro error herror
      exact ⟨found, behind, hemits, hlt, (Except.error.inj herror).symm⟩
    · have hle := emits_le hcountable hportable hheld hemits
      omega

end PropertyType

namespace HollowItems

/-- A struct without members, whose values take no bytes. -/
def hollow : StructLayout := ⟨"Hollow", none, [], 0, [], 0, 1⟩

def fields : List LayoutField := [.property "Items" (.array (.struct hollow)) 1 .empty]

def items : Property := ⟨0, "Bag", "Items", .array (.struct hollow), 1, .empty, 0, 0⟩

def layout : StructLayout := ⟨"Bag", none, [items], 0, [], 8, 8⟩

theorem catalogue : Catalogue [layout, hollow] :=
  @Catalogue.build [hollow] 0 "Bag" none fields layout
    (@Catalogue.build [] 0 "Hollow" none [] hollow .empty nofun nofun nofun rfl) nofun
    (by simp [fields, LayoutField.structs, PropertyType.structs]) (by simp [hollow]) rfl

theorem items_resolved : items.type.Resolved :=
  ((catalogue.built _ List.mem_cons_self).arranged.placed items List.mem_cons_self).resolved

def pair : Value := .array [.struct [], .struct []]

/-- A bag of two items that are kept in no bytes, and one of none. -/
def full : Store := ⟨#[1, 0, 0, 0, 0, 0, 0, 0], #[.elements #[] 2]⟩

def empty : Store := .zeroed 8

def package : Package := ⟨69, ⟨["None"]⟩, default⟩

theorem full_holds : full.Holds items.type (.root 0) 0 pair [0] := by
  have hroom : full.Room (.element 0 0) (PropertyType.struct hollow).size :=
    ⟨#[], 2, rfl, by decide⟩
  have hitem : full.Holds (.struct hollow) (.element 0 0) elementMask (.struct []) [] :=
    @Store.Holds.inline _ (.struct hollow) _ _ [] [] rfl hroom .nil
  have hunits : full.HoldsAll (.element 0 0) (items.type.unitParts 2) [.struct [], .struct []]
      ([] ++ ([] ++ [])) := .cons hitem (.cons hitem .nil)
  have hbuffer : full.Buffer items.type (.root 0) 0 2 := ⟨by decide, #[], rfl, rfl⟩
  exact .container rfl hbuffer hunits

theorem pair_portable : items.type.Portable package pair := by
  refine ⟨by decide, fun item hitem => ?_⟩
  simp only [List.mem_cons, List.not_mem_nil, or_false, or_self] at hitem
  subst hitem
  trivial

theorem empty_owns : empty.Owns items.type (.root 0) 0 (.array []) [] :=
  (@Store.Holds.noContainer empty items.type (.root 0) 0 rfl (by decide)).owns

/-- The one byte of two items is not taken back, since no byte is behind the count. -/
theorem pair_refused : items.type.Resolved ∧ full.Holds items.type (.root 0) 0 pair [0] ∧
    items.type.Portable package pair ∧ empty.Owns items.type (.root 0) 0 (.array []) [] ∧
    items.type.encode pair = [2] ∧
    (runFrom (⟨empty, ⟨0, items.type.encode pair ++ []⟩⟩ : Filling)
      (items.type.load package (.root 0) 0)).1 = .error (.invalidCount 2 0) :=
  ⟨items_resolved, full_holds, pair_portable, empty_owns, by decide +kernel, by decide +kernel⟩

/-- What comes of the same byte where two more follow. -/
def taken : Except PropertyError Unit × Filling :=
  runFrom ⟨empty, ⟨0, items.type.encode pair ++ [7, 7]⟩⟩ (items.type.load package (.root 0) 0)

theorem taken_run : runFrom (⟨empty, ⟨0, items.type.encode pair ++ [7, 7]⟩⟩ : Filling)
    (items.type.load package (.root 0) 0) = (taken.1, taken.2) := Prod.mk.eta.symm

theorem taken_fits : taken.2.store.Fits := by decide +kernel

theorem taken_ok : taken.1 = .ok () := rfl

/-- Then it is taken back. -/
theorem pair_taken : taken.2.cursor = ⟨1, [7, 7]⟩ ∧
    items.type.identical full (.root 0) taken.2.store (.root 0) 0 = .ok true := by
  have hkind : items.type ≠ .bool := by simp [items]
  have hlength : (items.type.encode pair).length = 1 := by decide +kernel
  obtain ⟨-, htaken, -, -⟩ := PropertyType.load_encoded items_resolved (fun h => absurd h hkind)
    full_holds pair_portable empty_owns 0 [7, 7] taken_run taken_fits
  obtain ⟨hcursor, -, hidentical⟩ := htaken taken_ok
  rw [hlength] at hcursor
  exact ⟨hcursor, hidentical rfl⟩

end HollowItems

end ObjectPackage
