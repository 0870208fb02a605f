/-
Reads go forward.  A read may fail anywhere, with part of its input used up, yet it never
goes back and never past the end: what it leaves is the end of what it found, and the
position has moved by what is missing.
-/
import ObjectPackage.Proofs.Stream.Delimit
import ObjectPackage.Proofs.Trace

namespace ObjectPackage

namespace Cursor

/-- The later cursor is the earlier one behind some of its bytes. -/
def Reaches (before after : Cursor) : Prop :=
  ∃ used, before.rest = used ++ after.rest ∧ after.pos = before.pos + used.length

instance : IsPreorder Cursor Reaches where
  refl _ := ⟨[], rfl, rfl⟩
  trans := by
    rintro first middle last ⟨used, hused, hpos⟩ ⟨more, hmore, hpos'⟩
    refine ⟨used ++ more, by rw [hused, hmore, List.append_assoc], ?_⟩
    rw [hpos', hpos, List.length_append, Nat.add_assoc]

theorem Reaches.length_le {before after : Cursor} (h : before.Reaches after) :
    after.rest.length ≤ before.rest.length := by
  obtain ⟨used, hused, -⟩ := h
  rw [hused, List.length_append]
  exact Nat.le_add_left _ _

theorem reaches_advance {cursor : Cursor} {count : Nat} (h : count ≤ cursor.rest.length) :
    cursor.Reaches (cursor.advance count) := by
  refine ⟨cursor.rest.take count, (List.take_append_drop count cursor.rest).symm, ?_⟩
  rw [List.length_take, Nat.min_eq_left h, advance]

end Cursor

namespace Read

variable {α : Type} {action : Read α}

/-- However the read ends, it does so at the cursor or behind it. -/
abbrev Forward (action : Read α) : Prop := Moves Cursor.Reaches action

theorem Forward.uses (h : action.Forward) : action.Uses 0 := by
  intro cursor value next hrun
  have hreaches := h cursor
  rw [hrun] at hreaches
  exact hreaches.length_le

theorem forward_bytes (count : Nat) : (bytes count).Forward := by
  intro cursor
  rw [runFrom_bytes]
  split
  · exact refl_of Cursor.Reaches cursor
  · next hlength => exact Cursor.reaches_advance (Nat.le_of_not_lt hlength)

theorem forward_skip (count : Nat) : (skip count).Forward :=
  (forward_bytes count).map fun _ => ()

theorem forward_u8 : u8.Forward := ((forward_bytes 1).map _).map _

theorem forward_u16 : u16.Forward := ((forward_bytes 2).map _).map _

theorem forward_u32 : u32.Forward := ((forward_bytes 4).map _).map _

theorem forward_i32 : i32.Forward := forward_u32.map _

theorem forward_indexTail (start more : Nat) : (indexTail start more).Forward := by
  induction more with
  | zero => exact .throw _
  | succ more ih =>
      refine forward_u8.bind fun byte => ?_
      dsimp only
      split
      · exact .pure _
      · exact ih.map _

theorem forward_index : index.Forward := by
  refine (Moves.get.map _).bind fun start => forward_u8.bind fun byte => ?_
  have hvalue (value : Int) : Forward
      (if Int32.minValue.toInt ≤ value ∧ value ≤ Int32.maxValue.toInt then
        pure (Int32.ofInt value) else throw (.indexOverflow start)) := by
    split
    · exact .pure _
    · exact .throw _
  dsimp only
  split
  · exact (forward_indexTail start 4).bind fun tail => hvalue _
  · exact (Moves.pure 0).bind fun tail => hvalue _

theorem forward_arrayIndex : arrayIndex.Forward := by
  refine forward_u8.bind fun first => ?_
  dsimp only
  split
  · exact .pure _
  · split
    · exact forward_u8.bind fun low => .pure _
    · exact forward_u8.bind fun high => forward_u8.bind fun middle => forward_u8.bind fun low =>
        .pure _

theorem forward_name (names : NameTable) : (name names).Forward := by
  refine forward_index.bind fun slot => ?_
  dsimp only
  split
  · exact .throw _
  · exact .pure _

theorem forward_handle (objects : ObjectTable) : (handle objects).Forward := by
  refine (forward_index.map ObjectRef.mk).bind fun reference => ?_
  split
  · exact .pure _
  · exact .throw _

theorem forward_units (count : Nat) : (units count).Forward := by
  induction count with
  | zero => exact .pure _
  | succ count ih => exact forward_u16.bind fun unit => ih.map _

theorem forward_string : string.Forward := by
  refine (Moves.get.map _).bind fun start => forward_index.bind fun length => ?_
  dsimp only
  split
  · exact .pure _
  · split
    · refine (forward_bytes _).bind fun text => ?_
      split
      · exact .pure _
      · exact .throw _
    · refine (forward_units _).bind fun text => ?_
      split
      · split
        · exact .pure _
        · exact .throw _
      · exact .throw _

section Terminated

theorem forward_bytesZ : bytesZ.Forward := by
  intro cursor
  cases hrun : runFrom cursor bytesZ with
  | mk outcome next =>
      cases outcome with
      | ok text =>
          obtain ⟨-, hused, hpos⟩ := bytesZ_splits hrun
          exact ⟨_, hused, hpos⟩
      | error error =>
          simp only [bytesZ, runFrom_bind, runFrom_get] at hrun
          split at hrun
          · obtain ⟨-, rfl⟩ := Prod.mk.inj hrun
            exact refl_of Cursor.Reaches cursor
          · cases hrun

theorem length_scanUnits (bytes : List UInt8) : 2 * (scanUnits bytes).1.length ≤ bytes.length := by
  fun_induction scanUnits bytes with
  | case1 low high rest unit => exact Nat.zero_le _
  | case2 low high rest unit =>
      rename_i hzero units ended hscan ih
      rw [hscan] at ih
      simp only [List.length_cons] at ih ⊢
      omega
  | case3 bytes hshort => exact Nat.zero_le _

theorem forward_unitsZ : unitsZ.Forward := by
  intro cursor
  cases hrun : runFrom cursor unitsZ with
  | mk outcome next =>
      cases outcome with
      | ok units =>
          obtain ⟨-, hused, hpos⟩ := unitsZ_splits hrun
          exact ⟨_, hused, hpos⟩
      | error error =>
          simp only [unitsZ, runFrom_bind, runFrom_get] at hrun
          split at hrun
          · cases hrun
          · obtain ⟨-, rfl⟩ := Prod.mk.inj hrun
            exact Cursor.reaches_advance (length_scanUnits cursor.rest)

end Terminated

end Read

end ObjectPackage
