/-
Progress on every input.  Nothing that a stream declares keeps a decoder going: scripts,
their walks and property lists are all decoded in steps that use the stream up.
-/
import ObjectPackage.Proofs.Script.Progress
import ObjectPackage.Proofs.Tagged.Progress

namespace ObjectPackage

/-- Decoding makes progress on every input, whether it succeeds or fails.  A script that is
decoded from a package, at any version and declared size, and the walk of any script meet no
more tokens than they have bytes and no budget runs out; every token takes a byte and gives
one; and a property list has at most one entry for two bytes, and no container with more
elements than bytes are left. -/
theorem decoding_progress (package : Package) (cursor : Cursor) :
    (∀ (version : UInt32) (size : Nat), ∃ events,
      (DecodeTrace.script (.package package.names) version size).Progress
        (Script.decodeFrom (.package package.names) version size)
        (fun script => Token.recordsFrom 0 script.statements) cursor events) ∧
    (∀ script : Script, ∃ events,
      (DecodeTrace.walk script).Progress script.redecode (Token.recordsFrom 0)
        (Cursor.ofBytes script.bytes) events ∧
      ∀ records, script.walk = .ok records → DecodeEvent.records events = records) ∧
    (∀ (source : ScriptSource) (version : UInt32) (levels : Nat) (state final : DecodeState)
      (token : Token),
      (source = .package package.names ∨ ∃ terminator, source = .blob terminator) →
      runFrom state (Decode.token source version levels) = (.ok token, final) →
        final.cursor.rest.length + 1 ≤ state.cursor.rest.length ∧
          state.decoded + 1 ≤ final.decoded) ∧
    ∀ block : Block, ∃ events, block.LoadProgress package cursor events := by
  refine ⟨fun version size => ?_, fun script => ?_, ?_,
    fun block => block.loadProgress package cursor⟩
  · have hforward := ScriptSource.forward_package package.names
    exact (hforward.script (ScriptSource.sound_package { package with version := version })
      size).progress
  · obtain ⟨events, hprogress⟩ := (ScriptSource.Forward.walk script).progress
    refine ⟨events, hprogress, fun records hwalk => ?_⟩
    rw [Script.walk] at hwalk
    split at hwalk
    · next statements hstatements =>
        obtain rfl := Except.ok.inj hwalk
        exact hprogress.given statements hstatements
    · cases hwalk
  · rintro source version levels state final token hsource hrun
    have haccepts : ∃ dialect, source.Sound dialect ∧ dialect.version = version := by
      rcases hsource with rfl | ⟨terminator, rfl⟩
      · exact ⟨_, ScriptSource.sound_package { package with version := version }, rfl⟩
      · exact ⟨_, ScriptSource.sound_blob version terminator, rfl⟩
    obtain ⟨dialect, hsound, rfl⟩ := haccepts
    obtain ⟨-, hadvance⟩ := hsound.token levels hrun
    have hlength := Token.length_canonical_pos token
    exact ⟨hadvance.used, by rw [hadvance.decoded]; omega⟩

namespace NestedStart

def package : Package := ⟨69, .initial, default⟩

/-- A discarded expression inside of another, and nothing else. -/
def input : List UInt8 := [0x0e, 0x0e]

/-- Two tokens are met before the decoding fails, which is as many as two bytes can hold. -/
theorem input_progress :
    ((Cursor.ofBytes input).decode (Script.decode package 5)).1 =
        .error (.lengthMismatch 5 2) ∧
      ∃ events, events = [.token ⟨0, 0, .eatString⟩, .token ⟨1, 1, .eatString⟩] ∧
        (DecodeEvent.records events).length ≤ input.length := by
  have hrun : runFrom ⟨⟨Cursor.ofBytes input, 0⟩, []⟩
      (DecodeTrace.script (.package package.names) 69 5) =
        (.error (.lengthMismatch 5 2),
          ⟨⟨⟨2, []⟩, 2⟩, [.token ⟨0, 0, .eatString⟩, .token ⟨1, 1, .eatString⟩]⟩) := by rfl
  obtain ⟨events, hprogress⟩ := (decoding_progress package (Cursor.ofBytes input)).1 69 5
  obtain ⟨houtcome, hevents⟩ := Prod.mk.inj (hprogress.run.symm.trans hrun)
  exact ⟨houtcome, events, congrArg Traced.events hevents, hprogress.length_le_input⟩

end NestedStart

end ObjectPackage
