import OscHost.Proofs.Packet.MessageForm
import OscHost.Proofs.Wire.Appending

/-!
# Refused messages

An encoder checks all that it can before it writes, so a message that it refuses leaves the writer as it
was. There is one thing that it finds out too late, the size of a blob that does not fit its length word:
then the address, the format and the arguments in front of the blob are written already
(`Writer.putMessage_refused`).
-/

namespace OscHost

/-- What an encoder checks before it writes. -/
structure Admissible (path : String) (args : List Argument) (room : Nat) : Prop where
  address : Text.isAddress path = true
  texts : ∀ text, .string text ∈ args ∨ .symbol text ∈ args → Text.isPlain text = true
  room : messageLength path args ≤ room

/-- A blob whose size does not fit its length word. -/
def Argument.IsOverlong : Argument → Prop
  | .blob data => maxLength < data.length
  | _ => False

/-- The address and the format of a message. -/
def messageHead (path : String) (args : List Argument) : List UInt8 :=
  padded (utf8 path) ++ padded (comma :: tags (args.map Argument.kind))

theorem messageLength_eq (path : String) (args : List Argument) :
    messageLength path args = (messageHead path args).length + total (args.map Argument.encodedLength) := by
  simp only [messageHead, messageLength, List.length_append, length_padded, List.length_cons, tags,
    List.length_map, Nat.add_comm args.length]

theorem all_isPlain_iff {args : List Argument} :
    (args.filterMap Argument.asText?).all Text.isPlain = true ↔
      ∀ text, .string text ∈ args ∨ .symbol text ∈ args → Text.isPlain text = true := by
  simp only [List.all_eq_true, List.mem_filterMap]
  constructor
  · rintro plain text (given | given)
    · exact plain text ⟨_, given, rfl⟩
    · exact plain text ⟨_, given, rfl⟩
  · rintro plain text ⟨arg, given, isText⟩
    cases arg with
    | string other =>
      cases isText
      exact plain text (.inl given)
    | symbol other =>
      cases isText
      exact plain text (.inr given)
    | _ => cases isText

theorem Argument.IsOverlong.not_encodable {arg : Argument} (overlong : arg.IsOverlong) : ¬arg.Encodable := by
  cases arg with
  | blob data => exact Nat.not_le.mpr overlong
  | _ => exact overlong.elim

namespace Writer

variable {w w' : Writer} {e : WireError} {path : String} {arg : Argument} {args : List Argument}

/-- With room and plain text an argument fails only where a blob is too long, and writes nothing then. -/
theorem putArgument_error (room : arg.encodedLength ≤ w.remaining)
    (texts : ∀ text, .string text = arg ∨ .symbol text = arg → Text.isPlain text = true)
    (failed : putArgument arg w = .error e w') : arg.IsOverlong ∧ w' = w := by
  by_cases encodable : arg.Encodable
  · have fits : (Field.written arg).bytes.length ≤ w.remaining := by
      rw [Field.length_bytes (Field.valid_written.mpr encodable)]
      exact room
    rw [putArgument_of_encodable encodable, put_ok fits] at failed
    cases failed
  · obtain ⟨_, refused⟩ := putArgument_of_not_encodable encodable w
    cases refused.symm.trans failed
    refine ⟨?_, rfl⟩
    cases arg with
    | string text => exact absurd (texts text (.inl rfl)) encodable
    | symbol text => exact absurd (texts text (.inr rfl)) encodable
    | blob data => exact Nat.lt_of_not_le encodable
    | _ => exact absurd trivial encodable

theorem putArguments_error (room : total (args.map Argument.encodedLength) ≤ w.remaining)
    (texts : ∀ text, .string text ∈ args ∨ .symbol text ∈ args → Text.isPlain text = true)
    (failed : putArguments args w = .error e w') :
    ∃ before long after, args = before ++ long :: after ∧ long.IsOverlong ∧
      putArguments before w = .ok () w' := by
  induction args generalizing w with
  | nil => cases failed
  | cons arg args ih =>
    rw [List.map_cons, total] at room
    have own : ∀ text, .string text = arg ∨ .symbol text = arg → Text.isPlain text = true := by
      rintro text (rfl | rfl)
      · exact texts text (.inl List.mem_cons_self)
      · exact texts text (.inr List.mem_cons_self)
    rcases bind_eq_error.mp failed with failed | ⟨_, u, first, failed⟩
    · obtain ⟨long, rfl⟩ := putArgument_error (by omega) own failed
      exact ⟨[], arg, args, rfl, long, rfl⟩
    · obtain ⟨encodable, written⟩ := putArgument_eq_ok.mp first
      have left : u.remaining = w.remaining - arg.encodedLength := by
        have length := Field.length_bytes (Field.valid_written.mpr encodable)
        rw [(put_eq_ok.mp written).2, remaining, List.length_drop, length]
        rfl
      obtain ⟨before, long, after, rfl, overlong, reached⟩ := ih (by omega)
        (fun text given => texts text (given.imp (List.mem_cons_of_mem _) (List.mem_cons_of_mem _))) failed
      exact ⟨arg :: before, long, after, rfl, overlong, bind_eq_ok.mpr ⟨_, u, first, reached⟩⟩

/-- What is admissible gets as far as the arguments. -/
theorem putMessage_admissible (admissible : Admissible path args w.remaining) :
    putMessage path args w =
      putArguments args
        ⟨w.written ++ messageHead path args, w.beyond.drop (messageHead path args).length⟩ := by
  obtain ⟨address, texts, room⟩ := admissible
  have head : (messageHead path args).length ≤ w.remaining := by
    rw [messageLength_eq] at room
    omega
  obtain ⟨u, first, second⟩ := put_append.mp (put_ok head)
  have address' : putText path w = .ok () u := by
    rw [putText_eq (zero_not_mem_of_isAddress address), ← padded_eq]
    exact first
  rw [putMessage, if_pos address, if_pos (all_isPlain_iff.mpr texts)]
  show (if w.remaining < messageLength path args then _ else _ : Write Unit) w = _
  rw [if_neg (Nat.not_lt.mpr room)]
  simp only [bind, EStateM.bind, address', second]
  rfl

theorem putMessage_inadmissible (inadmissible : ¬Admissible path args w.remaining) :
    ∃ e, putMessage path args w = .error e w := by
  rw [putMessage]
  split
  · rename_i address
    split
    · rename_i texts
      have short : w.remaining < messageLength path args :=
        Nat.lt_of_not_le fun room => inadmissible ⟨address, all_isPlain_iff.mp texts, room⟩
      refine ⟨.bufferOverflow (messageLength path args) w.remaining, ?_⟩
      show (if w.remaining < messageLength path args then _ else _ : Write Unit) w = _
      rw [if_pos short]
      rfl
    · exact ⟨_, rfl⟩
  · exact ⟨_, rfl⟩

theorem putMessage_late (failed : putMessage path args w = .error e w') (moved : w' ≠ w) :
    Admissible path args w.remaining ∧
      ∃ before long after, args = before ++ long :: after ∧ long.IsOverlong ∧
        put (messageHead path args ++ payload (before.map Field.written)) w = .ok () w' := by
  by_cases admissible : Admissible path args w.remaining
  · rw [putMessage_admissible admissible] at failed
    have room := admissible.room
    rw [messageLength_eq] at room
    obtain ⟨before, long, after, whole, overlong, reached⟩ := putArguments_error (by
      rw [remaining, List.length_drop]
      exact Nat.le_sub_of_add_le' room) admissible.texts failed
    refine ⟨admissible, before, long, after, whole, overlong, put_append.mpr ⟨_, put_ok ?_, ?_⟩⟩
    · exact Nat.le_of_add_right_le room
    · exact (putArguments_eq_ok.mp reached).2
  · obtain ⟨_, refused⟩ := putMessage_inadmissible admissible
    cases refused.symm.trans failed
    exact absurd rfl moved

theorem putMessage_overlong (admissible : Admissible path args w.remaining) (given : arg ∈ args)
    (overlong : arg.IsOverlong) :
    ∃ e w', putMessage path args w = .error e w' ∧ w.written ++ messageHead path args <+: w'.written := by
  have refused : ∀ w', putMessage path args w ≠ .ok () w' := fun w' done =>
    overlong.not_encodable ((putMessage_eq_ok.mp done).2.1 arg given)
  cases result : putMessage path args w with
  | ok done w' => exact absurd result (refused w')
  | error e w' =>
    rw [putMessage_admissible admissible] at result
    exact ⟨e, w', rfl, (appends_putArguments args _).2 e w' result⟩

/-- A refused message leaves the writer as it was, unless all is admissible but a blob is too long. Then the
writer has got as far as that blob, and keeps what it has written. -/
theorem putMessage_refused (w : Writer) (path : String) (args : List Argument) :
    ((∃ e w', putMessage path args w = .error e w' ∧ w' ≠ w) ↔
      Admissible path args w.remaining ∧ ∃ arg ∈ args, arg.IsOverlong) ∧
      ∀ e w', putMessage path args w = .error e w' → w' ≠ w →
        ∃ before long after, args = before ++ long :: after ∧ long.IsOverlong ∧
          put (messageHead path args ++ payload (before.map Field.written)) w = .ok () w' := by
  refine ⟨⟨?_, ?_⟩, fun e w' failed moved => (putMessage_late failed moved).2⟩
  · rintro ⟨e, w', failed, moved⟩
    obtain ⟨admissible, before, long, after, rfl, overlong, -⟩ := putMessage_late failed moved
    exact ⟨admissible, long, List.mem_append_right _ List.mem_cons_self, overlong⟩
  · rintro ⟨admissible, arg, given, overlong⟩
    obtain ⟨e, w', failed, more⟩ := putMessage_overlong admissible given overlong
    refine ⟨e, w', failed, ?_⟩
    rintro rfl
    have length := more.length_le
    rw [List.length_append, messageHead, List.length_append, length_padded (comma :: _), paddedLength] at length
    omega

end Writer

/-- An encoder that refuses leaves the buffer as it was, if no blob is too long. If one is and all else is
admissible, the buffer starts with the address and the format of the message that was refused. -/
theorem encode_refused (buffer : List UInt8) (path format : String) (args : List Argument) :
    ((∀ arg ∈ args, ¬arg.IsOverlong) →
      (∀ e, (encodeMessage buffer path args).1 = .error e → (encodeMessage buffer path args).2 = buffer) ∧
      ∀ e, (encodeWithFormat buffer path format args).1 = .error e →
        (encodeWithFormat buffer path format args).2 = buffer) ∧
      (Admissible path args buffer.length → (∃ arg ∈ args, arg.IsOverlong) →
        (∃ e, (encodeMessage buffer path args).1 = .error e) ∧
          messageHead path args <+: (encodeMessage buffer path args).2) := by
  constructor
  · intro fits
    have plain : ∀ e, (encodeMessage buffer path args).1 = .error e →
        (encodeMessage buffer path args).2 = buffer := by
      intro e refused
      rw [encodeMessage] at refused ⊢
      cases result : Writer.putMessage path args (.ofBuffer buffer) with
      | ok done w =>
        rw [result] at refused
        cases refused
      | error e w =>
        have still : w = .ofBuffer buffer := by
          refine Decidable.byContradiction fun moved => ?_
          obtain ⟨-, arg, given, overlong⟩ :=
            (Writer.putMessage_refused (.ofBuffer buffer) path args).1.mp ⟨e, w, result, moved⟩
          exact fits arg given overlong
        rw [still]
        exact Writer.buffer_ofBuffer buffer
    refine ⟨plain, fun e refused => ?_⟩
    rw [encodeWithFormat] at refused ⊢
    split
    · rfl
    · rename_i fitting
      rw [fitting] at refused
      exact plain e refused
  · rintro admissible ⟨arg, given, overlong⟩
    have inFront : Admissible path args (Writer.ofBuffer buffer).remaining := admissible
    obtain ⟨e, w, failed, more⟩ := Writer.putMessage_overlong inFront given overlong
    rw [encodeMessage, failed]
    exact ⟨⟨e, rfl⟩, more.trans (List.prefix_append _ _)⟩

end OscHost
