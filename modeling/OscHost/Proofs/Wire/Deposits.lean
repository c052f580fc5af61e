import OscHost.Proofs.Stream.Framing
import OscHost.Proofs.Wire.Field
import OscHost.Proofs.Wire.Steadiness

/-!
# What a writer changes

A writer lays the form of a value over the bytes at its position, whatever they were, or changes nothing. So the
buffer behind it is a sheet on which the forms of the accepted values lie in the places where they were put
(`Writer.sheet_after`), and no call changes a byte outside of the place of its value (`Writer.after_exact`).
-/

namespace OscHost

/-! ### Laying bytes over others -/

/-- Afterwards the bytes from `offset` on are those of the patch, and all others are as before. -/
structure Laid (before after : List UInt8) (offset : Nat) (patch : List UInt8) : Prop where
  inside : ∀ i, i < patch.length → after[offset + i]? = patch[i]?
  outside : ∀ i, i < offset ∨ offset + patch.length ≤ i → after[i]? = before[i]?

theorem laid_overwrite {bytes patch : List UInt8} {offset : Nat} (fits : offset + patch.length ≤ bytes.length) :
    Laid bytes (overwrite bytes offset patch) offset patch := by
  have front : (bytes.take offset).length = offset := List.length_take_of_le (by omega)
  constructor
  · intro i within
    rw [overwrite, List.append_assoc, List.getElem?_append_right (by omega), front, Nat.add_sub_cancel_left,
      List.getElem?_append_left within]
  · rintro i (ahead | behind)
    · rw [overwrite, List.append_assoc, List.getElem?_append_left (by omega), List.getElem?_take_of_lt ahead]
    · rw [overwrite, List.getElem?_append_right (by rw [List.length_append]; omega), List.length_append, front,
        List.getElem?_drop, Nat.add_sub_of_le behind]

theorem overwrite_append {front back patch : List UInt8} :
    overwrite (front ++ back) front.length patch = front ++ patch ++ back.drop patch.length := by
  rw [overwrite, List.take_left, ← List.drop_drop, List.drop_left]

theorem overwrite_front {front back patch : List UInt8} {offset : Nat} (fits : offset + patch.length ≤ front.length) :
    overwrite (front ++ back) offset patch = overwrite front offset patch ++ back := by
  rw [overwrite, overwrite, List.take_append_of_le_length (by omega), List.drop_append_of_le_length fits,
    List.append_assoc _ _ back]

/-! ### Deposits -/

/-- What can be put at the position of a writer. -/
inductive Deposit where
  | bytes (data : List UInt8)
  | word (value : UInt32)
  | longWord (value : UInt64)
  | text (content : String)
  | argument (value : Argument)
  | bundleHeader (time : TimeTag)
  | element
  | frame (packet : List UInt8)
  deriving DecidableEq, Repr

namespace Deposit

def serve : Deposit → Write Unit
  | bytes data => Writer.put data
  | word value => Writer.putU32 value
  | longWord value => Writer.putU64 value
  | text content => Writer.putText content
  | argument value => Writer.putArgument value
  | bundleHeader time => Writer.putBundleHeader time
  | element => (fun _ => ()) <$> Writer.beginElement
  | frame packet => Writer.putFrame packet

/-- The bytes that stand for the value, padding included. They do not depend on the buffer. -/
def form : Deposit → List UInt8
  | bytes data => data
  | word value => bigEndian 4 value.toNat
  | longWord value => bigEndian 8 value.toNat
  | text content => padded (utf8 content)
  | argument value => (Field.written value).bytes
  | bundleHeader time => bundleTag ++ bigEndian 8 time.bits.toNat
  | element => zeros 4
  | frame packet => framed packet

def size : Deposit → Nat
  | bytes data => data.length
  | word _ | element => 4
  | longWord _ => 8
  | text content => paddedLength (utf8 content).length
  | argument value => value.encodedLength
  | bundleHeader _ => bundleTag.length + 8
  | frame packet => 4 + packet.length

/-- What is accepted where there is room for it. -/
def Sound : Deposit → Prop
  | text content => 0 ∉ utf8 content
  | argument value => value.Encodable
  | frame packet => packet.length < UInt32.size
  | bytes _ | word _ | longWord _ | bundleHeader _ | element => True

instance : (deposit : Deposit) → Decidable deposit.Sound
  | text content => inferInstanceAs (Decidable (0 ∉ utf8 content))
  | argument value => inferInstanceAs (Decidable value.Encodable)
  | frame packet => inferInstanceAs (Decidable (packet.length < UInt32.size))
  | bytes _ | word _ | longWord _ | bundleHeader _ | element => .isTrue trivial

variable {deposit : Deposit} {w w' : Writer}

theorem length_form (sound : deposit.Sound) : deposit.form.length = deposit.size := by
  cases deposit with
  | bytes data => rfl
  | word value => exact length_bigEndian 4 _
  | longWord value => exact length_bigEndian 8 _
  | text content => exact length_padded _
  | argument value => exact Field.length_bytes (Field.valid_written.mpr sound)
  | bundleHeader time => rw [form, size, List.length_append, length_bigEndian]
  | element => exact length_zeros 4
  | frame packet => rw [form, framed, size, List.length_append, length_bigEndian]

theorem serve_sound (sound : deposit.Sound) (w : Writer) : deposit.serve w = Writer.put deposit.form w := by
  cases deposit with
  | bytes | word | longWord | bundleHeader => rfl
  | text content => rw [serve, Writer.putText_eq sound, form, padded_eq]
  | argument value => exact Writer.putArgument_of_encodable sound
  | frame packet => exact Writer.putFrame_of_lt sound w
  | element =>
    -- The mark is made of the position alone, so only the blank word can fail.
    show ((fun _ => ()) <$> Writer.beginElement : Write Unit) w = Writer.put (zeros 4) w
    cases put : Writer.put (zeros 4) w with
    | ok done u => exact map_eq_ok.mpr ⟨_, Writer.beginElement_eq_ok.mpr ⟨rfl, put⟩, rfl⟩
    | error e u => exact map_eq_error.mpr ((get_bind _).trans (bind_of_error put))

theorem serve_unsound (unsound : ¬deposit.Sound) (w : Writer) : ∃ e, deposit.serve w = .error e w := by
  cases deposit with
  | bytes | word | longWord | bundleHeader | element => exact absurd trivial unsound
  | text content =>
    have zero : (utf8 content).contains 0 = true := List.contains_iff_mem.mpr (Decidable.not_not.mp unsound)
    rw [serve, Writer.putText, if_pos zero]
    exact ⟨_, rfl⟩
  | argument value => exact Writer.putArgument_of_not_encodable unsound w
  | frame packet => exact Writer.putFrame_of_not_lt unsound w

theorem serve_eq_ok {done : Unit} :
    deposit.serve w = .ok done w' ↔ deposit.Sound ∧ deposit.size ≤ w.remaining ∧
      w' = ⟨w.written ++ deposit.form, w.beyond.drop deposit.size⟩ := by
  by_cases sound : deposit.Sound
  · rw [serve_sound sound, Writer.put_eq_ok, length_form sound]
    exact (and_iff_right sound).symm
  · obtain ⟨e, refused⟩ := serve_unsound sound w
    rw [refused]
    exact iff_of_false nofun fun all => sound all.1

theorem serve_eq_error {e : WireError} (refused : deposit.serve w = .error e w') :
    w' = w ∧ (deposit.Sound → e = .bufferOverflow deposit.size w.remaining) := by
  by_cases sound : deposit.Sound
  · have short : w.remaining < deposit.form.length := by
      refine Nat.lt_of_not_le fun fits => ?_
      rw [serve_sound sound, Writer.put_ok fits] at refused
      cases refused
    rw [serve_sound sound, Writer.put_error short, length_form sound] at refused
    cases refused
    exact ⟨rfl, fun _ => rfl⟩
  · obtain ⟨e', same⟩ := serve_unsound sound w
    cases same.symm.trans refused
    exact ⟨rfl, fun sound' => absurd sound' sound⟩

end Deposit

namespace Writer

variable {deposit : Deposit} {mark : ElementMark} {w w' : Writer} {done : Unit}

theorem length_buffer (w : Writer) : w.buffer.length = w.position + w.remaining := List.length_append

theorem accepted_buffer (accepted : deposit.serve w = .ok done w') :
    w'.position = w.position + deposit.size ∧ w'.buffer = overwrite w.buffer w.position deposit.form := by
  obtain ⟨sound, fits, rfl⟩ := Deposit.serve_eq_ok.mp accepted
  have size := Deposit.length_form sound
  constructor
  · rw [position, List.length_append, size]
    rfl
  · rw [buffer, buffer, position, overwrite_append, size]

/-- The deposit is accepted whole or refused without a trace. -/
structure Deposits (w : Writer) (deposit : Deposit) : Prop where
  accepted : (∃ w', deposit.serve w = .ok () w') ↔ deposit.Sound ∧ deposit.size ≤ w.remaining
  placed : ∀ w', deposit.serve w = .ok () w' → deposit.form.length = deposit.size ∧
    w'.position = w.position + deposit.size ∧ Laid w.buffer w'.buffer w.position deposit.form
  refused : ∀ e w', deposit.serve w = .error e w' → w' = w ∧
    (deposit.Sound → e = .bufferOverflow deposit.size w.remaining)

theorem deposits (w : Writer) (deposit : Deposit) : w.Deposits deposit := by
  constructor
  · constructor
    · rintro ⟨w', accepted⟩
      obtain ⟨sound, fits, -⟩ := Deposit.serve_eq_ok.mp accepted
      exact ⟨sound, fits⟩
    · rintro ⟨sound, fits⟩
      exact ⟨_, Deposit.serve_eq_ok.mpr ⟨sound, fits, rfl⟩⟩
  · intro w' accepted
    obtain ⟨sound, fits, -⟩ := Deposit.serve_eq_ok.mp accepted
    obtain ⟨position, buffer⟩ := accepted_buffer accepted
    have size := Deposit.length_form sound
    refine ⟨size, position, ?_⟩
    rw [buffer]
    apply laid_overwrite
    rw [size, length_buffer]
    exact Nat.add_le_add_left fits _
  · intro e w' refused
    exact Deposit.serve_eq_error refused

/-- The length word at the mark is filled in for an element that ends at the position. -/
structure Completes (w : Writer) (mark : ElementMark) : Prop where
  accepted : (∃ w', endElement mark w = .ok () w') ↔ w.position - (mark.offset + 4) ≤ maxLength
  placed : ∀ w', endElement mark w = .ok () w' → w'.position = w.position ∧
    Laid w.buffer w'.buffer mark.offset (bigEndian 4 (w.position - (mark.offset + 4)))
  refused : ∀ e w', endElement mark w = .error e w' → w' = w

theorem completes (behind : mark.offset + 4 ≤ w.position) : w.Completes mark := by
  have fits : mark.offset + (bigEndian 4 (w.position - (mark.offset + 4))).length ≤ w.written.length := by
    rw [length_bigEndian]
    exact behind
  constructor
  · rw [endElement]
    by_cases short : w.position - (mark.offset + 4) ≤ maxLength
    · rw [if_pos ⟨behind, short⟩]
      exact iff_of_true ⟨_, rfl⟩ short
    · rw [if_neg fun both => short both.2]
      refine iff_of_false ?_ short
      rintro ⟨w', ended⟩
      cases ended
  · intro w' ended
    rw [endElement] at ended
    split at ended
    · cases ended
      refine ⟨length_overwrite fits, ?_⟩
      rw [buffer, buffer, ← overwrite_front fits]
      exact laid_overwrite (by rw [List.length_append]; omega)
    · cases ended
  · intro e w' failed
    exact endElement_error failed

/-! ### Runs -/

inductive Call where
  | deposit (deposit : Deposit)
  | rewind (position : Nat)
  deriving DecidableEq, Repr

/-- The writer after a call, whether the call fails or not. -/
def act (w : Writer) : Call → Writer
  | .deposit deposit =>
    match deposit.serve w with
    | .ok _ w' | .error _ w' => w'
  | .rewind position => w.rewind position

def after (w : Writer) (calls : List Call) : Writer := calls.foldl act w

structure Sheet where
  position : Nat
  bytes : List UInt8
  deriving DecidableEq, Repr

/-- Values are written over what is there, as far as there is room behind the position. -/
def Sheet.act (sheet : Sheet) : Call → Sheet
  | .deposit deposit =>
    if deposit.Sound ∧ sheet.position + deposit.size ≤ sheet.bytes.length then
      ⟨sheet.position + deposit.size, overwrite sheet.bytes sheet.position deposit.form⟩
    else sheet
  | .rewind position => { sheet with position := min position sheet.position }

def sheet (w : Writer) : Sheet := ⟨w.position, w.buffer⟩

theorem position_rewind (w : Writer) (position : Nat) : (w.rewind position).position = min position w.position := by
  rw [Writer.position, rewind, List.length_take]
  rfl

theorem sheet_act (w : Writer) (call : Call) : (w.act call).sheet = w.sheet.act call := by
  cases call with
  | deposit deposit =>
    have room : w.position + deposit.size ≤ w.buffer.length ↔ deposit.size ≤ w.remaining := by
      rw [length_buffer]
      omega
    show _ = if deposit.Sound ∧ w.position + deposit.size ≤ w.buffer.length then _ else _
    rw [act]
    cases served : deposit.serve w with
    | ok done w' =>
      obtain ⟨position, buffer⟩ := accepted_buffer served
      obtain ⟨sound, fits⟩ := (w.deposits deposit).accepted.mp ⟨w', served⟩
      rw [if_pos ⟨sound, room.mpr fits⟩]
      exact congr (congrArg Sheet.mk position) buffer
    | error e w' =>
      have refused : ¬(deposit.Sound ∧ w.position + deposit.size ≤ w.buffer.length) := by
        rintro ⟨sound, fits⟩
        obtain ⟨_, accepted⟩ := (w.deposits deposit).accepted.mpr ⟨sound, room.mp fits⟩
        cases served.symm.trans accepted
      rw [if_neg refused, ((w.deposits deposit).refused e w' served).1]
  | rewind position => exact congr (congrArg Sheet.mk (position_rewind w position)) (buffer_rewind w position)

theorem sheet_after (w : Writer) (calls : List Call) : (w.after calls).sheet = calls.foldl Sheet.act w.sheet := by
  induction calls generalizing w with
  | nil => rfl
  | cons call calls ih =>
    rw [after, List.foldl_cons, List.foldl_cons, ← sheet_act]
    exact ih (w.act call)

/-- However a writer was used, its buffer is the one that it was given with the accepted values written over it. A
further deposit that is refused leaves the writer as it was, and one that is accepted moves it by the size of the
value, writes the form of the value over the bytes that it passes, and changes no other byte. Going back changes
no byte. Completing an element changes its length word, which then says how far the position is behind it, or
nothing if that is too far. -/
theorem after_exact (w : Writer) (calls : List Call) :
    (w.after calls).sheet = calls.foldl Sheet.act w.sheet ∧
      (∀ deposit, (w.after calls).Deposits deposit) ∧
      (∀ position, ((w.after calls).rewind position).position = min position (w.after calls).position ∧
        ((w.after calls).rewind position).buffer = (w.after calls).buffer) ∧
      ∀ mark : ElementMark, mark.offset + 4 ≤ (w.after calls).position → (w.after calls).Completes mark := by
  refine ⟨sheet_after w calls, deposits _, ?_, ?_⟩
  · intro position
    exact ⟨position_rewind _ position, buffer_rewind _ position⟩
  · intro mark behind
    exact completes behind

/-- An element is completed in front of bytes that were written and then given up. -/
theorem after_exact_element :
    let w := (ofBuffer (List.replicate 13 0xEE)).after
      [.deposit .element, .deposit (.argument (.string "ab")), .deposit (.word 7), .deposit (.word 8), .rewind 8]
    w.buffer = [0, 0, 0, 0, 0x61, 0x62, 0, 0, 0, 0, 0, 7, 0xEE] ∧ w.position = 8 ∧
      ∃ w', endElement ⟨0⟩ w = .ok () w' ∧ Laid w.buffer w'.buffer 0 [0, 0, 0, 4] := by
  intro w
  have completes := (after_exact _ _).2.2.2 ⟨0⟩ (show 0 + 4 ≤ w.position by decide)
  obtain ⟨w', ended⟩ := completes.accepted.mpr (by decide)
  exact ⟨by decide, by decide, w', ended, (completes.placed w' ended).2⟩

end Writer

end OscHost
