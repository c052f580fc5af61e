import OscHost.Proofs.Packet.MessageForm

/-!
# The canonical form of a message

Whatever a reader lets through an encoder accepts, at the same length. What it writes then differs from what
was read in the filler at most, so the two are equal just when the filler was blank.
-/

namespace OscHost

theorem eq_zeros_iff {fill : List UInt8} {count : Nat} (length : fill.length = count) :
    zeros count = fill ↔ ∀ byte ∈ fill, byte = 0 := by
  rw [eq_comm, zeros, List.eq_replicate_iff]
  simp [length]

theorem Fills.length_spare {length : Nat} {fill : List UInt8} (fills : Fills (length + 1) fill) :
    fill.length = textSpare length := by
  have whole := fills.length_padded
  unfold textSpare
  omega

namespace Field

variable {field : Field}

theorem Valid.encodable (valid : field.Valid) : field.value.Encodable := by
  obtain ⟨value, fill⟩ := field
  cases value with
  | string text | symbol text => exact valid.1
  | blob data => exact valid.1
  | _ => trivial

theorem Valid.length_fill (valid : field.Valid) : field.fill.length = field.value.spare := by
  obtain ⟨value, fill⟩ := field
  cases value with
  | string text | symbol text => exact valid.2.length_spare
  | blob data =>
    have whole := valid.2.length_blob
    dsimp only [Argument.spare]
    omega
  | char byte => exact valid
  | _ => exact congrArg List.length valid

/-- A writer reproduces the fields whose filler is blank. -/
theorem Valid.written_eq_iff (valid : field.Valid) :
    written field.value = field ↔ ∀ byte ∈ field.fill, byte = 0 := by
  rw [← eq_zeros_iff valid.length_fill]
  constructor
  · intro same
    exact congrArg fill same
  · intro blank
    exact congrArg (Field.mk field.value) blank

end Field

namespace MessageForm

variable {form : MessageForm}

/-- The bytes that no reader looks at: those after the address, the format, the texts and the blobs, and those
in front of the characters. -/
def filler (form : MessageForm) : List UInt8 :=
  form.pathFill ++ form.formatFill ++ form.fields.flatMap Field.fill

theorem Valid.encodable (valid : form.Valid) : ∀ arg ∈ form.arguments, arg.Encodable := by
  intro arg member
  obtain ⟨field, present, rfl⟩ := List.mem_map.mp member
  exact (valid.fields field present).encodable

theorem written_fields_iff {fields : List Field} (valid : ∀ field ∈ fields, field.Valid) :
    (fields.map Field.value).map Field.written = fields ↔ ∀ byte ∈ fields.flatMap Field.fill, byte = 0 := by
  induction fields with
  | nil => simp
  | cons field fields ih =>
    obtain ⟨valid, valids⟩ := List.forall_mem_cons.mp valid
    rw [List.map_cons, List.map_cons, List.cons.injEq, List.flatMap_cons, List.forall_mem_append,
      valid.written_eq_iff, ih valids]

/-- An encoder reproduces the forms whose filler is blank. -/
theorem Valid.written_eq_iff (valid : form.Valid) :
    written form.path form.arguments = form ↔ ∀ byte ∈ form.filler, byte = 0 := by
  have fields := written_fields_iff valid.fields
  have path := eq_zeros_iff valid.path.length_spare
  have letters := eq_zeros_iff valid.format.length_spare
  rw [form.length_format] at letters
  rw [filler, List.forall_mem_append, List.forall_mem_append, ← path, ← letters, ← fields]
  constructor
  · intro same
    exact ⟨⟨congrArg pathFill same, congrArg formatFill same⟩, congrArg MessageForm.fields same⟩
  · rintro ⟨⟨path, letters⟩, fields⟩
    rw [written, path, letters]
    exact congrArg (MessageForm.mk form.path form.pathFill form.formatFill) fields

end MessageForm

/-- A message that was accepted encodes at its own length, to the same message, and to the same bytes just
when its filler is blank. What is written is given by the address and the arguments alone. -/
theorem Message.encode_parsed {bytes : List UInt8} {m : Message} (parsed : Message.parse bytes = .ok m)
    (buffer : List UInt8) (room : buffer.length = bytes.length) :
    let encoded := encodeMessage buffer m.path m.arguments
    encoded.1 = .ok bytes.length ∧ encoded.2 = (MessageForm.written m.path m.arguments).bytes ∧
      (∃ again, Message.parse encoded.2 = .ok again ∧ again.path = m.path ∧ again.kinds = m.kinds ∧
        again.format = m.format ∧ again.arguments = m.arguments) ∧
      ∃ form : MessageForm, form.Valid ∧ form.bytes = bytes ∧
        (∀ other : MessageForm, other.Valid → other.bytes = bytes → other = form) ∧
        (encoded.2 = bytes ↔ ∀ byte ∈ form.filler, byte = 0) := by
  obtain ⟨form, valid, rfl, rfl⟩ := Message.parse_eq_ok.mp parsed
  have arguments := MessageForm.arguments_message valid
  have length := MessageForm.length_bytes valid
  have valid' := MessageForm.valid_written valid.address valid.encodable
  have same := MessageForm.arguments_written form.path form.arguments
  have needed : messageLength form.path form.arguments ≤ buffer.length := by omega
  have encoded := encodeMessage_eq valid.address valid.encodable needed
  rw [List.drop_of_length_le (by omega), List.append_nil, ← length] at encoded
  intro result
  have written : result = (.ok form.bytes.length, (MessageForm.written form.path form.arguments).bytes) := by
    rw [← encoded, ← arguments]
    rfl
  rw [written, arguments]
  refine ⟨rfl, rfl, ⟨(MessageForm.written form.path form.arguments).message, ?_, rfl, ?_, ?_, ?_⟩, form, valid,
    rfl, ?_, ?_⟩
  · exact Message.parse_eq_ok.mpr ⟨_, valid', rfl, rfl⟩
  · exact congrArg (List.map Argument.kind) same
  · exact congrArg (fun args => String.ofList ((args.map Argument.kind).map Kind.letter)) same
  · rw [MessageForm.arguments_message valid', same]
  · intro other valid'' whole
    exact MessageForm.bytes_inj valid'' valid whole
  · rw [← valid.written_eq_iff]
    constructor
    · intro whole
      exact MessageForm.bytes_inj valid' valid whole
    · exact congrArg MessageForm.bytes

/-- A message with filler of every kind: after the address, the format, a text and a blob, and in front of a
character. Encoding it again clears all of them. -/
theorem Message.encode_parsed_filled :
    let bytes : List UInt8 := [0x2F, 0x61, 0, 7, 0x2C, 0x73, 0x62, 0x63, 0, 7, 7, 7, 0x78, 0, 7, 7,
      0, 0, 0, 1, 9, 7, 7, 7, 7, 7, 7, 0x79]
    ∃ m, Message.parse bytes = .ok m ∧ m.arguments = [.string "x", .blob [9], .char 0x79] ∧
      (encodeMessage (List.replicate 28 0xFF) m.path m.arguments).1 = .ok 28 ∧
      (encodeMessage (List.replicate 28 0xFF) m.path m.arguments).2 ≠ bytes := by
  intro bytes
  have accepted : (Message.parse bytes).toOption.map (fun m => (m.path, m.arguments)) =
      some ("/a", [.string "x", .blob [9], .char 0x79]) := by decide +kernel
  cases parsed : Message.parse bytes with
  | error e =>
    rw [parsed] at accepted
    cases accepted
  | ok m =>
    rw [parsed] at accepted
    obtain ⟨path, arguments⟩ := Prod.mk.inj (Option.some.inj accepted)
    obtain ⟨encoded, whole, -⟩ := Message.encode_parsed parsed (List.replicate 28 0xFF) rfl
    refine ⟨m, rfl, arguments, encoded, ?_⟩
    rw [whole, path, arguments]
    decide +kernel

end OscHost
