import OscHost.Packet.Message
import OscHost.Proofs.Wire.Field

/-!
# The form of a message

A message is a padded address, a padded format, and one field for each letter of the format. A byte
string has at most one such form, parsing accepts just the byte strings that have one, and an encoder
writes the form with zero filler.
-/

namespace OscHost

/-- The filler belongs to the form. The letters of the format are those of the fields. -/
structure MessageForm where
  path : String
  pathFill : List UInt8
  formatFill : List UInt8
  fields : List Field
  deriving DecidableEq, Repr

def payload (fields : List Field) : List UInt8 := fields.flatMap Field.bytes

theorem payload_cons (field : Field) (fields : List Field) :
    payload (field :: fields) = field.bytes ++ payload fields := List.flatMap_cons

namespace MessageForm

def arguments (form : MessageForm) : List Argument := form.fields.map Field.value

def kinds (form : MessageForm) : List Kind := form.arguments.map Argument.kind

def format (form : MessageForm) : List UInt8 := comma :: tags form.kinds

def bytes (form : MessageForm) : List UInt8 :=
  textField (utf8 form.path) form.pathFill ++
    (textField form.format form.formatFill ++ payload form.fields)

structure Valid (form : MessageForm) : Prop where
  address : Text.isAddress form.path = true
  path : Fills ((utf8 form.path).length + 1) form.pathFill
  format : Fills (form.format.length + 1) form.formatFill
  fields : ∀ field ∈ form.fields, field.Valid

def message (form : MessageForm) : Message := ⟨form.bytes, form.path, form.kinds, payload form.fields⟩

end MessageForm

/-! ### Formats -/

/-- A format as a text, with its comma. -/
def formatText (kinds : List Kind) : String := String.ofList (',' :: kinds.map Kind.letter)

theorem letter_lt (kind : Kind) : kind.letter.toNat < 128 := by cases kind <;> decide

theorem utf8_letters (kinds : List Kind) : utf8 (String.ofList (kinds.map Kind.letter)) = tags kinds := by
  have ascii : ∀ c ∈ kinds.map Kind.letter, c.toNat < 128 := by
    intro c member
    obtain ⟨kind, _, rfl⟩ := List.mem_map.mp member
    exact letter_lt kind
  rw [utf8_ofList ascii, List.map_map]
  rfl

theorem utf8_formatText (kinds : List Kind) : utf8 (formatText kinds) = comma :: tags kinds := by
  have ascii : ∀ c ∈ [','], c.toNat < 128 := by
    intro c member
    rw [List.mem_singleton.mp member]
    decide
  have joined : formatText kinds = String.ofList [','] ++ String.ofList (kinds.map Kind.letter) := by
    rw [formatText, ← String.ofList_append, List.singleton_append]
  rw [joined, utf8_append, utf8_letters, utf8_ofList ascii]
  rfl

theorem zero_not_mem_format (kinds : List Kind) : 0 ∉ comma :: tags kinds := by
  intro zero
  rcases List.mem_cons.mp zero with isComma | letter
  · exact absurd isComma (by decide)
  · obtain ⟨kind, _, isZero⟩ := List.mem_map.mp letter
    revert isZero
    cases kind <;> decide

theorem tags_injective {kinds others : List Kind} (same : tags kinds = tags others) : kinds = others := by
  refine (List.map_inj_right ?_).mp same
  intro kind other same
  have known := congrArg Kind.ofByte? same
  rw [Kind.ofByte?_byte, Kind.ofByte?_byte] at known
  exact Option.some.inj known

/-! ### Parsing -/

theorem Read.kinds_eq_ok {letters unread rest : List UInt8} {kinds : List Kind} :
    Read.kinds letters unread = .ok kinds rest ↔
      ∃ fields : List Field, (∀ field ∈ fields, field.Valid) ∧
        (fields.map Field.value).map Argument.kind = kinds ∧ tags kinds = letters ∧
        payload fields ++ rest = unread := by
  induction letters generalizing unread rest kinds with
  | nil =>
    rw [Read.kinds, pure_eq_ok]
    constructor
    · rintro ⟨rfl, rfl⟩
      exact ⟨[], nofun, rfl, rfl, rfl⟩
    · rintro ⟨fields, _, rfl, none, rfl⟩
      simp only [tags, List.map_eq_nil_iff] at none
      subst none
      exact ⟨rfl, rfl⟩
  | cons letter letters ih =>
    constructor
    · intro read
      rw [Read.kinds] at read
      cases known : Kind.ofByte? letter with
      | none =>
        rw [known] at read
        exact absurd read throw_ne_ok
      | some kind =>
        simp only [known, bind_eq_ok, pure_eq_ok, Read.argument_eq_ok, ih] at read
        obtain ⟨value, left, ⟨fill, valid, rfl, rfl⟩, _, _, ⟨fields, valids, rfl, rfl, rfl⟩, rfl, rfl⟩ :=
          read
        refine ⟨⟨value, fill⟩ :: fields, List.forall_mem_cons.mpr ⟨valid, valids⟩, rfl, ?_, ?_⟩
        · rw [tags, List.map_cons, Kind.byte_of_ofByte? known]
          rfl
        · rw [payload_cons, List.append_assoc]
    · rintro ⟨fields, valid, rfl, same, rfl⟩
      cases fields with
      | nil => cases same
      | cons field fields =>
        obtain ⟨rfl, rfl⟩ := List.cons.inj same
        obtain ⟨valid, valids⟩ := List.forall_mem_cons.mp valid
        simp only [Read.kinds, Kind.ofByte?_byte, bind_eq_ok, pure_eq_ok, Read.argument_eq_ok, ih]
        refine ⟨field.value, payload fields ++ rest, ⟨field.fill, valid, rfl, ?_⟩, _, rest,
          ⟨fields, valids, rfl, rfl, rfl⟩, rfl, rfl⟩
        rw [payload_cons, List.append_assoc]

theorem decodeArguments_payload {fields : List Field} (valid : ∀ field ∈ fields, field.Valid)
    (rest : List UInt8) :
    decodeArguments ((fields.map Field.value).map Argument.kind) (payload fields ++ rest) =
      fields.map Field.value := by
  induction fields with
  | nil => rfl
  | cons field fields ih =>
    obtain ⟨valid, valids⟩ := List.forall_mem_cons.mp valid
    have read : Read.argument field.value.kind (payload (field :: fields) ++ rest) =
        .ok field.value (payload fields ++ rest) := by
      refine Read.argument_eq_ok.mpr ⟨field.fill, valid, rfl, ?_⟩
      rw [payload_cons, List.append_assoc]
    simp only [List.map_cons, decodeArguments, read, ih valids]

theorem Read.message_eq_ok {unread rest bytes : List UInt8} {path : String} {kinds : List Kind} :
    Read.message unread = .ok (path, kinds, bytes) rest ↔ rest = [] ∧
      ∃ form : MessageForm, form.Valid ∧ form.bytes = unread ∧ form.path = path ∧ form.kinds = kinds ∧
        payload form.fields = bytes := by
  simp only [Read.message, bind_eq_ok, get_eq_ok, when_eq_ok, unless_eq_ok, Read.text_eq_ok]
  constructor
  · rintro ⟨_, _, ⟨rfl, rfl⟩, _, text, _, ⟨_, pathFill, pathFills, rfl⟩, address, format, _,
      ⟨noZero, formatFill, formatFills, rfl⟩, read⟩
    cases letters : utf8 format with
    | nil =>
      rw [letters] at read
      exact absurd read throw_ne_ok
    | cons first tail =>
      simp only [letters, when_eq_ok, Decidable.not_not, bind_eq_ok, get_eq_ok, unless_eq_ok, pure_eq_ok,
        Read.kinds_eq_ok] at read
      obtain ⟨rfl, _, _, ⟨rfl, rfl⟩, _, _, ⟨fields, valid, rfl, rfl, rfl⟩, _, _, ⟨rfl, rfl⟩, done, same, rfl⟩ :=
        read
      obtain rfl := List.isEmpty_iff.mp done
      simp only [Prod.mk.injEq, List.append_nil] at same ⊢
      obtain ⟨rfl, rfl, rfl⟩ := same
      rw [letters] at formatFills
      exact ⟨trivial, ⟨text, pathFill, formatFill, fields⟩, ⟨address, pathFills, formatFills, valid⟩, rfl,
        rfl, rfl, rfl⟩
  · rintro ⟨rfl, form, valid, rfl, rfl, rfl, rfl⟩
    have letters : utf8 (formatText form.kinds) = form.format := utf8_formatText form.kinds
    refine ⟨form.bytes, form.bytes, ⟨rfl, rfl⟩, ?_, form.path,
      textField form.format form.formatFill ++ payload form.fields,
      ⟨zero_not_mem_of_isAddress valid.address, form.pathFill, valid.path, rfl⟩, valid.address,
      formatText form.kinds, payload form.fields,
      ⟨?_, form.formatFill, by rw [letters]; exact valid.format, by rw [letters]⟩, ?_⟩
    · simp [MessageForm.bytes, textField]
    · rw [letters]
      exact zero_not_mem_format form.kinds
    · simp only [letters, MessageForm.format, ne_eq, not_true_eq_false, if_false, bind_eq_ok, get_eq_ok,
        unless_eq_ok, pure_eq_ok, Read.kinds_eq_ok]
      exact ⟨_, _, ⟨rfl, rfl⟩, form.kinds, [], ⟨form.fields, valid.fields, rfl, rfl, List.append_nil _⟩, [],
        [], ⟨rfl, rfl⟩, rfl, rfl, rfl⟩

theorem Message.parse_eq_ok {bytes : List UInt8} {m : Message} :
    Message.parse bytes = .ok m ↔
      ∃ form : MessageForm, form.Valid ∧ form.bytes = bytes ∧ form.message = m := by
  rw [Message.parse]
  constructor
  · intro parsed
    cases read : Read.message bytes with
    | error error left =>
      rw [read] at parsed
      cases parsed
    | ok parts left =>
      obtain ⟨path, kinds, body⟩ := parts
      simp only [read, Except.ok.injEq] at parsed
      obtain ⟨_, form, valid, rfl, rfl, rfl, rfl⟩ := Read.message_eq_ok.mp read
      exact ⟨form, valid, rfl, parsed⟩
  · rintro ⟨form, valid, rfl, rfl⟩
    rw [Read.message_eq_ok.mpr ⟨rfl, form, valid, rfl, rfl, rfl, rfl⟩]
    rfl

-- Neither the filler after the texts nor that in front of the character has to be zero.
example :
    (Message.parse [0x2F, 0x61, 0, 7, 0x2C, 0x63, 0, 9, 1, 2, 3, 0x78]).toOption.map Message.arguments =
      some [.char 0x78] := by decide

namespace MessageForm

theorem length_format (form : MessageForm) : form.format.length = 1 + form.arguments.length := by
  rw [format, tags, kinds, List.length_cons, List.length_map, List.length_map, Nat.add_comm]

theorem arguments_message {form : MessageForm} (valid : form.Valid) :
    form.message.arguments = form.arguments := by
  have decoded := decodeArguments_payload valid.fields []
  rw [List.append_nil] at decoded
  exact decoded

theorem fields_inj {fields others : List Field} (valid : ∀ field ∈ fields, field.Valid)
    (valid' : ∀ field ∈ others, field.Valid)
    (kinds : (fields.map Field.value).map Argument.kind = (others.map Field.value).map Argument.kind)
    (same : payload fields = payload others) : fields = others := by
  induction fields generalizing others with
  | nil =>
    cases others with
    | nil => rfl
    | cons _ _ => cases kinds
  | cons field fields ih =>
    cases others with
    | nil => cases kinds
    | cons other others =>
      obtain ⟨kind, more⟩ := List.cons.inj kinds
      obtain ⟨valid, valids⟩ := List.forall_mem_cons.mp valid
      obtain ⟨valid', valids'⟩ := List.forall_mem_cons.mp valid'
      rw [payload_cons, payload_cons] at same
      obtain ⟨rfl, rest⟩ := Field.append_inj valid valid' kind same
      rw [ih valids valids' more rest]

theorem bytes_inj {form other : MessageForm} (valid : form.Valid) (valid' : other.Valid)
    (same : form.bytes = other.bytes) : form = other := by
  -- The first zero byte ends the address, the next one after it the format, and the letters of the
  -- format say how long each field is.
  obtain ⟨path, pathFill, formatFill, fields⟩ := form
  obtain ⟨path', pathFill', formatFill', fields'⟩ := other
  obtain ⟨rfl, rfl, rest⟩ := textField_inj (zero_not_mem_of_isAddress valid.address)
    (zero_not_mem_of_isAddress valid'.address) valid.path valid'.path same
  have formats := valid.format
  have formats' := valid'.format
  simp only [format, ← utf8_formatText] at rest formats formats'
  obtain ⟨letters, rfl, fieldsSame⟩ := textField_inj (by rw [utf8_formatText]; exact zero_not_mem_format _)
    (by rw [utf8_formatText]; exact zero_not_mem_format _) formats formats' rest
  have tagsSame := congrArg utf8 letters
  rw [utf8_formatText, utf8_formatText] at tagsSame
  obtain rfl := fields_inj valid.fields valid'.fields (tags_injective (List.cons.inj tagsSame).2) fieldsSame
  rfl

theorem length_payload {fields : List Field} (valid : ∀ field ∈ fields, field.Valid) :
    (payload fields).length = total ((fields.map Field.value).map Argument.encodedLength) := by
  induction fields with
  | nil => rfl
  | cons field fields ih =>
    obtain ⟨valid, valids⟩ := List.forall_mem_cons.mp valid
    rw [payload_cons, List.length_append, Field.length_bytes valid, ih valids]
    rfl

theorem length_bytes {form : MessageForm} (valid : form.Valid) :
    form.bytes.length = messageLength form.path form.arguments := by
  have count := form.length_format
  have path := valid.path.length_padded
  have letters := valid.format.length_padded
  rw [count] at letters
  rw [bytes, textField, textField, messageLength, ← path, ← letters]
  simp only [List.length_append, List.length_cons, length_payload valid.fields, count, arguments]
  omega

end MessageForm

theorem messageLength_aligned (path : String) (args : List Argument) : 4 ∣ messageLength path args := by
  have fields : 4 ∣ total (args.map Argument.encodedLength) := by
    induction args with
    | nil => exact Nat.dvd_zero 4
    | cons arg args ih =>
      rw [List.map_cons, total]
      exact Nat.dvd_add arg.encodedLength_aligned ih
  exact Nat.dvd_add (Nat.dvd_add (Nat.dvd_mul_left 4 _) (Nat.dvd_mul_left 4 _)) fields

/-- Parsing accepts a byte string just when it has a form. There is one form then, and the parts of
the message are those of the form. -/
theorem Message.parse_grammar (bytes : List UInt8) :
    ((∃ m, Message.parse bytes = .ok m) ↔ ∃ form : MessageForm, form.Valid ∧ form.bytes = bytes) ∧
      ∀ m, Message.parse bytes = .ok m → ∃ form : MessageForm, form.Valid ∧ form.bytes = bytes ∧
        (∀ other : MessageForm, other.Valid → other.bytes = bytes → other = form) ∧
        m.bytes = bytes ∧ m.path = form.path ∧ m.kinds = form.kinds ∧
        utf8 m.format = tags form.kinds ∧ m.arguments = form.arguments := by
  constructor
  · constructor
    · rintro ⟨m, parsed⟩
      obtain ⟨form, valid, whole, _⟩ := Message.parse_eq_ok.mp parsed
      exact ⟨form, valid, whole⟩
    · rintro ⟨form, valid, whole⟩
      exact ⟨form.message, Message.parse_eq_ok.mpr ⟨form, valid, whole, rfl⟩⟩
  · intro m parsed
    obtain ⟨form, valid, rfl, rfl⟩ := Message.parse_eq_ok.mp parsed
    refine ⟨form, valid, rfl, ?_, rfl, rfl, rfl, utf8_letters form.kinds,
      MessageForm.arguments_message valid⟩
    intro other valid' same
    exact MessageForm.bytes_inj valid' valid same

/-! ### Encoding -/

/-- The form that an encoder writes. -/
def MessageForm.written (path : String) (args : List Argument) : MessageForm where
  path
  pathFill := zeros (textSpare (utf8 path).length)
  formatFill := zeros (textSpare (1 + args.length))
  fields := args.map Field.written

theorem MessageForm.arguments_written (path : String) (args : List Argument) :
    (written path args).arguments = args := by
  rw [arguments, written, List.map_map]
  exact List.map_id args

theorem MessageForm.valid_written {path : String} {args : List Argument}
    (address : Text.isAddress path = true) (encodable : ∀ arg ∈ args, arg.Encodable) :
    (written path args).Valid where
  address := address
  path := fills_textSpare _
  format := by
    rw [length_format, arguments_written]
    exact fills_textSpare _
  fields := by
    intro field member
    obtain ⟨arg, given, rfl⟩ := List.mem_map.mp member
    exact Field.valid_written.mpr (encodable arg given)

theorem MessageForm.length_written {path : String} {args : List Argument}
    (address : Text.isAddress path = true) (encodable : ∀ arg ∈ args, arg.Encodable) :
    (written path args).bytes.length = messageLength path args := by
  rw [length_bytes (valid_written address encodable), arguments_written]
  rfl

namespace Writer

variable {w w' : Writer} {done : Unit} {path : String} {args : List Argument}

theorem putArguments_eq_ok :
    putArguments args w = .ok done w' ↔
      (∀ arg ∈ args, arg.Encodable) ∧ put (payload (args.map Field.written)) w = .ok () w' := by
  induction args generalizing w with
  | nil =>
    simp only [putArguments, pure_eq_ok, payload, List.map_nil, List.flatMap_nil, put_eq_ok,
      List.append_nil, List.length_nil, List.drop_zero, Nat.zero_le, true_and]
    constructor
    · rintro rfl
      exact ⟨fun _ member => absurd member List.not_mem_nil, rfl⟩
    · rintro ⟨_, rfl⟩
      rfl
  | cons arg args ih =>
    simp only [putArguments, bind_eq_ok, putArgument_eq_ok, ih, List.map_cons, payload_cons, put_append,
      List.forall_mem_cons]
    constructor
    · rintro ⟨_, u, ⟨first, put⟩, rest, puts⟩
      exact ⟨⟨first, rest⟩, u, put, puts⟩
    · rintro ⟨⟨first, rest⟩, u, put, puts⟩
      exact ⟨(), u, ⟨first, put⟩, rest, puts⟩

/-- A message is written whole, and only when it can be read back. -/
theorem putMessage_eq_ok :
    putMessage path args w = .ok done w' ↔ Text.isAddress path = true ∧ (∀ arg ∈ args, arg.Encodable) ∧
      put (MessageForm.written path args).bytes w = .ok () w' := by
  have count : (comma :: tags (args.map Argument.kind)).length = 1 + args.length := by
    rw [tags, List.length_cons, List.length_map, List.length_map, Nat.add_comm]
  have whole : (MessageForm.written path args).bytes =
      textField (utf8 path) (zeros (textSpare (utf8 path).length)) ++
        (padded (comma :: tags (args.map Argument.kind)) ++ payload (args.map Field.written)) := by
    rw [padded_eq, count, MessageForm.bytes, MessageForm.format, MessageForm.kinds,
      MessageForm.arguments_written]
    rfl
  simp only [putMessage, bind_eq_ok, get_eq_ok, unless_eq_ok, when_eq_ok, putArguments_eq_ok]
  constructor
  · rintro ⟨address, _, _, _, ⟨rfl, rfl⟩, _, _, u, first, _, v, second, encodable, third⟩
    rw [putText_eq (zero_not_mem_of_isAddress address)] at first
    rw [whole, put_append]
    exact ⟨address, encodable, u, first, put_append.mpr ⟨v, second, third⟩⟩
  · rintro ⟨address, encodable, written⟩
    -- The whole form fits, so the room that is asked for in advance is there.
    have room := (put_eq_ok.mp written).1
    rw [MessageForm.length_written address encodable] at room
    rw [whole, put_append] at written
    obtain ⟨u, first, written⟩ := written
    obtain ⟨v, second, third⟩ := put_append.mp written
    rw [putText_eq (zero_not_mem_of_isAddress address)]
    refine ⟨address, ?_, w, w, ⟨rfl, rfl⟩, Nat.not_lt.mpr room, (), u, first, (), v, second, encodable,
      third⟩
    refine List.all_eq_true.mpr fun text member => ?_
    obtain ⟨arg, given, isText⟩ := List.mem_filterMap.mp member
    have plain := encodable arg given
    cases arg with
    | string _ | symbol _ =>
      cases isText
      exact plain
    | _ => cases isText

end Writer

/-- An encoder leaves its form in front of what the buffer held beyond it. -/
theorem encodeMessage_eq {buffer : List UInt8} {path : String} {args : List Argument}
    (address : Text.isAddress path = true) (encodable : ∀ arg ∈ args, arg.Encodable)
    (room : messageLength path args ≤ buffer.length) :
    encodeMessage buffer path args = (.ok (messageLength path args),
      (MessageForm.written path args).bytes ++ buffer.drop (messageLength path args)) := by
  have length := MessageForm.length_written address encodable
  have put : Writer.putMessage path args (Writer.ofBuffer buffer) =
      .ok () ⟨(MessageForm.written path args).bytes, buffer.drop (messageLength path args)⟩ := by
    rw [← length] at room ⊢
    exact Writer.putMessage_eq_ok.mpr ⟨address, encodable, Writer.put_ok (w := .ofBuffer buffer) room⟩
  rw [encodeMessage, put, ← length]
  rfl

example : (encodeMessage (List.replicate 20 0xFF) "/a" [.int 1, .char 0x78]).2 =
    [0x2F, 0x61, 0, 0, 0x2C, 0x69, 0x63, 0, 0, 0, 0, 1, 0, 0, 0, 0x78, 0xFF, 0xFF, 0xFF, 0xFF] := by
  decide

theorem encodeMessage_eq_ok {buffer : List UInt8} {path : String} {args : List Argument} {n : Nat} :
    (encodeMessage buffer path args).1 = .ok n ↔ Text.isAddress path = true ∧
      (∀ arg ∈ args, arg.Encodable) ∧ messageLength path args ≤ buffer.length ∧
      n = messageLength path args := by
  constructor
  · intro encoded
    rw [encodeMessage] at encoded
    cases put : Writer.putMessage path args (Writer.ofBuffer buffer) with
    | error error w =>
      rw [put] at encoded
      cases encoded
    | ok done w =>
      obtain ⟨address, encodable, written⟩ := Writer.putMessage_eq_ok.mp put
      obtain ⟨room, rfl⟩ := Writer.put_eq_ok.mp written
      rw [put] at encoded
      cases encoded
      have length := MessageForm.length_written address encodable
      rw [length] at room
      exact ⟨address, encodable, room, length⟩
  · rintro ⟨address, encodable, room, rfl⟩
    rw [encodeMessage_eq address encodable room]

theorem encodable_iff {args : List Argument} :
    (∀ arg ∈ args, arg.Encodable) ↔
      (∀ text, .string text ∈ args ∨ .symbol text ∈ args → Text.isPlain text = true) ∧
        ∀ data, .blob data ∈ args → data.length ≤ maxLength := by
  constructor
  · intro encodable
    constructor
    · rintro text (given | given)
      · exact encodable _ given
      · exact encodable _ given
    · intro data given
      exact encodable _ given
  · rintro ⟨texts, blobs⟩ arg given
    cases arg with
    | string text => exact texts text (.inl given)
    | symbol text => exact texts text (.inr given)
    | blob data => exact blobs data given
    | _ => trivial

/-- Encoding succeeds just when the address and the texts are admissible, the sizes of the blobs fit
their words, and the buffer has room. What it writes parses to the message that was given. -/
theorem encodeMessage_round_trip (buffer : List UInt8) (path : String) (args : List Argument) :
    ((∃ n, (encodeMessage buffer path args).1 = .ok n) ↔
      Text.isAddress path = true ∧
        (∀ text, .string text ∈ args ∨ .symbol text ∈ args → Text.isPlain text = true) ∧
        (∀ data, .blob data ∈ args → data.length ≤ maxLength) ∧
        messageLength path args ≤ buffer.length) ∧
      ∀ n, (encodeMessage buffer path args).1 = .ok n →
        n = messageLength path args ∧ 4 ∣ n ∧
          (encodeMessage buffer path args).2.length = buffer.length ∧
          (encodeMessage buffer path args).2.drop n = buffer.drop n ∧
          ∃ m, Message.parse ((encodeMessage buffer path args).2.take n) = .ok m ∧
            m.path = path ∧ m.kinds = args.map Argument.kind ∧
            utf8 m.format = tags (args.map Argument.kind) ∧ m.arguments = args := by
  constructor
  · constructor
    · rintro ⟨n, encoded⟩
      obtain ⟨address, encodable, room, _⟩ := encodeMessage_eq_ok.mp encoded
      obtain ⟨texts, blobs⟩ := encodable_iff.mp encodable
      exact ⟨address, texts, blobs, room⟩
    · rintro ⟨address, texts, blobs, room⟩
      exact ⟨_, encodeMessage_eq_ok.mpr ⟨address, encodable_iff.mpr ⟨texts, blobs⟩, room, rfl⟩⟩
  · intro n encoded
    obtain ⟨address, encodable, room, rfl⟩ := encodeMessage_eq_ok.mp encoded
    have valid := MessageForm.valid_written address encodable
    have length := MessageForm.length_written address encodable
    have arguments := MessageForm.arguments_written path args
    have kinds : (MessageForm.written path args).kinds = args.map Argument.kind :=
      congrArg (List.map Argument.kind) arguments
    rw [encodeMessage_eq address encodable room]
    refine ⟨rfl, messageLength_aligned path args, ?_, ?_, (MessageForm.written path args).message,
      Message.parse_eq_ok.mpr ⟨_, valid, ?_, rfl⟩, rfl, kinds, ?_, ?_⟩
    · rw [List.length_append, length, List.length_drop]
      omega
    · rw [List.drop_left' length]
    · rw [List.take_left' length]
    · rw [← kinds]
      exact utf8_letters _
    · rw [MessageForm.arguments_message valid, arguments]

end OscHost
