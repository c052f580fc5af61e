import OscHost.Proofs.Wire.Steps
import OscHost.Proofs.Wire.Utf8

/-!
# Fields

The place of one value in a packet is its bytes together with filler that no reader looks at: after
a text or a blob up to the next multiple of four, and in front of a character, whose word has three
bytes to spare. Reading accepts any filler; what is written has zeros there.
-/

namespace OscHost

/-- Filler after `used` bytes, up to the next multiple of four. -/
def Fills (used : Nat) (fill : List UInt8) : Prop := fill.length < 4 ∧ 4 ∣ used + fill.length

/-- A padded text: its bytes, a zero byte, and filler. -/
def textField (bytes fill : List UInt8) : List UInt8 := bytes ++ 0 :: fill

/-- An argument and the filler in its place. -/
structure Field where
  value : Argument
  fill : List UInt8
  deriving DecidableEq, Repr

namespace Field

def bytes : Field → List UInt8
  | ⟨.int value, _⟩ => bigEndian 4 value.toUInt32.toNat
  | ⟨.float bits, _⟩ => bigEndian 4 bits.toNat
  | ⟨.string text, fill⟩ | ⟨.symbol text, fill⟩ => textField (utf8 text) fill
  | ⟨.blob data, fill⟩ => bigEndian 4 data.length ++ (data ++ fill)
  | ⟨.true, _⟩ | ⟨.false, _⟩ | ⟨.nil, _⟩ | ⟨.bang, _⟩ => []
  | ⟨.long value, _⟩ => bigEndian 8 value.toUInt64.toNat
  | ⟨.double bits, _⟩ => bigEndian 8 bits.toNat
  | ⟨.time tag, _⟩ => bigEndian 8 tag.bits.toNat
  | ⟨.char byte, fill⟩ => fill ++ [byte]
  | ⟨.midi frame, _⟩ => frame.bytes

/-- What a reader demands of a field. -/
def Valid : Field → Prop
  | ⟨.string text, fill⟩ | ⟨.symbol text, fill⟩ =>
    Text.isPlain text = true ∧ Fills ((utf8 text).length + 1) fill
  | ⟨.blob data, fill⟩ => data.length ≤ maxLength ∧ Fills data.length fill
  | ⟨.char _, fill⟩ => fill.length = 3
  | ⟨_, fill⟩ => fill = []

end Field

theorem Fills.length_padded {length : Nat} {fill : List UInt8} (fills : Fills (length + 1) fill) :
    length + 1 + fill.length = paddedLength length := by
  obtain ⟨short, aligned⟩ := fills
  rw [paddedLength]
  omega

theorem Fills.length_blob {size : Nat} {fill : List UInt8} (fills : Fills size fill) :
    size + fill.length = blobLength size - 4 := by
  obtain ⟨short, aligned⟩ := fills
  rw [blobLength]
  omega

theorem fills_of_padded {length : Nat} {fill : List UInt8}
    (whole : length + 1 + fill.length = paddedLength length) : Fills (length + 1) fill := by
  rw [paddedLength] at whole
  exact ⟨by omega, by omega⟩

theorem fills_of_blob {size : Nat} {fill : List UInt8} (whole : size + fill.length = blobLength size - 4) :
    Fills size fill := by
  rw [blobLength] at whole
  exact ⟨by omega, by omega⟩

/-! ### Reading -/

theorem findIdx?_zero {unread : List UInt8} {length : Nat} :
    unread.findIdx? (· == 0) = some length ↔
      ∃ bytes rest, bytes.length = length ∧ 0 ∉ bytes ∧ bytes ++ 0 :: rest = unread := by
  constructor
  · intro found
    obtain ⟨inside, zero, before⟩ := List.findIdx?_eq_some_iff_getElem.mp found
    refine ⟨unread.take length, unread.drop (length + 1), by simp; omega, ?_, ?_⟩
    · intro member
      obtain ⟨i, small, same⟩ := List.mem_take_iff_getElem.mp member
      have := before i (by omega)
      simp [same] at this
    · have isZero : unread[length] = 0 := by simpa using zero
      rw [← isZero, List.getElem_cons_drop, List.take_append_drop]
  · rintro ⟨bytes, rest, rfl, noZero, rfl⟩
    have none : bytes.findIdx? (· == 0) = .none := by
      rw [List.findIdx?_eq_none_iff]
      intro byte member
      simp only [beq_eq_false_iff_ne]
      rintro rfl
      exact noZero member
    rw [List.findIdx?_append, none]
    simp [List.findIdx?_cons]

namespace Read

variable {unread rest : List UInt8}

/-- The steps of a text: find its end, take its place, decode what is in front of the end. -/
theorem text_steps {text : String} :
    Read.text unread = .ok text rest ↔ ∃ length slot, unread.findIdx? (· == 0) = some length ∧
      take (paddedLength length) unread = .ok slot rest ∧ ofUtf8? (slot.take length) = some text := by
  simp only [Read.text, bind_eq_ok, get_eq_ok]
  constructor
  · rintro ⟨_, _, ⟨rfl, rfl⟩, read⟩
    cases found : unread.findIdx? (· == 0) with
    | none =>
      simp only [found] at read
      exact absurd read throw_ne_ok
    | some length =>
      simp only [found, bind_eq_ok] at read
      obtain ⟨slot, left, taken, read⟩ := read
      cases decoded : ofUtf8? (slot.take length) with
      | none =>
        simp only [decoded] at read
        exact absurd read throw_ne_ok
      | some other =>
        simp only [decoded, pure_eq_ok] at read
        obtain ⟨rfl, rfl⟩ := read
        exact ⟨length, slot, rfl, taken, decoded⟩
  · rintro ⟨length, slot, found, taken, decoded⟩
    refine ⟨unread, unread, ⟨rfl, rfl⟩, ?_⟩
    simp only [found, bind_eq_ok]
    refine ⟨slot, rest, taken, ?_⟩
    simp only [decoded, pure_eq_ok, and_self]

theorem text_eq_ok {text : String} :
    Read.text unread = .ok text rest ↔ 0 ∉ utf8 text ∧
      ∃ fill, Fills ((utf8 text).length + 1) fill ∧ textField (utf8 text) fill ++ rest = unread := by
  rw [text_steps]
  constructor
  · rintro ⟨length, slot, found, taken, decoded⟩
    obtain ⟨bytes, after, rfl, noZero, rfl⟩ := findIdx?_zero.mp found
    obtain ⟨slotLength, whole⟩ := take_eq_ok.mp taken
    have long : bytes.length + 1 ≤ slot.length := by rw [slotLength, paddedLength]; omega
    rcases List.append_eq_append_iff.mp whole with ⟨more, tooShort, _⟩ | ⟨padding, rfl, tail⟩
    · rw [tooShort, List.length_append] at long
      omega
    · cases padding with
      | nil =>
        rw [List.append_nil] at long
        omega
      | cons zero fill =>
        obtain ⟨rfl, rfl⟩ := List.cons.inj tail
        rw [List.take_left] at decoded
        rw [utf8_ofUtf8? decoded]
        refine ⟨noZero, fill, fills_of_padded ?_, by simp [textField]⟩
        rw [← slotLength, List.length_append, List.length_cons]
        omega
  · rintro ⟨noZero, fill, fills, rfl⟩
    refine ⟨(utf8 text).length, textField (utf8 text) fill, ?_, ?_, ?_⟩
    · exact findIdx?_zero.mpr ⟨utf8 text, fill ++ rest, rfl, noZero, by simp [textField]⟩
    · refine take_eq_ok.mpr ⟨?_, rfl⟩
      rw [← fills.length_padded, textField]
      simp
      omega
    · rw [textField, List.take_left, ofUtf8?_utf8]

theorem plain_eq_ok {text : String} :
    plain unread = .ok text rest ↔ Text.isPlain text = true ∧
      ∃ fill, Fills ((utf8 text).length + 1) fill ∧ textField (utf8 text) fill ++ rest = unread := by
  simp only [plain, bind_eq_ok]
  constructor
  · rintro ⟨read, left, taken, checked⟩
    by_cases plain : Text.isPlain read = true
    · rw [if_pos plain, pure_eq_ok] at checked
      obtain ⟨rfl, rfl⟩ := checked
      exact ⟨plain, (text_eq_ok.mp taken).2⟩
    · rw [if_neg plain] at checked
      exact absurd checked throw_ne_ok
  · rintro ⟨plain, slot⟩
    refine ⟨text, rest, text_eq_ok.mpr ⟨zero_not_mem_of_isPlain plain, slot⟩, ?_⟩
    rw [if_pos plain, pure_eq_ok]
    exact ⟨rfl, rfl⟩

theorem blob_eq_ok {data : List UInt8} :
    blob unread = .ok data rest ↔ data.length ≤ maxLength ∧
      ∃ fill, Fills data.length fill ∧ bigEndian 4 data.length ++ (data ++ fill) ++ rest = unread := by
  simp only [blob, bind_eq_ok, when_eq_ok, take_eq_ok, pure_eq_ok]
  constructor
  · rintro ⟨size, left, read, positive, slot, _, ⟨slotLength, rfl⟩, rfl, rfl⟩
    obtain ⟨fits, whole⟩ := length_eq_ok.mp ⟨size, read, positive, rfl⟩
    have inside : size.toInt.toNat ≤ slot.length := by rw [slotLength, blobLength]; omega
    have length : (slot.take size.toInt.toNat).length = size.toInt.toNat :=
      List.length_take_of_le inside
    refine ⟨by rw [length]; exact fits, slot.drop size.toInt.toNat, fills_of_blob ?_, ?_⟩
    · rw [length, List.length_drop, ← slotLength]
      omega
    · rw [length, List.take_append_drop, List.append_assoc, whole]
  · rintro ⟨fits, fill, fills, rfl⟩
    obtain ⟨size, read, positive, same⟩ :=
      length_eq_ok.mpr ⟨fits, (List.append_assoc _ (data ++ fill) rest).symm⟩
    refine ⟨size, data ++ fill ++ rest, read, positive, data ++ fill, rest, ⟨?_, rfl⟩, ?_, rfl⟩
    · rw [same, List.length_append, fills.length_blob]
    · rw [same, List.take_left]

/-- A word that holds a character has three bytes to spare. -/
theorem char_eq_ok {byte : UInt8} :
    (∃ word, u32 unread = .ok word rest ∧ word.toUInt8 = byte) ↔
      ∃ fill, fill.length = 3 ∧ fill ++ [byte] ++ rest = unread := by
  simp only [u32_eq_ok, bigEndian_succ 3]
  constructor
  · rintro ⟨word, rfl, rfl⟩
    exact ⟨bigEndian 3 (word.toNat / 256), length_bigEndian .., rfl⟩
  · rintro ⟨fill, spare, rfl⟩
    have bound : ofBigEndian (fill ++ [byte]) < 2 ^ 32 := by
      have := ofBigEndian_lt (fill ++ [byte])
      rw [List.length_append, spare] at this
      exact this
    have word : bigEndian 4 (ofBigEndian (fill ++ [byte])) = fill ++ [byte] := by
      have := bigEndian_ofBigEndian (fill ++ [byte])
      rw [List.length_append, spare] at this
      exact this
    rw [bigEndian_succ] at word
    refine ⟨UInt32.ofNat (ofBigEndian (fill ++ [byte])), ?_, ?_⟩
    · rw [UInt32.toNat_ofNat_of_lt' bound, word]
    · calc (UInt32.ofNat (ofBigEndian (fill ++ [byte]))).toUInt8
          = UInt8.ofNat (ofBigEndian (fill ++ [byte])) := by simp
        _ = byte := List.singleton_inj.mp (List.append_inj' word rfl).2

theorem argument_eq_ok {kind : Kind} {value : Argument} :
    argument kind unread = .ok value rest ↔
      ∃ fill, Field.Valid ⟨value, fill⟩ ∧ value.kind = kind ∧ Field.bytes ⟨value, fill⟩ ++ rest = unread := by
  constructor
  · intro read
    cases kind with
    | int | float | double =>
      simp only [argument, map_eq_ok, i32_eq_ok, u32_eq_ok, u64_eq_ok] at read
      obtain ⟨word, whole, rfl⟩ := read
      exact ⟨[], rfl, rfl, whole⟩
    | long | time =>
      simp only [argument, bind_eq_ok, u64_eq_ok, pure_eq_ok] at read
      obtain ⟨word, _, whole, rfl, rfl⟩ := read
      exact ⟨[], rfl, rfl, whole⟩
    | string | symbol =>
      simp only [argument, map_eq_ok, plain_eq_ok] at read
      obtain ⟨text, ⟨plain, fill, fills, whole⟩, rfl⟩ := read
      exact ⟨fill, ⟨plain, fills⟩, rfl, whole⟩
    | blob =>
      simp only [argument, map_eq_ok, blob_eq_ok] at read
      obtain ⟨data, ⟨fits, fill, fills, whole⟩, rfl⟩ := read
      exact ⟨fill, ⟨fits, fills⟩, rfl, whole⟩
    | true | false | nil | bang =>
      simp only [argument, pure_eq_ok] at read
      obtain ⟨rfl, rfl⟩ := read
      exact ⟨[], rfl, rfl, rfl⟩
    | char =>
      simp only [argument, bind_eq_ok, pure_eq_ok] at read
      obtain ⟨word, _, read, rfl, rfl⟩ := read
      obtain ⟨fill, spare, whole⟩ := char_eq_ok.mp ⟨word, read, rfl⟩
      exact ⟨fill, spare, rfl, whole⟩
    | midi =>
      simp only [argument, bind_eq_ok, take_eq_ok, pure_eq_ok] at read
      obtain ⟨bytes, _, ⟨four, whole⟩, rfl, rfl⟩ := read
      exact ⟨[], rfl, rfl, by rw [Field.bytes, Midi.bytes_ofBytes four, whole]⟩
  · rintro ⟨fill, valid, rfl, whole⟩
    cases value with
    | int | float | double =>
      simp only [Argument.kind, argument, map_eq_ok, i32_eq_ok, u32_eq_ok, u64_eq_ok]
      exact ⟨_, whole, rfl⟩
    | long | time =>
      simp only [Argument.kind, argument, bind_eq_ok, u64_eq_ok, pure_eq_ok]
      exact ⟨_, rest, whole, rfl, rfl⟩
    | string | symbol =>
      simp only [Argument.kind, argument, map_eq_ok, plain_eq_ok]
      exact ⟨_, ⟨valid.1, fill, valid.2, whole⟩, rfl⟩
    | blob data =>
      simp only [Argument.kind, argument, map_eq_ok, blob_eq_ok]
      exact ⟨data, ⟨valid.1, fill, valid.2, whole⟩, rfl⟩
    | true | false | nil | bang =>
      simp only [Argument.kind, argument, pure_eq_ok]
      exact ⟨trivial, whole.symm⟩
    | char byte =>
      obtain ⟨word, read, rfl⟩ := char_eq_ok.mpr ⟨fill, valid, whole⟩
      simp only [Argument.kind, argument, bind_eq_ok, pure_eq_ok]
      exact ⟨word, rest, read, rfl, rfl⟩
    | midi frame =>
      simp only [Argument.kind, argument, bind_eq_ok, take_eq_ok, pure_eq_ok]
      exact ⟨frame.bytes, rest, ⟨rfl, whole⟩, rfl, rfl⟩

end Read

/-! ### One decomposition -/

theorem textField_inj {text other : String} {fill fill' rest rest' : List UInt8}
    (noZero : 0 ∉ utf8 text) (noZero' : 0 ∉ utf8 other)
    (fills : Fills ((utf8 text).length + 1) fill) (fills' : Fills ((utf8 other).length + 1) fill')
    (same : textField (utf8 text) fill ++ rest = textField (utf8 other) fill' ++ rest') :
    text = other ∧ fill = fill' ∧ rest = rest' := by
  have read := Read.text_eq_ok.mpr ⟨noZero, fill, fills, same⟩
  rw [Read.text_eq_ok.mpr ⟨noZero', fill', fills', rfl⟩] at read
  cases read
  have filled := List.append_cancel_left (List.append_cancel_right same)
  exact ⟨rfl, (List.cons.inj filled).2, rfl⟩

namespace Field

variable {field other : Field}

/-- A valid field of a known kind is determined by the bytes that it begins. -/
theorem append_inj (valid : field.Valid) (valid' : other.Valid) (kinds : field.value.kind = other.value.kind)
    {rest rest' : List UInt8} (same : field.bytes ++ rest = other.bytes ++ rest') :
    field = other ∧ rest = rest' := by
  obtain ⟨value, fill⟩ := field
  obtain ⟨value', fill'⟩ := other
  -- Both values are what is read from the same bytes. What is left differs in the filler at most.
  have read := Read.argument_eq_ok.mpr ⟨fill, valid, kinds, same⟩
  rw [Read.argument_eq_ok.mpr ⟨fill', valid', rfl, rfl⟩] at read
  cases read
  refine ⟨congrArg (Field.mk value) ?_, rfl⟩
  have filled := List.append_cancel_right same
  cases value with
  | string text | symbol text => exact (List.cons.inj (List.append_cancel_left filled)).2
  | blob data => exact List.append_cancel_left (List.append_cancel_left filled)
  | char byte => exact List.append_cancel_right filled
  | _ => exact valid.trans valid'.symm

theorem length_bytes (valid : field.Valid) : field.bytes.length = field.value.encodedLength := by
  obtain ⟨value, fill⟩ := field
  cases value with
  | string text | symbol text =>
    rw [Argument.encodedLength, ← valid.2.length_padded, bytes, textField, List.length_append,
      List.length_cons]
    omega
  | blob data =>
    have := valid.2.length_blob
    rw [Argument.encodedLength, bytes, List.length_append, length_bigEndian, List.length_append, this,
      blobLength]
    omega
  | char byte =>
    rw [bytes, List.length_append, valid]
    rfl
  | _ => simp [bytes, Argument.encodedLength, Argument.kind, Kind.width?, Midi.bytes]

end Field

theorem Argument.encodedLength_aligned (value : Argument) : 4 ∣ value.encodedLength := by
  cases value with
  | string text | symbol text => exact Nat.dvd_mul_left 4 _
  | blob data => exact Nat.dvd_add (Nat.dvd_refl 4) (Nat.dvd_mul_left 4 _)
  | _ => simp [Argument.encodedLength, Argument.kind, Kind.width?]

/-! ### Writing -/

/-- What fits a packet: texts that are plain, and blobs whose size fits its word. -/
def Argument.Encodable : Argument → Prop
  | string text | symbol text => Text.isPlain text = .true
  | blob data => data.length ≤ maxLength
  | _ => True

instance : (value : Argument) → Decidable value.Encodable
  | .string text | .symbol text => inferInstanceAs (Decidable (Text.isPlain text = true))
  | .blob data => inferInstanceAs (Decidable (data.length ≤ maxLength))
  | .int _ | .float _ | .true | .false | .nil | .bang | .long _ | .double _ | .time _ | .char _ | .midi _ =>
    .isTrue trivial

/-- How much filler a text takes after its zero byte. -/
def textSpare (length : Nat) : Nat := paddedLength length - length - 1

def Argument.spare : Argument → Nat
  | string text | symbol text => textSpare (utf8 text).length
  | blob data => blobLength data.length - 4 - data.length
  | char _ => 3
  | _ => 0

theorem fills_textSpare (length : Nat) : Fills (length + 1) (zeros (textSpare length)) := by
  refine fills_of_padded ?_
  rw [length_zeros, textSpare, paddedLength]
  omega

namespace Field

/-- The field that a writer makes of a value. -/
def written (value : Argument) : Field := ⟨value, zeros value.spare⟩

theorem valid_written {value : Argument} : (written value).Valid ↔ value.Encodable := by
  have blob (size : Nat) : Fills size (zeros (blobLength size - 4 - size)) := by
    refine fills_of_blob ?_
    rw [length_zeros, blobLength]
    omega
  cases value with
  | string t | symbol t => exact and_iff_left (fills_textSpare _)
  | blob data => exact and_iff_left (blob _)
  | char byte => exact iff_true_intro rfl
  | _ => exact iff_true_intro rfl

end Field

/-- The zero byte that ends a text counts as padding to a writer. -/
theorem padded_eq (bytes : List UInt8) : padded bytes = textField bytes (zeros (textSpare bytes.length)) := by
  have : paddedLength bytes.length - bytes.length = textSpare bytes.length + 1 := by
    rw [textSpare, paddedLength]
    omega
  rw [padded, textField, this]
  rfl

theorem length_padded (bytes : List UInt8) : (padded bytes).length = paddedLength bytes.length := by
  have fills := (fills_textSpare bytes.length).length_padded
  rw [padded_eq, textField, List.length_append, List.length_cons]
  omega

namespace Writer

theorem putText_eq {text : String} (noZero : 0 ∉ utf8 text) :
    putText text = put (textField (utf8 text) (zeros (textSpare (utf8 text).length))) := by
  have absent : ¬((utf8 text).contains 0 = true) := by rwa [List.contains_iff_mem]
  rw [putText, if_neg absent, padded_eq]

variable {value : Argument} {w w' : Writer}

theorem putArgument_of_encodable (encodable : value.Encodable) :
    putArgument value w = put (Field.written value).bytes w := by
  cases value with
  | string text | symbol text =>
    have plain : Text.isPlain text = true := encodable
    show putPlain text w = _
    rw [putPlain, if_pos plain, putText_eq (zero_not_mem_of_isPlain plain)]
    rfl
  | blob data =>
    have fits : data.length ≤ maxLength := encodable
    show putBlob data w = _
    rw [putBlob, if_pos fits, sized, List.append_assoc]
    rfl
  | true | false | nil | bang =>
    show .ok () w = put [] w
    rw [put_ok (Nat.zero_le _), List.append_nil, List.length_nil, List.drop_zero]
  | char byte =>
    have word : bigEndian 4 byte.toUInt32.toNat = zeros 3 ++ [byte] := by
      have high : byte.toUInt32.toNat / 256 = 0 := by
        rw [UInt8.toNat_toUInt32]
        exact Nat.div_eq_of_lt byte.toNat_lt
      rw [bigEndian_succ, high, UInt8.toNat_toUInt32, UInt8.ofNat_toNat]
      rfl
    show put (bigEndian 4 byte.toUInt32.toNat) w = put (zeros 3 ++ [byte]) w
    rw [word]
  | _ => rfl

theorem putArgument_of_not_encodable (not : ¬value.Encodable) (w : Writer) :
    ∃ e, putArgument value w = .error e w := by
  cases value with
  | string text | symbol text =>
    have ragged : ¬Text.isPlain text = true := not
    show ∃ e, putPlain text w = .error e w
    rw [putPlain, if_neg ragged]
    exact ⟨_, rfl⟩
  | blob data =>
    have long : ¬data.length ≤ maxLength := not
    show ∃ e, putBlob data w = .error e w
    rw [putBlob, if_neg long]
    exact ⟨_, rfl⟩
  | _ => exact absurd trivial not

theorem putArgument_eq_ok {done : Unit} :
    putArgument value w = .ok done w' ↔ value.Encodable ∧ put (Field.written value).bytes w = .ok () w' := by
  by_cases encodable : value.Encodable
  · rw [putArgument_of_encodable encodable]
    exact (and_iff_right encodable).symm
  · obtain ⟨_, refused⟩ := putArgument_of_not_encodable encodable w
    rw [refused]
    exact iff_of_false nofun fun both => encodable both.1

end Writer

end OscHost
