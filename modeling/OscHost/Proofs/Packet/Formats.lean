import OscHost.Proofs.Packet.MessageForm

/-!
# Formats given by the caller

A caller may say which kinds of arguments a message has. The format is checked first: all its letters have to
be known, then there have to be as many as arguments, then each has to be that of its argument. What passes
all three is the format that the arguments have anyway, so the message is encoded as without it.
-/

namespace OscHost

/-- What is wrong with a format, given without its comma, for arguments of these kinds. Its length is that of
its bytes. -/
inductive FormatFault (letters : String) (kinds : List Kind) : WireError → Prop where
  | unknown {c : Char} (present : c ∈ letters.toList) (unknown : ∀ kind : Kind, kind.letter ≠ c) :
      FormatFault letters kinds .invalidFormat
  | count (known : ∀ c ∈ letters.toList, ∃ kind : Kind, kind.letter = c)
      (differ : (utf8 letters).length ≠ kinds.length) :
      FormatFault letters kinds (.argumentCount (utf8 letters).length kinds.length)
  | mismatch {front rest : List Kind} {kind other : Kind} {behind : List Kind}
      (given : letters.toList = (front ++ other :: rest).map Kind.letter)
      (needed : kinds = front ++ kind :: behind) (same : rest.length = behind.length)
      (differ : other ≠ kind) :
      FormatFault letters kinds (.formatMismatch front.length other.letter)

/-! ### Letters -/

theorem Kind.ofLetter?_letter (kind : Kind) : Kind.ofLetter? kind.letter = some kind := by
  cases kind <;> decide

theorem Kind.ofLetter?_eq_none {c : Char} : Kind.ofLetter? c = none ↔ ∀ kind : Kind, kind.letter ≠ c := by
  simp [Kind.ofLetter?, Kind.mem_all]

theorem Kind.letter_injective {kind other : Kind} (same : kind.letter = other.letter) : kind = other := by
  have known := congrArg Kind.ofLetter? same
  rw [Kind.ofLetter?_letter, Kind.ofLetter?_letter] at known
  exact Option.some.inj known

theorem exists_kinds {letters : List Char} :
    (∀ c ∈ letters, ∃ kind : Kind, kind.letter = c) ↔ ∃ kinds : List Kind, kinds.map Kind.letter = letters := by
  constructor
  · intro known
    induction letters with
    | nil => exact ⟨[], rfl⟩
    | cons c letters ih =>
      obtain ⟨⟨kind, rfl⟩, rest⟩ := List.forall_mem_cons.mp known
      obtain ⟨kinds, rfl⟩ := ih rest
      exact ⟨kind :: kinds, rfl⟩
  · rintro ⟨kinds, rfl⟩ c member
    obtain ⟨kind, -, same⟩ := List.mem_map.mp member
    exact ⟨kind, same⟩

/-- A format of known letters has as many bytes as characters. -/
theorem length_utf8_letters {letters : String} {kinds : List Kind}
    (given : kinds.map Kind.letter = letters.toList) : (utf8 letters).length = kinds.length := by
  have whole : letters = String.ofList (kinds.map Kind.letter) := by rw [given, String.ofList_toList]
  rw [whole, utf8_letters, tags, List.length_map]

theorem Kind.toNat_byte (kind : Kind) : kind.byte.toNat = kind.letter.toNat := by cases kind <;> decide

/-- Outside of ASCII the last byte of a character has its high bit set. -/
theorem mem_utf8EncodeChar {c : Char} (large : 127 < c.toNat) :
    UInt8.ofNat (c.toNat % 64 + 128) ∈ String.utf8EncodeChar c := by
  have outside : ¬c.val.toNat ≤ 127 := Nat.not_le.mpr large
  simp only [String.utf8EncodeChar, if_neg outside, Char.toNat]
  split
  · simp
  · split
    · simp
    · simp

theorem encodeChar_known {c : Char} :
    (∃ kind : Kind, kind.letter = c) ↔ ∀ byte ∈ String.utf8EncodeChar c, ∃ kind : Kind, kind.byte = byte := by
  have ascii (small : c.toNat ≤ 127) : String.utf8EncodeChar c = [UInt8.ofNat c.toNat] := if_pos small
  constructor
  · rintro ⟨kind, rfl⟩ byte member
    rw [ascii (Nat.le_of_lt_succ (letter_lt kind)), List.mem_singleton] at member
    exact ⟨kind, member.symm⟩
  · intro known
    by_cases small : c.toNat ≤ 127
    · rw [ascii small] at known
      obtain ⟨kind, same⟩ := known _ List.mem_cons_self
      refine ⟨kind, Char.toNat_inj.mp ?_⟩
      rw [← Kind.toNat_byte, same, UInt8.toNat_ofNat']
      omega
    · obtain ⟨kind, same⟩ := known _ (mem_utf8EncodeChar (Nat.lt_of_not_le small))
      have low := letter_lt kind
      rw [← Kind.toNat_byte, same, UInt8.toNat_ofNat'] at low
      omega

/-- It makes no difference whether the characters or the bytes of a format are looked up. -/
theorem utf8_known {letters : String} :
    (∀ c ∈ letters.toList, ∃ kind : Kind, kind.letter = c) ↔
      ∀ byte ∈ utf8 letters, ∃ kind : Kind, kind.byte = byte := by
  simp only [encodeChar_known, utf8_eq_flatMap, List.mem_flatMap]
  constructor
  · rintro known byte ⟨c, member, inside⟩
    exact known c member byte inside
  · intro known c member byte inside
    exact known byte ⟨c, member, inside⟩

theorem Text.dropComma_cases (format : String) :
    format = "," ++ dropComma format ∨ dropComma format = format ∧ format.toList.head? ≠ some ',' := by
  unfold dropComma
  split
  · rename_i rest comma
    refine .inl ?_
    rw [← String.ofList_toList (s := format), comma, ← List.singleton_append, String.ofList_append]
  · rename_i other
    refine .inr ⟨rfl, ?_⟩
    intro comma
    obtain ⟨rest, whole⟩ := List.head?_eq_some_iff.mp comma
    exact other rest whole

/-! ### Faults -/

theorem firstMismatch_none {letters kinds : List Kind} {start : Nat} (same : letters.length = kinds.length) :
    firstMismatch (letters.map Kind.letter) kinds start = none ↔ letters = kinds := by
  induction letters generalizing kinds start with
  | nil =>
    cases kinds with
    | nil => simp [firstMismatch]
    | cons kind kinds => cases same
  | cons letter letters ih =>
    cases kinds with
    | nil => cases same
    | cons kind kinds =>
      rw [List.map_cons, firstMismatch]
      by_cases equal : letter = kind
      · subst equal
        rw [if_pos rfl, ih (Nat.succ.inj same)]
        simp
      · have differ : ¬letter.letter = kind.letter := fun letters => equal (Kind.letter_injective letters)
        simp [differ, equal]

theorem firstMismatch_some {letters kinds : List Kind} {start index : Nat} {c : Char} :
    firstMismatch (letters.map Kind.letter) kinds start = some (index, c) ↔
      ∃ front other rest kind behind, letters = front ++ other :: rest ∧ kinds = front ++ kind :: behind ∧
        other ≠ kind ∧ index = start + front.length ∧ c = other.letter := by
  induction letters generalizing kinds start with
  | nil => simp [firstMismatch]
  | cons letter letters ih =>
    cases kinds with
    | nil => simp [firstMismatch]
    | cons kind kinds =>
      rw [List.map_cons, firstMismatch]
      by_cases equal : letter = kind
      · subst equal
        rw [if_pos rfl, ih]
        constructor
        · rintro ⟨front, other, rest, kind, behind, rfl, rfl, differ, rfl, rfl⟩
          refine ⟨letter :: front, other, rest, kind, behind, rfl, rfl, differ, ?_, rfl⟩
          rw [List.length_cons]
          omega
        · rintro ⟨front, other, rest, kind, behind, first, second, differ, rfl, rfl⟩
          cases front with
          | nil =>
            cases first
            cases second
            exact absurd rfl differ
          | cons head front =>
            cases first
            cases second
            refine ⟨front, other, rest, kind, behind, rfl, rfl, differ, ?_, rfl⟩
            rw [List.length_cons]
            omega
      · have differ : ¬letter.letter = kind.letter := fun letters => equal (Kind.letter_injective letters)
        rw [if_neg differ]
        constructor
        · intro found
          cases found
          exact ⟨[], letter, letters, kind, kinds, rfl, rfl, equal, rfl, rfl⟩
        · rintro ⟨front, other, rest, kind', behind, first, second, -, rfl, rfl⟩
          cases front with
          | nil =>
            cases first
            rfl
          | cons head front =>
            cases first
            cases second
            exact absurd rfl equal

theorem any_unknown {letters : List Char} :
    (letters.any fun c => (Kind.ofLetter? c).isNone) = true ↔ ∃ c ∈ letters, ∀ kind : Kind, kind.letter ≠ c := by
  simp only [List.any_eq_true, Option.isNone_iff_eq_none, Kind.ofLetter?_eq_none]

theorem formatError?_unknown {letters : List Char} {kinds : List Kind}
    (unknown : ∃ c ∈ letters, ∀ kind : Kind, kind.letter ≠ c) :
    formatError? letters kinds = some .invalidFormat := by
  rw [formatError?, if_pos (any_unknown.mpr unknown)]

/-- The checks on a format of known letters. -/
theorem formatError?_known (given kinds : List Kind) :
    formatError? (given.map Kind.letter) kinds =
      if given.length ≠ kinds.length then some (.argumentCount given.length kinds.length)
      else (firstMismatch (given.map Kind.letter) kinds 0).map fun (index, letter) =>
        .formatMismatch index letter := by
  have known : ¬((given.map Kind.letter).any fun c => (Kind.ofLetter? c).isNone) = true := by
    rw [any_unknown]
    rintro ⟨c, member, unknown⟩
    obtain ⟨kind, same⟩ := exists_kinds.mpr ⟨given, rfl⟩ c member
    exact unknown kind same
  rw [formatError?, if_neg known, List.length_map]

theorem formatError?_eq_some {letters : String} {kinds : List Kind} {e : WireError} :
    formatError? letters.toList kinds = some e ↔ FormatFault letters kinds e := by
  by_cases known : ∀ c ∈ letters.toList, ∃ kind : Kind, kind.letter = c
  · obtain ⟨given, whole⟩ := exists_kinds.mp known
    have length := length_utf8_letters whole
    rw [← whole, formatError?_known]
    by_cases same : given.length = kinds.length
    · rw [if_neg (not_not_intro same), Option.map_eq_some_iff]
      constructor
      · rintro ⟨⟨index, c⟩, found, rfl⟩
        obtain ⟨front, other, rest, kind, behind, rfl, rfl, differ, rfl, rfl⟩ := firstMismatch_some.mp found
        rw [Nat.zero_add]
        refine .mismatch whole.symm rfl ?_ differ
        simpa using same
      · intro fault
        cases fault with
        | unknown present unknown =>
          obtain ⟨kind, same⟩ := known _ present
          exact absurd same (unknown kind)
        | count known differ => exact absurd (length.trans same) differ
        | @mismatch front rest kind other behind same needed counts differ =>
          have letters : given = front ++ other :: rest := by
            refine (List.map_inj_right ?_).mp (whole.trans same)
            intro kind other
            exact Kind.letter_injective
          refine ⟨(front.length, other.letter), firstMismatch_some.mpr ?_, rfl⟩
          exact ⟨front, other, rest, kind, behind, letters, needed, differ, (Nat.zero_add _).symm, rfl⟩
    · rw [if_pos same, ← length]
      constructor
      · intro found
        cases found
        exact .count known fun counts => same (length.symm.trans counts)
      · intro fault
        cases fault with
        | unknown present unknown =>
          obtain ⟨kind, same⟩ := known _ present
          exact absurd same (unknown kind)
        | count known differ => rfl
        | mismatch given needed counts differ =>
          have lengths := congrArg List.length (whole.trans given)
          simp only [needed, List.length_map, List.length_append, List.length_cons, counts] at lengths same
          exact absurd lengths same
  · have unknown : ∃ c ∈ letters.toList, ∀ kind : Kind, kind.letter ≠ c := by simpa using known
    rw [formatError?_unknown unknown]
    constructor
    · intro found
      cases found
      obtain ⟨c, present, unknown⟩ := unknown
      exact .unknown present unknown
    · intro fault
      cases fault with
      | unknown _ _ => rfl
      | count known' _ => exact absurd known' known
      | mismatch given _ _ _ => exact absurd (exists_kinds.mpr ⟨_, given.symm⟩) known

theorem formatError?_eq_none {letters : String} {kinds : List Kind} :
    formatError? letters.toList kinds = none ↔ letters = String.ofList (kinds.map Kind.letter) := by
  constructor
  · intro passed
    by_cases known : ∀ c ∈ letters.toList, ∃ kind : Kind, kind.letter = c
    · obtain ⟨given, whole⟩ := exists_kinds.mp known
      rw [← whole, formatError?_known] at passed
      by_cases same : given.length = kinds.length
      · rw [if_neg (not_not_intro same), Option.map_eq_none_iff, firstMismatch_none same] at passed
        rw [← passed, whole, String.ofList_toList]
      · rw [if_pos same] at passed
        cases passed
    · rw [formatError?_unknown (by simpa using known)] at passed
      cases passed
  · rintro rfl
    rw [String.toList_ofList, formatError?_known, if_neg (not_not_intro rfl), (firstMismatch_none rfl).mpr rfl]
    rfl

theorem parse_encodeMessage {buffer : List UInt8} {path : String} {args : List Argument} {n : Nat}
    (encoded : (encodeMessage buffer path args).1 = .ok n) :
    ∃ m, Message.parse ((encodeMessage buffer path args).2.take n) = .ok m ∧ m.path = path ∧
      m.format = String.ofList (args.map fun arg => arg.kind.letter) ∧ m.arguments = args := by
  obtain ⟨address, encodable, room, rfl⟩ := encodeMessage_eq_ok.mp encoded
  have valid := MessageForm.valid_written address encodable
  have length := MessageForm.length_written address encodable
  have arguments := MessageForm.arguments_written path args
  refine ⟨(MessageForm.written path args).message, ?_, rfl, ?_, ?_⟩
  · rw [encodeMessage_eq address encodable room, List.take_left' length]
    exact Message.parse_eq_ok.mpr ⟨_, valid, rfl, rfl⟩
  · show String.ofList ((MessageForm.written path args).kinds.map Kind.letter) = _
    rw [MessageForm.kinds, arguments, List.map_map]
    rfl
  · rw [MessageForm.arguments_message valid, arguments]

/-- With a format, given with or without a comma in front, an encoder does the same as without one if the
format is that of the arguments. If it is not there is exactly one fault in it, which is reported, and the
buffer stays as it is. A message that was encoded is read back with the format that was given. -/
theorem encodeWithFormat_guarded (buffer : List UInt8) (path format : String) (args : List Argument) :
    let letters := Text.dropComma format
    let kinds := args.map Argument.kind
    let result := encodeWithFormat buffer path format args
    (format = "," ++ letters ∨ letters = format ∧ format.toList.head? ≠ some ',') ∧
    ((∀ c ∈ letters.toList, ∃ kind : Kind, kind.letter = c) ↔
      ∀ byte ∈ utf8 letters, ∃ kind : Kind, kind.byte = byte) ∧
    (letters = String.ofList (kinds.map Kind.letter) → result = encodeMessage buffer path args) ∧
    (letters ≠ String.ofList (kinds.map Kind.letter) →
      ∃ error, result = (.error error, buffer) ∧ ∀ other, FormatFault letters kinds other ↔ other = error) ∧
    ∀ n, result.1 = .ok n → ∃ m, Message.parse (result.2.take n) = .ok m ∧ m.format = letters := by
  intro letters kinds result
  have same (fitting : letters = String.ofList (kinds.map Kind.letter)) :
      result = encodeMessage buffer path args := by
    have passed := formatError?_eq_none.mpr fitting
    show encodeWithFormat buffer path format args = _
    rw [encodeWithFormat, passed]
  have refused (other : letters ≠ String.ofList (kinds.map Kind.letter)) :
      ∃ error, result = (.error error, buffer) ∧ ∀ other, FormatFault letters kinds other ↔ other = error := by
    cases found : formatError? letters.toList kinds with
    | none => exact absurd (formatError?_eq_none.mp found) other
    | some error =>
      refine ⟨error, ?_, ?_⟩
      · show encodeWithFormat buffer path format args = _
        rw [encodeWithFormat, found]
      · intro other
        rw [← formatError?_eq_some, found, Option.some.injEq, eq_comm]
  refine ⟨Text.dropComma_cases format, utf8_known, same, refused, ?_⟩
  intro n done
  by_cases fitting : letters = String.ofList (kinds.map Kind.letter)
  · rw [same fitting] at done ⊢
    obtain ⟨m, parsed, -, declared, -⟩ := parse_encodeMessage done
    refine ⟨m, parsed, ?_⟩
    rw [declared, fitting, List.map_map]
    rfl
  · obtain ⟨error, failed, -⟩ := refused fitting
    rw [failed] at done
    cases done

-- A second comma is no letter. Of two faults the one that is looked for first is reported.
example : (encodeWithFormat [] "/a" ",,i" [.int 1, .nil]).1 = .error .invalidFormat ∧
    (encodeWithFormat [] "/a" ",sii" [.int 1, .nil]).1 = .error (.argumentCount 3 2) ∧
    (encodeWithFormat [] "/a" "is" [.int 1, .nil]).1 = .error (.formatMismatch 1 's') := ⟨rfl, rfl, rfl⟩

end OscHost
