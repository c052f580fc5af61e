import OscHost.Packet.Cursor
import OscHost.Proofs.Iteration
import OscHost.Proofs.Packet.PacketTree

/-!
# Parts of a packet

Parsing goes over the arguments of a message once and forgets their values; a cursor goes over them again
later. Both read alike (`Read.kinds_eq`), so a cursor over a message that was accepted meets no error, and
what it takes for the end is the end. The same holds of the elements of a bundle.
-/

namespace OscHost

/-! ### Arguments -/

/-- The loop of parsing, with the values kept. -/
def Read.values : List UInt8 → Read (List Argument)
  | [] => pure []
  | letter :: letters => do
    match Kind.ofByte? letter with
    | none => throw (.unknownTag letter)
    | some kind =>
      let arg ← argument kind
      return arg :: (← values letters)

section

variable {letters unread rest : List UInt8} {kind : Kind} {kinds : List Kind} {arg : Argument}
  {args : List Argument}

theorem Read.kind_of_argument (read : argument kind unread = .ok arg rest) : arg.kind = kind := by
  obtain ⟨fill, valid, same, whole⟩ := argument_eq_ok.mp read
  exact same

theorem Read.kinds_eq (letters : List UInt8) :
    Read.kinds letters = List.map Argument.kind <$> Read.values letters := by
  funext unread
  induction letters generalizing unread with
  | nil => rfl
  | cons letter letters ih =>
    unfold Read.kinds Read.values
    cases Kind.ofByte? letter with
    | none => rfl
    | some kind =>
      simp only [bind, EStateM.bind, Functor.map, EStateM.map, ih]
      cases read : argument kind unread with
      | error e rest => rfl
      | ok arg rest =>
        simp only
        cases values letters rest with
        | error e rest => rfl
        | ok args rest =>
          rw [← kind_of_argument read]
          rfl

theorem Read.values_cons {letter : UInt8} :
    values (letter :: letters) unread = .ok args rest ↔ ∃ kind arg others left,
      Kind.ofByte? letter = some kind ∧ argument kind unread = .ok arg left ∧
        values letters left = .ok others rest ∧ args = arg :: others := by
  rw [values]
  cases Kind.ofByte? letter with
  | none =>
    constructor
    · intro read
      exact absurd read throw_ne_ok
    · rintro ⟨_, _, _, _, known, -⟩
      cases known
  | some kind =>
    simp only [bind_eq_ok, pure_eq_ok]
    constructor
    · rintro ⟨arg, left, read, others, _, onwards, rfl, rfl⟩
      exact ⟨kind, arg, others, left, rfl, read, onwards, rfl⟩
    · rintro ⟨_, arg, others, left, known, read, onwards, rfl⟩
      cases known
      exact ⟨arg, left, read, others, rest, onwards, rfl, rfl⟩

/-- Where parsing reads all values, so does a cursor. -/
theorem ArgumentCursor.yields (read : Read.values letters unread = .ok args rest) :
    Yields next ⟨letters, unread⟩ args ⟨[], rest⟩ := by
  induction letters generalizing unread args with
  | nil =>
    rw [Read.values, pure_eq_ok] at read
    obtain ⟨rfl, rfl⟩ := read
    exact .done rfl rfl
  | cons letter letters ih =>
    obtain ⟨kind, arg, others, left, known, first, onwards, rfl⟩ := Read.values_cons.mp read
    apply Yields.item _ (ih onwards)
    simp only [next, known, first]

theorem decodeArguments_eq (read : Read.values (tags kinds) unread = .ok args rest) :
    decodeArguments kinds unread = args := by
  induction kinds generalizing unread args with
  | nil =>
    rw [tags, List.map_nil, Read.values, pure_eq_ok] at read
    exact read.1
  | cons kind kinds ih =>
    obtain ⟨known, arg, others, left, same, first, onwards, rfl⟩ := Read.values_cons.mp read
    rw [Kind.ofByte?_byte] at same
    cases same
    rw [decodeArguments, first]
    simp only
    rw [ih onwards]

end

/-- How parsing comes to the arguments of a message that it accepts. -/
theorem Message.read_of_parse {bytes : List UInt8} {m : Message} (parsed : Message.parse bytes = .ok m) :
    (∃ left, Read.text bytes = .ok m.path left ∧ Read.text left = .ok ("," ++ m.format) m.payload) ∧
      Read.values (tags m.kinds) m.payload = .ok m.arguments [] := by
  obtain ⟨form, valid, rfl, rfl⟩ := Message.parse_eq_ok.mp parsed
  constructor
  · have joined : "," ++ form.message.format = formatText form.kinds := by
      rw [formatText, ← List.singleton_append, String.ofList_append]
      rfl
    have letters := valid.format
    rw [MessageForm.format, ← utf8_formatText] at letters
    refine ⟨textField form.format form.formatFill ++ OscHost.payload form.fields, ?_, ?_⟩
    · exact Read.text_eq_ok.mpr ⟨zero_not_mem_of_isAddress valid.address, _, valid.path, rfl⟩
    · rw [joined, MessageForm.format, ← utf8_formatText]
      apply Read.text_eq_ok.mpr
      refine ⟨?_, _, letters, rfl⟩
      rw [utf8_formatText]
      exact zero_not_mem_format _
  · have read : Read.kinds (tags form.kinds) (OscHost.payload form.fields) = .ok form.kinds [] :=
      Read.kinds_eq_ok.mpr ⟨form.fields, valid.fields, rfl, rfl, List.append_nil _⟩
    rw [Read.kinds_eq, map_eq_ok] at read
    obtain ⟨args, read, -⟩ := read
    have same : form.message.arguments = args := decodeArguments_eq read
    rw [same]
    exact read

theorem Message.kinds_of_parse {bytes : List UInt8} {m : Message} (parsed : Message.parse bytes = .ok m) :
    m.arguments.map Argument.kind = m.kinds := by
  obtain ⟨form, valid, rfl, rfl⟩ := Message.parse_eq_ok.mp parsed
  rw [MessageForm.arguments_message valid]
  rfl

/-! ### Elements -/

theorem ElementCursor.yields {elements : List (List UInt8)}
    (short : ∀ element ∈ elements, element.length ≤ maxLength) :
    Yields next ⟨joined elements⟩ elements ⟨[]⟩ := by
  induction elements with
  | nil => exact .done rfl rfl
  | cons element elements ih =>
    obtain ⟨fits, others⟩ := List.forall_mem_cons.mp short
    have some : ¬(joined (element :: elements)).isEmpty := by
      simp [joined_cons, bigEndian]
    apply Yields.item _ (ih others)
    simp only [next, if_neg some, read_joined fits]

theorem PacketTree.parses {tree : PacketTree} (valid : tree.Valid) (shallow : tree.depth ≤ maxBundleDepth) :
    ∃ p, Packet.parse tree.bytes = .ok p := by
  cases tree with
  | message m =>
    cases valid with
    | message parsed => exact ⟨.message m, Packet.parse_eq_ok.mpr (.inl ⟨m, parsed, rfl⟩)⟩
  | bundle time elements =>
    have parsed := Bundle.parse_eq_ok.mpr ⟨time, elements, valid, shallow, rfl, rfl⟩
    exact ⟨_, Packet.parse_eq_ok.mpr (.inr ⟨_, parsed, rfl⟩)⟩

/-- The elements of an accepted bundle are packets, and make up its body. -/
theorem Bundle.elements_of_parse {bytes : List UInt8} {b : Bundle} (parsed : Bundle.parse bytes = .ok b) :
    joined b.elements = b.body ∧ b.body = bytes.drop bundleHeaderLength ∧
      ∀ element ∈ b.elements, element.length ≤ maxLength ∧ ∃ p, Packet.parse element = .ok p := by
  obtain ⟨time, trees, valid, shallow, rfl, rfl⟩ := Bundle.parse_eq_ok.mp parsed
  have body : Bundle.body ⟨(PacketTree.bundle time trees).bytes, time⟩ = joined (trees.map PacketTree.bytes) := by
    rw [PacketTree.bytes, Bundle.body_eq, PacketTree.bodyBytes_eq]
  cases valid with
  | bundle short valid =>
    have depths := PacketTree.depths_le.mp (Nat.le_of_succ_le shallow)
    have elements := splitElements_joined (List.forall_mem_map.mpr short)
    rw [← body] at elements
    rw [Bundle.elements, elements, body]
    refine ⟨rfl, body.symm, ?_⟩
    intro element member
    obtain ⟨tree, inside, rfl⟩ := List.mem_map.mp member
    exact ⟨short tree inside, PacketTree.parses (valid tree inside) (depths tree inside)⟩

/-! ### Both -/

/-- What is handed out of an accepted packet is all of it. The arguments of a message are the values that
parsing read, one for each letter, and use up the bytes behind the format. The elements of a bundle are
packets again, and with their lengths in front of them are the bytes behind the header. -/
theorem Packet.views_complete (bytes : List UInt8) :
    (∀ letters, Read.kinds letters = List.map Argument.kind <$> Read.values letters) ∧
    (∀ m, Message.parse bytes = .ok m →
      (∃ left, Read.text bytes = .ok m.path left ∧ Read.text left = .ok ("," ++ m.format) m.payload) ∧
      Read.values (tags m.kinds) m.payload = .ok m.arguments [] ∧
      Yields ArgumentCursor.next m.cursor m.arguments ⟨[], []⟩ ∧
      m.arguments.length = m.argumentCount ∧
      m.arguments.map (fun arg => arg.kind.letter) = m.format.toList ∧
      ∀ index, (nth ArgumentCursor.next index m.cursor).1 = m.argument? index ∧
        m.argument? index = m.arguments[index]? ∧
        ((m.argument? index).isSome = true ↔ index < m.argumentCount)) ∧
    ∀ b, Bundle.parse bytes = .ok b →
      Yields ElementCursor.next b.cursor b.elements ⟨[]⟩ ∧
      joined b.elements = bytes.drop bundleHeaderLength ∧
      ∀ element ∈ b.elements, element.length ≤ maxLength ∧ ∃ p, Packet.parse element = .ok p := by
  refine ⟨Read.kinds_eq, ?_, ?_⟩
  · intro m parsed
    obtain ⟨texts, read⟩ := Message.read_of_parse parsed
    have kinds := Message.kinds_of_parse parsed
    have yields : Yields ArgumentCursor.next m.cursor m.arguments ⟨[], []⟩ := ArgumentCursor.yields read
    have count : m.arguments.length = m.argumentCount := by
      rw [Message.argumentCount, ← kinds, List.length_map]
    refine ⟨texts, read, yields, count, ?_, ?_⟩
    · rw [Message.format, String.toList_ofList, ← kinds, List.map_map]
      rfl
    · intro index
      refine ⟨yields.nth index, rfl, ?_⟩
      rw [Message.argument?, ← count]
      simp
  · intro b parsed
    obtain ⟨whole, body, packets⟩ := Bundle.elements_of_parse parsed
    have yields := ElementCursor.yields fun element member => (packets element member).1
    rw [whole] at yields
    exact ⟨yields, whole.trans body, packets⟩

end OscHost
