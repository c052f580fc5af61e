import OscHost.Packet.Bundle
import OscHost.Proofs.Packet.MessageForm

/-!
# Packets as trees

A packet is a message or a bundle of packets. Parsing accepts just the byte strings of the trees that
are nested no deeper than the limit, and a byte string belongs to one tree at most.
-/

namespace OscHost

inductive PacketTree where
  | message (m : Message)
  | bundle (time : TimeTag) (elements : List PacketTree)

/-- The body of a bundle with these elements. -/
def joined (elements : List (List UInt8)) : List UInt8 :=
  elements.flatMap fun element => bigEndian 4 element.length ++ element

theorem joined_cons (element : List UInt8) (elements : List (List UInt8)) :
    joined (element :: elements) = bigEndian 4 element.length ++ element ++ joined elements :=
  List.flatMap_cons

/-- A bundle with this body. -/
def bundleBytes (time : TimeTag) (body : List UInt8) : List UInt8 :=
  bundleTag ++ (bigEndian 8 time.bits.toNat ++ body)

namespace PacketTree

mutual

def bytes : PacketTree → List UInt8
  | message m => m.bytes
  | bundle time elements => bundleBytes time (bodyBytes elements)

def bodyBytes : List PacketTree → List UInt8
  | [] => []
  | element :: rest => bigEndian 4 element.bytes.length ++ element.bytes ++ bodyBytes rest

end

mutual

/-- How many bundles deep a packet is. -/
def depth : PacketTree → Nat
  | message _ => 0
  | bundle _ elements => depths elements + 1

def depths : List PacketTree → Nat
  | [] => 0
  | element :: rest => max element.depth (depths rest)

end

/-- Messages parse, and the length of each element fits its word. -/
inductive Valid : PacketTree → Prop where
  | message {m : Message} (parsed : Message.parse m.bytes = .ok m) : Valid (.message m)
  | bundle {time : TimeTag} {elements : List PacketTree}
      (short : ∀ element ∈ elements, element.bytes.length ≤ maxLength)
      (valid : ∀ element ∈ elements, Valid element) : Valid (.bundle time elements)

/-- The packet itself and the elements at every level. -/
inductive Part : PacketTree → PacketTree → Prop where
  | self (tree : PacketTree) : Part tree tree
  | element {part element : PacketTree} {time : TimeTag} {elements : List PacketTree}
      (member : element ∈ elements) (inner : Part part element) : Part part (.bundle time elements)

def start : PacketTree → UInt8
  | message _ => messageStart
  | bundle _ _ => bundleStart

theorem bodyBytes_eq (elements : List PacketTree) : bodyBytes elements = joined (elements.map bytes) := by
  induction elements with
  | nil => rfl
  | cons element elements ih =>
    rw [bodyBytes, ih, List.map_cons, joined_cons]

theorem depths_le {elements : List PacketTree} {limit : Nat} :
    depths elements ≤ limit ↔ ∀ element ∈ elements, element.depth ≤ limit := by
  induction elements with
  | nil => exact ⟨fun _ => nofun, fun _ => Nat.zero_le limit⟩
  | cons element elements ih => rw [depths, Nat.max_le, ih, List.forall_mem_cons]

end PacketTree

/-! ### Splitting a body -/

theorem Read.element_eq_ok {body element rest : List UInt8} :
    Read.element body = .ok element rest ↔
      element.length ≤ maxLength ∧ bigEndian 4 element.length ++ element ++ rest = body := by
  simp only [Read.element, bind_eq_ok, when_eq_ok, Read.take_eq_ok]
  constructor
  · rintro ⟨length, left, read, positive, same, rfl⟩
    obtain ⟨fits, whole⟩ := Read.length_eq_ok.mp ⟨length, read, positive, rfl⟩
    rw [same, List.append_assoc]
    exact ⟨fits, whole⟩
  · rintro ⟨fits, rfl⟩
    obtain ⟨length, read, positive, same⟩ := Read.length_eq_ok.mpr ⟨fits, (List.append_assoc ..).symm⟩
    exact ⟨length, element ++ rest, read, positive, same.symm, rfl⟩

theorem read_joined {element : List UInt8} (short : element.length ≤ maxLength)
    (elements : List (List UInt8)) :
    Read.element (joined (element :: elements)) = .ok element (joined elements) :=
  Read.element_eq_ok.mpr ⟨short, (joined_cons element elements).symm⟩

/-- Splitting a body gives back the elements that make it up. -/
theorem splitElements_joined {elements : List (List UInt8)}
    (short : ∀ element ∈ elements, element.length ≤ maxLength) :
    splitElements (joined elements) = elements := by
  induction elements with
  | nil =>
    rw [splitElements]
    split
    · rename_i element rest read
      have := length_of_element read
      simp [joined] at this
    · rfl
  | cons element elements ih =>
    obtain ⟨fits, others⟩ := List.forall_mem_cons.mp short
    have read := read_joined fits elements
    rw [splitElements]
    split
    · rename_i first rest split
      rw [read, EStateM.Result.ok.injEq] at split
      obtain ⟨rfl, rfl⟩ := split
      exact congrArg (element :: ·) (ih others)
    · rename_i error rest split
      rw [read] at split
      cases split

theorem joined_inj {elements others : List (List UInt8)}
    (short : ∀ element ∈ elements, element.length ≤ maxLength)
    (short' : ∀ element ∈ others, element.length ≤ maxLength) (same : joined elements = joined others) :
    elements = others := by
  rw [← splitElements_joined short, same, splitElements_joined short']

theorem Bundle.checkBody_eq_ok {nested : List UInt8 → Except WireError Unit} {body : List UInt8} :
    Bundle.checkBody nested body = .ok () ↔
      ∃ elements : List (List UInt8), (∀ element ∈ elements, element.length ≤ maxLength) ∧
        (∀ element ∈ elements, Bundle.checkElement nested element = .ok ()) ∧
        joined elements = body := by
  -- The body is empty, does not split, starts with an element that fails, or with one that passes.
  fun_induction Bundle.checkBody nested body with
  | case1 body empty =>
    exact iff_of_true rfl ⟨[], nofun, nofun, (List.isEmpty_iff.mp empty).symm⟩
  | case2 body some error left read =>
    refine iff_of_false nofun ?_
    rintro ⟨elements, short, _, rfl⟩
    cases elements with
    | nil => exact some rfl
    | cons element elements =>
      rw [read_joined (List.forall_mem_cons.mp short).1] at read
      cases read
  | case3 body some element rest read shorter error checked =>
    refine iff_of_false nofun ?_
    rintro ⟨elements, short, valid, rfl⟩
    cases elements with
    | nil => exact some rfl
    | cons first elements =>
      rw [read_joined (List.forall_mem_cons.mp short).1] at read
      cases read
      rw [(List.forall_mem_cons.mp valid).1] at checked
      cases checked
  | case4 body some element rest read shorter checked ih =>
    rw [ih]
    constructor
    · rintro ⟨elements, short, valid, rfl⟩
      obtain ⟨fits, whole⟩ := Read.element_eq_ok.mp read
      refine ⟨element :: elements, List.forall_mem_cons.mpr ⟨fits, short⟩,
        List.forall_mem_cons.mpr ⟨checked, valid⟩, ?_⟩
      rw [joined_cons, whole]
    · rintro ⟨elements, short, valid, rfl⟩
      cases elements with
      | nil => exact absurd rfl some
      | cons first elements =>
        obtain ⟨fits, others⟩ := List.forall_mem_cons.mp short
        rw [read_joined fits] at read
        cases read
        exact ⟨elements, others, (List.forall_mem_cons.mp valid).2, rfl⟩

/-! ### Headers -/

theorem length_bundleTag : bundleTag.length = 8 := by decide

theorem ofBigEndian_time (time : TimeTag) : ofBigEndian (bigEndian 8 time.bits.toNat) = time.bits.toNat := by
  rw [ofBigEndian_bigEndian]
  exact Nat.mod_eq_of_lt time.bits.toNat_lt

theorem Bundle.header_eq_ok {bytes : List UInt8} {b : Bundle} :
    Bundle.header bytes = .ok b ↔ ∃ time body, bundleBytes time body = bytes ∧ ⟨bytes, time⟩ = b := by
  constructor
  · intro read
    rw [Bundle.header] at read
    split at read
    · split at read <;> cases read
    · rename_i long
      split at read
      · cases read
      · rename_i tagged
        cases read
        rw [bundleHeaderLength] at long
        rw [length_bundleTag, Decidable.not_not] at tagged
        have eight : ((bytes.drop bundleTag.length).take 8).length = 8 := by
          rw [length_bundleTag, List.length_take, List.length_drop]
          omega
        have time := bigEndian_ofBigEndian ((bytes.drop bundleTag.length).take 8)
        have fits := ofBigEndian_lt ((bytes.drop bundleTag.length).take 8)
        rw [eight] at time fits
        refine ⟨_, (bytes.drop bundleTag.length).drop 8, ?_, rfl⟩
        rw [bundleBytes, UInt64.toNat_ofNat_of_lt' fits, time, List.take_append_drop, length_bundleTag]
        calc bundleTag ++ bytes.drop 8
            = bytes.take 8 ++ bytes.drop 8 := by rw [tagged]
          _ = bytes := List.take_append_drop 8 bytes
  · rintro ⟨time, body, rfl, rfl⟩
    have long : ¬(bundleBytes time body).length < bundleHeaderLength := by
      rw [bundleBytes, List.length_append, List.length_append, length_bundleTag, length_bigEndian,
        bundleHeaderLength]
      omega
    have tagged : (bundleBytes time body).take bundleTag.length = bundleTag := List.take_left
    have rest : (bundleBytes time body).drop bundleTag.length = bigEndian 8 time.bits.toNat ++ body :=
      List.drop_left
    have word : (bigEndian 8 time.bits.toNat ++ body).take 8 = bigEndian 8 time.bits.toNat :=
      List.take_left' (length_bigEndian ..)
    rw [Bundle.header, if_neg long, if_neg (not_not_intro tagged)]
    simp only [rest, word, ofBigEndian_time, UInt64.ofNat_toNat]

theorem Bundle.body_eq {time : TimeTag} {body : List UInt8} :
    Bundle.body ⟨bundleBytes time body, time⟩ = body := by
  have length : (bundleTag ++ bigEndian 8 time.bits.toNat).length = bundleHeaderLength := by
    rw [List.length_append, length_bundleTag, length_bigEndian]
    rfl
  rw [Bundle.body, bundleBytes, ← List.append_assoc, List.drop_left' length]

theorem Message.head?_of_parse {bytes : List UInt8} {m : Message} (parsed : Message.parse bytes = .ok m) :
    bytes.head? = some messageStart := by
  obtain ⟨form, valid, rfl, _⟩ := Message.parse_eq_ok.mp parsed
  obtain ⟨rest, slash⟩ := utf8_of_isAddress valid.address
  rw [MessageForm.bytes, textField, slash]
  rfl

theorem Message.bytes_of_parse {bytes : List UInt8} {m : Message} (parsed : Message.parse bytes = .ok m) :
    m.bytes = bytes := by
  obtain ⟨form, _, rfl, rfl⟩ := Message.parse_eq_ok.mp parsed
  rfl

theorem Bundle.checkElement_eq_ok {nested : List UInt8 → Except WireError Unit} {element : List UInt8} :
    Bundle.checkElement nested element = .ok () ↔
      (∃ m, Message.parse element = .ok m) ∨ element.head? = some bundleStart ∧ nested element = .ok () := by
  cases element with
  | nil =>
    refine iff_of_false nofun ?_
    rintro (⟨m, parsed⟩ | ⟨start, _⟩)
    · exact absurd (Message.head?_of_parse parsed) nofun
    · exact absurd start nofun
  | cons first rest =>
    rw [Bundle.checkElement]
    by_cases isMessage : first = messageStart
    · subst isMessage
      rw [if_pos rfl]
      cases Message.parse (messageStart :: rest) with
      | error error => simp [Except.map, messageStart, bundleStart]
      | ok m => simp [Except.map]
    · have unparsed : ¬∃ m, Message.parse (first :: rest) = .ok m := by
        rintro ⟨m, parsed⟩
        exact isMessage (Option.some.inj (Message.head?_of_parse parsed))
      rw [if_neg isMessage, or_iff_right unparsed, List.head?_cons, Option.some.injEq]
      by_cases isBundle : first = bundleStart
      · rw [if_pos isBundle, and_iff_right isBundle]
      · rw [if_neg isBundle]
        exact iff_of_false nofun fun ⟨start, _⟩ => isBundle start

namespace PacketTree

theorem message_of_parse {bytes : List UInt8} {m : Message} (parsed : Message.parse bytes = .ok m) :
    (PacketTree.message m).Valid ∧ (PacketTree.message m).bytes = bytes := by
  have same := Message.bytes_of_parse parsed
  rw [← same] at parsed
  exact ⟨.message parsed, same⟩

theorem exists_map_bytes {good : PacketTree → Prop} {elements : List (List UInt8)}
    (trees : ∀ element ∈ elements, ∃ tree, good tree ∧ tree.bytes = element) :
    ∃ forest : List PacketTree, (∀ tree ∈ forest, good tree) ∧ forest.map bytes = elements := by
  induction elements with
  | nil => exact ⟨[], nofun, rfl⟩
  | cons element elements ih =>
    obtain ⟨⟨tree, holds, rfl⟩, rest⟩ := List.forall_mem_cons.mp trees
    obtain ⟨forest, allHold, rfl⟩ := ih rest
    exact ⟨tree :: forest, List.forall_mem_cons.mpr ⟨holds, allHold⟩, rfl⟩

end PacketTree

theorem Bundle.check_succ {levels : Nat} {bytes : List UInt8} :
    Bundle.check (levels + 1) bytes = .ok () ↔
      ∃ time body, bundleBytes time body = bytes ∧ Bundle.checkBody (Bundle.check levels) body = .ok () := by
  rw [Bundle.check]
  constructor
  · intro checked
    cases read : Bundle.header bytes with
    | error error =>
      rw [read] at checked
      cases checked
    | ok b =>
      rw [read] at checked
      obtain ⟨time, body, rfl, rfl⟩ := Bundle.header_eq_ok.mp read
      simp only [Bundle.body_eq] at checked
      exact ⟨time, body, rfl, checked⟩
  · rintro ⟨time, body, rfl, checked⟩
    rw [Bundle.header_eq_ok.mpr ⟨time, body, rfl, rfl⟩]
    simp only [Bundle.body_eq]
    exact checked

/-- An element that passes its check is the packet of a tree. -/
theorem Bundle.checkElement_tree {levels : Nat} {element : List UInt8}
    (nested : ∀ bytes, Bundle.check levels bytes = .ok () ↔ ∃ time elements,
      (PacketTree.bundle time elements).Valid ∧ (PacketTree.bundle time elements).depth ≤ levels ∧
        (PacketTree.bundle time elements).bytes = bytes) :
    Bundle.checkElement (Bundle.check levels) element = .ok () ↔
      ∃ tree : PacketTree, (tree.Valid ∧ tree.depth ≤ levels) ∧ tree.bytes = element := by
  rw [Bundle.checkElement_eq_ok, nested]
  constructor
  · rintro (⟨m, parsed⟩ | ⟨_, time, elements, valid, shallow, rfl⟩)
    · obtain ⟨valid, whole⟩ := PacketTree.message_of_parse parsed
      exact ⟨.message m, ⟨valid, Nat.zero_le levels⟩, whole⟩
    · exact ⟨.bundle time elements, ⟨valid, shallow⟩, rfl⟩
  · rintro ⟨tree, ⟨valid, shallow⟩, rfl⟩
    cases tree with
    | message m =>
      cases valid with
      | message parsed => exact .inl ⟨m, parsed⟩
    | bundle time elements => exact .inr ⟨rfl, time, elements, valid, shallow, rfl⟩

theorem Bundle.check_eq_ok {levels : Nat} {bytes : List UInt8} :
    Bundle.check levels bytes = .ok () ↔
      ∃ time elements, (PacketTree.bundle time elements).Valid ∧
        (PacketTree.bundle time elements).depth ≤ levels ∧
        (PacketTree.bundle time elements).bytes = bytes := by
  -- The levels that are left bound the depth of the tree; the body is dealt with level by level.
  induction levels generalizing bytes with
  | zero =>
    refine iff_of_false nofun ?_
    rintro ⟨time, elements, _, shallow, _⟩
    exact absurd shallow (Nat.not_succ_le_zero _)
  | succ levels ih =>
    simp only [Bundle.check_succ, Bundle.checkBody_eq_ok, Bundle.checkElement_tree fun _ => ih]
    constructor
    · rintro ⟨time, _, rfl, elements, short, trees, rfl⟩
      obtain ⟨forest, holds, rfl⟩ := PacketTree.exists_map_bytes trees
      refine ⟨time, forest, .bundle ?_ fun tree member => (holds tree member).1, ?_, ?_⟩
      · intro tree member
        exact short tree.bytes (List.mem_map_of_mem member)
      · exact Nat.succ_le_succ (PacketTree.depths_le.mpr fun tree member => (holds tree member).2)
      · rw [PacketTree.bytes, PacketTree.bodyBytes_eq]
    · rintro ⟨time, forest, valid, shallow, rfl⟩
      cases valid with
      | bundle short valid =>
        have depths := PacketTree.depths_le.mp (Nat.le_of_succ_le_succ shallow)
        refine ⟨time, joined (forest.map PacketTree.bytes), ?_, forest.map PacketTree.bytes, ?_, ?_, rfl⟩
        · rw [PacketTree.bytes, PacketTree.bodyBytes_eq]
        · rintro element member
          obtain ⟨tree, inside, rfl⟩ := List.mem_map.mp member
          exact short tree inside
        · rintro element member
          obtain ⟨tree, inside, rfl⟩ := List.mem_map.mp member
          exact ⟨tree, ⟨valid tree inside, depths tree inside⟩, rfl⟩

/-! ### Parsing -/

theorem Bundle.parse_eq_ok {bytes : List UInt8} {b : Bundle} :
    Bundle.parse bytes = .ok b ↔
      ∃ time elements, (PacketTree.bundle time elements).Valid ∧
        (PacketTree.bundle time elements).depth ≤ maxBundleDepth ∧
        (PacketTree.bundle time elements).bytes = bytes ∧ ⟨bytes, time⟩ = b := by
  rw [Bundle.parse]
  constructor
  · intro parsed
    cases checked : Bundle.check maxBundleDepth bytes with
    | error error =>
      rw [checked] at parsed
      cases parsed
    | ok done =>
      rw [checked] at parsed
      obtain ⟨time, elements, valid, shallow, rfl⟩ := Bundle.check_eq_ok.mp checked
      have read := Bundle.header_eq_ok.mpr ⟨time, PacketTree.bodyBytes elements, rfl, rfl⟩
      exact ⟨time, elements, valid, shallow, rfl, Except.ok.inj (read.symm.trans parsed)⟩
  · rintro ⟨time, elements, valid, shallow, rfl, rfl⟩
    rw [Bundle.check_eq_ok.mpr ⟨time, elements, valid, shallow, rfl⟩]
    exact Bundle.header_eq_ok.mpr ⟨time, PacketTree.bodyBytes elements, rfl, rfl⟩

namespace PacketTree

theorem head?_bytes {tree : PacketTree} (valid : tree.Valid) : tree.bytes.head? = some tree.start := by
  cases valid with
  | message parsed => exact Message.head?_of_parse parsed
  | bundle short valid => rfl

theorem Valid.part {part tree : PacketTree} (inner : Part part tree) (valid : tree.Valid) : part.Valid := by
  induction inner with
  | self => exact valid
  | element member inner ih =>
    cases valid with
    | bundle short valid => exact ih (valid _ member)

theorem joined_aligned {elements : List (List UInt8)} (aligned : ∀ element ∈ elements, 4 ∣ element.length) :
    4 ∣ (joined elements).length := by
  induction elements with
  | nil => exact Nat.dvd_zero 4
  | cons element elements ih =>
    obtain ⟨first, rest⟩ := List.forall_mem_cons.mp aligned
    rw [joined_cons, List.length_append, List.length_append, length_bigEndian]
    exact Nat.dvd_add (Nat.dvd_add (Nat.dvd_refl 4) first) (ih rest)

theorem aligned {tree : PacketTree} (valid : tree.Valid) : 4 ∣ tree.bytes.length := by
  induction valid with
  | @message m parsed =>
    obtain ⟨form, valid, whole, _⟩ := Message.parse_eq_ok.mp parsed
    rw [bytes, ← whole, MessageForm.length_bytes valid]
    exact messageLength_aligned _ _
  | @bundle time elements short valid ih =>
    have body : 4 ∣ (bodyBytes elements).length := by
      rw [bodyBytes_eq]
      refine joined_aligned fun element member => ?_
      obtain ⟨tree, inside, rfl⟩ := List.mem_map.mp member
      exact ih tree inside
    rw [bytes, bundleBytes, List.length_append, List.length_append, length_bundleTag, length_bigEndian]
    omega

theorem eq_of_map_bytes {elements others : List PacketTree}
    (injective : ∀ element ∈ elements, ∀ other ∈ others, element.bytes = other.bytes → element = other)
    (same : elements.map bytes = others.map bytes) : elements = others := by
  induction elements generalizing others with
  | nil => exact (List.map_eq_nil_iff.mp same.symm).symm
  | cons element elements ih =>
    cases others with
    | nil => cases same
    | cons other others =>
      obtain ⟨first, rest⟩ := List.cons.inj same
      have firsts := injective element List.mem_cons_self other List.mem_cons_self first
      have rests := ih (fun e inside o inside' => injective e (List.mem_cons_of_mem _ inside) o
        (List.mem_cons_of_mem _ inside')) rest
      rw [firsts, rests]

theorem bytes_inj {tree other : PacketTree} (valid : tree.Valid) (valid' : other.Valid)
    (same : tree.bytes = other.bytes) : tree = other := by
  -- The first byte tells a message from a bundle, so the two trees have the same shape.
  have starts : tree.start = other.start := by
    have heads := congrArg List.head? same
    rw [head?_bytes valid, head?_bytes valid'] at heads
    exact Option.some.inj heads
  induction valid generalizing other with
  | @message m parsed =>
    cases valid' with
    | @message m' parsed' =>
      have whole : m.bytes = m'.bytes := same
      rw [whole, parsed'] at parsed
      rw [Except.ok.inj parsed]
    | bundle _ _ => exact absurd starts (show messageStart ≠ bundleStart by decide)
  | @bundle time elements short valid ih =>
    cases valid' with
    | message _ => exact absurd starts (show bundleStart ≠ messageStart by decide)
    | @bundle time' elements' short' valid' =>
      have rest := List.append_cancel_left (show bundleTag ++ _ = bundleTag ++ _ from same)
      obtain ⟨words, bodies⟩ := List.append_inj rest (by rw [length_bigEndian, length_bigEndian])
      have times : time = time' := by
        have values := congrArg ofBigEndian words
        rw [ofBigEndian_time, ofBigEndian_time] at values
        exact congrArg TimeTag.mk (UInt64.toNat_inj.mp values)
      rw [bodyBytes_eq, bodyBytes_eq] at bodies
      have elementsBytes := joined_inj (List.forall_mem_map.mpr short) (List.forall_mem_map.mpr short') bodies
      rw [times, eq_of_map_bytes ?_ elementsBytes]
      intro element member other member' same
      have starts := (head?_bytes (valid element member)).symm.trans
        ((congrArg List.head? same).trans (head?_bytes (valid' other member')))
      exact ih element member (valid' other member') same (Option.some.inj starts)

end PacketTree

theorem Bundle.head?_of_parse {bytes : List UInt8} {b : Bundle} (parsed : Bundle.parse bytes = .ok b) :
    bytes.head? = some bundleStart := by
  obtain ⟨time, elements, valid, _, rfl, _⟩ := Bundle.parse_eq_ok.mp parsed
  exact PacketTree.head?_bytes valid

theorem Packet.parse_eq_ok {bytes : List UInt8} {p : Packet} :
    Packet.parse bytes = .ok p ↔
      (∃ m, Message.parse bytes = .ok m ∧ .message m = p) ∨ ∃ b, Bundle.parse bytes = .ok b ∧ .bundle b = p := by
  cases bytes with
  | nil =>
    refine iff_of_false nofun ?_
    rintro (⟨m, parsed, _⟩ | ⟨b, parsed, _⟩)
    · exact absurd (Message.head?_of_parse parsed) nofun
    · exact absurd (Bundle.head?_of_parse parsed) nofun
  | cons first rest =>
    have isMessage {m} (parsed : Message.parse (first :: rest) = .ok m) : first = messageStart :=
      Option.some.inj (Message.head?_of_parse parsed)
    have isBundle {b} (parsed : Bundle.parse (first :: rest) = .ok b) : first = bundleStart :=
      Option.some.inj (Bundle.head?_of_parse parsed)
    rw [Packet.parse]
    by_cases message : first = messageStart
    · have unbundled : ¬∃ b, Bundle.parse (first :: rest) = .ok b ∧ .bundle b = p := by
        rintro ⟨b, parsed, _⟩
        exact absurd (message.symm.trans (isBundle parsed)) (by decide)
      rw [if_pos message, except_map_eq_ok, or_iff_left unbundled]
    · have unmessaged : ¬∃ m, Message.parse (first :: rest) = .ok m ∧ .message m = p :=
        fun ⟨m, parsed, _⟩ => message (isMessage parsed)
      rw [if_neg message, or_iff_right unmessaged]
      by_cases bundle : first = bundleStart
      · rw [if_pos bundle, except_map_eq_ok]
      · rw [if_neg bundle]
        exact iff_of_false nofun fun ⟨b, parsed, _⟩ => bundle (isBundle parsed)

theorem Packet.tree_of_parse {bytes : List UInt8} {p : Packet} (parsed : Packet.parse bytes = .ok p) :
    ∃ tree : PacketTree, tree.Valid ∧ tree.depth ≤ maxBundleDepth ∧ tree.bytes = bytes := by
  rcases Packet.parse_eq_ok.mp parsed with ⟨m, parsed, _⟩ | ⟨b, parsed, _⟩
  · obtain ⟨valid, whole⟩ := PacketTree.message_of_parse parsed
    exact ⟨.message m, valid, Nat.zero_le _, whole⟩
  · obtain ⟨time, elements, valid, shallow, whole, _⟩ := Bundle.parse_eq_ok.mp parsed
    exact ⟨.bundle time elements, valid, shallow, whole⟩

/-- A bundle parses just when it is a tree of bundles and messages that is nested no deeper than the
limit. A packet is a message or a bundle and never both; it and the elements at every level are a whole
number of words. -/
theorem Packet.parse_nesting (bytes : List UInt8) :
    ((∃ b, Bundle.parse bytes = .ok b) ↔
      ∃ time elements, (PacketTree.bundle time elements).Valid ∧
        (PacketTree.bundle time elements).depth ≤ maxBundleDepth ∧
        (PacketTree.bundle time elements).bytes = bytes) ∧
      ((∃ p, Packet.parse bytes = .ok p) ↔
        (∃ m, Message.parse bytes = .ok m) ∨ ∃ b, Bundle.parse bytes = .ok b) ∧
      ¬((∃ m, Message.parse bytes = .ok m) ∧ ∃ b, Bundle.parse bytes = .ok b) ∧
      ∀ p, Packet.parse bytes = .ok p → 4 ∣ bytes.length ∧
        ∃ tree : PacketTree, tree.Valid ∧ tree.depth ≤ maxBundleDepth ∧ tree.bytes = bytes ∧
          (∀ other : PacketTree, other.Valid → other.bytes = bytes → other = tree) ∧
          ∀ part, PacketTree.Part part tree →
            4 ∣ part.bytes.length ∧ part.bytes.head? = some part.start := by
  refine ⟨?_, ?_, ?_, ?_⟩
  · constructor
    · rintro ⟨b, parsed⟩
      obtain ⟨time, elements, valid, shallow, whole, _⟩ := Bundle.parse_eq_ok.mp parsed
      exact ⟨time, elements, valid, shallow, whole⟩
    · rintro ⟨time, elements, valid, shallow, whole⟩
      exact ⟨_, Bundle.parse_eq_ok.mpr ⟨time, elements, valid, shallow, whole, rfl⟩⟩
  · constructor
    · rintro ⟨p, parsed⟩
      rcases Packet.parse_eq_ok.mp parsed with ⟨m, parsed, _⟩ | ⟨b, parsed, _⟩
      · exact .inl ⟨m, parsed⟩
      · exact .inr ⟨b, parsed⟩
    · rintro (⟨m, parsed⟩ | ⟨b, parsed⟩)
      · exact ⟨.message m, Packet.parse_eq_ok.mpr (.inl ⟨m, parsed, rfl⟩)⟩
      · exact ⟨.bundle b, Packet.parse_eq_ok.mpr (.inr ⟨b, parsed, rfl⟩)⟩
  · rintro ⟨⟨m, message⟩, b, bundle⟩
    have starts := (Message.head?_of_parse message).symm.trans (Bundle.head?_of_parse bundle)
    exact absurd (Option.some.inj starts) (by decide)
  · intro p parsed
    obtain ⟨tree, valid, shallow, rfl⟩ := Packet.tree_of_parse parsed
    refine ⟨PacketTree.aligned valid, tree, valid, shallow, rfl, ?_, ?_⟩
    · intro other valid' same
      exact PacketTree.bytes_inj valid' valid same
    · intro part inner
      have valid := valid.part inner
      exact ⟨PacketTree.aligned valid, PacketTree.head?_bytes valid⟩

end OscHost
