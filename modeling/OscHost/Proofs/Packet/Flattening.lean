import OscHost.Packet.Unroll
import OscHost.Proofs.Packet.PacketTree

/-!
# Flattening

To flatten a packet is to walk its tree. `Walk` says which calls the walk of a tree is made of,
`Makes` what a handler does with calls. A packet is checked first, so the walk never meets anything
that it cannot read, and a packet that fails the check leads to no call.
-/

namespace OscHost

/-- A call to a handler. That of a time tag comes with its answer. -/
inductive Callback where
  | timestamp (tag : TimeTag) (answer : UInt64)
  | message (time : UInt64) (bytes : List UInt8)
  | bundle (time : UInt64) (bytes : List UInt8)
  deriving DecidableEq, Repr

/-- The handler makes these calls in turn, with these answers, each in the state that the one before
it left. -/
inductive UnrollHandler.Makes (handler : UnrollHandler σ) : σ → List Callback → σ → Prop where
  | nil {s : σ} : handler.Makes s [] s
  | timestamp {s t : σ} {tag : TimeTag} {calls : List Callback}
      (rest : handler.Makes (handler.timestamp tag s).2 calls t) :
      handler.Makes s (.timestamp tag (handler.timestamp tag s).1 :: calls) t
  | message {s t : σ} {time : UInt64} {bytes : List UInt8} {calls : List Callback}
      (rest : handler.Makes (handler.message time bytes s) calls t) :
      handler.Makes s (.message time bytes :: calls) t
  | bundle {s t : σ} {time : UInt64} {bytes : List UInt8} {calls : List Callback}
      (rest : handler.Makes (handler.bundle time bytes s) calls t) :
      handler.Makes s (.bundle time bytes :: calls) t

namespace PacketTree

mutual

/-- The walk of a packet whose innermost enclosing bundle has the frame time `time`. -/
inductive Walk : UInt64 → PacketTree → List Callback → Prop where
  | message {time : UInt64} {m : Message} : Walk time (.message m) [.message time m.bytes]
  /-- The tag of a bundle is asked for once, and the answer holds for its elements only. -/
  | bundle {time answer : UInt64} {tag : TimeTag} {elements : List PacketTree} {calls : List Callback}
      (inside : Walks answer elements calls) :
      Walk time (.bundle tag elements) (.timestamp tag answer :: calls)

/-- The walks of the elements of a bundle, from left to right. -/
inductive Walks : UInt64 → List PacketTree → List Callback → Prop where
  | nil {time : UInt64} : Walks time [] []
  | cons {time : UInt64} {element : PacketTree} {elements : List PacketTree} {first rest : List Callback}
      (walk : Walk time element first) (walks : Walks time elements rest) :
      Walks time (element :: elements) (first ++ rest)

end

end PacketTree

/-- The calls for a packet that was read from `bytes`. -/
inductive Unrolls (bytes : List UInt8) : UnrollMode → Packet → List Callback → Prop where
  | message {mode : UnrollMode} {m : Message} {time : UInt64} :
      Unrolls bytes mode (.message m) [.timestamp .immediate time, .message time bytes]
  | whole {b : Bundle} {time : UInt64} :
      Unrolls bytes .none (.bundle b) [.timestamp b.time time, .bundle time bytes]
  /-- The outermost bundle lies in no other, so no frame time is given to its walk. -/
  | apart {mode : UnrollMode} {b : Bundle} {elements : List PacketTree} {calls : List Callback}
      (mode_ne : mode ≠ .none) (valid : (PacketTree.bundle b.time elements).Valid)
      (whole : (PacketTree.bundle b.time elements).bytes = bytes)
      (walk : ∀ time, (PacketTree.bundle b.time elements).Walk time calls) :
      Unrolls bytes mode (.bundle b) calls

namespace UnrollHandler.Makes

variable {handler : UnrollHandler σ} {s t u : σ} {calls more : List Callback}

theorem append (first : handler.Makes s calls t) (second : handler.Makes t more u) :
    handler.Makes s (calls ++ more) u := by
  induction first with
  | nil => exact second
  | timestamp _ ih => exact .timestamp (ih second)
  | message _ ih => exact .message (ih second)
  | bundle _ ih => exact .bundle (ih second)

/-- What every call keeps, a sequence of calls keeps. -/
theorem preserves {P : σ → Prop} (makes : handler.Makes s calls t)
    (timestamp : ∀ tag s, P s → P (handler.timestamp tag s).2)
    (message : ∀ time bytes s, P s → P (handler.message time bytes s))
    (bundle : ∀ time bytes s, P s → P (handler.bundle time bytes s)) (start : P s) : P t := by
  induction makes with
  | nil => exact start
  | timestamp _ ih => exact ih (timestamp _ _ start)
  | message _ ih => exact ih (message _ _ _ start)
  | bundle _ ih => exact ih (bundle _ _ _ start)

end UnrollHandler.Makes

/-! ### Walking -/

section Walking

variable {σ : Type} (handler : UnrollHandler σ) {time : UInt64} {rest : List (List UInt8)} {state : σ}

theorem walkElements_nil : walkElements handler time [] state = .ok () state := by
  rw [walkElements]

theorem walkElements_other {element : List UInt8} (start : element.head? ≠ some bundleStart) :
    walkElements handler time (element :: rest) state =
      walkElements handler time rest (handler.message time element state) := by
  rw [walkElements]
  simp only [start, ↓reduceIte]

theorem walkElements_unread {element : List UInt8} {error : WireError}
    (start : element.head? = some bundleStart) (refused : Bundle.header element = .error error) :
    walkElements handler time (element :: rest) state = .error error state := by
  rw [walkElements]
  simp only [start, ↓reduceIte]
  split <;> rename_i read <;> cases refused.symm.trans read
  rfl

theorem walkElements_nested {element : List UInt8} {nested : Bundle} {after : σ}
    (start : element.head? = some bundleStart) (header : Bundle.header element = .ok nested)
    (walked : walkBundle handler nested state = .ok () after) :
    walkElements handler time (element :: rest) state = walkElements handler time rest after := by
  rw [walkElements]
  simp only [start, ↓reduceIte]
  split <;> rename_i read <;> cases header.symm.trans read
  rw [walked]

theorem walkElements_broken {element : List UInt8} {nested : Bundle} {error : WireError} {after : σ}
    (start : element.head? = some bundleStart) (header : Bundle.header element = .ok nested)
    (failed : walkBundle handler nested state = .error error after) :
    walkElements handler time (element :: rest) state = .error error after := by
  rw [walkElements]
  simp only [start, ↓reduceIte]
  split <;> rename_i read <;> cases header.symm.trans read
  rw [failed]

theorem walkElements_message {m : Message} (valid : (PacketTree.message m).Valid) :
    walkElements handler time ((PacketTree.message m).bytes :: rest) state =
      walkElements handler time rest (handler.message time m.bytes state) := by
  have start : ((PacketTree.message m).bytes).head? = some messageStart := PacketTree.head?_bytes valid
  refine walkElements_other handler ?_
  rw [start]
  decide

/-- The header of a nested bundle reads, whatever its elements are. -/
theorem walkElements_bundle {tag : TimeTag} {elements : List PacketTree} {after : σ}
    (walked : walkBundle handler ⟨(PacketTree.bundle tag elements).bytes, tag⟩ state = .ok () after) :
    walkElements handler time ((PacketTree.bundle tag elements).bytes :: rest) state =
      walkElements handler time rest after := by
  have start : ((PacketTree.bundle tag elements).bytes).head? = some bundleStart := rfl
  have header : Bundle.header (PacketTree.bundle tag elements).bytes =
      .ok ⟨(PacketTree.bundle tag elements).bytes, tag⟩ :=
    Bundle.header_eq_ok.mpr ⟨tag, PacketTree.bodyBytes elements, rfl, rfl⟩
  exact walkElements_nested handler start header walked

theorem walkBundle_eq {tag : TimeTag} {elements : List PacketTree}
    (short : ∀ element ∈ elements, element.bytes.length ≤ maxLength) :
    walkBundle handler ⟨(PacketTree.bundle tag elements).bytes, tag⟩ state =
      walkElements handler (handler.timestamp tag state).1 (elements.map PacketTree.bytes)
        (handler.timestamp tag state).2 := by
  have split : Bundle.elements ⟨(PacketTree.bundle tag elements).bytes, tag⟩ =
      elements.map PacketTree.bytes := by
    rw [Bundle.elements, PacketTree.bytes, Bundle.body_eq, PacketTree.bodyBytes_eq]
    exact splitElements_joined (List.forall_mem_map.mpr short)
  rw [walkBundle]
  simp only [split]

/-- The walk of a list of elements goes through, if that of each nested bundle does. -/
theorem walkElements_walks {elements : List PacketTree} (valid : ∀ element ∈ elements, element.Valid)
    (nested : ∀ tag inner, PacketTree.bundle tag inner ∈ elements → ∀ state, ∃ calls after,
      walkBundle handler ⟨(PacketTree.bundle tag inner).bytes, tag⟩ state = .ok () after ∧
        handler.Makes state calls after ∧ ∀ time, (PacketTree.bundle tag inner).Walk time calls)
    (time : UInt64) (state : σ) :
    ∃ calls after, walkElements handler time (elements.map PacketTree.bytes) state = .ok () after ∧
      handler.Makes state calls after ∧ PacketTree.Walks time elements calls := by
  induction elements generalizing state with
  | nil => exact ⟨[], state, walkElements_nil handler, .nil, .nil⟩
  | cons element elements ih =>
    obtain ⟨first, others⟩ := List.forall_mem_cons.mp valid
    have rest := ih others fun tag inner member => nested tag inner (List.mem_cons_of_mem _ member)
    cases element with
    | message m =>
      obtain ⟨calls, after, walked, makes, walks⟩ := rest (handler.message time m.bytes state)
      refine ⟨_, after, ?_, .message makes, .cons .message walks⟩
      rw [List.map_cons, walkElements_message handler first, walked]
    | bundle tag inner =>
      obtain ⟨calls, between, entered, makes, walk⟩ := nested tag inner List.mem_cons_self state
      obtain ⟨more, after, walked, makesMore, walks⟩ := rest between
      refine ⟨calls ++ more, after, ?_, makes.append makesMore, .cons (walk time) walks⟩
      rw [List.map_cons, walkElements_bundle handler entered, walked]

theorem walkBundle_walk {tag : TimeTag} {elements : List PacketTree}
    (valid : (PacketTree.bundle tag elements).Valid) (state : σ) :
    ∃ calls after,
      walkBundle handler ⟨(PacketTree.bundle tag elements).bytes, tag⟩ state = .ok () after ∧
        handler.Makes state calls after ∧ ∀ time, (PacketTree.bundle tag elements).Walk time calls := by
  -- The induction is on the derivation that the tree is valid, which has one for each element.
  generalize whole : PacketTree.bundle tag elements = tree at valid
  induction valid generalizing tag elements state with
  | message => cases whole
  | @bundle tag inner short valid ih =>
    cases whole
    obtain ⟨calls, after, walked, makes, walks⟩ :=
      walkElements_walks handler valid (fun tag' inner member state => ih _ member state rfl)
        (handler.timestamp tag state).1 (handler.timestamp tag state).2
    refine ⟨_, after, ?_, .timestamp makes, fun _ => .bundle walks⟩
    rw [walkBundle_eq handler short, walked]

end Walking

/-! ### Messages -/

namespace PacketTree

mutual

/-- A message that a walk hands on is one that parses. -/
theorem Walk.parses {time : UInt64} {tree : PacketTree} {calls : List Callback} (walk : tree.Walk time calls)
    (valid : tree.Valid) {given : UInt64} {element : List UInt8} (member : .message given element ∈ calls) :
    ∃ m, Message.parse element = .ok m := by
  cases walk with
  | message =>
    cases List.mem_singleton.mp member
    cases valid with
    | message parsed => exact ⟨_, parsed⟩
  | bundle inside =>
    cases valid with
    | bundle short valid =>
      rcases List.mem_cons.mp member with same | member
      · cases same
      · exact inside.parses valid member

theorem Walks.parses {time : UInt64} {elements : List PacketTree} {calls : List Callback}
    (walks : Walks time elements calls) (valid : ∀ element ∈ elements, element.Valid) {given : UInt64}
    {element : List UInt8} (member : .message given element ∈ calls) :
    ∃ m, Message.parse element = .ok m := by
  cases walks with
  | nil => cases member
  | cons walk walks =>
    obtain ⟨first, others⟩ := List.forall_mem_cons.mp valid
    rcases List.mem_append.mp member with member | member
    · exact walk.parses first member
    · exact walks.parses others member

end

end PacketTree

/-! ### Unrolling -/

theorem Unrolls.parses {bytes : List UInt8} {mode : UnrollMode} {p : Packet} {calls : List Callback}
    (unrolls : Unrolls bytes mode p calls) (parsed : Packet.parse bytes = .ok p) {given : UInt64}
    {element : List UInt8} (member : .message given element ∈ calls) :
    ∃ m, Message.parse element = .ok m := by
  cases unrolls with
  | @message _ m time =>
    obtain ⟨_, rfl⟩ : given = time ∧ element = bytes := by simpa using member
    rcases Packet.parse_eq_ok.mp parsed with ⟨m, parsed, _⟩ | ⟨b, _, same⟩
    · exact ⟨m, parsed⟩
    · cases same
  | whole => simp at member
  | apart mode_ne valid whole walk => exact (walk 0).parses valid member

theorem unroll_unrolls (handler : UnrollHandler σ) {mode : UnrollMode} {bytes : List UInt8} {p : Packet}
    (parsed : Packet.parse bytes = .ok p) (state : σ) :
    ∃ calls after, unroll handler mode bytes state = .ok () after ∧ handler.Makes state calls after ∧
      Unrolls bytes mode p calls := by
  rw [unroll, parsed]
  rcases Packet.parse_eq_ok.mp parsed with ⟨m, read, rfl⟩ | ⟨b, read, rfl⟩
  · have same := Message.bytes_of_parse read
    refine ⟨_, _, rfl, .timestamp (.message .nil), ?_⟩
    rw [same]
    exact .message
  · obtain ⟨time, elements, valid, _, whole, rfl⟩ := Bundle.parse_eq_ok.mp read
    obtain ⟨calls, after, walked, makes, walk⟩ := walkBundle_walk handler valid state
    rw [whole] at walked
    cases mode with
    | none => exact ⟨_, _, rfl, .timestamp (.bundle .nil), .whole⟩
    | partway => exact ⟨calls, after, walked, makes, .apart nofun valid whole walk⟩
    | full => exact ⟨calls, after, walked, makes, .apart nofun valid whole walk⟩

theorem unroll_error (handler : UnrollHandler σ) {mode : UnrollMode} {bytes : List UInt8} {error : WireError}
    (refused : Packet.parse bytes = .error error) (state : σ) :
    unroll handler mode bytes state = .error error state := by
  rw [unroll, refused]

/-- A packet that does not parse leads to no call. Any other is unrolled to its end, by the calls that
belong to its tree and the mode and no others; every message that they hand on is one that parses. -/
theorem unroll_flattens (handler : UnrollHandler σ) (mode : UnrollMode) (bytes : List UInt8) (state : σ) :
    (∀ error, Packet.parse bytes = .error error →
      unroll handler mode bytes state = .error error state) ∧
    ∀ p, Packet.parse bytes = .ok p → ∃ calls after,
      unroll handler mode bytes state = .ok () after ∧ handler.Makes state calls after ∧
      Unrolls bytes mode p calls ∧
      ∀ time element, .message time element ∈ calls → ∃ m, Message.parse element = .ok m := by
  constructor
  · intro error refused
    exact unroll_error handler refused state
  · intro p parsed
    obtain ⟨calls, after, unrolled, makes, unrolls⟩ := unroll_unrolls handler parsed state
    exact ⟨calls, after, unrolled, makes, unrolls, fun _ _ member => unrolls.parses parsed member⟩

end OscHost
