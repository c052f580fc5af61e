import OscHost.Stream.Frame
import OscHost.Proofs.Wire.Steps

/-!
# The frames of a stream

A stream is cut in one way only: into frames, and into how it goes on behind the last whole one
(`Split`). A decoder gives out the frames of the stream and ends as the stream does, in whatever
chunks the stream comes in and whenever the decoder is asked (`feed_stream`).
-/

namespace OscHost

/-- The bytes that a packet takes on a stream. -/
def framed (packet : List UInt8) : List UInt8 := bigEndian 4 packet.length ++ packet

namespace FrameDecoder

/-! ### Cutting a stream -/

/-- The bytes begin a frame of allowed length, as far as they tell, and end before it does. -/
inductive Unfinished (limit : Nat) : List UInt8 → Prop where
  | header {bytes : List UInt8} (short : bytes.length < 4) : Unfinished limit bytes
  | body {length : Nat} {part : List UInt8} (word : length < UInt32.size) (allowed : length ≤ limit)
      (short : part.length < length) : Unfinished limit (bigEndian 4 length ++ part)

/-- How a stream goes on behind its last whole frame. -/
inductive Ending where
  | unfinished (bytes : List UInt8)
  | tooLarge (length : Nat)

/-- The error with which a decoder meets the end, if it does. -/
def Ending.error? (limit : Nat) : Ending → Option WireError
  | unfinished _ => none
  | tooLarge length => some (.frameTooLarge length limit)

/-- What stays in a decoder that has come to the end. -/
def Ending.left : Ending → List UInt8
  | unfinished bytes => bytes
  | tooLarge _ => []

/-- A stream, the frames in it, and how it goes on behind them. -/
inductive Split (limit : Nat) : List UInt8 → List (List UInt8) → Ending → Prop where
  | unfinished {bytes : List UInt8} (unfinished : Unfinished limit bytes) :
      Split limit bytes [] (.unfinished bytes)
  | tooLarge {length : Nat} {rest : List UInt8} (word : length < UInt32.size)
      (large : limit < length) : Split limit (bigEndian 4 length ++ rest) [] (.tooLarge length)
  | frame {packet rest : List UInt8} {frames : List (List UInt8)} {ending : Ending}
      (word : packet.length < UInt32.size) (allowed : packet.length ≤ limit)
      (onwards : Split limit rest frames ending) :
      Split limit (framed packet ++ rest) (packet :: frames) ending

/-! ### Lengths -/

theorem word_inj {length other : Nat} {rest more : List UInt8} (word : length < UInt32.size)
    (word' : other < UInt32.size) (same : bigEndian 4 length ++ rest = bigEndian 4 other ++ more) :
    length = other ∧ rest = more := by
  obtain ⟨front, back⟩ := List.append_inj same (by simp)
  have value := congrArg ofBigEndian front
  rw [ofBigEndian_of_lt word, ofBigEndian_of_lt word'] at value
  exact ⟨value, back⟩

/-- What is at the front of some bytes does not depend on what follows, unless it is unfinished. -/
theorem front (limit : Nat) (bytes : List UInt8) :
    Unfinished limit bytes ∨
      (∃ length rest, length < UInt32.size ∧ limit < length ∧ bytes = bigEndian 4 length ++ rest) ∨
      ∃ packet rest, packet.length < UInt32.size ∧ packet.length ≤ limit ∧
        bytes = framed packet ++ rest := by
  by_cases short : bytes.length < 4
  · exact .inl (.header short)
  · have four : (bytes.take 4).length = 4 := by
      rw [List.length_take]
      omega
    have digits := bigEndian_ofBigEndian (bytes.take 4)
    rw [four] at digits
    have whole : bytes = bigEndian 4 (ofBigEndian (bytes.take 4)) ++ bytes.drop 4 := by
      rw [digits, List.take_append_drop]
    have word : ofBigEndian (bytes.take 4) < UInt32.size := by
      have bound := ofBigEndian_lt (bytes.take 4)
      rw [four] at bound
      exact bound
    generalize ofBigEndian (bytes.take 4) = length at whole word
    generalize bytes.drop 4 = rest at whole
    by_cases large : limit < length
    · exact .inr (.inl ⟨length, rest, word, large, whole⟩)
    · have allowed := Nat.le_of_not_lt large
      by_cases part : rest.length < length
      · rw [whole]
        exact .inl (.body word allowed part)
      · have taken : (rest.take length).length = length := by
          rw [List.length_take]
          omega
        refine .inr (.inr ⟨rest.take length, rest.drop length, ?_, ?_, ?_⟩)
        · rw [taken]
          exact word
        · rw [taken]
          exact allowed
        · rw [framed, taken, List.append_assoc, List.take_append_drop]
          exact whole

theorem not_unfinished_word {limit length : Nat} {rest : List UInt8} (word : length < UInt32.size)
    (whole : limit < length ∨ length ≤ rest.length) :
    ¬Unfinished limit (bigEndian 4 length ++ rest) := by
  intro unfinished
  generalize same : bigEndian 4 length ++ rest = bytes at unfinished
  cases unfinished with
  | header short =>
    rw [← same, List.length_append, length_bigEndian] at short
    omega
  | body word' allowed short =>
    obtain ⟨rfl, rfl⟩ := word_inj word word' same
    omega

/-! ### One way to cut -/

section Cutting

variable {limit length : Nat} {stream packet rest : List UInt8} {frames : List (List UInt8)}
  {ending : Ending}

theorem exists_split (limit : Nat) (stream : List UInt8) :
    ∃ frames ending, Split limit stream frames ending := by
  induction size : stream.length using Nat.strongRecOn generalizing stream with
  | ind count ih =>
    rcases front limit stream with unfinished | ⟨length, rest, word, large, rfl⟩ |
      ⟨packet, rest, word, allowed, rfl⟩
    · exact ⟨[], _, .unfinished unfinished⟩
    · exact ⟨[], _, .tooLarge word large⟩
    · have shorter : rest.length < count := by
        rw [← size, framed, List.length_append, List.length_append, length_bigEndian]
        omega
      obtain ⟨frames, ending, onwards⟩ := ih _ shorter rest rfl
      exact ⟨packet :: frames, ending, .frame word allowed onwards⟩

/-- Behind a length that is too large nothing matters. -/
theorem Split.of_tooLarge (word : length < UInt32.size) (large : limit < length)
    (split : Split limit (bigEndian 4 length ++ rest) frames ending) :
    frames = [] ∧ ending = .tooLarge length := by
  generalize same : bigEndian 4 length ++ rest = bytes at split
  cases split with
  | unfinished unfinished =>
    rw [← same] at unfinished
    exact absurd unfinished (not_unfinished_word word (.inl large))
  | tooLarge word' =>
    obtain ⟨rfl, -⟩ := word_inj word word' same
    exact ⟨rfl, rfl⟩
  | frame word' allowed =>
    rw [framed, List.append_assoc] at same
    obtain ⟨rfl, -⟩ := word_inj word word' same
    omega

theorem Split.of_frame (word : packet.length < UInt32.size) (allowed : packet.length ≤ limit)
    (split : Split limit (framed packet ++ rest) frames ending) :
    ∃ more, frames = packet :: more ∧ Split limit rest more ending := by
  generalize same : framed packet ++ rest = bytes at split
  rw [framed, List.append_assoc] at same
  cases split with
  | unfinished unfinished =>
    rw [← same] at unfinished
    refine absurd unfinished (not_unfinished_word word (.inr ?_))
    rw [List.length_append]
    omega
  | tooLarge word' large =>
    obtain ⟨rfl, -⟩ := word_inj word word' same
    omega
  | @frame other more _ _ word' _ onwards =>
    rw [framed, List.append_assoc] at same
    obtain ⟨lengths, same⟩ := word_inj word word' same
    obtain ⟨rfl, rfl⟩ := List.append_inj same lengths
    exact ⟨_, rfl, onwards⟩

theorem Split.unique {others : List (List UInt8)} {other : Ending}
    (split : Split limit stream frames ending) (split' : Split limit stream others other) :
    frames = others ∧ ending = other := by
  induction split generalizing others with
  | unfinished unfinished =>
    cases split' with
    | unfinished => exact ⟨rfl, rfl⟩
    | tooLarge word large => exact absurd unfinished (not_unfinished_word word (.inl large))
    | @frame packet rest _ _ word =>
      refine absurd unfinished ?_
      rw [framed, List.append_assoc]
      exact not_unfinished_word word (.inr (by rw [List.length_append]; omega))
  | tooLarge word large =>
    obtain ⟨rfl, rfl⟩ := split'.of_tooLarge word large
    exact ⟨rfl, rfl⟩
  | frame word allowed _ ih =>
    obtain ⟨more, rfl, onwards⟩ := split'.of_frame word allowed
    obtain ⟨rfl, rfl⟩ := ih onwards
    exact ⟨rfl, rfl⟩

end Cutting

/-! ### Asking for a frame -/

section Next

variable {d : FrameDecoder} {length : Nat} {packet rest : List UInt8}

/-- The decoder has only come as far as its offset says, and the bytes in front of it do not
matter. -/
theorem next_word (word : length < UInt32.size) (pending : d.buffered = bigEndian 4 length ++ rest) :
    d.next =
      if d.limit < length then (.error (.frameTooLarge length d.limit), d.clear)
      else if rest.length < length then (.ok none, d)
      else (.ok (some (rest.take length)), { d with start := d.start + 4 + length }) := by
  have four : (bigEndian 4 length).length = 4 := length_bigEndian 4 length
  have count : d.buffered.length = 4 + rest.length := by rw [pending, List.length_append, four]
  have value : ofBigEndian (d.buffered.take 4) = length := by
    rw [pending, List.take_left' four, ofBigEndian_of_lt word]
  have body : d.bytes.drop (d.start + 4) = rest := by
    rw [← List.drop_drop, ← buffered, pending, List.drop_left' four]
  rw [next]
  simp only [count, value, body, Nat.add_lt_add_iff_left,
    show ¬4 + rest.length < 4 by omega, ↓reduceIte]

theorem next_unfinished (unfinished : Unfinished d.limit d.buffered) : d.next = (.ok none, d) := by
  generalize pending : d.buffered = bytes at unfinished
  cases unfinished with
  | header short =>
    rw [next]
    simp only [pending, short, ↓reduceIte]
  | body word allowed short => rw [next_word word pending, if_neg (Nat.not_lt.mpr allowed), if_pos short]

theorem next_tooLarge (word : length < UInt32.size) (large : d.limit < length)
    (pending : d.buffered = bigEndian 4 length ++ rest) :
    d.next = (.error (.frameTooLarge length d.limit), d.clear) := by
  rw [next_word word pending, if_pos large]

theorem next_frame (word : packet.length < UInt32.size) (allowed : packet.length ≤ d.limit)
    (pending : d.buffered = framed packet ++ rest) :
    ∃ after : FrameDecoder, d.next = (.ok (some packet), after) ∧ after.limit = d.limit ∧
      after.buffered = rest := by
  rw [framed, List.append_assoc] at pending
  have enough : ¬(packet ++ rest).length < packet.length := by
    rw [List.length_append]
    omega
  refine ⟨{ d with start := d.start + 4 + packet.length }, ?_, rfl, ?_⟩
  · rw [next_word word pending, if_neg (Nat.not_lt.mpr allowed), if_neg enough, List.take_left]
  · show d.bytes.drop (d.start + 4 + packet.length) = rest
    rw [← List.drop_drop, ← List.drop_drop, ← buffered, pending,
      List.drop_left' (length_bigEndian 4 _), List.drop_left]

end Next

/-! ### Feeding a stream -/

/-- What is asked of a decoder. -/
inductive Request where
  | push (chunk : List UInt8)
  | poll

/-- The bytes that come in with a sequence of requests. -/
def Request.stream (requests : List Request) : List UInt8 :=
  requests.flatMap fun
    | .push chunk => chunk
    | .poll => []

/-- Ask for frames until there is none, or an error. -/
def drain (d : FrameDecoder) : List (List UInt8) × Option WireError × FrameDecoder :=
  match h : d.next with
  | (.error error, d) => ([], some error, d)
  | (.ok none, d) => ([], none, d)
  | (.ok (some packet), rest) =>
    have := next_shorter h
    let (packets, error, d) := drain rest
    (packet :: packets, error, d)
termination_by d.buffered.length

/-- Carry out the requests and then ask until there is no frame any more. The answer holds the frames
given out up to the first error, and this error. -/
def feed (d : FrameDecoder) :
    List Request → List (List UInt8) × Option WireError × FrameDecoder
  | [] => d.drain
  | .push chunk :: requests => (d.push chunk).feed requests
  | .poll :: requests =>
    match d.next with
    | (.error error, d) => ([], some error, d)
    | (.ok none, d) => d.feed requests
    | (.ok (some packet), d) =>
      let (packets, error, d) := d.feed requests
      (packet :: packets, error, d)

variable {d : FrameDecoder} {frames : List (List UInt8)} {ending : Ending}

theorem drain_eq (d : FrameDecoder) :
    d.drain = match d.next with
      | (.error error, d) => ([], some error, d)
      | (.ok none, d) => ([], none, d)
      | (.ok (some packet), rest) => (packet :: rest.drain.1, rest.drain.2) := by
  rw [drain]
  split <;> rename_i asked <;> simp only [asked]

theorem drain_split (split : Split d.limit d.buffered frames ending) :
    ∃ after, d.drain = (frames, ending.error? d.limit, after) ∧ after.buffered = ending.left := by
  generalize limit : d.limit = bound at split
  generalize pending : d.buffered = bytes at split
  induction split generalizing d with
  | unfinished unfinished =>
    rw [← limit, ← pending] at unfinished
    refine ⟨d, ?_, pending⟩
    rw [drain_eq, next_unfinished unfinished]
    rfl
  | tooLarge word large =>
    rw [← limit] at large
    refine ⟨d.clear, ?_, rfl⟩
    rw [drain_eq, next_tooLarge word large pending, ← limit]
    rfl
  | frame word allowed onwards ih =>
    rw [← limit] at allowed
    obtain ⟨after, asked, same, left⟩ := next_frame word allowed pending
    obtain ⟨last, drained, rest⟩ := ih (same.trans limit) left
    refine ⟨last, ?_, rest⟩
    rw [drain_eq, asked]
    dsimp only
    rw [drained]

/-- The frames that a decoder gives out are those of the bytes that it holds and of all that come in,
taken together. -/
theorem feed_split {requests : List Request}
    (split : Split d.limit (d.buffered ++ Request.stream requests) frames ending) :
    ∃ after, d.feed requests = (frames, ending.error? d.limit, after) ∧
      after.buffered = ending.left := by
  induction requests generalizing d frames with
  | nil =>
    rw [Request.stream, List.flatMap_nil, List.append_nil] at split
    exact drain_split split
  | cons request requests ih =>
    cases request with
    | push chunk =>
      rw [Request.stream, List.flatMap_cons, ← List.append_assoc] at split
      exact ih (d := d.push chunk) split
    | poll =>
      have split : Split d.limit (d.buffered ++ Request.stream requests) frames ending := split
      rw [feed]
      -- What the decoder finds at the front of its bytes is what is at the front of the stream.
      rcases front d.limit d.buffered with unfinished | ⟨length, rest, word, large, pending⟩ |
        ⟨packet, rest, word, allowed, pending⟩
      · rw [next_unfinished unfinished]
        exact ih split
      · rw [next_tooLarge word large pending]
        rw [pending, List.append_assoc] at split
        obtain ⟨rfl, rfl⟩ := split.of_tooLarge word large
        exact ⟨d.clear, rfl, rfl⟩
      · obtain ⟨after, asked, same, left⟩ := next_frame word allowed pending
        rw [pending, List.append_assoc] at split
        obtain ⟨more, rfl, onwards⟩ := split.of_frame word allowed
        rw [← left, ← same] at onwards
        obtain ⟨last, fed, rest⟩ := ih onwards
        refine ⟨last, ?_, rest⟩
        rw [asked]
        dsimp only
        rw [fed, same]

end FrameDecoder

/-! ### Writing frames -/

namespace Writer

theorem putFrame_of_lt {packet : List UInt8} (word : packet.length < UInt32.size) (w : Writer) :
    putFrame packet w = put (framed packet) w := by
  have size : (framed packet).length = 4 + packet.length := by
    rw [framed, List.length_append, length_bigEndian]
  rw [putFrame]
  by_cases full : w.remaining < 4 + packet.length
  · rw [if_pos full, put_error (by rwa [size]), size]
  · rw [if_neg full, if_neg (Nat.not_le.mpr word), framed]

theorem putFrame_of_not_lt {packet : List UInt8} (large : ¬packet.length < UInt32.size) (w : Writer) :
    ∃ e, putFrame packet w = .error e w := by
  rw [putFrame]
  split
  · exact ⟨_, rfl⟩
  · rw [if_pos (Nat.not_lt.mp large)]
    exact ⟨_, rfl⟩

theorem putFrame_eq_ok {packet : List UInt8} {w w' : Writer} {done : Unit} :
    putFrame packet w = .ok done w' ↔
      packet.length < UInt32.size ∧ put (framed packet) w = .ok () w' := by
  by_cases word : packet.length < UInt32.size
  · rw [putFrame_of_lt word]
    exact (and_iff_right word).symm
  · obtain ⟨_, refused⟩ := putFrame_of_not_lt word w
    rw [refused]
    exact iff_of_false nofun fun both => word both.1

theorem putFrames_ok {packets : List (List UInt8)} {w w' : Writer} {done : PUnit}
    (written : forM packets putFrame w = .ok done w') :
    (∀ packet ∈ packets, packet.length < UInt32.size) ∧
      w'.written = w.written ++ packets.flatMap framed := by
  induction packets generalizing w with
  | nil =>
    obtain ⟨-, rfl⟩ := pure_eq_ok.mp written
    exact ⟨nofun, by rw [List.flatMap_nil, List.append_nil]⟩
  | cons packet packets ih =>
    rw [List.forM_cons, bind_eq_ok] at written
    obtain ⟨_, between, first, rest⟩ := written
    obtain ⟨word, put⟩ := putFrame_eq_ok.mp first
    obtain ⟨words, onwards⟩ := ih rest
    refine ⟨List.forall_mem_cons.mpr ⟨word, words⟩, ?_⟩
    rw [onwards, (put_eq_ok.mp put).2, List.flatMap_cons, List.append_assoc]

end Writer

namespace FrameDecoder

theorem split_framed {limit : Nat} {packets : List (List UInt8)}
    (words : ∀ packet ∈ packets, packet.length < UInt32.size)
    (allowed : ∀ packet ∈ packets, packet.length ≤ limit) :
    Split limit (packets.flatMap framed) packets (.unfinished []) := by
  induction packets with
  | nil => exact .unfinished (.header (by decide))
  | cons packet packets ih =>
    obtain ⟨word, words⟩ := List.forall_mem_cons.mp words
    obtain ⟨small, allowed⟩ := List.forall_mem_cons.mp allowed
    rw [List.flatMap_cons]
    exact .frame word small (ih words allowed)

/-- A stream is cut in one way, and whatever chunks it comes in and whenever the decoder is asked, the
decoder gives out the frames of the stream up to a length above the limit, ends with an error just if
there is such a length, and keeps the bytes of the frame that is not whole, or nothing after an error.
Packets of allowed length that were written as frames come back in order, and nothing is left over. -/
theorem feed_stream (limit : Nat) :
    (∀ stream, ∃ frames ending, Split limit stream frames ending ∧
      (∀ others other, Split limit stream others other → others = frames ∧ other = ending) ∧
      ∀ requests, Request.stream requests = stream → ∃ after,
        FrameDecoder.feed { limit } requests = (frames, ending.error? limit, after) ∧
          after.buffered = ending.left) ∧
    ∀ packets w w' done, (∀ packet ∈ packets, packet.length ≤ limit) →
      forM packets Writer.putFrame w = .ok done w' →
      ∀ requests, w'.written = w.written ++ Request.stream requests → ∃ after,
        FrameDecoder.feed { limit } requests = (packets, none, after) ∧ after.buffered = [] := by
  constructor
  · intro stream
    obtain ⟨frames, ending, split⟩ := exists_split limit stream
    refine ⟨frames, ending, split, fun others other split' => split'.unique split,
      fun requests whole => ?_⟩
    rw [← whole] at split
    exact feed_split (d := { limit }) split
  · intro packets w w' done allowed written requests whole
    obtain ⟨words, same⟩ := Writer.putFrames_ok written
    have stream := List.append_cancel_left (whole.symm.trans same)
    have split := split_framed words allowed
    rw [← stream] at split
    exact feed_split (d := { limit }) split

end FrameDecoder

end OscHost
