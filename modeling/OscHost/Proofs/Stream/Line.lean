import OscHost.Stream.Pipe
import Mathlib.Data.List.Basic

/-!
# A pipe is a line of records

A line is what a pipe stands for: the records that were let in, of which some were taken out at the
front and the others still stand in line. `Line.Step` says what a request does to a line and what it
is answered. Whatever is asked of a pipe, it answers as its line demands, its bytes are the records
of the line one after the other, and the beginning of a record behind them is left alone
(`observe_line`).
-/

namespace OscHost

namespace Record

/-! ### Records as bytes -/

/-- A record as it comes out of a pipe: its destination has passed through its word. -/
def arrived (r : Record) : Record := { r with destination := .ofWord r.destination.toWord }

/-- The bytes that a record takes. -/
def size (r : Record) : Nat := recordHeaderLength + r.payload.length

@[simp] theorem length_encode (r : Record) : r.encode.length = r.size := by
  simp only [encode, size, recordHeaderLength, List.length_append, length_littleEndian]

theorem announced_append {bytes : List UInt8} (header : recordHeaderLength ≤ bytes.length)
    (rest : List UInt8) : announced (bytes ++ rest) = announced bytes := by
  rw [recordHeaderLength] at header
  rw [announced, announced, List.drop_append_of_le_length (by omega),
    List.take_append_of_le_length (by rw [List.length_drop]; omega)]

theorem announced_encode {r : Record} (short : r.payload.length < UInt32.size) :
    announced r.encode = r.payload.length := by
  have fields : (r.encode.drop 4).take 4 = littleEndian 4 r.payload.length := by
    rw [encode, List.append_assoc, List.append_assoc,
      List.drop_left' (length_littleEndian 4 _), List.take_left' (length_littleEndian 4 _)]
  rw [announced, fields, ofLittleEndian_littleEndian]
  exact Nat.mod_eq_of_lt short

/-- A record is read back from the front, whatever follows it. -/
theorem split?_encode {r : Record} (short : r.payload.length < UInt32.size) (rest : List UInt8) :
    split? (r.encode ++ rest) = some (r.arrived, rest) := by
  have length := length_encode r
  have enough : recordHeaderLength ≤ r.encode.length := by rw [length, size]; omega
  have announces : announced (r.encode ++ rest) = r.payload.length := by
    rw [announced_append enough, announced_encode short]
  have word : UInt32.ofNat (r.destination.toWord.toNat % span 4) = r.destination.toWord := by
    rw [Nat.mod_eq_of_lt (show _ < span 4 from r.destination.toWord.toNat_lt), UInt32.ofNat_toNat]
  have time : UInt64.ofNat (r.time.toNat % span 8) = r.time := by
    rw [Nat.mod_eq_of_lt (show _ < span 8 from r.time.toNat_lt), UInt64.ofNat_toNat]
  have front : (r.encode ++ rest).take 4 = littleEndian 4 r.destination.toWord.toNat := by
    simp only [encode, List.append_assoc]
    exact List.take_left' (length_littleEndian 4 _)
  have middle : ((r.encode ++ rest).drop 8).take 8 = littleEndian 8 r.time.toNat := by
    rw [show r.encode ++ rest = (littleEndian 4 r.destination.toWord.toNat ++
        littleEndian 4 r.payload.length) ++ (littleEndian 8 r.time.toNat ++ (r.payload ++ rest)) by
      simp only [encode, List.append_assoc]]
    rw [List.drop_left' (by simp), List.take_left' (length_littleEndian 8 _)]
  have body : (r.encode ++ rest).drop recordHeaderLength = r.payload ++ rest := by
    rw [encode, List.append_assoc]
    exact List.drop_left' (by simp [recordHeaderLength])
  rw [split?, announces, if_pos (by rw [List.length_append, length, size]; omega)]
  simp only [front, middle, body, ofLittleEndian_littleEndian, word, time,
    List.take_left, List.drop_left]
  rfl

end Record

/-- The beginning of a record whose end is not there yet. -/
structure Fragment where
  record : Record
  bytes : List UInt8
  missing : List UInt8
  whole : bytes ++ missing = record.encode
  unfinished : missing ≠ []
  short : record.payload.length < UInt32.size

/-- The beginning of a record does not read as a record. -/
theorem Fragment.split?_bytes (f : Fragment) : Record.split? f.bytes = none := by
  have length : f.bytes.length < f.record.size := by
    have missing := List.length_pos_iff.mpr f.unfinished
    rw [← Record.length_encode, ← f.whole, List.length_append]
    omega
  rw [Record.split?]
  refine if_neg fun ⟨header, enough⟩ => ?_
  have announces : Record.announced f.bytes = f.record.payload.length := by
    rw [← Record.announced_append header f.missing, f.whole, Record.announced_encode f.short]
  rw [announces] at enough
  exact absurd length (Nat.not_lt.mpr enough)

namespace Pipe

/-- What a reader can ask of a pipe. It brings its taker in whatever state that is in. -/
inductive Reading (σ β : Type) where
  | consume (taker : Taker σ β) (state : σ)
  | pop

inductive Request (σ β : Type) where
  | produce (r : Record)
  | read (reading : Reading σ β)

inductive Answer (σ : Type) where
  | produced (outcome : Except PipeError Unit)
  /-- How many records were handed on, and the state of the taker after that. -/
  | consumed (count : Nat) (state : σ)
  | popped (r : Option Record)

variable {σ β : Type} [PayloadBuffer β]

def serve (p : Pipe) (signal : Signal) : Request σ β → Answer σ × Pipe × Signal
  | .produce r =>
    let (outcome, p) := p.produce r
    (.produced outcome, p, signal)
  | .read (.consume taker state) =>
    let (count, p, signal, state) := p.consume taker signal state
    (.consumed count state, p, signal)
  | .read .pop =>
    let (r, p, signal) := p.pop signal
    (.popped r, p, signal)

/-- The answers to a sequence of requests, each with the pipe after it. -/
def observe (p : Pipe) (signal : Signal) : List (Request σ β) → List (Answer σ × Pipe)
  | [] => []
  | request :: rest =>
    let (answer, p, signal) := p.serve signal request
    (answer, p) :: p.observe signal rest

/-- The pipe with more bytes at its end. -/
def followedBy (p : Pipe) (bytes : List UInt8) : Pipe := { p with bytes := p.bytes ++ bytes }

@[simp] theorem followedBy_nil (p : Pipe) : p.followedBy [] = p := by
  rw [followedBy, List.append_nil]

/-! ### Taking one record -/

section TakeRecords

variable {σ β : Type} [PayloadBuffer β] {taker : Taker σ β} {p : Pipe} {r : Record}
  {bytes rest : List UInt8} {s t u : σ} {buffer : β}

theorem takeRecords_none (stuck : Record.split? bytes = none) :
    takeRecords taker { p with bytes } s = (0, { p with bytes }, s) := by
  rw [takeRecords]
  split
  · rfl
  · rename_i split
    rw [stuck] at split
    cases split

theorem takeRecords_some (split : Record.split? bytes = some (r, rest)) :
    takeRecords taker { p with bytes } s =
      match taker.alloc r.destination r.time r.payload.length s with
      | (none, s) => (0, { p with bytes }, s)
      | (some buffer, s) =>
        if PayloadBuffer.length buffer < r.payload.length then
          takeRecords taker { p with bytes := rest, dropped := p.dropped + 1 } s
        else
          match taker.accept r.destination r.time (PayloadBuffer.fill buffer r.payload) s with
          | (true, s) =>
            let (count, p, s) := takeRecords taker { p with bytes := rest } s
            (count + 1, p, s)
          | (false, s) => (1, { p with bytes := rest }, s) := by
  rw [takeRecords]
  split
  · rename_i stuck
    rw [split] at stuck
    cases stuck
  · rename_i other same
    rw [split] at same
    cases same
    obtain ⟨_ | buffer, t⟩ := taker.alloc r.destination r.time r.payload.length s
    · rfl
    · rcases accepted : taker.accept r.destination r.time
        (PayloadBuffer.fill buffer r.payload) t with ⟨_ | _, u⟩ <;> simp only [accepted]

theorem takeRecords_refused (split : Record.split? bytes = some (r, rest))
    (refused : taker.alloc r.destination r.time r.payload.length s = (none, t)) :
    takeRecords taker { p with bytes } s = (0, { p with bytes }, t) := by
  rw [takeRecords_some split, refused]

theorem takeRecords_short (split : Record.split? bytes = some (r, rest))
    (supplied : taker.alloc r.destination r.time r.payload.length s = (some buffer, t))
    (short : (PayloadBuffer.bytes buffer).length < r.payload.length) :
    takeRecords taker { p with bytes } s =
      takeRecords taker { p with bytes := rest, dropped := p.dropped + 1 } t := by
  rw [takeRecords_some split, supplied]
  exact if_pos short

theorem takeRecords_handed (split : Record.split? bytes = some (r, rest))
    (supplied : taker.alloc r.destination r.time r.payload.length s = (some buffer, t))
    (fits : r.payload.length ≤ (PayloadBuffer.bytes buffer).length)
    (accepted : taker.accept r.destination r.time (PayloadBuffer.fill buffer r.payload) t = (true, u)) :
    takeRecords taker { p with bytes } s =
      let (count, p, s) := takeRecords taker { p with bytes := rest } u
      (count + 1, p, s) := by
  rw [takeRecords_some split, supplied]
  simp only [PayloadBuffer.length, Nat.not_lt.mpr fits, ↓reduceIte, accepted]

theorem takeRecords_last (split : Record.split? bytes = some (r, rest))
    (supplied : taker.alloc r.destination r.time r.payload.length s = (some buffer, t))
    (fits : r.payload.length ≤ (PayloadBuffer.bytes buffer).length)
    (accepted : taker.accept r.destination r.time (PayloadBuffer.fill buffer r.payload) t = (false, u)) :
    takeRecords taker { p with bytes } s = (1, { p with bytes := rest }, u) := by
  rw [takeRecords_some split, supplied]
  simp only [PayloadBuffer.length, Nat.not_lt.mpr fits, ↓reduceIte, accepted]

end TakeRecords

end Pipe

/-- What became of a record that was taken out. -/
inductive Outcome (β : Type) where
  /-- It was handed on in this buffer. -/
  | handed (r : Record) (buffer : β)
  /-- It was dropped, since the buffer supplied for it was too short. -/
  | dropped (r : Record)

namespace Outcome

variable {β : Type}

def record : Outcome β → Record
  | handed r _ => r
  | dropped r => r

def isHanded : Outcome β → Bool
  | handed .. => true
  | dropped _ => false

end Outcome

section Serving

variable {σ β : Type} [PayloadBuffer β]

/-- How a taker is served from a line of records: what it is asked and answers, in order, what
becomes of the records taken out, and which records stay. -/
inductive Served (taker : Taker σ β) : List Record → σ → List (Outcome β) → List Record → σ → Prop where
  | done {s : σ} : Served taker [] s [] [] s
  | refused {r : Record} {rest : List Record} {s t : σ}
      (refused : taker.alloc r.arrived.destination r.time r.payload.length s = (none, t)) :
      Served taker (r :: rest) s [] (r :: rest) t
  | dropped {r : Record} {rest left : List Record} {buffer : β} {outcomes : List (Outcome β)}
      {s t u : σ}
      (supplied : taker.alloc r.arrived.destination r.time r.payload.length s = (some buffer, t))
      (short : (PayloadBuffer.bytes buffer).length < r.payload.length)
      (onwards : Served taker rest t outcomes left u) :
      Served taker (r :: rest) s (.dropped r :: outcomes) left u
  | handed {r : Record} {rest left : List Record} {buffer filled : β} {outcomes : List (Outcome β)}
      {s t u v : σ}
      (supplied : taker.alloc r.arrived.destination r.time r.payload.length s = (some buffer, t))
      (contents : PayloadBuffer.bytes filled =
        r.payload ++ (PayloadBuffer.bytes buffer).drop r.payload.length)
      (accepted : taker.accept r.arrived.destination r.time filled t = (true, u))
      (onwards : Served taker rest u outcomes left v) :
      Served taker (r :: rest) s (.handed r filled :: outcomes) left v
  | last {r : Record} {rest : List Record} {buffer filled : β} {s t u : σ}
      (supplied : taker.alloc r.arrived.destination r.time r.payload.length s = (some buffer, t))
      (contents : PayloadBuffer.bytes filled =
        r.payload ++ (PayloadBuffer.bytes buffer).drop r.payload.length)
      (accepted : taker.accept r.arrived.destination r.time filled t = (false, u)) :
      Served taker (r :: rest) s [.handed r filled] rest u

/-- No record is lost, doubled or passed over. -/
theorem Served.split {taker : Taker σ β} {records left : List Record} {s t : σ}
    {outcomes : List (Outcome β)} (served : Served taker records s outcomes left t) :
    records = outcomes.map Outcome.record ++ left := by
  induction served with
  | done => rfl
  | refused => rfl
  | dropped _ _ _ ih => exact congrArg (List.cons _) ih
  | handed _ _ _ _ ih => exact congrArg (List.cons _) ih
  | last => rfl

/-- What a taker is served from a pipe does not depend on what follows the whole records. -/
theorem Pipe.takeRecords_served (taker : Taker σ β) {records : List Record}
    (short : ∀ r ∈ records, r.payload.length < UInt32.size) (state : σ) :
    ∃ outcomes left after, Served taker records state outcomes left after ∧
      ∀ (p : Pipe) (tail : List UInt8), Record.split? tail = none →
        takeRecords taker { p with bytes := records.flatMap Record.encode ++ tail } state =
          (outcomes.countP (·.isHanded),
            { p with
              bytes := left.flatMap Record.encode ++ tail
              dropped := p.dropped + outcomes.countP (!·.isHanded) }, after) := by
  induction records generalizing state with
  | nil => exact ⟨[], [], state, .done, fun p tail stuck => takeRecords_none stuck⟩
  | cons r records ih =>
    obtain ⟨fits, others⟩ := List.forall_mem_cons.mp short
    have first : ∀ tail, Record.split? ((r :: records).flatMap Record.encode ++ tail) =
        some (r.arrived, records.flatMap Record.encode ++ tail) := by
      intro tail
      rw [List.flatMap_cons, List.append_assoc]
      exact Record.split?_encode fits _
    rcases supplied : taker.alloc r.arrived.destination r.time r.payload.length state with
      ⟨_ | buffer, between⟩
    · refine ⟨[], r :: records, between, .refused supplied, fun p tail stuck => ?_⟩
      exact takeRecords_refused (first tail) supplied
    · by_cases room : (PayloadBuffer.bytes buffer).length < r.payload.length
      · obtain ⟨outcomes, left, after, served, onwards⟩ := ih others between
        refine ⟨_, left, after, .dropped supplied room served, fun p tail stuck => ?_⟩
        rw [takeRecords_short (first tail) supplied room,
          onwards { p with dropped := p.dropped + 1 } tail stuck]
        simp [Outcome.isHanded, Nat.add_assoc, Nat.add_comm]
      · have enough := Nat.le_of_not_lt room
        have contents := PayloadBuffer.bytes_fill buffer r.payload enough
        rcases accepted : taker.accept r.arrived.destination r.time
          (PayloadBuffer.fill buffer r.payload) between with ⟨_ | _, answered⟩
        · refine ⟨_, records, answered, .last supplied contents accepted, fun p tail stuck => ?_⟩
          rw [takeRecords_last (first tail) supplied enough accepted]
          rfl
        · obtain ⟨outcomes, left, after, served, onwards⟩ := ih others answered
          refine ⟨_, left, after, .handed supplied contents accepted served, fun p tail stuck => ?_⟩
          rw [takeRecords_handed (first tail) supplied enough accepted]
          simp [Outcome.isHanded, onwards p tail stuck]

end Serving

structure Line where
  capacity : Nat
  maxPayload : Nat
  /-- The records that were let in, in order. -/
  accepted : List Record := []
  /-- The records that were taken out, in order. -/
  taken : List Record := []
  /-- The records in line, the next one first. -/
  held : List Record := []
  overflows : Nat := 0
  dropped : Nat := 0

namespace Line

def size (l : Line) : Nat := total (l.held.map Record.size)

def room (l : Line) : Nat := l.capacity - l.size

/-- The pipe that stands for the line. -/
def pipe (l : Line) : Pipe :=
  { capacity := l.capacity
    maxPayload := l.maxPayload
    bytes := l.held.flatMap Record.encode
    overflows := l.overflows
    dropped := l.dropped }

variable {σ β : Type} [PayloadBuffer β]

/-- What a request does to a line, and what is answered. -/
inductive Step : Line → Pipe.Request σ β → Pipe.Answer σ → Line → Prop where
  | tooLarge {l : Line} {r : Record} (large : l.maxPayload < r.payload.length) :
      Step l (.produce r) (.produced (.error (.payloadTooLarge r.payload.length l.maxPayload))) l
  | overflow {l : Line} {r : Record} (small : r.payload.length ≤ l.maxPayload)
      (full : l.room < r.size) :
      Step l (.produce r) (.produced (.error (.overflow r.size l.room)))
        { l with overflows := l.overflows + 1 }
  | accepted {l : Line} {r : Record} (small : r.payload.length ≤ l.maxPayload)
      (fits : r.size ≤ l.room) :
      Step l (.produce r) (.produced (.ok ()))
        { l with accepted := l.accepted ++ [r], held := l.held ++ [r] }
  | consumed {l : Line} {taker : Taker σ β} {s t : σ} {outcomes : List (Outcome β)}
      {left : List Record} (served : Served taker l.held s outcomes left t) :
      Step l (.read (.consume taker s)) (.consumed (outcomes.countP (·.isHanded)) t)
        { l with
          taken := l.taken ++ outcomes.map Outcome.record
          held := left
          dropped := l.dropped + outcomes.countP (!·.isHanded) }
  | popped {l : Line} {r : Record} {rest : List Record} (held : l.held = r :: rest) :
      Step l (.read .pop) (.popped (some r.arrived))
        { l with taken := l.taken ++ [r], held := rest }
  | empty {l : Line} (held : l.held = []) : Step l (.read .pop) (.popped none) l

/-- A sequence of requests, with the answer to each and the pipe after it. -/
inductive Run : Line → List (Pipe.Request σ β) → List (Pipe.Answer σ × Pipe) → Line → Prop where
  | nil {l : Line} : Run l [] [] l
  | cons {l m n : Line} {request : Pipe.Request σ β} {answer : Pipe.Answer σ}
      {requests : List (Pipe.Request σ β)} {seen : List (Pipe.Answer σ × Pipe)}
      (step : Step l request answer m) (rest : Run m requests seen n) :
      Run l (request :: requests) ((answer, m.pipe) :: seen) n

/-! ### What a line keeps -/

/-- The records let in are those taken out and then those in line, which the capacity bounds. -/
structure Sound (l : Line) : Prop where
  order : l.accepted = l.taken ++ l.held
  small : ∀ r ∈ l.held, r.payload.length ≤ l.maxPayload
  limit : l.maxPayload < UInt32.size
  bounded : l.size ≤ l.capacity

theorem Sound.short {l : Line} (sound : l.Sound) {r : Record} (member : r ∈ l.held) :
    r.payload.length < UInt32.size := Nat.lt_of_le_of_lt (sound.small r member) sound.limit

theorem Sound.take {l : Line} (sound : l.Sound) {front left : List Record} (dropped : Nat)
    (split : l.held = front ++ left) :
    Sound { l with taken := l.taken ++ front, held := left, dropped } := by
  obtain ⟨order, small, limit, bounded⟩ := sound
  refine ⟨?_, fun r member => ?_, limit, ?_⟩
  · rw [order, split, List.append_assoc]
  · rw [split] at small
    exact small r (List.mem_append_right _ member)
  · rw [size, split, List.map_append, total_append] at bounded
    exact Nat.le_trans (Nat.le_add_left _ _) bounded

theorem step_sound {l m : Line} {request : Pipe.Request σ β} {answer : Pipe.Answer σ}
    (sound : l.Sound) (step : Step l request answer m) : m.Sound := by
  cases step with
  | tooLarge => exact sound
  | empty => exact sound
  | overflow => exact ⟨sound.order, sound.small, sound.limit, sound.bounded⟩
  | consumed served => exact sound.take _ served.split
  | popped held => exact sound.take _ held
  | @accepted r small fits =>
    refine ⟨?_, fun other member => ?_, sound.limit, ?_⟩
    · show l.accepted ++ [r] = l.taken ++ (l.held ++ [r])
      rw [sound.order, List.append_assoc]
    · rcases List.mem_append.mp member with member | member
      · exact sound.small other member
      · rw [List.mem_singleton.mp member]
        exact small
    · have bounded := sound.bounded
      have room : l.room = l.capacity - l.size := rfl
      have added : size { l with accepted := l.accepted ++ [r], held := l.held ++ [r] } =
          l.size + r.size := by
        simp [size, total_append, total]
      rw [added]
      show l.size + r.size ≤ l.capacity
      omega

/-! ### The pipe of a line -/

theorem freeSpace_pipe (l : Line) : l.pipe.freeSpace = l.room := by
  have length : (l.held.flatMap Record.encode).length = l.size := by
    rw [size]
    induction l.held with
    | nil => rfl
    | cons r held ih => rw [List.flatMap_cons, List.length_append, Record.length_encode, ih]; rfl
  rw [Pipe.freeSpace, room, pipe, length]

theorem serve_produce (l : Line) (r : Record) :
    ∃ answer m, Step l (.produce r : Pipe.Request σ β) answer m ∧
      ∀ signal, l.pipe.serve signal (.produce r : Pipe.Request σ β) = (answer, m.pipe, signal) := by
  by_cases large : l.maxPayload < r.payload.length
  · refine ⟨_, _, .tooLarge large, fun signal => ?_⟩
    rw [Pipe.serve, Pipe.produce]
    simp only [show l.pipe.maxPayload = l.maxPayload from rfl, large, ↓reduceIte]
  · have small := Nat.le_of_not_lt large
    by_cases full : l.room < r.size
    · refine ⟨_, _, .overflow small full, fun signal => ?_⟩
      rw [Record.size] at full ⊢
      rw [Pipe.serve, Pipe.produce, freeSpace_pipe]
      simp only [show l.pipe.maxPayload = l.maxPayload from rfl, large, full, ↓reduceIte]
      rfl
    · refine ⟨_, _, .accepted small (Nat.le_of_not_lt full), fun signal => ?_⟩
      rw [Record.size] at full
      rw [Pipe.serve, Pipe.produce, freeSpace_pipe]
      simp only [large, full, ↓reduceIte, pipe, List.flatMap_append, List.flatMap_cons,
        List.flatMap_nil, List.append_nil]

/-- A reader sees the whole records and nothing of what follows them. -/
theorem serve_read {l : Line} (sound : l.Sound) (reading : Pipe.Reading σ β) :
    ∃ answer m, Step l (.read reading) answer m ∧
      ∀ (tail : List UInt8) (signal : Signal), Record.split? tail = none →
        (l.pipe.followedBy tail).serve signal (.read reading) =
          (answer, m.pipe.followedBy tail, signal.acknowledge) := by
  cases reading with
  | consume taker state =>
    obtain ⟨outcomes, left, after, served, takes⟩ :=
      Pipe.takeRecords_served taker (fun r member => sound.short (r := r) member) state
    refine ⟨_, _, .consumed served, fun tail signal stuck => ?_⟩
    have taken := takes l.pipe tail stuck
    rw [Pipe.serve, Pipe.consume]
    simp only [Pipe.followedBy, pipe] at taken ⊢
    rw [taken]
  | pop =>
    cases held : l.held with
    | nil =>
      refine ⟨_, _, .empty held, fun tail signal stuck => ?_⟩
      rw [Pipe.serve, Pipe.pop]
      simp [Pipe.followedBy, pipe, held, stuck]
    | cons r rest =>
      refine ⟨_, _, .popped held, fun tail signal stuck => ?_⟩
      have short := sound.short (r := r) (by rw [held]; exact List.mem_cons_self)
      have first := Record.split?_encode short (rest.flatMap Record.encode ++ tail)
      rw [Pipe.serve, Pipe.pop]
      simp [Pipe.followedBy, pipe, held, first]

theorem serve_step {l : Line} (sound : l.Sound) (request : Pipe.Request σ β) (signal : Signal) :
    ∃ answer m after, Step l request answer m ∧
      l.pipe.serve signal request = (answer, m.pipe, after) := by
  cases request with
  | produce r =>
    obtain ⟨answer, m, step, served⟩ := serve_produce (σ := σ) (β := β) l r
    exact ⟨answer, m, signal, step, served signal⟩
  | read reading =>
    obtain ⟨answer, m, step, served⟩ := serve_read sound reading
    have alone := served [] signal rfl
    rw [Pipe.followedBy_nil, Pipe.followedBy_nil] at alone
    exact ⟨answer, m, _, step, alone⟩

theorem observe_run {l : Line} (sound : l.Sound) (signal : Signal)
    (requests : List (Pipe.Request σ β)) :
    ∃ m, Run l requests (l.pipe.observe signal requests) m ∧ m.Sound := by
  induction requests generalizing l signal with
  | nil => exact ⟨l, .nil, sound⟩
  | cons request requests ih =>
    obtain ⟨answer, m, after, step, served⟩ := serve_step sound request signal
    obtain ⟨n, rest, kept⟩ := ih (step_sound sound step) after
    refine ⟨n, ?_, kept⟩
    rw [Pipe.observe, served]
    exact .cons step rest

theorem observe_fragment {l : Line} (sound : l.Sound) (signal : Signal) (f : Fragment)
    (readings : List (Pipe.Reading σ β)) :
    (l.pipe.followedBy f.bytes).observe signal (readings.map .read) =
      (l.pipe.observe signal (readings.map .read)).map fun (answer, p) =>
        (answer, p.followedBy f.bytes) := by
  induction readings generalizing l signal with
  | nil => rfl
  | cons reading readings ih =>
    obtain ⟨answer, m, step, served⟩ := serve_read sound reading
    have alone := served [] signal rfl
    rw [Pipe.followedBy_nil, Pipe.followedBy_nil] at alone
    rw [List.map_cons, Pipe.observe, Pipe.observe, served f.bytes signal f.split?_bytes, alone,
      List.map_cons]
    exact congrArg (List.cons _) (ih (step_sound sound step) signal.acknowledge)

end Line

/-- Whatever is asked of a new pipe, it answers as a line that starts empty. The records let in are,
in order, those taken out and those still in line. If the beginning of a record follows them, then
whatever readers ask, they are answered as if it were not there, and it stays where it is. -/
theorem Pipe.observe_line {σ β : Type} [PayloadBuffer β] (capacity limit : Nat) (signal : Signal)
    (requests : List (Request σ β)) :
    ∃ line : Line,
      Line.Run
        { capacity := max capacity recordHeaderLength, maxPayload := min limit (UInt32.size - 1) }
        requests (((ofCapacity capacity).withMaxPayload limit).observe signal requests) line ∧
      line.accepted = line.taken ++ line.held ∧ line.size ≤ line.capacity ∧
      ∀ (later : Signal) (f : Fragment) (readings : List (Reading σ β)),
        (line.pipe.followedBy f.bytes).observe later (readings.map .read) =
          (line.pipe.observe later (readings.map .read)).map fun (answer, p) =>
            (answer, p.followedBy f.bytes) := by
  let start : Line :=
    { capacity := max capacity recordHeaderLength, maxPayload := min limit (UInt32.size - 1) }
  have sound : start.Sound := by
    refine ⟨rfl, nofun, ?_, Nat.zero_le _⟩
    exact Nat.lt_of_le_of_lt (Nat.min_le_right _ _) (by decide)
  obtain ⟨line, run, kept⟩ := Line.observe_run sound signal requests
  exact ⟨line, run, kept.order, kept.bounded, fun later f readings =>
    Line.observe_fragment kept later f readings⟩

end OscHost
