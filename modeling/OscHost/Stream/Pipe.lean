import OscHost.Schedule.Event

/-!
A byte pipe between two threads. Its bytes are records, each a header of sixteen bytes and a payload.
A record that does not fit is refused whole, and a record is taken out only when all of it is there,
so a reader never loses step with the writer.
-/

namespace OscHost

/-- A payload on its way, with where it goes and when. -/
structure Record where
  destination : Destination
  time : UInt64
  payload : List UInt8
  deriving DecidableEq, Repr, Inhabited

namespace Record

/-- Destination and payload length in four bytes each, the time in eight, all least significant byte
first. -/
def encode (r : Record) : List UInt8 :=
  littleEndian 4 r.destination.toWord.toNat ++ littleEndian 4 r.payload.length ++
    littleEndian 8 r.time.toNat ++ r.payload

/-- The payload length that a header announces. -/
def announced (bytes : List UInt8) : Nat := ofLittleEndian ((bytes.drop 4).take 4)

/-- The record at the front and the bytes after it, once the record is complete. -/
def split? (bytes : List UInt8) : Option (Record × List UInt8) :=
  if recordHeaderLength ≤ bytes.length ∧ recordHeaderLength + announced bytes ≤ bytes.length then
    let body := bytes.drop recordHeaderLength
    some ({
      destination := .ofWord (UInt32.ofNat (ofLittleEndian (bytes.take 4)))
      time := UInt64.ofNat (ofLittleEndian ((bytes.drop 8).take 8))
      payload := body.take (announced bytes) }, body.drop (announced bytes))
  else
    none

theorem length_of_split? {bytes rest : List UInt8} {r : Record} (h : split? bytes = some (r, rest)) :
    recordHeaderLength + r.payload.length + rest.length = bytes.length := by
  unfold split? at h
  split at h
  next enough =>
    cases h
    simp only [List.length_take, List.length_drop]
    omega
  · cases h

end Record

inductive PipeError where
  | overflow (needed available : Nat)
  | payloadTooLarge (size limit : Nat)
  deriving DecidableEq, Repr

def PipeError.message : PipeError → String
  | overflow needed available => s!"Pipe overflow: need {needed} bytes, {available} free"
  | payloadTooLarge size limit => s!"Payload of {size} bytes exceeds maximum {limit}"

structure Pipe where
  capacity : Nat
  maxPayload : Nat
  /-- What was written and not taken out yet, oldest first. A queue of bytes of the fixed capacity: they come out in
  the order in which they went in, and none gets lost. -/
  bytes : List UInt8 := []
  /-- Records refused for lack of room. Counted without a bound, as in `Stats`. -/
  overflows : Nat := 0
  /-- Records dropped because the buffer supplied for them was too short. Counted without a bound, too. -/
  dropped : Nat := 0
  deriving DecidableEq, Repr, Inhabited

/-- Buffers that a payload can be copied into. Bytes behind the payload stay as they are. -/
class PayloadBuffer (β : Type) where
  bytes : β → List UInt8
  /-- Put a payload over the front of the buffer. -/
  fill : β → List UInt8 → β
  bytes_fill (buffer : β) (payload : List UInt8) (fits : payload.length ≤ (bytes buffer).length) :
    bytes (fill buffer payload) = payload ++ (bytes buffer).drop payload.length

def PayloadBuffer.length [PayloadBuffer β] (buffer : β) : Nat := (bytes buffer).length

instance : PayloadBuffer Buffer where
  bytes := Buffer.bytes
  fill := Buffer.fill
  bytes_fill buffer payload fits := by
    rw [Buffer.fill, Buffer.length, List.take_of_length_le fits]

instance : PayloadBuffer (List UInt8) where
  bytes buffer := buffer
  fill buffer payload := overwrite buffer 0 (payload.take buffer.length)
  bytes_fill buffer payload fits := by
    simp [overwrite, List.take_of_length_le fits]

/-- What takes records out of a pipe, as steps on a state. -/
structure Taker (σ β : Type) where
  /-- A buffer for a payload of the given length, or none to leave the record where it is. -/
  alloc : Destination → UInt64 → Nat → σ → Option β × σ
  /-- Take a filled buffer. The answer is whether to go on. -/
  accept : Destination → UInt64 → β → σ → Bool × σ

namespace Pipe

/-- A pipe has room for one header at least. -/
def ofCapacity (capacity : Nat) : Pipe :=
  { capacity := max capacity recordHeaderLength, maxPayload := UInt32.size - 1 }

/-- Limit the payload. The length field of a record sets a limit of its own. -/
def withMaxPayload (p : Pipe) (limit : Nat) : Pipe := { p with maxPayload := min limit (UInt32.size - 1) }

def freeSpace (p : Pipe) : Nat := p.capacity - p.bytes.length

/-- Append a record, or refuse it and leave the bytes as they are. -/
def produce (p : Pipe) (r : Record) : Except PipeError Unit × Pipe :=
  let needed := recordHeaderLength + r.payload.length
  if p.maxPayload < r.payload.length then
    (.error (.payloadTooLarge r.payload.length p.maxPayload), p)
  else if p.freeSpace < needed then
    (.error (.overflow needed p.freeSpace), { p with overflows := p.overflows + 1 })
  else
    (.ok (), { p with bytes := p.bytes ++ r.encode })

/-- Hand on complete records in order. A record that gets no buffer stays; one whose buffer is too
short is dropped. The answer counts the records handed on. -/
def takeRecords [PayloadBuffer β] (taker : Taker σ β) (p : Pipe) (state : σ) : Nat × Pipe × σ :=
  match h : Record.split? p.bytes with
  | none => (0, p, state)
  | some (r, rest) =>
    have := Record.length_of_split? h
    match taker.alloc r.destination r.time r.payload.length state with
    | (none, state) => (0, p, state)
    | (some buffer, state) =>
      if PayloadBuffer.length buffer < r.payload.length then
        takeRecords taker { p with bytes := rest, dropped := p.dropped + 1 } state
      else
        let filled := PayloadBuffer.fill buffer r.payload
        match taker.accept r.destination r.time filled state with
        | (true, state) =>
          let (count, p, state) := takeRecords taker { p with bytes := rest } state
          (count + 1, p, state)
        | (false, state) => (1, { p with bytes := rest }, state)
termination_by p.bytes.length
decreasing_by all_goals (simp only [recordHeaderLength] at this; omega)

/-- Acknowledge the signal of the pipe, then hand on the records. -/
def consume [PayloadBuffer β] (taker : Taker σ β) (p : Pipe) (signal : Signal) (state : σ) :
    Nat × Pipe × Signal × σ :=
  let (count, p, state) := p.takeRecords taker state
  (count, p, signal.acknowledge, state)

def pop (p : Pipe) (signal : Signal) : Option Record × Pipe × Signal :=
  match Record.split? p.bytes with
  | none => (none, p, signal.acknowledge)
  | some (r, rest) => (some r, { p with bytes := rest }, signal.acknowledge)

end Pipe

end OscHost
