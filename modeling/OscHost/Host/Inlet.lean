import OscHost.Schedule.Desk
import OscHost.Stream.Frame
import OscHost.Stream.Pipe

/-!
Inlets: pipes through which other threads feed packets into a host. An inlet checks and flattens a
packet and converts its time tags before anything enters the pipe. What does not fit is dropped and
reported; a malformed packet is reported and leaves the pipe alone. The host moves complete records
from the pipe into its queue.
-/

namespace OscHost

structure Inlet where
  destination : Destination
  mode : UnrollMode := .full
  pipe : Pipe
  /-- The number of its diagnostics sender. -/
  sender : Nat
  /-- Packets that were refused. Counted without a bound, as in `Stats`. -/
  malformed : Nat := 0
  /-- Items that did not get into the pipe. Counted without a bound, too. -/
  dropped : Nat := 0
  deriving DecidableEq, Repr, Inhabited

/-- What changes while the items of a packet enter a pipe. -/
structure Intake where
  pipe : Pipe
  channel : Channel
  written : Nat := 0
  dropped : Nat := 0
  deriving DecidableEq, Repr, Inhabited

namespace Intake

/-- Write an item to the pipe, or drop and report it. -/
def add (destination : Destination) (time : UInt64) (payload : List UInt8) (intake : Intake) :
    Intake :=
  match intake.pipe.produce { destination, time, payload } with
  | (.ok (), pipe) => { intake with pipe, written := intake.written + 1 }
  | (.error error, pipe) =>
    let report := match error with
      | .overflow needed available => Diagnostic.pipeOverflow needed available
      | .payloadTooLarge .. => .poolExhausted payload.length
    { intake with pipe, channel := intake.channel.send report, dropped := intake.dropped + 1 }

def handler (clocks : Clocks) (destination : Destination) : UnrollHandler Intake where
  timestamp tag intake := (clocks.frameFor tag, intake)
  message := add destination
  bundle := add destination

end Intake

namespace Inlet

/-- Feed a packet in. The answer counts the records written; if there are any, the host is woken. -/
def inject (inlet : Inlet) (clocks : Clocks) (packet : List UInt8) (channel : Channel)
    (signal : Signal) : Except WireError Nat × Inlet × Channel × Signal :=
  let handler := Intake.handler clocks inlet.destination
  match unroll handler inlet.mode packet { pipe := inlet.pipe, channel } with
  | .ok () intake =>
    (.ok intake.written,
      { inlet with pipe := intake.pipe, dropped := inlet.dropped + intake.dropped },
      intake.channel, if 0 < intake.written then signal.notify.2 else signal)
  | .error error intake =>
    (.error error,
      { inlet with
        pipe := intake.pipe
        dropped := inlet.dropped + intake.dropped
        malformed := inlet.malformed + 1 },
      intake.channel.send (.malformedPacket error packet.length), signal)

/-- Feed in every whole frame of a decoder, passing over the malformed ones. A frame that is too
large is an error, whatever was fed in before it. -/
def injectFrames (inlet : Inlet) (clocks : Clocks) (decoder : FrameDecoder) (channel : Channel)
    (signal : Signal) : Except WireError Nat × Inlet × FrameDecoder × Channel × Signal :=
  match h : decoder.next with
  | (.error error, decoder) => (.error error, inlet, decoder, channel, signal)
  | (.ok none, decoder) => (.ok 0, inlet, decoder, channel, signal)
  | (.ok (some frame), rest) =>
    have := FrameDecoder.next_shorter h
    let (outcome, inlet, channel, signal) := inlet.inject clocks frame channel signal
    let written := match outcome with
      | .ok written => written
      | .error _ => 0
    let (total, inlet, decoder, channel, signal) :=
      inlet.injectFrames clocks rest channel signal
    (total.map (written + ·), inlet, decoder, channel, signal)
termination_by decoder.buffered.length

end Inlet

/-- What changes while records move from a pipe into a queue. -/
structure Transfer where
  queue : Queue
  pool : Pool
  /-- The length of a payload for which the pool had no buffer. -/
  exhausted : Option Nat := none
  /-- An event for which the queue had no room. -/
  rejected : Option Event := none
  deriving DecidableEq, Repr, Inhabited

namespace Transfer

def taker : Taker Transfer Buffer where
  alloc _ _ size t :=
    match t.pool.alloc size with
    | (some buffer, pool) => (some buffer, { t with pool })
    | (none, pool) => (none, { t with pool, exhausted := some size })
  accept destination time payload t :=
    let event := { destination, time, payload }
    match t.queue.schedule event with
    | some (_, queue) => (true, { t with queue })
    | none => (false, { t with rejected := some event })

end Transfer

/-- Move the complete records of a pipe into the queue. Where the pool has no buffer the record stays
in the pipe; where the queue is full it is dropped and reported. Either ends the transfer. The answer
counts the records that were queued. -/
def Desk.transfer (desk : Desk) (p : Pipe) (signal : Signal) : Nat × Pipe × Signal × Desk :=
  let (moved, p, signal, t) :=
    p.consume Transfer.taker signal { queue := desk.queue, pool := desk.pool : Transfer }
  let desk := { desk with queue := t.queue, pool := t.pool }
  let desk := match t.exhausted with
    | some size => desk.report (.poolExhausted size)
    | none => desk
  match t.rejected with
  | some event =>
    (moved - 1, p, signal,
      (desk.report (.queueFull event.destination event.time)).release event.payload)
  | none => (moved, p, signal, desk)

/-- Serve the inlets one after the other, each with an acknowledgement of the common signal. -/
def Desk.serveInlets (desk : Desk) : List Inlet → Signal → List Inlet × Signal × Desk
  | [], signal => ([], signal, desk)
  | inlet :: rest, signal =>
    let (_, pipe, signal, desk) := desk.transfer inlet.pipe signal
    let (rest, signal, desk) := desk.serveInlets rest signal
    ({ inlet with pipe } :: rest, signal, desk)

end OscHost
