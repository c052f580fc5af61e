import OscHost.Packet.Unroll
import OscHost.Schedule.Diagnostic
import OscHost.Schedule.Queue

/-!
The desk at which events are scheduled: a queue, the pool that its payloads come from, and the
channel on which failures are reported. Whatever fails is reported as well as returned, and a buffer
that does not end up in the queue goes back to the pool.
-/

namespace OscHost

inductive ScheduleError where
  | wire (error : WireError)
  | queueFull (capacity : Nat)
  | poolExhausted (size : Nat)
  deriving DecidableEq, Repr

def ScheduleError.message : ScheduleError → String
  | wire error => "OSC error: " ++ error.message
  | queueFull capacity => s!"Event queue full ({capacity} events)"
  | poolExhausted size => s!"Payload pool exhausted for a {size} byte payload"

/-- The reports of what came too late for a period that starts at `current`. -/
def Drained.reports (drained : Drained) (current : UInt64) : List Diagnostic :=
  drained.late.map fun (destination, time) => .lateEvent destination time current

structure Desk where
  queue : Queue
  pool : Pool
  channel : Channel
  deriving DecidableEq, Repr, Inhabited

namespace Desk

def ofSettings (s : Settings) : Desk :=
  { queue := Queue.ofCapacity s.queueCapacity
    pool := Pool.ofSettings s
    channel := Channel.ofCapacity s.diagnosticsCapacity }

def report (desk : Desk) (d : Diagnostic) : Desk := { desk with channel := desk.channel.send d }

def release (desk : Desk) (buffer : Buffer) : Desk :=
  { desk with pool := desk.pool.release buffer }

def releaseAll (desk : Desk) (events : List Event) : Desk :=
  { desk with pool := desk.pool.releaseAll (events.map (·.payload)) }

def alloc (desk : Desk) (length : Nat) : Except ScheduleError Buffer × Desk :=
  match desk.pool.alloc length with
  | (some buffer, pool) => (.ok buffer, { desk with pool })
  | (none, pool) =>
    (.error (.poolExhausted length), { desk with pool }.report (.poolExhausted length))

def scheduleBuffer (desk : Desk) (event : Event) : Except ScheduleError Handle × Desk :=
  match desk.queue.schedule event with
  | some (handle, queue) => (.ok handle, { desk with queue })
  | none =>
    (.error (.queueFull desk.queue.capacity),
      (desk.report (.queueFull event.destination event.time)).release event.payload)

/-- Copy a payload into a buffer of the pool and queue it. -/
def schedule (desk : Desk) (destination : Destination) (time : UInt64) (payload : List UInt8) :
    Except ScheduleError Handle × Desk :=
  match desk.alloc payload.length with
  | (.error error, desk) => (.error error, desk)
  | (.ok buffer, desk) =>
    desk.scheduleBuffer { destination, time, payload := buffer.fill payload }

/-- Encode a message into a buffer of the pool and queue it. -/
def scheduleMessage (desk : Desk) (destination : Destination) (time : UInt64) (path : String)
    (args : List Argument) : Except ScheduleError Handle × Desk :=
  match desk.alloc (messageLength path args) with
  | (.error error, desk) => (.error error, desk)
  | (.ok buffer, desk) =>
    match encodeMessage buffer.bytes path args with
    | (.error error, _) => (.error (.wire error), desk.release buffer)
    | (.ok length, bytes) =>
      let payload := (buffer.fill bytes).truncate length
      desk.scheduleBuffer { destination, time, payload }

/-- Withdraw a pending event. The answer is whether it was still pending. -/
def cancel (desk : Desk) (handle : Handle) : Bool × Desk :=
  match desk.queue.cancel handle with
  | some (event, queue) => (true, { desk with queue }.release event.payload)
  | none => (false, desk)

/-- Queue one item of a packet, counting it if that succeeds. -/
def injectItem (destination : Destination) (time : UInt64) (bytes : List UInt8) :
    Nat × Desk → Nat × Desk := fun (count, desk) =>
  match desk.schedule destination time bytes with
  | (.ok _, desk) => (count + 1, desk)
  | (.error _, desk) => (count, desk)

/-- Check a packet and queue its items. The answer counts those that were queued; an item that could
not be queued is reported and passed over, and a malformed packet is reported and left alone. -/
def inject (desk : Desk) (clocks : Clocks) (destination : Destination) (mode : UnrollMode)
    (packet : List UInt8) : Except ScheduleError Nat × Desk :=
  let handler : UnrollHandler (Nat × Desk) :=
    { timestamp := fun tag state => (clocks.frameFor tag, state)
      message := injectItem destination
      bundle := injectItem destination }
  match unroll handler mode packet (0, desk) with
  | .ok () (count, desk) => (.ok count, desk)
  | .error error (_, desk) =>
    (.error (.wire error), desk.report (.malformedPacket error packet.length))

/-- Take out what a period dispatches and report what came too late. The payloads of the events have
to be released once they are dispatched. -/
def drain (desk : Desk) (current period : UInt64) : List Event × Desk :=
  let (drained, queue) := desk.queue.drain current period
  let channel := desk.channel.sendAll (drained.reports current)
  (drained.events, { desk with queue, channel })

/-- Take out every event for which `p` holds and release it. The answer counts them. -/
def discard (desk : Desk) (p : Event → Bool) : Nat × Desk :=
  let (events, queue) := desk.queue.removeWhere p
  (events.length, { desk with queue }.releaseAll events)

end Desk

end OscHost
