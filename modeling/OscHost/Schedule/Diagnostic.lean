import OscHost.Schedule.Clock
import OscHost.Wire.WireError

/-!
Diagnostics: what went wrong where nothing may be logged. They are counted and put into a channel of
bounded size; a full channel drops them and counts that as well. A hub holds the channels of all
senders of a host over one set of counters.
-/

namespace OscHost

inductive Diagnostic where
  /-- An event ran at `current` because its time had passed. -/
  | lateEvent (destination : Destination) (scheduled current : UInt64)
  | queueFull (destination : Destination) (time : UInt64)
  | pipeOverflow (needed available : Nat)
  | poolExhausted (size : Nat)
  | malformedPacket (error : WireError) (length : Nat)
  | clockStep (step : ClampedStep)
  deriving DecidableEq, Repr

/-- Counters of diagnostics by kind, and of those that were dropped. They count in 64 bits and would start anew
after 2⁶⁴ diagnostics, which no run can send; here they have no bound. -/
structure Stats where
  lateEvents : Nat := 0
  queueFull : Nat := 0
  pipeOverflows : Nat := 0
  poolExhausted : Nat := 0
  malformedPackets : Nat := 0
  clockSteps : Nat := 0
  droppedDiagnostics : Nat := 0
  deriving DecidableEq, Repr, Inhabited

def Stats.record (stats : Stats) : Diagnostic → Stats
  | .lateEvent .. => { stats with lateEvents := stats.lateEvents + 1 }
  | .queueFull .. => { stats with queueFull := stats.queueFull + 1 }
  | .pipeOverflow .. => { stats with pipeOverflows := stats.pipeOverflows + 1 }
  | .poolExhausted .. => { stats with poolExhausted := stats.poolExhausted + 1 }
  | .malformedPacket .. => { stats with malformedPackets := stats.malformedPackets + 1 }
  | .clockStep .. => { stats with clockSteps := stats.clockSteps + 1 }

inductive LogLevel where
  | debug
  | warn
  deriving DecidableEq, Repr

/-- A line of the log: a fixed text and named values. -/
structure LogLine where
  level : LogLevel
  text : String
  fields : List (String × String)
  deriving DecidableEq, Repr

namespace Diagnostic

/-- Late events are to be expected under load. All else is a fault. -/
def isFault : Diagnostic → Bool
  | lateEvent .. => false
  | _ => true

def logLine (source : String) : Diagnostic → LogLine
  | lateEvent destination scheduled current =>
    { level := .debug
      text := "late event clamped to period start"
      fields := [("source", source), ("destination", destination.text),
        ("scheduled", toString scheduled.toNat), ("current", toString current.toNat),
        ("late_by", toString (current.toNat - scheduled.toNat))] }
  | queueFull destination time =>
    { level := .warn
      text := "event queue full, event dropped"
      fields := [("source", source), ("destination", destination.text),
        ("time", toString time.toNat)] }
  | pipeOverflow needed available =>
    { level := .warn
      text := "pipe overflow, record dropped"
      fields := [("source", source), ("needed", toString needed),
        ("available", toString available)] }
  | poolExhausted size =>
    { level := .warn
      text := "payload pool exhausted"
      fields := [("source", source), ("size", toString size)] }
  | malformedPacket error length =>
    { level := .warn
      text := "malformed packet discarded"
      fields := [("source", source), ("error", error.message), ("len", toString length)] }
  | clockStep step =>
    { level := .warn
      text := "wall clock jump clamped"
      fields := [("source", source), ("observed_us", toString step.observed.toInt),
        ("applied_us", toString step.applied.toInt)] }

end Diagnostic

def TopUp.logLine (sent : TopUp) : LogLine :=
  { level := .debug
    text := "payload pool topped up"
    fields := [("class", toString sent.size), ("count", toString sent.count)] }

/-- Diagnostics on their way from one sender, oldest first. A queue of a fixed capacity between two threads: they
come out in the order in which they went in, and what is put into a full one is refused and changes nothing. -/
structure Ring where
  capacity : Nat
  pending : List Diagnostic := []
  deriving DecidableEq, Repr, Inhabited

/-- A ring has room for one diagnostic at least. -/
def Ring.ofCapacity (capacity : Nat) : Ring := { capacity := max capacity 1 }

/-- A ring and the counters of its sender. -/
structure Channel where
  ring : Ring
  stats : Stats := {}
  deriving DecidableEq, Repr, Inhabited

namespace Channel

def ofCapacity (capacity : Nat) : Channel := { ring := Ring.ofCapacity capacity }

/-- Count a diagnostic and put it into the ring, if there is room. -/
def send (c : Channel) (d : Diagnostic) : Channel :=
  let stats := c.stats.record d
  if c.ring.pending.length < c.ring.capacity then
    { ring := { c.ring with pending := c.ring.pending ++ [d] }, stats }
  else
    { c with stats := { stats with droppedDiagnostics := stats.droppedDiagnostics + 1 } }

def sendAll (c : Channel) (ds : List Diagnostic) : Channel := ds.foldl send c

def receive (c : Channel) : Option Diagnostic × Channel :=
  match c.ring.pending with
  | [] => (none, c)
  | d :: pending => (some d, { c with ring := { c.ring with pending } })

def drain (c : Channel) : List Diagnostic × Channel :=
  (c.ring.pending, { c with ring := { c.ring with pending := [] } })

def log (c : Channel) (source : String) : List LogLine × Channel :=
  let (pending, c) := c.drain
  (pending.map (Diagnostic.logLine source), c)

end Channel

/-- The rings of all senders, in the order in which they were opened, and their common counters. -/
structure Hub where
  capacity : Nat
  rings : List (String × Ring) := []
  stats : Stats := {}
  deriving DecidableEq, Repr, Inhabited

namespace Hub

/-- Open a ring for another sender. Senders are numbered from 0. -/
def addSender (hub : Hub) (source : String) : Nat × Hub :=
  (hub.rings.length, { hub with rings := hub.rings ++ [(source, Ring.ofCapacity hub.capacity)] })

/-- The sender's ring with the common counters. -/
def channel (hub : Hub) (sender : Nat) : Channel :=
  { ring := ((hub.rings[sender]?).map (·.2)).getD { capacity := 0 }, stats := hub.stats }

/-- Put a changed channel back in its place. -/
def withChannel (hub : Hub) (sender : Nat) (c : Channel) : Hub :=
  { hub with
    rings := hub.rings.modify sender fun (source, _) => (source, c.ring)
    stats := c.stats }

def send (hub : Hub) (sender : Nat) (d : Diagnostic) : Hub :=
  hub.withChannel sender ((hub.channel sender).send d)

def emptied (hub : Hub) : Hub :=
  { hub with rings := hub.rings.map fun (source, ring) => (source, { ring with pending := [] }) }

/-- Take out all that is pending, sender by sender. -/
def drain (hub : Hub) : List Diagnostic × Hub :=
  (hub.rings.flatMap fun (_, ring) => ring.pending, hub.emptied)

def log (hub : Hub) : List LogLine × Hub :=
  (hub.rings.flatMap fun (source, ring) => ring.pending.map (Diagnostic.logLine source),
    hub.emptied)

end Hub

end OscHost
