import OscHost.Packet.Message
import OscHost.Recording.LogError

/-!
Writing a recording: a magic word, the sample rate, and one record for each message. A record holds
the frames since the record before it, the length of the message, and the message itself. Nothing is
stored for a message that cannot be recorded; what a full sink could still take stays in it.
-/

namespace OscHost

/-- The eight bytes that start a recording. -/
def logMagic : List UInt8 := utf8 "tjostosc"

/-- Storage that takes bytes up to a limit, if it has one. -/
structure Sink where
  stored : List UInt8 := []
  room : Option Nat := none
  deriving DecidableEq, Repr, Inhabited

/-- Store as many of the bytes as fit. The answer is whether all of them did. -/
def Sink.store (sink : Sink) (bytes : List UInt8) : Bool × Sink :=
  match sink.room with
  | none => (true, { sink with stored := sink.stored ++ bytes })
  | some room =>
    (bytes.length ≤ room,
      { stored := sink.stored ++ bytes.take room, room := some (room - bytes.length) })

structure LogWriter where
  sink : Sink
  /-- The time of the last record. -/
  previous : UInt64 := 0
  /-- How many were written. Counted in 64 bits, of which no recording makes full use, and without a bound here. -/
  records : Nat := 0
  deriving DecidableEq, Repr, Inhabited

namespace LogWriter

/-- Store two byte strings, the second only if the first fits. -/
def storeBoth (sink : Sink) (first second : List UInt8) : Bool × Sink :=
  match sink.store first with
  | (true, sink) => sink.store second
  | (false, sink) => (false, sink)

def create (sink : Sink) (sampleRate : UInt32) : Except LogError LogWriter × Sink :=
  match storeBoth sink logMagic (bigEndian 4 sampleRate.toNat) with
  | (true, sink) => (.ok { sink }, sink)
  | (false, sink) => (.error (.io .sinkFull), sink)

/-- Append a message. Times may not decrease, and successive records have to lie less than 2³² frames
apart. -/
def write (writer : LogWriter) (time : UInt64) (message : List UInt8) :
    Except LogError Unit × LogWriter :=
  match Message.parse message with
  | .error error => (.error (.malformedRecord error), writer)
  | .ok _ =>
    if time < writer.previous ∨ UInt32.size ≤ (time - writer.previous).toNat then
      (.error (.recordTime time writer.previous), writer)
    else if UInt32.size ≤ message.length then
      (.error (.recordTooLarge message.length), writer)
    else
      let header := bigEndian 4 (time - writer.previous).toNat ++ bigEndian 4 message.length
      match storeBoth writer.sink header message with
      | (true, sink) => (.ok (), { sink, previous := time, records := writer.records + 1 })
      | (false, sink) => (.error (.io .sinkFull), { writer with sink })

end LogWriter

end OscHost
