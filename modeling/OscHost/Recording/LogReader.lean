import OscHost.Recording.LogWriter
import OscHost.Recording.Source

/-!
Reading a recording. A record with a malformed message is read past; any other error ends the reading
for good.
-/

namespace OscHost

structure LogRecord where
  time : UInt64
  message : List UInt8
  deriving DecidableEq, Repr, Inhabited

def LogRecord.parse (r : LogRecord) : Except LogError Message :=
  (Message.parse r.message).mapError .malformedRecord

structure LogReader where
  source : Source
  sampleRate : UInt32
  time : UInt64 := 0
  maxRecord : Nat := 64 * 1024
  /-- An error other than a malformed message was met. -/
  failed : Bool := false
  deriving DecidableEq, Repr, Inhabited

namespace LogReader

def openSource (source : Source) : Except LogError LogReader :=
  let (header, source) := source.fill 12
  if header.length < 12 then .error (if source.broken then .io .denied else .badMagic)
  else if header.take 8 ≠ logMagic then .error .badMagic
  else .ok { source, sampleRate := UInt32.ofNat (ofBigEndian (header.drop 8)) }

/-- The next record, or none at an end between records. Its frames are counted even if its message
is malformed. -/
def readRecord (reader : LogReader) : Except LogError (Option LogRecord) × LogReader :=
  let (header, source) := reader.source.fill 8
  let reader := { reader with source }
  if header.length < 8 then
    if source.broken then (.error (.io .denied), reader)
    else if header.isEmpty then (.ok none, reader)
    else (.error (.io .headerCut), reader)
  else
    let size := ofBigEndian (header.drop 4)
    if reader.maxRecord < size then (.error (.recordTooLarge size), reader)
    else
      let (message, source) := reader.source.fill size
      let reader := { reader with source }
      if message.length < size then
        (.error (.io (if source.broken then .denied else .bodyCut)), reader)
      else
        let time := reader.time + UInt64.ofNat (ofBigEndian (header.take 4))
        let reader := { reader with time }
        match Message.parse message with
        | .error error => (.error (.malformedRecord error), reader)
        | .ok _ => (.ok (some { time, message }), reader)

/-- What `count` calls give one after the other, errors or not. -/
def readRecords : (count : Nat) → LogReader → List (Except LogError (Option LogRecord))
  | 0, _ => []
  | count + 1, reader =>
    let (outcome, reader) := reader.readRecord
    outcome :: readRecords count reader

/-- The next item of a reading. -/
def next (reader : LogReader) : Option (Except LogError LogRecord) × LogReader :=
  if reader.failed then (none, reader)
  else
    match reader.readRecord with
    | (.ok none, reader) => (none, reader)
    | (.ok (some r), reader) => (some (.ok r), reader)
    | (.error (.malformedRecord error), reader) => (some (.error (.malformedRecord error)), reader)
    | (.error error, reader) => (some (.error error), { reader with failed := true })

/-- The first `count` items, or all of them if there are fewer. -/
def takeItems : (count : Nat) → LogReader → List (Except LogError LogRecord)
  | 0, _ => []
  | count + 1, reader =>
    match reader.next with
    | (none, _) => []
    | (some item, reader) => item :: takeItems count reader

/-- All items. Each takes the eight bytes of a header, or is the last. -/
def items (reader : LogReader) : List (Except LogError LogRecord) :=
  reader.takeItems (reader.source.content.length / 8 + 1)

end LogReader

end OscHost
