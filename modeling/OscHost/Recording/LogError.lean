import OscHost.Wire.WireError

/-!
What can go wrong with a recording.
-/

namespace OscHost

inductive IoError where
  /-- A sink took fewer bytes than it was given. -/
  | sinkFull
  /-- A source ended inside the body of a record. -/
  | bodyCut
  /-- A source ended inside the header of a record. -/
  | headerCut
  /-- A source failed. -/
  | denied
  deriving DecidableEq, Repr

def IoError.message : IoError → String
  | sinkFull => "failed to write whole buffer"
  | bodyCut => "failed to fill whole buffer"
  | headerCut => "unexpected end of file"
  | denied => "permission denied"

inductive LogError where
  | badMagic
  | malformedRecord (error : WireError)
  | recordTooLarge (size : Nat)
  | recordTime (time previous : UInt64)
  | io (error : IoError)
  deriving DecidableEq, Repr

def LogError.message : LogError → String
  | badMagic => "Not a tjost log file"
  | malformedRecord error => "Malformed log record: " ++ error.message
  | recordTooLarge size => s!"Log record of {size} bytes exceeds maximum"
  | recordTime time previous =>
    s!"Record time {time.toNat} cannot follow {previous.toNat} in a log"
  | io error => "IO error: " ++ error.message

end OscHost
