/-!
Spans of time, in whole nanoseconds.
-/

namespace OscHost

structure Duration where
  nanos : Nat
  deriving DecidableEq, Repr, Inhabited

namespace Duration

def ofParts (seconds nanos : Nat) : Duration := ⟨seconds * 1000000000 + nanos⟩

def ofMillis (millis : Nat) : Duration := ⟨millis * 1000000⟩

def seconds (d : Duration) : Nat := d.nanos / 1000000000

def subsecondNanos (d : Duration) : Nat := d.nanos % 1000000000

/-- Seconds as a floating-point number: the whole part and the rest are rounded on their own. -/
def toSeconds (d : Duration) : Float :=
  (UInt64.ofNat d.seconds).toFloat + (UInt64.ofNat d.subsecondNanos).toFloat / 1000000000.0

end Duration

end OscHost
