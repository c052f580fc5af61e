/-!
Time tags: seconds since 1900 in 32.32 binary fixed point. Tags are ordered and subtracted as the
64-bit numbers they are; only the result of a subtraction is a floating-point number.
-/

namespace OscHost

/-- Wall-clock time in units of 2⁻³² seconds since 1900, modulo 2³² seconds. -/
structure TimeTag where
  bits : UInt64
  deriving DecidableEq, Repr, Inhabited

namespace TimeTag

/-- Asks for execution at once. It is no time of day. -/
def immediate : TimeTag := ⟨1⟩

def isImmediate (tag : TimeTag) : Bool := tag == immediate

def ofParts (seconds fraction : UInt32) : TimeTag :=
  ⟨seconds.toUInt64 <<< 32 ||| fraction.toUInt64⟩

def seconds (tag : TimeTag) : UInt32 := (tag.bits >>> 32).toUInt32

def fraction (tag : TimeTag) : UInt32 := tag.bits.toUInt32

/-- Seconds from 1900 to 1970. -/
def unixOffset : Nat := 2208988800

/-- A time since 1970. The seconds wrap into the 32 bits that a tag has for them. -/
def ofUnix (secs : UInt64) (nanos : UInt32) : TimeTag :=
  ofParts (UInt32.ofNat (secs.toNat + unixOffset)) (UInt32.ofNat (nanos.toNat * UInt32.size / 1000000000))

/-- A signed distance from 1970 in nanoseconds. What lies before counts as 1970 itself. -/
def ofUnixNanos (nanos : Int) : TimeTag :=
  ofUnix (UInt64.ofNat (nanos.toNat / 1000000000)) (UInt32.ofNat (nanos.toNat % 1000000000))

def fractionNanos (tag : TimeTag) : UInt32 :=
  UInt32.ofNat (tag.fraction.toNat * 1000000000 / UInt32.size)

/-- Seconds from `earlier` to `tag`, rounded once from the exact difference. -/
def secondsSince (tag earlier : TimeTag) : Float :=
  let units := if earlier.bits ≤ tag.bits then (tag.bits - earlier.bits).toFloat
    else -(earlier.bits - tag.bits).toFloat
  units / 4294967296.0

/-- The tag shifted by a possibly negative number of seconds. -/
def offsetBy (tag : TimeTag) (secs : Float) : TimeTag :=
  ⟨tag.bits + (secs * 4294967296.0).toInt64.toUInt64⟩

end TimeTag

end OscHost
