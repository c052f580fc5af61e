import OscHost.Schedule.Duration
import OscHost.Schedule.Event
import OscHost.TimeTag

/-!
From wall-clock tags to frames. A clock pair holds a media time and the wall-clock time read with
it; a timeline holds the frame and the media time at which the current period started. New readings
move the clock pair in steps of bounded size. The arithmetic is in double precision, in the order
written.
-/

namespace OscHost

/-- A media time in microseconds and the wall-clock time at the same moment. -/
structure ClockPair where
  mediaMicros : UInt64
  wall : TimeTag
  deriving DecidableEq, Repr, Inhabited

/-- A step of the wall clock that was too large, and the one applied instead, in microseconds. -/
structure ClampedStep where
  observed : Int64
  applied : Int64
  deriving DecidableEq, Repr, Inhabited

namespace ClockPair

/-- The media time, in microseconds, at which the wall clock shows `tag`. -/
def mediaFor (pair : ClockPair) (tag : TimeTag) : Float :=
  pair.mediaMicros.toFloat + tag.secondsSince pair.wall * 1e6

/-- What the wall clock should show at a media time. -/
def predict (pair : ClockPair) (mediaMicros : UInt64) : TimeTag :=
  pair.wall.offsetBy ((mediaMicros.toFloat - pair.mediaMicros.toFloat) * 1e-6)

/-- The number in the interval from `-bound` to `bound` that is closest to `x`. -/
def clampTo (bound x : Float) : Float :=
  if x < -bound then -bound else if bound < x then bound else x

/-- The pair after a new reading, and the observed step in seconds if it exceeded the limit. -/
def resample (pair reading : ClockPair) (maxCorrection : Duration) : ClockPair × Option Float :=
  let predicted := pair.predict reading.mediaMicros
  let step := reading.wall.secondsSince predicted
  let limit := maxCorrection.toSeconds
  if step.abs ≤ limit then (reading, none)
  else ({ reading with wall := predicted.offsetBy (clampTo limit step) }, some step)

/-- One of positive numbers and zero, minus one of negative ones. -/
def signOf (x : Float) : Float := if x.toBits >>> 63 = 0 then 1 else -1

/-- The pair after a new reading, and the step if it was clamped. -/
def resync (pair reading : ClockPair) (maxCorrection : Duration) :
    ClockPair × Option ClampedStep :=
  let (next, clamped) := pair.resample reading maxCorrection
  (next, clamped.map fun step =>
    { observed := (step * 1e6).toInt64
      applied := (signOf step * maxCorrection.toSeconds * 1e6).toInt64 })

end ClockPair

/-- The frame and the media time at which a period started. -/
structure Timeline where
  frame : UInt64
  mediaMicros : UInt64
  sampleRate : Float
  deriving Inhabited

/-- The frame at a media time, with a fraction and without bounds. -/
def Timeline.frameAt (timeline : Timeline) (mediaMicros : Float) : Float :=
  timeline.frame.toFloat + (mediaMicros - timeline.mediaMicros.toFloat) * timeline.sampleRate * 1e-6

/-- What converts time tags to frames. -/
structure Clocks where
  pair : ClockPair
  timeline : Timeline
  deriving Inhabited

/-- The frame for a time tag. Only the immediate tag gives the immediate frame: any other tag gives
at least 1, however far back it lies. -/
def Clocks.frameFor (clocks : Clocks) (tag : TimeTag) : UInt64 :=
  if tag.isImmediate then immediateFrame
  else
    let frame := (clocks.timeline.frameAt (clocks.pair.mediaFor tag)).floor
    if 1 ≤ frame then frame.toUInt64 else 1

end OscHost
