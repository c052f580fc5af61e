import OscHost.Schedule.Duration

/-!
Settings of a host: their defaults, the conditions under which a host can run with them, and how
they are read from a document. A document may name the fields or list them in order; what it leaves
out keeps its default.
-/

namespace OscHost

/-- A document with settings, as it comes from a file or a message. -/
inductive Document where
  | null
  | bool (b : Bool)
  | integer (n : Int)
  | real (x : Float)
  | text (s : String)
  | list (items : List Document)
  | record (fields : List (String × Document))
  deriving Inhabited

structure Settings where
  /-- How many pending events the queue can hold. -/
  queueCapacity : Nat := 4096
  /-- Bytes in each inbound pipe. -/
  pipeCapacity : Nat := 64 * 1024
  /-- Bytes in the largest payload of an event. -/
  maxPayload : Nat := 4096
  /-- Sizes of the buffers that the pool holds, ascending. -/
  poolClasses : List Nat := [64, 256, 1024, 4096]
  /-- Buffers of each size that are there from the start. -/
  poolPreallocate : Nat := 256
  /-- Below this many free buffers, more of the size are asked for. -/
  poolLowWatermark : Nat := 64
  /-- How many diagnostics each sender can have waiting. -/
  diagnosticsCapacity : Nat := 1024
  /-- Time between two readings of the clocks. -/
  resyncPeriod : Duration := .ofParts 1 0
  /-- The largest step by which a reading moves the clock. -/
  maxClockCorrection : Duration := .ofMillis 500
  /-- Bytes in the largest frame that is accepted from a stream. -/
  maxFrameLength : Nat := 64 * 1024
  deriving DecidableEq, Repr, Inhabited

inductive SettingsError where
  | queueCapacityZero
  | queueCapacityTooLarge
  | maxPayloadZero
  | maxPayloadTooLarge
  | pipeCapacityTooSmall
  | poolClassesEmptyOrZero
  | poolClassesNotAscending
  | poolClassesTooSmall
  | poolLowWatermarkTooHigh
  | diagnosticsCapacityZero
  | resyncPeriodZero
  | maxFrameLengthZero
  | sampleRateNotPositive
  | periodZero
  deriving DecidableEq, Repr

namespace SettingsError

def message (error : SettingsError) : String :=
  "Invalid config: " ++ match error with
    | queueCapacityZero => "queue_capacity must be non-zero"
    | queueCapacityTooLarge => "queue_capacity must fit a 32-bit index"
    | maxPayloadZero => "max_payload must be non-zero"
    | maxPayloadTooLarge => "max_payload must fit a 32-bit size"
    | pipeCapacityTooSmall => "pipe_capacity must hold at least one maximum-size record"
    | poolClassesEmptyOrZero => "pool_classes must be non-empty and non-zero"
    | poolClassesNotAscending => "pool_classes must be strictly ascending"
    | poolClassesTooSmall => "largest pool class must hold max_payload"
    | poolLowWatermarkTooHigh => "pool_low_watermark must not exceed pool_preallocate"
    | diagnosticsCapacityZero => "diagnostics_capacity must be non-zero"
    | resyncPeriodZero => "resync_period must be non-zero"
    | maxFrameLengthZero => "max_frame_len must be non-zero"
    | sampleRateNotPositive => "sample_rate must be positive"
    | periodZero => "period must be non-zero"

end SettingsError

/-- Bytes that a record in a pipe takes besides its payload. -/
def recordHeaderLength : Nat := 16

/-- Whether each number is below the next. -/
def isAscending : List Nat → Bool
  | first :: second :: rest => first < second && isAscending (second :: rest)
  | _ => true

namespace Document

/-- A number of bytes or items: an integer of 64 bits that is not negative. -/
def size? : Document → Option Nat
  | integer n => if 0 ≤ n ∧ n.toNat < UInt64.size then some n.toNat else none
  | _ => none

def sizes? : Document → Option (List Nat)
  | list items => items.mapM size?
  | _ => none

/-- Seconds of 64 bits and nanoseconds of 32 bits, by name or in this order, and nothing else.
Whole seconds among the nanoseconds are carried over if they fit. -/
def duration? (document : Document) : Option Duration := do
  let (seconds, nanos) ← match document with
    | record fields =>
      if fields.all fun (name, _) => name == "secs" || name == "nanos" then do
        pure (← fields.lookup "secs", ← fields.lookup "nanos")
      else
        none
    | list [seconds, nanos] => pure (seconds, nanos)
    | _ => none
  let seconds ← seconds.size?
  let nanos ← nanos.size?
  if nanos < UInt32.size ∧ seconds + nanos / 1000000000 < UInt64.size then some (.ofParts seconds nanos)
  else none

/-- The names under which a document gives the settings, in their order. -/
def settingNames : List String :=
  ["queue_capacity", "pipe_capacity", "max_payload", "pool_classes", "pool_preallocate",
    "pool_low_watermark", "diagnostics_capacity", "resync_period", "max_clock_correction",
    "max_frame_len"]

/-- The value given for a setting, if it is given. -/
def setting? (document : Document) (name : String) : Option Document :=
  match document with
  | record fields => fields.lookup name
  | list items => do items[← settingNames.idxOf? name]?
  | _ => none

/-- Whether the document has the shape of settings at all. Unknown names are ignored, but a list
may not be longer than the settings are. -/
def isSettings : Document → Bool
  | record _ => true
  | list items => items.length ≤ settingNames.length
  | _ => false

end Document

namespace Settings

/-- A field as the document gives it; the default if it does not. -/
def field (document : Document) (name : String) (read : Document → Option α) (fallback : α) :
    Option α :=
  match document.setting? name with
  | some value => read value
  | none => some fallback

/-- Every value that is given has to be of its type. -/
def ofDocument? (document : Document) : Option Settings :=
  if document.isSettings then do
    let base : Settings := {}
    let size := fun name fallback => field document name Document.size? fallback
    let duration := fun name fallback => field document name Document.duration? fallback
    let queueCapacity ← size "queue_capacity" base.queueCapacity
    let pipeCapacity ← size "pipe_capacity" base.pipeCapacity
    let maxPayload ← size "max_payload" base.maxPayload
    let poolClasses ← field document "pool_classes" Document.sizes? base.poolClasses
    let poolPreallocate ← size "pool_preallocate" base.poolPreallocate
    let poolLowWatermark ← size "pool_low_watermark" base.poolLowWatermark
    let diagnosticsCapacity ← size "diagnostics_capacity" base.diagnosticsCapacity
    let resyncPeriod ← duration "resync_period" base.resyncPeriod
    let maxClockCorrection ← duration "max_clock_correction" base.maxClockCorrection
    let maxFrameLength ← size "max_frame_len" base.maxFrameLength
    return {
      queueCapacity, pipeCapacity, maxPayload, poolClasses, poolPreallocate, poolLowWatermark,
      diagnosticsCapacity, resyncPeriod, maxClockCorrection, maxFrameLength }
  else
    none

/-- The first condition that the settings do not meet. -/
def error? (s : Settings) : Option SettingsError :=
  if s.queueCapacity = 0 then some .queueCapacityZero
  else if UInt32.size - 1 ≤ s.queueCapacity then some .queueCapacityTooLarge
  else if s.maxPayload = 0 then some .maxPayloadZero
  else if UInt32.size - 1 < s.maxPayload then some .maxPayloadTooLarge
  else if s.pipeCapacity < recordHeaderLength + s.maxPayload then some .pipeCapacityTooSmall
  else if s.poolClasses.head?.all (· = 0) then some .poolClassesEmptyOrZero
  else if !isAscending s.poolClasses then some .poolClassesNotAscending
  else if s.poolClasses.getLast?.any (· < s.maxPayload) then some .poolClassesTooSmall
  else if s.poolPreallocate < s.poolLowWatermark then some .poolLowWatermarkTooHigh
  else if s.diagnosticsCapacity = 0 then some .diagnosticsCapacityZero
  else if s.resyncPeriod.nanos = 0 then some .resyncPeriodZero
  else if s.maxFrameLength = 0 then some .maxFrameLengthZero
  else none

def validate (s : Settings) : Except SettingsError Unit :=
  match s.error? with
  | some error => .error error
  | none => .ok ()

end Settings

end OscHost
