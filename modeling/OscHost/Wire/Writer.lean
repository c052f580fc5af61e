import OscHost.Wire.Argument
import OscHost.Wire.WireError

/-!
Writing into a buffer of fixed size. The cursor splits the buffer into what is written and what
lies beyond. `put` is the only step that moves the cursor forward; it takes all of its bytes or
none, and what it does not cover keeps its old contents.
-/

namespace OscHost

structure Writer where
  written : List UInt8
  beyond : List UInt8
  deriving DecidableEq, Repr, Inhabited

/-- Steps of writing. A failed step leaves the writer in the state that it had reached. -/
abbrev Write := EStateM WireError Writer

/-- Where the length word of a bundle element waits to be filled in. -/
structure ElementMark where
  offset : Nat
  deriving DecidableEq, Repr, Inhabited

/-- The largest value of a signed 32-bit length word. -/
def maxLength : Nat := 0x7FFFFFFF

/-- Every bundle starts with these eight bytes. -/
def bundleTag : List UInt8 := utf8 "#bundle" ++ [0]

/-- A text's bytes in the place that they take on the wire. -/
def padded (bytes : List UInt8) : List UInt8 :=
  bytes ++ zeros (paddedLength bytes.length - bytes.length)

/-- A blob's bytes after their size word, in the place that they take on the wire. -/
def sized (data : List UInt8) : List UInt8 :=
  bigEndian 4 data.length ++ data ++ zeros (blobLength data.length - 4 - data.length)

namespace Writer

def ofBuffer (buffer : List UInt8) : Writer := ⟨[], buffer⟩

def position (w : Writer) : Nat := w.written.length

def remaining (w : Writer) : Nat := w.beyond.length

def buffer (w : Writer) : List UInt8 := w.written ++ w.beyond

/-- Move the cursor back. A position ahead of the cursor is ignored. -/
def rewind (w : Writer) (position : Nat) : Writer :=
  ⟨w.written.take position, w.written.drop position ++ w.beyond⟩

def put (bytes : List UInt8) : Write Unit := fun w =>
  if bytes.length ≤ w.remaining then
    .ok () ⟨w.written ++ bytes, w.beyond.drop bytes.length⟩
  else
    .error (.bufferOverflow bytes.length w.remaining) w

def putU32 (value : UInt32) : Write Unit := put (bigEndian 4 value.toNat)

def putU64 (value : UInt64) : Write Unit := put (bigEndian 8 value.toNat)

/-- A zero byte would end the text early, so it may hold none. -/
def putText (text : String) : Write Unit :=
  if (utf8 text).contains 0 then throw .invalidString else put (padded (utf8 text))

def putPlain (text : String) : Write Unit :=
  if Text.isPlain text then putText text else throw .invalidString

def putBlob (data : List UInt8) : Write Unit := fun w =>
  if data.length ≤ maxLength then put (sized data) w
  else .error (.bufferOverflow (blobLength data.length) w.remaining) w

/-- The value alone. Its letter goes into the format of the message. -/
def putArgument : Argument → Write Unit
  | .int value => putU32 value.toUInt32
  | .float bits => putU32 bits
  | .string text | .symbol text => putPlain text
  | .blob data => putBlob data
  | .true | .false | .nil | .bang => pure ()
  | .long value => putU64 value.toUInt64
  | .double bits => putU64 bits
  | .time tag => putU64 tag.bits
  | .char byte => putU32 byte.toUInt32
  | .midi frame => put frame.bytes

def putBundleHeader (time : TimeTag) : Write Unit := put (bundleTag ++ bigEndian 8 time.bits.toNat)

/-- Leave room for the length of an element. -/
def beginElement : Write ElementMark := do
  let mark := ⟨(← get).position⟩
  put (zeros 4)
  pure mark

/-- Fill in the length of the element that ends at the cursor. -/
def endElement (mark : ElementMark) : Write Unit := fun w =>
  if mark.offset + 4 ≤ w.position ∧ w.position - (mark.offset + 4) ≤ maxLength then
    let length := bigEndian 4 (w.position - (mark.offset + 4))
    .ok () { w with written := overwrite w.written mark.offset length }
  else
    .error (.invalidElementLength Int32.maxValue) w

theorem put_ok {bytes : List UInt8} {w : Writer} (h : bytes.length ≤ w.remaining) :
    put bytes w = .ok () ⟨w.written ++ bytes, w.beyond.drop bytes.length⟩ := if_pos h

theorem put_error {bytes : List UInt8} {w : Writer} (h : w.remaining < bytes.length) :
    put bytes w = .error (.bufferOverflow bytes.length w.remaining) w := if_neg (Nat.not_le.2 h)

@[simp] theorem buffer_ofBuffer (bytes : List UInt8) : (ofBuffer bytes).buffer = bytes := rfl

@[simp] theorem buffer_rewind (w : Writer) (position : Nat) : (w.rewind position).buffer = w.buffer := by
  simp [rewind, buffer, ← List.append_assoc]

end Writer

end OscHost
