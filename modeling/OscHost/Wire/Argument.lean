import OscHost.Bytes
import OscHost.Text
import OscHost.TimeTag

/-!
Arguments of a message: fourteen kinds, each named by one letter in the format of the message, and
the values they carry. Floating-point values are kept as their bits, so that every one of them,
NaN payloads included, survives a round trip.
-/

namespace OscHost

/-- Text takes its bytes, a zero byte, and zero bytes up to a multiple of four. -/
def paddedLength (length : Nat) : Nat := (length + 4) / 4 * 4

/-- A blob takes a size word, its bytes, and zero bytes up to a multiple of four. -/
def blobLength (size : Nat) : Nat := 4 + (size + 3) / 4 * 4

inductive Kind where
  | int | float | string | blob | true | false | nil | bang | long | double | time | symbol | char
  | midi
  deriving DecidableEq, Repr, Inhabited

namespace Kind

/-- All kinds, in the order in which the format documents them. -/
def all : List Kind :=
  [int, float, string, blob, true, false, nil, bang, long, double, time, symbol, char, midi]

def letter : Kind → Char
  | int => 'i'
  | float => 'f'
  | string => 's'
  | blob => 'b'
  | true => 'T'
  | false => 'F'
  | nil => 'N'
  | bang => 'I'
  | long => 'h'
  | double => 'd'
  | time => 't'
  | symbol => 'S'
  | char => 'c'
  | midi => 'm'

def byte (kind : Kind) : UInt8 := UInt8.ofNat kind.letter.toNat

def ofByte? (byte : UInt8) : Option Kind := all.find? (·.byte == byte)

def ofLetter? (c : Char) : Option Kind := all.find? (·.letter == c)

/-- The encoded width, for kinds whose values all have the same. -/
def width? : Kind → Option Nat
  | true | false | nil | bang => some 0
  | int | float | char | midi => some 4
  | long | double | time => some 8
  | string | symbol | blob => none

theorem mem_all (kind : Kind) : kind ∈ all := by cases kind <;> decide

theorem ofByte?_byte (kind : Kind) : ofByte? kind.byte = some kind := by cases kind <;> decide

theorem byte_of_ofByte? {byte : UInt8} {kind : Kind} (h : ofByte? byte = some kind) :
    kind.byte = byte := by
  simpa using List.find?_some h

end Kind

/-- Four bytes of a MIDI message, sent as they are. -/
structure Midi where
  portId : UInt8
  status : UInt8
  data1 : UInt8
  data2 : UInt8
  deriving DecidableEq, Repr, Inhabited

namespace Midi

def bytes (m : Midi) : List UInt8 := [m.portId, m.status, m.data1, m.data2]

/-- Bytes that are missing count as zero. -/
def ofBytes (bytes : List UInt8) : Midi :=
  ⟨bytes.getD 0 0, bytes.getD 1 0, bytes.getD 2 0, bytes.getD 3 0⟩

@[simp] theorem ofBytes_bytes (m : Midi) : ofBytes m.bytes = m := rfl

theorem bytes_ofBytes {bytes : List UInt8} (four : bytes.length = 4) : (ofBytes bytes).bytes = bytes := by
  match bytes, four with
  | [_, _, _, _], _ => rfl

/-- The low half of the status byte. -/
def channel (m : Midi) : UInt8 := m.status &&& 0x0F

end Midi

inductive Argument where
  | int (value : Int32)
  | float (bits : UInt32)
  | string (text : String)
  | blob (data : List UInt8)
  | true
  | false
  | nil
  | bang
  | long (value : Int64)
  | double (bits : UInt64)
  | time (tag : TimeTag)
  | symbol (text : String)
  | char (byte : UInt8)
  | midi (frame : Midi)
  deriving DecidableEq, Repr, Inhabited

namespace Argument

def kind : Argument → Kind
  | int _ => .int
  | float _ => .float
  | string _ => .string
  | blob _ => .blob
  | true => .true
  | false => .false
  | nil => .nil
  | bang => .bang
  | long _ => .long
  | double _ => .double
  | time _ => .time
  | symbol _ => .symbol
  | char _ => .char
  | midi _ => .midi

def encodedLength : Argument → Nat
  | string text | symbol text => paddedLength (utf8 text).length
  | blob data => blobLength data.length
  | other => other.kind.width?.getD 0

def asInt? : Argument → Option Int32
  | int value => some value
  | _ => none

def asFloat? : Argument → Option UInt32
  | float bits => some bits
  | _ => none

/-- The text of a string or a symbol. -/
def asText? : Argument → Option String
  | string text | symbol text => some text
  | _ => none

def asBool? : Argument → Option Bool
  | true => some .true
  | false => some .false
  | _ => none

def ofBool (b : Bool) : Argument := if b then true else false

instance : Coe Int32 Argument := ⟨int⟩
instance : Coe Int64 Argument := ⟨long⟩
instance : Coe String Argument := ⟨string⟩
instance : Coe (List UInt8) Argument := ⟨blob⟩
instance : Coe Bool Argument := ⟨ofBool⟩
instance : Coe TimeTag Argument := ⟨time⟩
instance : Coe Midi Argument := ⟨midi⟩

theorem asBool?_ofBool (b : Bool) : (ofBool b).asBool? = some b := by cases b <;> rfl

end Argument

end OscHost
