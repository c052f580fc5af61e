import OscHost.Text

/-!
What can be wrong with a packet, or with the room for one.
-/

namespace OscHost

/-- Sizes are in bytes. -/
inductive WireError where
  | bufferOverflow (needed available : Nat)
  | truncated (needed available : Nat)
  | empty
  | invalidPath
  | invalidFormat
  | unknownTag (tag : UInt8)
  | invalidString
  | negativeBlobSize (size : Int32)
  | trailingBytes (count : Nat)
  | formatMismatch (index : Nat) (expected : Char)
  | argumentCount (expected found : Nat)
  | invalidBundleHeader
  | invalidElementLength (length : Int32)
  | tooDeep (limit : Nat)
  | unknownPacket (first : UInt8)
  | frameTooLarge (length limit : Nat)
  deriving DecidableEq, Repr

namespace WireError

def message : WireError → String
  | bufferOverflow needed available =>
    s!"Buffer overflow: need {needed} bytes, {available} available"
  | truncated needed available =>
    s!"Truncated packet: need {needed} bytes, {available} remaining"
  | empty => "Empty packet"
  | invalidPath => "Invalid OSC path"
  | invalidFormat => "Invalid format string"
  | unknownTag tag => "Unknown type tag " ++ Text.quotedByte tag
  | invalidString => "Invalid string argument"
  | negativeBlobSize size => s!"Negative blob size: {size.toInt}"
  | trailingBytes count => s!"{count} trailing bytes after last argument"
  | formatMismatch index expected =>
    s!"Argument {index} does not match format tag '{expected}'"
  | argumentCount expected found => s!"Format declares {expected} arguments, {found} given"
  | invalidBundleHeader => "Invalid bundle header"
  | invalidElementLength length => s!"Invalid bundle element length: {length.toInt}"
  | tooDeep limit => s!"Bundle nesting deeper than {limit} levels"
  | unknownPacket first => "Unrecognized packet start byte 0x" ++ Text.hexByte first
  | frameTooLarge length limit => s!"Frame length {length} exceeds maximum {limit}"

end WireError

end OscHost
