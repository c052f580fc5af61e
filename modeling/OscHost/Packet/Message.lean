import OscHost.Wire.Reader
import OscHost.Wire.Writer

/-!
Messages: an address, a format that names the kind of each argument, and the arguments. An encoder
checks all that it can before it writes; a message that was read keeps its bytes, and its arguments
are decoded again when they are asked for.
-/

namespace OscHost

/-- The letters of the arguments as they stand in a format, after its comma. -/
def tags (kinds : List Kind) : List UInt8 := kinds.map Kind.byte

/-- The byte of a comma, with which every format on the wire starts. -/
def comma : UInt8 := 0x2C

def messageLength (path : String) (args : List Argument) : Nat :=
  paddedLength (utf8 path).length + paddedLength (1 + args.length) +
    total (args.map Argument.encodedLength)

namespace Writer

/-- Write each argument in turn, up to the first that fails. -/
def putArguments : List Argument → Write Unit
  | [] => pure ()
  | arg :: rest => do
    putArgument arg
    putArguments rest

/-- A message at the cursor. Address, texts and size are checked before the first byte is
written. -/
def putMessage (path : String) (args : List Argument) : Write Unit := do
  unless Text.isAddress path do throw .invalidPath
  unless (args.filterMap Argument.asText?).all Text.isPlain do throw .invalidString
  let w ← get
  let needed := messageLength path args
  if w.remaining < needed then throw (.bufferOverflow needed w.remaining)
  putText path
  put (padded (comma :: tags (args.map Argument.kind)))
  putArguments args

end Writer

/-- Encode into a buffer: how many bytes were written, and the buffer afterwards. -/
def encodeMessage (buffer : List UInt8) (path : String) (args : List Argument) :
    Except WireError Nat × List UInt8 :=
  match Writer.putMessage path args (Writer.ofBuffer buffer) with
  | .ok () w => (.ok w.position, w.buffer)
  | .error error w => (.error error, w.buffer)

/-- Whether each letter of the format names a kind. A comma in front may be required. -/
def isFormat (format : String) (withComma : Bool) : Bool :=
  match withComma, format.toList with
  | true, ',' :: letters | false, letters => letters.all fun c => (Kind.ofLetter? c).isSome
  | true, _ => false

/-- The first position at which the letters and the kinds differ. -/
def firstMismatch : List Char → List Kind → Nat → Option (Nat × Char)
  | letter :: letters, kind :: kinds, index =>
    if letter = kind.letter then firstMismatch letters kinds (index + 1) else some (index, letter)
  | _, _, _ => none

/-- What keeps a format, without its comma, from describing arguments of these kinds. -/
def formatError? (letters : List Char) (kinds : List Kind) : Option WireError :=
  if letters.any fun c => (Kind.ofLetter? c).isNone then some .invalidFormat
  else if letters.length ≠ kinds.length then some (.argumentCount letters.length kinds.length)
  else (firstMismatch letters kinds 0).map fun (index, letter) => .formatMismatch index letter

/-- Encode arguments that have to be those which the format declares. One comma in front of the
format may be given or left out. -/
def encodeWithFormat (buffer : List UInt8) (path format : String) (args : List Argument) :
    Except WireError Nat × List UInt8 :=
  match formatError? (Text.dropComma format).toList (args.map Argument.kind) with
  | some error => (.error error, buffer)
  | none => encodeMessage buffer path args

/-- A message that was read and found valid. -/
structure Message where
  bytes : List UInt8
  path : String
  kinds : List Kind
  payload : List UInt8
  deriving DecidableEq, Repr

namespace Read

/-- Read one argument for each letter. Their kinds are what is returned. -/
def kinds : List UInt8 → Read (List Kind)
  | [] => pure []
  | tag :: rest => do
    match Kind.ofByte? tag with
    | none => throw (.unknownTag tag)
    | some kind =>
      let _ ← argument kind
      return kind :: (← kinds rest)

/-- A whole message: its address, the kinds of its arguments, and their bytes. The arguments have
to use up all that is left. -/
def message : Read (String × List Kind × List UInt8) := do
  if (← get).isEmpty then throw .empty
  let path ← text
  unless Text.isAddress path do throw .invalidPath
  let format ← text
  match utf8 format with
  | first :: tags =>
    if first ≠ comma then throw .invalidFormat
    let payload ← get
    let kinds ← kinds tags
    let trailing ← get
    unless trailing.isEmpty do throw (.trailingBytes trailing.length)
    return (path, kinds, payload)
  | [] => throw .invalidFormat

end Read

/-- Decode one argument of each kind, stopping at the first that cannot be read. -/
def decodeArguments : List Kind → List UInt8 → List Argument
  | [], _ => []
  | kind :: rest, unread =>
    match Read.argument kind unread with
    | .ok arg unread => arg :: decodeArguments rest unread
    | .error _ _ => []

namespace Message

/-- Every declared argument has to decode, and nothing may be left over. -/
def parse (bytes : List UInt8) : Except WireError Message :=
  match Read.message bytes with
  | .ok (path, kinds, payload) _ => .ok { bytes, path, kinds, payload }
  | .error error _ => .error error

/-- The letters of the arguments, without the comma. -/
def format (m : Message) : String := String.ofList (m.kinds.map Kind.letter)

def argumentCount (m : Message) : Nat := m.kinds.length

def arguments (m : Message) : List Argument := decodeArguments m.kinds m.payload

def argument? (m : Message) (index : Nat) : Option Argument := m.arguments[index]?

end Message

end OscHost
