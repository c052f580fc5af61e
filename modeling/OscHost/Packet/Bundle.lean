import OscHost.Packet.Message

/-!
Bundles and packets. A bundle is a time tag and a body of length-prefixed elements, each of which
is a message or a bundle again. Parsing checks every level; afterwards only the header is looked
at, and the elements are split off the body as they are asked for.
-/

namespace OscHost

/-- How deep bundles may be nested, the outermost one included. -/
def maxBundleDepth : Nat := 16

/-- The tag and the time. -/
def bundleHeaderLength : Nat := 16

def messageStart : UInt8 := 0x2F

def bundleStart : UInt8 := 0x23

/-- A bundle whose elements were found valid. -/
structure Bundle where
  bytes : List UInt8
  time : TimeTag
  deriving DecidableEq, Repr

/-- The next element of a body. -/
def Read.element : Read (List UInt8) := do
  let length ← Read.i32
  if length < 0 then throw (.invalidElementLength length)
  Read.take length.toInt.toNat

theorem length_of_element {body element rest : List UInt8}
    (h : Read.element body = .ok element rest) : element.length + 4 + rest.length = body.length := by
  unfold Read.element at h
  simp only [bind, EStateM.bind] at h
  split at h
  next length unread read =>
    have four : unread.length + 4 = body.length := by
      have := Read.length_of_i32 read
      omega
    split at h
    · cases h
    · have taken := Read.append_of_take h
      rw [← taken.1, List.length_append] at four
      omega
  · cases h

/-- The elements of a body, up to the first that cannot be split off. -/
def splitElements (body : List UInt8) : List (List UInt8) :=
  match h : Read.element body with
  | .ok element rest =>
    have := length_of_element h
    element :: splitElements rest
  | .error _ _ => []
termination_by body.length
decreasing_by omega

namespace Bundle

def header (bytes : List UInt8) : Except WireError Bundle :=
  if bytes.length < bundleHeaderLength then
    if bundleTag.length ≤ bytes.length ∧ bytes.take bundleTag.length ≠ bundleTag then
      .error .invalidBundleHeader
    else
      .error (.truncated bundleHeaderLength bytes.length)
  else if bytes.take bundleTag.length ≠ bundleTag then
    .error .invalidBundleHeader
  else
    let time := (bytes.drop bundleTag.length).take 8
    .ok { bytes, time := ⟨UInt64.ofNat (ofBigEndian time)⟩ }

def body (b : Bundle) : List UInt8 := b.bytes.drop bundleHeaderLength

def elements (b : Bundle) : List (List UInt8) := splitElements b.body

/-- Check an element, given a check for bundles. -/
def checkElement (checkNested : List UInt8 → Except WireError Unit) :
    List UInt8 → Except WireError Unit
  | [] => .error .empty
  | first :: rest =>
    if first = messageStart then (Message.parse (first :: rest)).map fun _ => ()
    else if first = bundleStart then checkNested (first :: rest)
    else .error (.unknownPacket first)

/-- Check each element of a body in turn. The body has to end with an element. -/
def checkBody (checkNested : List UInt8 → Except WireError Unit) (body : List UInt8) :
    Except WireError Unit :=
  if body.isEmpty then .ok ()
  else
    match h : Read.element body with
    | .error error _ => .error error
    | .ok element rest =>
      have := length_of_element h
      match checkElement checkNested element with
      | .error error => .error error
      | .ok () => checkBody checkNested rest
termination_by body.length
decreasing_by omega

/-- Check a bundle that may be nested `levels` deep. The depth comes before the header. -/
def check : (levels : Nat) → List UInt8 → Except WireError Unit
  | 0, _ => .error (.tooDeep maxBundleDepth)
  | levels + 1, bytes =>
    match header bytes with
    | .error error => .error error
    | .ok bundle => checkBody (check levels) bundle.body

/-- Every element at every level has to be valid. -/
def parse (bytes : List UInt8) : Except WireError Bundle :=
  match check maxBundleDepth bytes with
  | .error error => .error error
  | .ok () => header bytes

end Bundle

inductive Packet where
  | message (m : Message)
  | bundle (b : Bundle)
  deriving DecidableEq, Repr

namespace Packet

/-- The first byte tells a message from a bundle. -/
def parse : List UInt8 → Except WireError Packet
  | [] => .error .empty
  | first :: rest =>
    if first = messageStart then (Message.parse (first :: rest)).map message
    else if first = bundleStart then (Bundle.parse (first :: rest)).map bundle
    else .error (.unknownPacket first)

def bytes : Packet → List UInt8
  | message m => m.bytes
  | bundle b => b.bytes

/-- A message on its own is due at once. -/
def time : Packet → TimeTag
  | message _ => .immediate
  | bundle b => b.time

def isBundle : Packet → Bool
  | message _ => false
  | bundle _ => true

end Packet

end OscHost
