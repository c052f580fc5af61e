import OscHost.Packet.Bundle

/-!
Composing nested bundles in a buffer. The length word of an element is left blank when the element
opens and filled in when it closes. A failed append moves the cursor back to where it was, so it
leaves nothing behind in what is written.
-/

namespace OscHost

/-- A bundle under construction. The marks are those of the open nested bundles, innermost
first; the outermost bundle has none. -/
structure Composer where
  writer : Writer
  marks : List ElementMark := []
  depth : Nat := 0
  deriving Repr, Inhabited

abbrev Compose := EStateM WireError Composer

namespace Composer

def ofBuffer (buffer : List UInt8) : Composer := { writer := Writer.ofBuffer buffer }

/-- Write as one step. If it fails, the cursor moves back to where it was. -/
def attempt (step : Write α) : Compose α := fun c =>
  match step c.writer with
  | .ok value writer => .ok value { c with writer }
  | .error error writer => .error error { c with writer := writer.rewind c.writer.position }

/-- Open the outermost bundle, or a nested one as an element of the innermost open one. Once the
outermost bundle is closed, no other can be opened. -/
def openBundle (time : TimeTag) : Compose Unit := do
  let c ← get
  if c.depth = maxBundleDepth then throw (.tooDeep maxBundleDepth)
  if c.depth = 0 then
    unless c.writer.position = 0 do throw .invalidBundleHeader
    attempt (Writer.putBundleHeader time)
    modify fun c => { c with depth := 1 }
  else
    let mark ← attempt do
      let mark ← Writer.beginElement
      Writer.putBundleHeader time
      pure mark
    modify fun c => { c with marks := mark :: c.marks, depth := c.depth + 1 }

/-- Append an element to the innermost open bundle. -/
def append (content : Write Unit) : Compose Unit := do
  if (← get).depth = 0 then throw .invalidBundleHeader
  attempt do
    let mark ← Writer.beginElement
    content
    Writer.endElement mark

def message (path : String) (args : List Argument) : Compose Unit :=
  append (Writer.putMessage path args)

/-- An element that is encoded already. Its bytes are not looked at. -/
def element (packet : List UInt8) : Compose Unit := append (Writer.put packet)

/-- Close the innermost open bundle. It counts as closed even if it is too long for its length
word. -/
def closeBundle : Compose Unit := do
  let c ← get
  if c.depth = 0 then throw .invalidBundleHeader
  set { c with marks := c.marks.tail, depth := c.depth - 1 }
  match c.marks with
  | [] => pure ()
  | mark :: _ => attempt (Writer.endElement mark)

/-- Close this many bundles, up to the first that fails to close. -/
def closeBundles : Nat → Compose Unit
  | 0 => pure ()
  | count + 1 => do
    closeBundle
    closeBundles count

/-- Close all that is open. The result is the length of the finished bundle. -/
def finish : Compose Nat := do
  closeBundles (← get).depth
  return (← get).writer.position

end Composer

end OscHost
