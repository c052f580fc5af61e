import OscHost.Packet.Bundle

/-!
Cursors over the parts of a packet. A cursor hands out one part with each call. What it cannot read it
takes for the end, so on bytes that were not checked parts could be missing without a sign.
-/

namespace OscHost

/-- The letters of the arguments that are still to come, and the bytes that they are in. -/
structure ArgumentCursor where
  letters : List UInt8
  unread : List UInt8
  deriving DecidableEq, Repr

def ArgumentCursor.next (c : ArgumentCursor) : Option Argument × ArgumentCursor :=
  match c.letters with
  | [] => (none, c)
  | letter :: letters =>
    match Kind.ofByte? letter with
    | none => (none, { c with letters })
    | some kind =>
      match Read.argument kind c.unread with
      | .ok arg unread => (some arg, ⟨letters, unread⟩)
      | .error _ unread => (none, ⟨letters, unread⟩)

def Message.cursor (m : Message) : ArgumentCursor := ⟨tags m.kinds, m.payload⟩

/-- The part of a body whose elements are still to come. -/
structure ElementCursor where
  unread : List UInt8
  deriving DecidableEq, Repr

def ElementCursor.next (c : ElementCursor) : Option (List UInt8) × ElementCursor :=
  if c.unread.isEmpty then (none, c)
  else
    match Read.element c.unread with
    | .ok element unread => (some element, ⟨unread⟩)
    | .error _ unread => (none, ⟨unread⟩)

def Bundle.cursor (b : Bundle) : ElementCursor := ⟨b.body⟩

end OscHost
