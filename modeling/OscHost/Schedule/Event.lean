import OscHost.Schedule.Pool

/-!
Events: a payload, where it goes, and the frame at which it is due.
-/

namespace OscHost

/-- A module of a host, by the number that the host gave it. -/
structure ModuleId where
  number : UInt32
  deriving DecidableEq, Repr, Inhabited

namespace ModuleId

def text (id : ModuleId) : String := s!"ModuleId({id.number.toNat})"

end ModuleId

inductive Destination where
  /-- Every top-level module. -/
  | broadcast
  /-- Every child of the module. -/
  | module (id : ModuleId)
  deriving DecidableEq, Repr, Inhabited

namespace Destination

/-- The number that stands for a broadcast in a record. No module can be reached under it. -/
def broadcastWord : UInt32 := 0xFFFFFFFF

def toWord : Destination → UInt32
  | broadcast => broadcastWord
  | module id => id.number

def ofWord (word : UInt32) : Destination :=
  if word = broadcastWord then broadcast else module ⟨word⟩

def text : Destination → String
  | broadcast => "Broadcast"
  | module id => "Module(" ++ id.text ++ ")"

@[simp] theorem toWord_ofWord (word : UInt32) : (ofWord word).toWord = word := by
  unfold ofWord
  split <;> simp_all [toWord]

end Destination

/-- The frame time that asks for dispatch as soon as possible. -/
def immediateFrame : UInt64 := 0

structure Event where
  destination : Destination
  time : UInt64
  payload : Buffer
  deriving DecidableEq, Repr, Inhabited

namespace Event

def bytes (e : Event) : List UInt8 := e.payload.bytes

def isImmediate (e : Event) : Bool := e.time == immediateFrame

end Event

end OscHost
