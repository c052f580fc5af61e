import OscHost.Schedule.Desk

/-!
Modules of a host. A module is a state that answers two turns of every period with requests, which
the host carries out by value, and that is told what is delivered to it. What passes between a host
and its modules is recorded as a list of calls.
-/

namespace OscHost

/-- What a module is told at its turn. -/
structure Period where
  module : ModuleId
  frame : UInt64
  frames : UInt64
  deriving DecidableEq, Repr

/-- What a module can ask for at its turn. -/
inductive Request where
  | payload (destination : Destination) (time : UInt64) (bytes : List UInt8)
  | message (destination : Destination) (time : UInt64) (path : String) (args : List Argument)
  | packet (destination : Destination) (mode : UnrollMode) (bytes : List UInt8)
  | cancel (handle : Handle)
  deriving DecidableEq, Repr

class Behaviour (μ : Type) where
  name : μ → String
  /-- At the start of a period, before events are dispatched. -/
  input : Period → μ → List Request × μ
  /-- After the events of the period were dispatched. -/
  output : Period → μ → List Request × μ
  deliver : UInt64 → List UInt8 → μ → μ

inductive Turn where
  | input
  | output
  deriving DecidableEq, Repr

def Turn.requests [Behaviour μ] : Turn → Period → μ → List Request × μ
  | input => Behaviour.input
  | output => Behaviour.output

inductive Call where
  /-- A request was carried out, or failed. -/
  | request (turn : Turn) (period : Period) (outcome : Except ScheduleError Unit)
  /-- An event left the queue for its targets. -/
  | dispatch (event : Event)
  | deliver (module : ModuleId) (time : UInt64) (payload : List UInt8)
  | teardown (module : ModuleId)

def Desk.carryOut (desk : Desk) (clocks : Clocks) : Request → Except ScheduleError Unit × Desk
  | .payload destination time bytes =>
    let (outcome, desk) := desk.schedule destination time bytes
    (outcome.map fun _ => (), desk)
  | .message destination time path args =>
    let (outcome, desk) := desk.scheduleMessage destination time path args
    (outcome.map fun _ => (), desk)
  | .packet destination mode bytes =>
    let (outcome, desk) := desk.inject clocks destination mode bytes
    (outcome.map fun _ => (), desk)
  | .cancel handle => (.ok (), (desk.cancel handle).2)

def Desk.carryOutAll (clocks : Clocks) :
    List Request → Desk → List (Except ScheduleError Unit) × Desk
  | [], desk => ([], desk)
  | request :: rest, desk =>
    let (outcome, desk) := desk.carryOut clocks request
    let (outcomes, desk) := carryOutAll clocks rest desk
    (outcome :: outcomes, desk)

/-- Give every module its turn, in the order of their numbers, of which the first is `number`. -/
def runTurn [Behaviour μ] (turn : Turn) (clocks : Clocks) (frame frames : UInt64) :
    (number : Nat) → List (Option μ) → Desk → List Call × List (Option μ) × Desk
  | _, [], desk => ([], [], desk)
  | number, none :: rest, desk =>
    let (calls, rest, desk) := runTurn turn clocks frame frames (number + 1) rest desk
    (calls, none :: rest, desk)
  | number, some module :: rest, desk =>
    let period := { module := ⟨UInt32.ofNat number⟩, frame, frames }
    let (requests, module) := turn.requests period module
    let (outcomes, desk) := Desk.carryOutAll clocks requests desk
    let (calls, rest, desk) := runTurn turn clocks frame frames (number + 1) rest desk
    (outcomes.map (.request turn period) ++ calls, some module :: rest, desk)

end OscHost
