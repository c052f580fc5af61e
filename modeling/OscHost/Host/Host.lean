import OscHost.Host.Behaviour
import OscHost.Host.HostError
import OscHost.Host.Inlet
import OscHost.Host.Routing

/-!
The host: modules, their routing, and the cycle that runs once per period. A period gives the modules
their input turn, moves what the inlets brought into the queue, dispatches what is due, gives the
modules their output turn, and advances the frame counter.
-/

namespace OscHost

/-- The background worker of a host. -/
inductive Worker where
  /-- Not started: passes are made by hand. -/
  | byHand
  | running
  /-- Started after it had been told to stop, so it ended at once. -/
  | ended
  | joined
  deriving DecidableEq, Repr, Inhabited

structure Host (μ : Type) where
  settings : Settings
  sampleRate : Float
  /-- Frames in a period, unless another number is asked for. -/
  period : UInt64
  /-- Modules by number. A removed one leaves a gap. -/
  modules : List (Option μ) := []
  routing : Routing := {}
  queue : Queue
  pool : Pool
  inlets : List Inlet := []
  /-- Raised by every inlet. -/
  inbound : Signal := {}
  clocks : Clocks
  hub : Hub
  frame : UInt64 := 0
  worker : Worker := .byHand
  stopRequested : Bool := false
  /-- When the clocks are to be read again, on a clock of its own in nanoseconds. -/
  nextResync : Nat
  deriving Inhabited

namespace Host

/-- The diagnostics sender of the background worker. -/
def upkeepSender : Nat := 0

/-- The diagnostics sender of the period cycle. -/
def cycleSender : Nat := 1

def defaultSampleRate : Float := 48000

/-- Frames in a period where no number is given. -/
def defaultPeriod : UInt64 := 256

/-- Whether a sample rate is a positive number and not infinite. -/
def isSampleRate (rate : Float) : Bool := rate.isFinite && 0 < rate

/-- A host whose clocks are read for the first time at the instant `now`. -/
def initial (settings : Settings) (sampleRate : Float) (period : UInt64) (now : Nat)
    (reading : ClockPair) : Host μ :=
  let hub : Hub := { capacity := settings.diagnosticsCapacity }
  let (_, hub) := hub.addSender "housekeeper"
  let (_, hub) := hub.addSender "host"
  let timeline := { frame := 0, mediaMicros := reading.mediaMicros, sampleRate }
  { settings, sampleRate, period, hub
    queue := Queue.ofCapacity settings.queueCapacity
    pool := Pool.ofSettings settings
    clocks := { pair := reading, timeline }
    nextResync := now + settings.resyncPeriod.nanos }

/-- The initial host, unless something it is built from is not valid. -/
def build (settings : Settings) (sampleRate : Float) (period : UInt64) (now : Nat)
    (reading : ClockPair) : Except SettingsError (Host μ) :=
  match settings.error? with
  | some error => .error error
  | none =>
    if !isSampleRate sampleRate then .error .sampleRateNotPositive
    else if period = 0 then .error .periodZero
    else .ok (initial settings sampleRate period now reading)

/-! ### Scheduling -/

/-- The host's queue and pool with the channel of its period cycle. -/
def desk (host : Host μ) : Desk :=
  { queue := host.queue, pool := host.pool, channel := host.hub.channel cycleSender }

def withDesk (host : Host μ) (desk : Desk) : Host μ :=
  { host with
    queue := desk.queue
    pool := desk.pool
    hub := host.hub.withChannel cycleSender desk.channel }

def onDesk (host : Host μ) (step : Desk → α × Desk) : α × Host μ :=
  let (answer, desk) := step host.desk
  (answer, host.withDesk desk)

def schedule (host : Host μ) (destination : Destination) (time : UInt64) (payload : List UInt8) :
    Except HostError Handle × Host μ :=
  let (outcome, host) := host.onDesk (·.schedule destination time payload)
  (outcome.mapError .schedule, host)

def scheduleMessage (host : Host μ) (destination : Destination) (time : UInt64) (path : String)
    (args : List Argument) : Except HostError Handle × Host μ :=
  let (outcome, host) := host.onDesk (·.scheduleMessage destination time path args)
  (outcome.mapError .schedule, host)

def cancel (host : Host μ) (handle : Handle) : Bool × Host μ := host.onDesk (·.cancel handle)

def injectTo (host : Host μ) (destination : Destination) (mode : UnrollMode)
    (packet : List UInt8) : Except HostError Nat × Host μ :=
  let (outcome, host) := host.onDesk (·.inject host.clocks destination mode packet)
  (outcome.mapError .schedule, host)

def inject (host : Host μ) (mode : UnrollMode) (packet : List UInt8) :
    Except HostError Nat × Host μ :=
  host.injectTo .broadcast mode packet

/-- Release every pending event without dispatch. The answer counts them. -/
def clear (host : Host μ) : Nat × Host μ := host.onDesk (·.discard fun _ => true)

def pendingEvents (host : Host μ) : Nat := host.queue.size

/-! ### Modules -/

def module? (host : Host μ) (id : ModuleId) : Option μ := host.modules[id.number.toNat]?.join

def moduleCount (host : Host μ) : Nat := host.modules.countP Option.isSome

def moduleName? [Behaviour μ] (host : Host μ) (id : ModuleId) : Option String :=
  (host.module? id).map Behaviour.name

/-- Add a module without routing anything to it. -/
def insert (host : Host μ) (module : μ) : ModuleId × Host μ :=
  (⟨UInt32.ofNat host.modules.length⟩, { host with modules := host.modules ++ [some module] })

/-- Add a module that receives broadcasts. -/
def addModule (host : Host μ) (module : μ) : ModuleId × Host μ :=
  let (id, host) := host.insert module
  (id, { host with routing := host.routing.addTopLevel id })

/-- Add a module that receives what is addressed to `parent`. -/
def addChild (host : Host μ) (parent : ModuleId) (module : μ) :
    Except HostError ModuleId × Host μ :=
  if (host.module? parent).isNone then (.error (.unknownModule parent), host)
  else
    let (id, host) := host.insert module
    (.ok id, { host with routing := host.routing.connect parent id })

def connect (host : Host μ) (parent child : ModuleId) : Except HostError Unit × Host μ :=
  if (host.module? parent).isNone then (.error (.unknownModule parent), host)
  else if (host.module? child).isNone then (.error (.unknownModule child), host)
  else (.ok (), { host with routing := host.routing.connect parent child })

def disconnect (host : Host μ) (parent child : ModuleId) : Bool × Host μ :=
  let (found, routing) := host.routing.disconnect parent child
  (found, { host with routing })

/-- Tear a module down. Pending events addressed to it are released without dispatch; the answer
counts them. -/
def removeModule (host : Host μ) (id : ModuleId) : Except HostError Nat × List Call × Host μ :=
  if (host.module? id).isNone then (.error (.unknownModule id), [], host)
  else
    let host := { host with
      modules := host.modules.set id.number.toNat none
      routing := host.routing.remove id }
    let (freed, host) := host.onDesk (·.discard fun event => event.destination == .module id)
    (.ok freed, [.teardown id], host)

def close (host : Host μ) : List Call × Host μ :=
  let present := host.modules.zipIdx.filter fun (module, _) => module.isSome
  let calls := present.map fun (_, number) => Call.teardown ⟨UInt32.ofNat number⟩
  (calls, { host with modules := host.modules.map fun _ => none }.clear.2)

/-! ### Inlets -/

/-- Open an inlet for another thread. Inlets are numbered from 0. -/
def addInlet (host : Host μ) (destination : Destination) (mode : UnrollMode) : Nat × Host μ :=
  let number := host.inlets.length
  let (sender, hub) := host.hub.addSender s!"injector-{number + 1}"
  let pipe := (Pipe.ofCapacity host.settings.pipeCapacity).withMaxPayload host.settings.maxPayload
  (number, { host with hub, inlets := host.inlets ++ [{ destination, mode, pipe, sender }] })

/-- A decoder for streams of packets, with the host's limit on frames. -/
def frameDecoder (host : Host μ) : FrameDecoder := { limit := host.settings.maxFrameLength }

/-- Let an inlet work with the channel and the signal that it shares with the host. -/
def onInlet (host : Host μ) (number : Nat)
    (step : Inlet → Channel → Signal → α × Inlet × Channel × Signal) : Option (α × Host μ) :=
  host.inlets[number]?.map fun inlet =>
    let (answer, changed, channel, inbound) :=
      step inlet (host.hub.channel inlet.sender) host.inbound
    (answer, { host with
      inlets := host.inlets.set number changed
      hub := host.hub.withChannel inlet.sender channel
      inbound })

def send (host : Host μ) (number : Nat) (packet : List UInt8) :
    Option (Except HostError Nat × Host μ) :=
  (host.onInlet number fun inlet channel signal =>
    inlet.inject host.clocks packet channel signal).map fun (outcome, host) =>
      (outcome.mapError .packet, host)

def sendFrames (host : Host μ) (number : Nat) (decoder : FrameDecoder) :
    Option (Except HostError Nat × FrameDecoder × Host μ) :=
  (host.onInlet number fun inlet channel signal =>
    let (outcome, inlet, decoder, channel, signal) :=
      inlet.injectFrames host.clocks decoder channel signal
    ((outcome, decoder), inlet, channel, signal)).map fun ((outcome, decoder), host) =>
      (outcome.mapError .packet, decoder, host)

/-- Take the wake-up that an inlet has sent, if there is one. -/
def takeWake (host : Host μ) : Bool × Host μ :=
  let (woken, inbound) := host.inbound.takeWake
  (woken, { host with inbound })

/-! ### The cycle -/

/-- Hand an event to the modules among its targets, in the order of the targets. -/
def deliverAll [Behaviour μ] (event : Event) :
    List ModuleId → List (Option μ) → List Call × List (Option μ)
  | [], modules => ([], modules)
  | id :: rest, modules =>
    match modules[id.number.toNat]?.join with
    | none => deliverAll event rest modules
    | some module =>
      let module := Behaviour.deliver event.time event.bytes module
      let (calls, modules) := deliverAll event rest (modules.set id.number.toNat (some module))
      (.deliver id event.time event.bytes :: calls, modules)

def dispatchAll [Behaviour μ] (routing : Routing) :
    List Event → List (Option μ) → List Call × List (Option μ)
  | [], modules => ([], modules)
  | event :: rest, modules =>
    let (delivered, modules) := deliverAll event (routing.targets event.destination) modules
    let (calls, modules) := dispatchAll routing rest modules
    (.dispatch event :: delivered ++ calls, modules)

/-- Run one period, at whose start the media clock shows `mediaMicros`. The answer counts the events
dispatched. -/
def process [Behaviour μ] (host : Host μ) (mediaMicros frames : UInt64) :
    Nat × List Call × Host μ :=
  let frame := host.frame
  let timeline := { frame, mediaMicros, sampleRate := host.sampleRate }
  let clocks := { host.clocks with timeline }
  let (inputs, modules, desk) := runTurn .input clocks frame frames 0 host.modules host.desk
  let (inlets, inbound, desk) := desk.serveInlets host.inlets host.inbound
  let (events, desk) := desk.drain frame frames
  let (dispatched, modules) := dispatchAll host.routing events modules
  let desk := desk.releaseAll events
  let (outputs, modules, desk) := runTurn .output clocks frame frames 0 modules desk
  let host := { host with clocks, modules, inlets, inbound, frame := frame + frames }
  (events.length, inputs ++ dispatched ++ outputs, host.withDesk desk)

def stats (host : Host μ) : Stats := host.hub.stats

end Host

end OscHost
