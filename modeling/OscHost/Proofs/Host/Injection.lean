import OscHost.Host.Sequencer
import OscHost.Proofs.Host.Conservation
import OscHost.Proofs.Host.Filing

/-!
# Two ways into the queue

A packet can be injected into a host directly or sent through an inlet, whose records the next period
moves into the queue. With room for all items both ways lead to the same queue, the same answer and the
same reports (`inject_routes_agree`). There is one exception. A destination passes through a record as a
number, and one module has the number that stands for a broadcast: an inlet for this module is to address to
it what comes in, as direct injection does, and addresses it to everybody (`inject_routes_part`).
-/

namespace OscHost

namespace Destination

/-- Only the module under the number of the broadcast marker does not come back from its number. -/
theorem ofWord_toWord (destination : Destination) :
    ofWord destination.toWord =
      if destination = module ⟨broadcastWord⟩ then broadcast else destination := by
  cases destination with
  | broadcast => rfl
  | module id =>
    have same : (module id = module ⟨broadcastWord⟩) ↔ id.number = broadcastWord := by
      constructor
      · rintro ⟨⟩
        rfl
      · rintro marker
        rw [← marker]
    rw [toWord, ofWord]
    simp only [same]

end Destination

/-- Records of the same items for two destinations are the same only for one destination, or of no items. -/
theorem Item.perm_records_iff {first second : Destination} {items : List Item} :
    (items.map (Item.record first)).Perm (items.map (Item.record second)) ↔ first = second ∨ items = [] := by
  constructor
  · intro same
    cases items with
    | nil => exact .inr rfl
    | cons item items =>
      have member := same.mem_iff.mp List.mem_cons_self
      obtain ⟨other, -, equal⟩ := List.mem_map.mp member
      exact .inl (congrArg Record.destination equal).symm
  · rintro (rfl | rfl) <;> exact .refl _

/-! ### Turns and dispatch -/

def Call.event? : Call → Option Event
  | dispatch event => some event
  | _ => none

/-- The events that left the queue. -/
def Call.dispatched (calls : List Call) : List Event := calls.filterMap Call.event?

theorem Call.dispatched_append (calls more : List Call) :
    dispatched (calls ++ more) = dispatched calls ++ dispatched more :=
  List.filterMap_append

theorem runTurn_quiet [Behaviour μ] {turn : Turn} (clocks : Clocks) (frame frames : UInt64) (number : Nat)
    {modules : List (Option μ)} (desk : Desk)
    (quiet : ∀ module, some module ∈ modules → ∀ period, (turn.requests period module).1 = []) :
    (runTurn turn clocks frame frames number modules desk).2.2 = desk := by
  induction modules generalizing number with
  | nil => rfl
  | cons module modules ih =>
    have onwards := ih (number + 1) fun module member => quiet module (List.mem_cons_of_mem _ member)
    cases module with
    | none => exact onwards
    | some module =>
      have nothing := quiet module List.mem_cons_self ⟨⟨UInt32.ofNat number⟩, frame, frames⟩
      rw [runTurn]
      dsimp only
      rw [nothing]
      exact onwards

namespace Host

variable {host : Host μ}

theorem dispatched_deliverAll [Behaviour μ] (event : Event) (targets : List ModuleId)
    (modules : List (Option μ)) : Call.dispatched (deliverAll event targets modules).1 = [] := by
  fun_induction deliverAll event targets modules with
  | case1 => rfl
  | case2 _ _ _ _ ih => exact ih
  | case3 _ _ _ _ _ _ _ _ delivered ih =>
    rw [delivered] at ih
    exact ih

theorem dispatched_dispatchAll [Behaviour μ] (routing : Routing) (events : List Event)
    (modules : List (Option μ)) : Call.dispatched (dispatchAll routing events modules).1 = events := by
  induction events generalizing modules with
  | nil => rfl
  | cons event events ih =>
    let delivered := deliverAll event (routing.targets event.destination) modules
    have calls : (dispatchAll routing (event :: events) modules).1 =
        .dispatch event :: (delivered.1 ++ (dispatchAll routing events delivered.2).1) := rfl
    have rest : Call.dispatched (delivered.1 ++ (dispatchAll routing events delivered.2).1) = events := by
      rw [Call.dispatched_append, dispatched_deliverAll, ih, List.nil_append]
    rw [calls]
    exact congrArg (List.cons event) rest

/-! ### Direct injection -/

theorem injectTo_malformed (host : Host μ) (destination : Destination) (mode : UnrollMode)
    {packet : List UInt8} {error : WireError} (refused : Packet.parse packet = .error error) :
    host.injectTo destination mode packet =
      (.error (.schedule (.wire error)),
        host.withDesk (host.desk.report (.malformedPacket error packet.length))) := by
  rw [injectTo, onDesk, Desk.inject_malformed _ _ _ _ refused]
  rfl

theorem injectTo_filed {destination : Destination} {mode : UnrollMode} {packet : List UInt8} {p : Packet}
    {limit : Nat} {after : Queue} {rest : Pool}
    (parsed : Packet.parse packet = .ok p) (limited : host.pool.maxPayload = limit)
    (filed : Filed destination (fitting limit (host.clocks.items mode packet)) host.queue host.pool
      after rest) :
    host.injectTo destination mode packet =
      (.ok (fitting limit (host.clocks.items mode packet)).length,
        host.withDesk
          { queue := after
            pool := rest
            channel := (host.hub.channel cycleSender).sendAll
              (refusals limit (host.clocks.items mode packet)) }) := by
  rw [injectTo, onDesk, Desk.inject_filed host.desk parsed limited filed]
  rfl

/-! ### A new inlet -/

def nextInlet (host : Host μ) (destination : Destination) (mode : UnrollMode) : Inlet :=
  { destination, mode
    pipe := (Pipe.ofCapacity host.settings.pipeCapacity).withMaxPayload host.settings.maxPayload
    sender := host.hub.rings.length }

/-- Buffers in the pool, slots in the queue and bytes in the pipe of a new inlet for all of the items. -/
structure HasRoom (host : Host μ) (items : List Item) : Prop where
  buffers : ∀ size ∈ host.settings.poolClasses, host.settings.demand items size ≤ host.pool.stored size
  slots : items.length ≤ host.queue.capacity
  bytes : total (items.map Item.size) ≤ host.settings.pipeCapacity

theorem nextInlet_pipe (host : Host μ) (destination : Destination) (mode : UnrollMode)
    (fits : host.settings.Fits) :
    let pipe := (host.nextInlet destination mode).pipe
    pipe.maxPayload = host.settings.maxPayload ∧ pipe.bytes = [] ∧
      host.settings.pipeCapacity ≤ pipe.capacity :=
  ⟨Nat.min_eq_left (Nat.le_pred_of_lt fits.payload), rfl, Nat.le_max_left _ _⟩

theorem send_next {destination : Destination} {mode : UnrollMode} {packet : List UInt8}
    {outcome : Except WireError Nat} {changed : Inlet} {channel : Channel} {inbound : Signal}
    (injected : (host.nextInlet destination mode).inject host.clocks packet
      ((host.addInlet destination mode).2.hub.channel host.hub.rings.length) host.inbound =
        (outcome, changed, channel, inbound)) :
    let opened := host.addInlet destination mode
    opened.2.send opened.1 packet =
      some (outcome.mapError .packet,
        { opened.2 with
          inlets := host.inlets ++ [changed]
          hub := opened.2.hub.withChannel host.hub.rings.length channel
          inbound }) := by
  intro opened
  have found : opened.2.inlets[opened.1]? = some (host.nextInlet destination mode) :=
    List.getElem?_concat_length
  have replaced : opened.2.inlets.set opened.1 changed = host.inlets ++ [changed] := by
    show (host.inlets ++ [_]).set host.inlets.length changed = _
    simp
  have answered : (host.nextInlet destination mode).inject opened.2.clocks packet
      (opened.2.hub.channel (host.nextInlet destination mode).sender) opened.2.inbound =
        (outcome, changed, channel, inbound) := injected
  rw [send, onInlet, found, ← replaced]
  dsimp only [Option.map_some]
  rw [answered]
  rfl

/-! ### Settings -/

theorem Wired.settings_eq {after : Host μ} (wired : host.Wired after) : after.settings = host.settings := by
  obtain ⟨_, _, rfl⟩ := wired
  rfl

theorem Fed.settings_eq {after : Host μ} (fed : host.Fed after) : after.settings = host.settings := by
  obtain ⟨_, _, _, rfl⟩ := fed
  rfl

theorem Tended.settings_eq {after : Host μ} (tended : host.Tended after) :
    after.settings = host.settings := by
  obtain ⟨_, _, _, _, _, _, rfl⟩ := tended
  rfl

variable [Behaviour μ]

theorem perform_settings (host : Host μ) (operation : Operation μ) :
    (host.perform operation).2.settings = host.settings := by
  cases operation with
  | removeModule id =>
    rw [perform, removeModule]
    split <;> rfl
  | addChild parent module => exact (addChild_wired host parent module).settings_eq
  | connect parent child => exact (connect_wired host parent child).settings_eq
  | send inlet packet => exact (send_fed host inlet packet).settings_eq
  | sendFrames inlet decoder => exact (sendFrames_fed host inlet decoder).settings_eq
  | upkeep now reading => exact (upkeepByHand_tended host now reading).settings_eq
  | forceResync now => exact (forceResync_tended host now).settings_eq
  | start => exact (start_tended host).settings_eq
  | attend now reading => exact (attend_tended host now reading).settings_eq
  | stop now reading => exact (stop_tended host now reading).settings_eq
  | _ => rfl

theorem run_settings (host : Host μ) (operations : List (Operation μ)) :
    (host.run operations).2.settings = host.settings := by
  induction operations generalizing host with
  | nil => rfl
  | cons operation operations ih => exact (ih _).trans (perform_settings host operation)

/-! ### The next period -/

/-- No module asks for anything at its input turn. -/
def Quiet (host : Host μ) : Prop :=
  ∀ module, some module ∈ host.modules → ∀ period, (Turn.input.requests period module).1 = []

/-- What a period dispatches is taken from what was collected. -/
theorem process_dispatched (host : Host μ) (mediaMicros frames : UInt64) :
    Call.dispatched (host.process mediaMicros frames).2.1 =
      ((host.collected mediaMicros frames).queue.drain host.frame frames).1.events :=
  (host.filterMap_process mediaMicros frames fun _ _ _ => rfl).trans (dispatched_dispatchAll ..)

theorem collected_append (quiet : host.Quiet) {inlets more : List Inlet}
    (idle : ∀ inlet ∈ inlets, inlet.pipe.bytes = []) (split : host.inlets = inlets ++ more)
    (mediaMicros frames : UInt64) :
    ∃ signal, host.collected mediaMicros frames = (host.desk.serveInlets more signal).2.2 := by
  obtain ⟨signal, served⟩ := Desk.serveInlets_idle host.desk inlets more host.inbound idle
  refine ⟨signal, ?_⟩
  rw [collected]
  dsimp only
  rw [runTurn_quiet _ _ _ _ _ quiet, split, served]

theorem collected_idle (quiet : host.Quiet) (idle : ∀ inlet ∈ host.inlets, inlet.pipe.bytes = [])
    (mediaMicros frames : UInt64) : host.collected mediaMicros frames = host.desk := by
  obtain ⟨signal, same⟩ := collected_append quiet idle (List.append_nil _).symm mediaMicros frames
  exact same

/-! ### Two ways -/

/-- A packet was injected into a host directly, and into the same host through an inlet opened for it. The
next period finds the same events in the same queue and dispatches the same. What was reported is the
same, each time on the channel of whoever reported it, and the period has nothing to add to it. -/
structure Concur (host direct opened piped : Host μ) (sender : Nat) (reports : List Diagnostic) : Prop where
  queue : ∀ mediaMicros frames, (piped.collected mediaMicros frames).queue = direct.queue
  pool : ∀ mediaMicros frames, (piped.collected mediaMicros frames).pool = direct.pool
  dispatched : ∀ mediaMicros frames,
    Call.dispatched (piped.process mediaMicros frames).2.1 =
      Call.dispatched (direct.process mediaMicros frames).2.1
  reported : direct.hub = host.hub.withChannel cycleSender ((host.hub.channel cycleSender).sendAll reports)
  forwarded : piped.hub = opened.hub.withChannel sender ((opened.hub.channel sender).sendAll reports)
  silent : ∀ mediaMicros frames,
    (piped.collected mediaMicros frames).channel = piped.hub.channel cycleSender

theorem concur_of_filed (quiet : host.Quiet) (idle : ∀ inlet ∈ host.inlets, inlet.pipe.bytes = [])
    {destination : Destination} {mode : UnrollMode} {items : List Item} {after : Queue} {rest : Pool}
    {changed : Inlet} (short : ∀ item ∈ items, item.bytes.length < UInt32.size)
    (filed : Filed (.ofWord destination.toWord) items host.queue host.pool after rest)
    (bytes : changed.pipe.bytes = (items.map (Item.record destination)).flatMap Record.encode)
    (inbound : Signal) (reports : List Diagnostic) :
    let direct := host.withDesk
      { queue := after, pool := rest, channel := (host.hub.channel cycleSender).sendAll reports }
    let opened := (host.addInlet destination mode).2
    let sender := host.hub.rings.length
    let piped := { opened with
      inlets := host.inlets ++ [changed]
      hub := opened.hub.withChannel sender ((opened.hub.channel sender).sendAll reports)
      inbound }
    host.Concur direct opened piped sender reports := by
  intro direct opened sender piped
  have moved (mediaMicros frames : UInt64) : piped.collected mediaMicros frames =
      { queue := after, pool := rest, channel := piped.hub.channel cycleSender } := by
    have quiet : piped.Quiet := quiet
    -- The new inlet comes last, and those before it have nothing to move.
    obtain ⟨signal, collected⟩ := collected_append quiet idle rfl mediaMicros frames
    rw [collected]
    exact Desk.transfer_filed short filed bytes
  have kept (mediaMicros frames : UInt64) : (direct.collected mediaMicros frames).queue = after := by
    have quiet : direct.Quiet := quiet
    rw [collected_idle quiet idle]
    rfl
  refine ⟨fun mediaMicros frames => ?_, fun mediaMicros frames => ?_, fun mediaMicros frames => ?_,
    rfl, rfl, fun mediaMicros frames => ?_⟩
  · rw [moved]
    rfl
  · rw [moved]
    rfl
  · rw [process_dispatched, process_dispatched, moved, kept]
    rfl
  · rw [moved]

variable {mode : UnrollMode} {packet : List UInt8}

theorem agree_malformed (quiet : host.Quiet) (idle : ∀ inlet ∈ host.inlets, inlet.pipe.bytes = [])
    (destination : Destination) {error : WireError} (refused : Packet.parse packet = .error error) :
    let direct := host.injectTo (.ofWord destination.toWord) mode packet
    let opened := host.addInlet destination mode
    let reports := [.malformedPacket error packet.length]
    direct.1 = .error (.schedule (.wire error)) ∧ direct.2.queue = host.queue ∧
      ∃ piped, opened.2.send opened.1 packet = some (.error (.packet error), piped) ∧
        host.Concur direct.2 opened.2 piped host.hub.rings.length reports := by
  intro direct opened reports
  have injected : direct = _ := host.injectTo_malformed (.ofWord destination.toWord) mode refused
  have sent := send_next ((host.nextInlet destination mode).inject_malformed host.clocks
    ((host.addInlet destination mode).2.hub.channel host.hub.rings.length) host.inbound refused)
  rw [injected]
  refine ⟨rfl, rfl, _, sent, ?_⟩
  have nothing : Filed (.ofWord destination.toWord) [] host.queue host.pool host.queue host.pool := .nil
  exact concur_of_filed quiet idle (List.forall_mem_nil _) nothing rfl _ reports

omit [Behaviour μ] in
/-- With room for all items, direct injection to any destination queues those that are short enough. -/
theorem injectTo_room (destination : Destination) {p : Packet} (parsed : Packet.parse packet = .ok p)
    (fits : host.settings.Fits) (sound : host.stock.Sound host.settings) (empty : host.pendingEvents = 0)
    (room : host.HasRoom (fitting host.settings.maxPayload (host.clocks.items mode packet))) :
    let items := host.clocks.items mode packet
    let short := fitting host.settings.maxPayload items
    ∃ after rest, Filed destination short host.queue host.pool after rest ∧
      host.injectTo destination mode packet =
        (.ok short.length,
          host.withDesk
            { queue := after
              pool := rest
              channel := (host.hub.channel cycleSender).sendAll
                (refusals host.settings.maxPayload items) }) ∧
      (after.toList.map Event.record).Perm (short.map (Item.record destination)) := by
  intro items short
  obtain ⟨pool, queue⟩ := sound
  obtain ⟨buffers, slots, -⟩ : host.HasRoom short := room
  have none : host.queue.size = 0 := empty
  have slots : host.queue.size + short.length ≤ host.queue.capacity := by omega
  have limited : ∀ item ∈ short, item.bytes.length ≤ host.settings.maxPayload :=
    fun item member => le_of_mem_fitting member
  obtain ⟨after, rest, filed⟩ : ∃ after rest, Filed destination short host.queue host.pool after rest :=
    filed_of_room fits pool queue limited buffers slots
  refine ⟨after, rest, filed, injectTo_filed parsed pool.maxPayload filed, ?_⟩
  have pending := (filed.pending queue).2
  have before : host.queue.toList = [] := Queue.toList_nil none
  rw [before, List.map_nil, List.append_nil] at pending
  exact pending

theorem agree_filed (quiet : host.Quiet) (idle : ∀ inlet ∈ host.inlets, inlet.pipe.bytes = [])
    (destination : Destination) {p : Packet} (parsed : Packet.parse packet = .ok p)
    (fits : host.settings.Fits) (sound : host.stock.Sound host.settings) (empty : host.pendingEvents = 0)
    (room : host.HasRoom (fitting host.settings.maxPayload (host.clocks.items mode packet))) :
    let items := host.clocks.items mode packet
    let short := fitting host.settings.maxPayload items
    let arrived := Destination.ofWord destination.toWord
    let direct := host.injectTo arrived mode packet
    let opened := host.addInlet destination mode
    direct.1 = .ok short.length ∧
      (direct.2.queue.toList.map Event.record).Perm (short.map (Item.record arrived)) ∧
      ∃ piped, opened.2.send opened.1 packet = some (.ok short.length, piped) ∧
        host.Concur direct.2 opened.2 piped host.hub.rings.length
          (refusals host.settings.maxPayload items) := by
  intro items short arrived direct opened
  obtain ⟨after, rest, filed, injected, pending⟩ := injectTo_room arrived parsed fits sound empty room
  obtain ⟨limit, unused, wide⟩ := host.nextInlet_pipe destination mode fits
  have fit : (host.nextInlet destination mode).pipe.bytes.length + total (short.map Item.size) ≤
      (host.nextInlet destination mode).pipe.capacity := by
    rw [unused, List.length_nil, Nat.zero_add]
    exact Nat.le_trans room.bytes wide
  obtain ⟨inbound, written⟩ := Inlet.inject_written
    (opened.2.hub.channel host.hub.rings.length) host.inbound parsed limit fit
  have sent := send_next written
  have same : direct = _ := injected
  rw [same]
  refine ⟨rfl, pending, _, sent, ?_⟩
  have small : ∀ item ∈ short, item.bytes.length < UInt32.size := fun item member =>
    Nat.lt_of_le_of_lt (le_of_mem_fitting member) fits.payload
  exact concur_of_filed quiet idle small filed rfl inbound (refusals host.settings.maxPayload items)

/-- A packet is injected into a host, at any time in a run, whose queue and pipes are empty. Its items that
are short enough are queued and the others are reported, whether it is injected directly or sent through
a new inlet, or it is refused both ways with the same error. The two ways part exactly at the module under
the number of the broadcast marker: an inlet for it does what direct injection does for a broadcast. -/
theorem inject_routes_agree (settings : Settings) (sampleRate : Float) (period : UInt64) (now : Nat)
    (reading : ClockPair) (valid : settings.error? = none) (operations : List (Operation μ))
    (destination : Destination) (mode : UnrollMode) (packet : List UInt8) :
    let start : Host μ := initial settings sampleRate period now reading
    let host := (start.run operations).2
    let items := host.clocks.items mode packet
    let short := fitting host.settings.maxPayload items
    let arrived := if destination = .module ⟨Destination.broadcastWord⟩ then .broadcast else destination
    let direct := host.injectTo arrived mode packet
    let opened := host.addInlet destination mode
    host.pendingEvents = 0 → (∀ inlet ∈ host.inlets, inlet.pipe.bytes = []) → host.Quiet →
      host.HasRoom short →
      ∃ outcome piped reports, opened.2.send opened.1 packet = some (outcome, piped) ∧
        host.Concur direct.2 opened.2 piped host.hub.rings.length reports ∧
        (∀ error, Packet.parse packet = .error error →
          direct.1 = .error (.schedule (.wire error)) ∧ outcome = .error (.packet error) ∧
            direct.2.queue = host.queue ∧ reports = [.malformedPacket error packet.length]) ∧
        ∀ p, Packet.parse packet = .ok p →
          direct.1 = .ok short.length ∧ outcome = .ok short.length ∧
            (direct.2.queue.toList.map Event.record).Perm (short.map (Item.record arrived)) ∧
            reports = refusals host.settings.maxPayload items ∧
            (((host.injectTo destination mode packet).2.queue.toList.map Event.record).Perm
              (direct.2.queue.toList.map Event.record) ↔
                destination ≠ .module ⟨Destination.broadcastWord⟩ ∨ short = []) := by
  intro start host items short arrived direct opened empty idle quiet room
  have fits := Settings.fits_of_valid valid
  have same : host.settings = settings := run_settings start operations
  have sound : host.stock.Sound settings :=
    run_sound (initial_sound settings sampleRate period now reading) operations
  rw [← same] at fits sound
  have arrives : Destination.ofWord destination.toWord = arrived := Destination.ofWord_toWord destination
  cases parsed : Packet.parse packet with
  | error error =>
    obtain ⟨refused, kept, piped, sent, concur⟩ := agree_malformed quiet idle destination parsed
    rw [arrives] at refused kept concur
    refine ⟨_, piped, _, sent, concur, fun other same => ?_, nofun⟩
    cases same
    exact ⟨refused, rfl, kept, rfl⟩
  | ok p =>
    obtain ⟨counted, pending, piped, sent, concur⟩ :=
      agree_filed quiet idle destination parsed fits sound empty room
    rw [arrives] at counted pending concur
    refine ⟨_, piped, _, sent, concur, nofun, fun other same => ?_⟩
    refine ⟨counted, rfl, pending, rfl, ?_⟩
    obtain ⟨after, rest, -, injected, queued⟩ := injectTo_room destination parsed fits sound empty room
    have parts : destination = arrived ↔ destination ≠ .module ⟨Destination.broadcastWord⟩ := by
      unfold arrived
      split
      · rename_i marker
        subst marker
        decide
      · rename_i other
        exact iff_of_true rfl other
    rw [injected, ← parts, ← Item.perm_records_iff]
    exact ⟨fun same => (queued.symm.trans same).trans pending,
      fun same => (queued.trans same).trans pending.symm⟩

/-- A bundle of two messages, of which the second is too long. -/
theorem inject_routes_agree_bundle :
    let settings : Settings :=
      { queueCapacity := 4, maxPayload := 8, poolClasses := [8], poolPreallocate := 1,
        poolLowWatermark := 0 }
    let start : Host Sequencer := initial settings 48000 256 0 { mediaMicros := 0, wall := ⟨0⟩ }
    let host := (start.run [.addModule { name := "still" }]).2
    let short := [0x2F, 0x61, 0, 0, 0x2C, 0, 0, 0]
    let long := [0x2F, 0x61, 0x62, 0x63, 0x64, 0, 0, 0, 0x2C, 0, 0, 0]
    let packet := bundleTag ++ bigEndian 8 1 ++ bigEndian 4 8 ++ short ++ bigEndian 4 12 ++ long
    let direct := host.injectTo (.module ⟨3⟩) .full packet
    let opened := host.addInlet (.module ⟨3⟩) .full
    settings.error? = none ∧ host.pendingEvents = 0 ∧ host.Quiet ∧
      ∃ piped, opened.2.send opened.1 packet = some (.ok 1, piped) ∧
        host.Concur direct.2 opened.2 piped 2 [.poolExhausted 12] ∧
        (direct.2.queue.toList.map Event.record).Perm [⟨.module ⟨3⟩, 0, short⟩] := by
  intro settings start host short long packet direct opened
  have valid : settings.error? = none := by decide
  have empty : host.pendingEvents = 0 := rfl
  have quiet : host.Quiet := by
    intro module member period
    cases List.mem_singleton.mp member
    rfl
  have room : host.HasRoom (fitting host.settings.maxPayload (host.clocks.items .full packet)) :=
    ⟨by decide +kernel, by decide +kernel, by decide +kernel⟩
  obtain ⟨outcome, piped, reports, sent, concur, -, agree⟩ :=
    inject_routes_agree settings 48000 256 0 { mediaMicros := 0, wall := ⟨0⟩ } valid
      [.addModule { name := "still" }] (.module ⟨3⟩) .full packet empty nofun quiet room
  have parsed : Packet.parse packet = .ok (.bundle ⟨packet, .immediate⟩) := by decide +kernel
  have items : host.clocks.items .full packet = [⟨0, short⟩, ⟨0, long⟩] := by decide +kernel
  obtain ⟨-, rfl, pending, rfl, -⟩ := agree _ parsed
  rw [items] at sent concur pending
  exact ⟨valid, empty, quiet, piped, sent, concur, pending⟩

/-- A message to the module under the number of the broadcast marker: injected directly it stays with the
module, sent through an inlet it becomes a broadcast. -/
theorem inject_routes_part :
    let settings : Settings :=
      { queueCapacity := 4, maxPayload := 8, poolClasses := [8], poolPreallocate := 1,
        poolLowWatermark := 0 }
    let host : Host Sequencer := initial settings 48000 256 0 { mediaMicros := 0, wall := ⟨0⟩ }
    let packet := [0x2F, 0x61, 0, 0, 0x2C, 0, 0, 0]
    let destination := Destination.module ⟨Destination.broadcastWord⟩
    let direct := host.injectTo destination .full packet
    let opened := host.addInlet destination .full
    settings.error? = none ∧ host.pendingEvents = 0 ∧ host.inlets = [] ∧ host.Quiet ∧
      host.HasRoom (host.clocks.items .full packet) ∧
      ∃ piped, opened.2.send opened.1 packet = some (.ok 1, piped) ∧
        direct.2.queue.toList.map Event.record = [⟨destination, 0, packet⟩] ∧
        (piped.collected 0 16).queue.toList.map Event.record = [⟨.broadcast, 0, packet⟩] := by
  intro settings host packet destination direct opened
  have valid : settings.error? = none := by decide
  have quiet : host.Quiet := nofun
  have items : host.clocks.items .full packet = [⟨0, packet⟩] := by decide +kernel
  have room : host.HasRoom (host.clocks.items .full packet) :=
    ⟨by decide +kernel, by decide +kernel, by decide +kernel⟩
  have parsed : Packet.parse packet = .ok (.message ⟨packet, "/a", [], []⟩) := by decide +kernel
  have fits : host.settings.Fits := Settings.fits_of_valid valid
  have sound : host.stock.Sound settings := initial_sound settings 48000 256 0 _
  obtain ⟨-, -, piped, sent, concur⟩ :
      _ ∧ _ ∧ ∃ piped, opened.2.send opened.1 packet = some (.ok _, piped) ∧
        host.Concur (host.injectTo .broadcast .full packet).2 opened.2 piped _ _ :=
    agree_filed quiet nofun destination parsed fits sound rfl room
  refine ⟨valid, rfl, rfl, quiet, room, piped, ?_, by decide +kernel, ?_⟩
  · rw [items] at sent
    exact sent
  · rw [concur.queue 0 16]
    decide +kernel

end Host

end OscHost
