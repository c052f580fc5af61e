import OscHost.Host.Sequencer
import OscHost.Proofs.Host.Traffic
import Mathlib.Data.List.TakeWhile

/-!
# Runs of a host

A run is a sequence of operations from the initial state of a host on. Every period dispatches its
events in order, at times from its start up to its end (`Within`), so the times of dispatch never go
back over a whole run, whatever was scheduled for when and by which way it came in.
-/

namespace OscHost

/-! ### The times of a period -/

/-- A time at which a period can dispatch: its start, or a later frame before its end. -/
def Within (frame frames time : UInt64) : Prop :=
  time = frame ∨ frame < time ∧ time.toNat < frame.toNat + frames.toNat

namespace Agenda

variable {current period : UInt64} {entry other : Entry}

theorem dispatched_within (due : isDue current period entry = true) :
    Within current period (dispatched current entry).time := by
  rw [isDue, decide_eq_true_eq] at due
  rw [dispatched]
  split
  · exact .inl rfl
  · rename_i ahead
    rcases UInt64.lt_or_eq_of_le (UInt64.not_lt.mp fun late => ahead (.inr late)) with later | same
    · exact .inr ⟨later, Nat.lt_of_lt_of_le due (Nat.min_le_left _ _)⟩
    · exact .inl same.symm

theorem dispatched_le (order : entry.event.time ≤ other.event.time) :
    (dispatched current entry).time ≤ (dispatched current other).time := by
  rw [dispatched, dispatched]
  by_cases clamped : entry.event.time = 0 ∨ entry.event.time < current
  · rw [if_pos clamped]
    split
    · exact UInt64.le_refl _
    · rename_i ahead
      exact UInt64.not_lt.mp fun late => ahead (.inr late)
  · -- What is behind an event that is not clamped is not clamped either.
    have ahead : ¬(other.event.time = 0 ∨ other.event.time < current) := by
      rintro (first | late)
      · rw [first] at order
        exact clamped (.inl (UInt64.le_zero_iff.mp order))
      · exact clamped (.inr (UInt64.lt_of_le_of_lt order late))
    rw [if_neg clamped, if_neg ahead]
    exact order

end Agenda

namespace Queue

theorem drain_events (q : Queue) (sound : q.Sound) (current period : UInt64) :
    ((q.drain current period).1.events.map (·.time)).Pairwise (· ≤ ·) ∧
      ∀ event ∈ (q.drain current period).1.events, Within current period event.time := by
  obtain ⟨agenda, keeps, ordered, -⟩ := sound
  obtain ⟨events, -, -⟩ := keeps.drainTo current period (Nat.le_of_eq keeps.count_eq.symm)
  rw [drain, events]
  constructor
  · rw [List.map_map, List.pairwise_map]
    refine (ordered.sublist (List.takeWhile_sublist _)).imp fun {x y} order => ?_
    rcases order with earlier | ⟨same, -⟩
    · exact Agenda.dispatched_le (UInt64.le_of_lt earlier)
    · exact Agenda.dispatched_le (UInt64.le_of_eq same)
  · intro event member
    obtain ⟨entry, due, rfl⟩ := List.mem_map.mp member
    exact Agenda.dispatched_within (List.mem_takeWhile_imp due)

end Queue

/-! ### Operations -/

/-- What is done with a host, by whoever owns it, by the threads that feed its inlets, and for its
upkeep. -/
inductive Host.Operation (μ : Type) where
  | schedule (destination : Destination) (time : UInt64) (payload : List UInt8)
  | scheduleMessage (destination : Destination) (time : UInt64) (path : String) (args : List Argument)
  | inject (destination : Destination) (mode : UnrollMode) (packet : List UInt8)
  | cancel (handle : Handle)
  | clear
  | addModule (module : μ)
  | addChild (parent : ModuleId) (module : μ)
  | connect (parent child : ModuleId)
  | disconnect (parent child : ModuleId)
  | removeModule (id : ModuleId)
  | addInlet (destination : Destination) (mode : UnrollMode)
  | send (inlet : Nat) (packet : List UInt8)
  | sendFrames (inlet : Nat) (decoder : FrameDecoder)
  | takeWake
  | process (mediaMicros frames : UInt64)
  | upkeep (now : Nat) (reading : ClockPair)
  | forceResync (now : Nat)
  | start
  | attend (now : Nat) (reading : ClockPair)
  | stop (now : Nat) (reading : ClockPair)

namespace Host

/-- By how many frames an operation moves a host on. -/
def Operation.frames : Operation μ → Nat
  | process _ frames => frames.toNat
  | _ => 0

def perform [Behaviour μ] (host : Host μ) : Operation μ → List Call × Host μ
  | .schedule destination time payload => ([], (host.schedule destination time payload).2)
  | .scheduleMessage destination time path args =>
    ([], (host.scheduleMessage destination time path args).2)
  | .inject destination mode packet => ([], (host.injectTo destination mode packet).2)
  | .cancel handle => ([], (host.cancel handle).2)
  | .clear => ([], host.clear.2)
  | .addModule module => ([], (host.addModule module).2)
  | .addChild parent module => ([], (host.addChild parent module).2)
  | .connect parent child => ([], (host.connect parent child).2)
  | .disconnect parent child => ([], (host.disconnect parent child).2)
  | .removeModule id => (host.removeModule id).2
  | .addInlet destination mode => ([], (host.addInlet destination mode).2)
  | .send inlet packet => ([], ((host.send inlet packet).map (·.2)).getD host)
  | .sendFrames inlet decoder => ([], ((host.sendFrames inlet decoder).map (·.2.2)).getD host)
  | .takeWake => ([], host.takeWake.2)
  | .process mediaMicros frames => (host.process mediaMicros frames).2
  | .upkeep now reading => ([], (host.upkeepByHand now reading).2)
  | .forceResync now => ([], host.forceResync now)
  | .start => ([], host.start.2)
  | .attend now reading => ([], host.attend now reading)
  | .stop now reading => ([], host.stop now reading)

/-- A sequence of operations. The calls are those to modules and of the dispatch, in order. -/
def run [Behaviour μ] (host : Host μ) : List (Operation μ) → List Call × Host μ
  | [] => ([], host)
  | operation :: rest =>
    let (calls, host) := host.perform operation
    let (more, host) := host.run rest
    (calls ++ more, host)

theorem run_append [Behaviour μ] (host : Host μ) (before after : List (Operation μ)) :
    host.run (before ++ after) =
      ((host.run before).1 ++ ((host.run before).2.run after).1, ((host.run before).2.run after).2) := by
  induction before generalizing host with
  | nil => rfl
  | cons operation before ih =>
    have onwards := ih (host.perform operation).2
    rw [List.cons_append, run, run]
    dsimp only
    rw [onwards, List.append_assoc]

end Host

/-- The time of a dispatch, as it is dispatched and as it is delivered. -/
def Call.time? : Call → Option UInt64
  | dispatch event => some event.time
  | deliver _ time _ => some time
  | request .. => none
  | teardown _ => none

def Call.times (calls : List Call) : List UInt64 := calls.filterMap Call.time?

/-! ### Times of calls -/

theorem Call.times_append (calls more : List Call) : times (calls ++ more) = times calls ++ times more :=
  List.filterMap_append

/-- A turn calls for requests only. -/
theorem filterMap_runTurn [Behaviour μ] {f : Call → Option α}
    (silent : ∀ turn period outcome, f (.request turn period outcome) = none) (turn : Turn)
    (clocks : Clocks) (frame frames : UInt64) (number : Nat) (modules : List (Option μ)) (desk : Desk) :
    (runTurn turn clocks frame frames number modules desk).1.filterMap f = [] := by
  induction modules generalizing number desk with
  | nil => rfl
  | cons module modules ih =>
    cases module with
    | none => exact ih _ _
    | some module =>
      rw [runTurn]
      dsimp only
      rw [List.filterMap_append, ih, List.append_nil, List.filterMap_map]
      exact List.filterMap_eq_nil_iff.mpr fun outcome _ => silent _ _ outcome

namespace Host

theorem times_deliverAll [Behaviour μ] (event : Event) (targets : List ModuleId)
    (modules : List (Option μ)) :
    ∀ time ∈ Call.times (deliverAll event targets modules).1, time = event.time := by
  fun_induction deliverAll event targets modules with
  | case1 => exact nofun
  | case2 _ _ _ _ ih => exact ih
  | case3 _ _ _ _ _ _ _ _ delivered ih =>
    rw [delivered] at ih
    exact List.forall_mem_cons.mpr ⟨rfl, ih⟩

theorem times_dispatchAll_cons [Behaviour μ] (routing : Routing) (event : Event) (events : List Event)
    (modules : List (Option μ)) :
    let delivered := deliverAll event (routing.targets event.destination) modules
    Call.times (dispatchAll routing (event :: events) modules).1 =
      event.time :: (Call.times delivered.1 ++
        Call.times (dispatchAll routing events delivered.2).1) := by
  intro delivered
  rw [← Call.times_append]
  rfl

theorem mem_times_dispatchAll [Behaviour μ] {routing : Routing} {events : List Event}
    {modules : List (Option μ)} {time : UInt64}
    (member : time ∈ Call.times (dispatchAll routing events modules).1) :
    ∃ event ∈ events, event.time = time := by
  induction events generalizing modules with
  | nil => cases member
  | cons event events ih =>
    rw [times_dispatchAll_cons] at member
    rcases List.mem_cons.mp member with rfl | member
    · exact ⟨event, List.mem_cons_self, rfl⟩
    · rcases List.mem_append.mp member with member | member
      · exact ⟨event, List.mem_cons_self, (times_deliverAll event _ modules time member).symm⟩
      · obtain ⟨other, present, same⟩ := ih member
        exact ⟨other, List.mem_cons_of_mem _ present, same⟩

theorem times_dispatchAll_ordered [Behaviour μ] (routing : Routing) {events : List Event}
    (modules : List (Option μ)) (order : (events.map (·.time)).Pairwise (· ≤ ·)) :
    (Call.times (dispatchAll routing events modules).1).Pairwise (· ≤ ·) := by
  induction events generalizing modules with
  | nil => exact .nil
  | cons event events ih =>
    obtain ⟨first, rest⟩ := List.pairwise_cons.mp order
    let delivered := deliverAll event (routing.targets event.destination) modules
    have now : ∀ time ∈ Call.times delivered.1, time = event.time := times_deliverAll event _ modules
    have later : ∀ time ∈ Call.times (dispatchAll routing events delivered.2).1, event.time ≤ time := by
      intro time member
      obtain ⟨other, present, rfl⟩ := mem_times_dispatchAll member
      exact first _ (List.mem_map_of_mem present)
    rw [times_dispatchAll_cons]
    refine List.pairwise_cons.mpr ⟨fun time member => ?_,
      List.pairwise_append.mpr ⟨?_, ih delivered.2 rest, ?_⟩⟩
    · rcases List.mem_append.mp member with member | member
      · exact UInt64.le_of_eq (now time member).symm
      · exact later time member
    · refine List.pairwise_of_forall_mem_list fun time member other same => UInt64.le_of_eq ?_
      rw [now time member, now other same]
    · intro time member other behind
      rw [now time member]
      exact later other behind

/-! ### One operation -/

/-- The queue changes by requests only, and the frame counter stands still. -/
structure Rests (host after : Host μ) : Prop where
  takes : host.queue.Takes host.pool.maxPayload after.queue
  frame : after.frame = host.frame

theorem onDesk_rests (host : Host μ) {step : Desk → α × Desk}
    (proceeds : ∀ desk : Desk, desk.Proceeds (step desk).2) :
    host.Rests (host.onDesk step).2 := ⟨(proceeds host.desk).queue, rfl⟩

theorem removeModule_rests (host : Host μ) (id : ModuleId) :
    host.Rests (host.removeModule id).2.2 ∧ Call.times (host.removeModule id).2.1 = [] := by
  rw [removeModule]
  split
  · exact ⟨⟨.refl, rfl⟩, rfl⟩
  · exact ⟨⟨Queue.takes_removeWhere _ _ _, rfl⟩, rfl⟩

/-- Nothing changes but the modules and the routing between them. -/
def Wired (host after : Host μ) : Prop := ∃ modules routing, after = { host with modules, routing }

/-- Nothing changes but the inlets, the hub and the signal that the inlets share. -/
def Fed (host after : Host μ) : Prop := ∃ inlets hub inbound, after = { host with inlets, hub, inbound }

/-- Nothing changes but what upkeep works with. -/
def Tended (host after : Host μ) : Prop :=
  ∃ pool hub clocks nextResync worker stopRequested,
    after = { host with pool, hub, clocks, nextResync, worker, stopRequested }

theorem Wired.rests {host after : Host μ} (wired : host.Wired after) : host.Rests after := by
  obtain ⟨_, _, rfl⟩ := wired
  exact ⟨.refl, rfl⟩

theorem Fed.rests {host after : Host μ} (fed : host.Fed after) : host.Rests after := by
  obtain ⟨_, _, _, rfl⟩ := fed
  exact ⟨.refl, rfl⟩

theorem Tended.rests {host after : Host μ} (tended : host.Tended after) : host.Rests after := by
  obtain ⟨_, _, _, _, _, _, rfl⟩ := tended
  exact ⟨.refl, rfl⟩

theorem addChild_wired (host : Host μ) (parent : ModuleId) (module : μ) :
    host.Wired (host.addChild parent module).2 := by
  rw [addChild]
  split <;> exact ⟨_, _, rfl⟩

theorem connect_wired (host : Host μ) (parent child : ModuleId) :
    host.Wired (host.connect parent child).2 := by
  rw [connect]
  split
  · exact ⟨_, _, rfl⟩
  · split <;> exact ⟨_, _, rfl⟩

theorem onInlet_fed (host : Host μ) (number : Nat)
    {step : Inlet → Channel → Signal → α × Inlet × Channel × Signal} {answer : α} {after : Host μ}
    (found : host.onInlet number step = some (answer, after)) : host.Fed after := by
  rw [onInlet, Option.map_eq_some_iff] at found
  obtain ⟨inlet, -, same⟩ := found
  cases same
  exact ⟨_, _, _, rfl⟩

theorem send_fed (host : Host μ) (number : Nat) (packet : List UInt8) :
    host.Fed (((host.send number packet).map (·.2)).getD host) := by
  rw [send, Option.map_map]
  generalize found : host.onInlet number _ = answered
  cases answered with
  | none => exact ⟨_, _, _, rfl⟩
  | some answered => exact onInlet_fed host number found

theorem sendFrames_fed (host : Host μ) (number : Nat) (decoder : FrameDecoder) :
    host.Fed (((host.sendFrames number decoder).map (·.2.2)).getD host) := by
  rw [sendFrames, Option.map_map]
  generalize found : host.onInlet number _ = answered
  cases answered with
  | none => exact ⟨_, _, _, rfl⟩
  | some answered => exact onInlet_fed host number found

theorem upkeep_tended (host : Host μ) (now : Nat) (reading : ClockPair) :
    host.Tended (host.upkeep now reading).2.2 := by
  obtain ⟨_, _, _, _, _, _, same⟩ : host.Tended (host.resyncIfDue now reading).2 := by
    rw [resyncIfDue]
    split <;> exact ⟨_, _, _, _, _, _, rfl⟩
  rw [upkeep]
  dsimp only
  rw [same]
  exact ⟨_, _, _, _, _, _, rfl⟩

theorem upkeepByHand_tended (host : Host μ) (now : Nat) (reading : ClockPair) :
    host.Tended (host.upkeepByHand now reading).2 := by
  rw [upkeepByHand]
  split
  · exact upkeep_tended host now reading
  · exact ⟨_, _, _, _, _, _, rfl⟩

theorem forceResync_tended (host : Host μ) (now : Nat) : host.Tended (host.forceResync now) := by
  rw [forceResync]
  split <;> exact ⟨_, _, _, _, _, _, rfl⟩

theorem start_tended (host : Host μ) : host.Tended host.start.2 := by
  rw [start]
  split
  · split <;> exact ⟨_, _, _, _, _, _, rfl⟩
  · exact ⟨_, _, _, _, _, _, rfl⟩

theorem attend_tended (host : Host μ) (now : Nat) (reading : ClockPair) :
    host.Tended (host.attend now reading) := by
  rw [attend]
  split
  · dsimp only
    split
    · obtain ⟨_, _, _, _, _, _, same⟩ := upkeep_tended { host with pool := host.pool.takeWake.2 } now reading
      exact ⟨_, _, _, _, _, _, same⟩
    · exact ⟨_, _, _, _, _, _, rfl⟩
  · exact ⟨_, _, _, _, _, _, rfl⟩

theorem stop_tended (host : Host μ) (now : Nat) (reading : ClockPair) :
    host.Tended (host.stop now reading) := by
  obtain ⟨_, _, _, _, _, _, same⟩ := attend_tended { host with pool := host.pool.notify.2 } now reading
  rw [stop, same]
  exact ⟨_, _, _, _, _, _, rfl⟩

theorem perform_rests [Behaviour μ] (host : Host μ) {operation : Operation μ}
    (idle : ∀ mediaMicros frames, operation ≠ .process mediaMicros frames) :
    host.Rests (host.perform operation).2 ∧ Call.times (host.perform operation).1 = [] := by
  cases operation with
  | process mediaMicros frames => exact absurd rfl (idle mediaMicros frames)
  | schedule destination time payload =>
    exact ⟨onDesk_rests host fun desk => desk.proceeds_schedule destination time payload, rfl⟩
  | scheduleMessage destination time path args =>
    exact ⟨onDesk_rests host fun desk => desk.proceeds_scheduleMessage destination time path args, rfl⟩
  | inject destination mode packet =>
    exact ⟨onDesk_rests host fun desk => desk.proceeds_inject host.clocks destination mode packet, rfl⟩
  | cancel handle => exact ⟨onDesk_rests host fun desk => desk.proceeds_cancel handle, rfl⟩
  | clear => exact ⟨onDesk_rests host fun desk => desk.proceeds_discard fun _ => true, rfl⟩
  | removeModule id => exact removeModule_rests host id
  | send inlet packet => exact ⟨(send_fed host inlet packet).rests, rfl⟩
  | sendFrames inlet decoder => exact ⟨(sendFrames_fed host inlet decoder).rests, rfl⟩
  | upkeep now reading => exact ⟨(upkeepByHand_tended host now reading).rests, rfl⟩
  | attend now reading => exact ⟨(attend_tended host now reading).rests, rfl⟩
  | stop now reading => exact ⟨(stop_tended host now reading).rests, rfl⟩
  | start => exact ⟨(start_tended host).rests, rfl⟩
  | forceResync now => exact ⟨(forceResync_tended host now).rests, rfl⟩
  | addChild parent module => exact ⟨(addChild_wired host parent module).rests, rfl⟩
  | connect parent child => exact ⟨(connect_wired host parent child).rests, rfl⟩
  | addModule module => exact ⟨⟨.refl, rfl⟩, rfl⟩
  | disconnect parent child => exact ⟨⟨.refl, rfl⟩, rfl⟩
  | addInlet destination mode => exact ⟨⟨.refl, rfl⟩, rfl⟩
  | takeWake => exact ⟨⟨.refl, rfl⟩, rfl⟩

/-! ### The stages of a period -/

section

variable [Behaviour μ] (host : Host μ) (mediaMicros frames : UInt64)

def periodClocks : Clocks :=
  { host.clocks with timeline := { frame := host.frame, mediaMicros, sampleRate := host.sampleRate } }

def inputTurn : List Call × List (Option μ) × Desk :=
  runTurn .input (host.periodClocks mediaMicros) host.frame frames 0 host.modules host.desk

/-- The inlets, their common signal and the desk, once the inlets were served. -/
def served : List Inlet × Signal × Desk :=
  (host.inputTurn mediaMicros frames).2.2.serveInlets host.inlets host.inbound

/-- The desk of a period after the input turn of the modules, once the inlets were served. -/
def collected (host : Host μ) (mediaMicros frames : UInt64) : Desk :=
  let timeline := { frame := host.frame, mediaMicros, sampleRate := host.sampleRate }
  let desk := (runTurn .input { host.clocks with timeline } host.frame frames 0 host.modules host.desk).2.2
  (desk.serveInlets host.inlets host.inbound).2.2

/-- The events that are due, and the desk without them. -/
def due : List Event × Desk := (host.collected mediaMicros frames).drain host.frame frames

def dispatchTurn : List Call × List (Option μ) :=
  dispatchAll host.routing (host.due mediaMicros frames).1 (host.inputTurn mediaMicros frames).2.1

/-- The turn behind the dispatch, with the payloads of what was dispatched back in the pool. -/
def outputTurn : List Call × List (Option μ) × Desk :=
  runTurn .output (host.periodClocks mediaMicros) host.frame frames 0 (host.dispatchTurn mediaMicros frames).2
    ((host.due mediaMicros frames).2.releaseAll (host.due mediaMicros frames).1)

theorem process_stages :
    host.process mediaMicros frames =
      ((host.due mediaMicros frames).1.length,
        (host.inputTurn mediaMicros frames).1 ++ (host.dispatchTurn mediaMicros frames).1 ++
          (host.outputTurn mediaMicros frames).1,
        { host with
          clocks := host.periodClocks mediaMicros
          modules := (host.outputTurn mediaMicros frames).2.1
          inlets := (host.served mediaMicros frames).1
          inbound := (host.served mediaMicros frames).2.1
          frame := host.frame + frames }.withDesk (host.outputTurn mediaMicros frames).2.2) :=
  rfl

/-- What the modules ask for is left out of a list of calls, and the calls of the dispatch remain. -/
theorem filterMap_process {f : Call → Option α}
    (silent : ∀ turn period outcome, f (.request turn period outcome) = none) :
    (host.process mediaMicros frames).2.1.filterMap f =
      (host.dispatchTurn mediaMicros frames).1.filterMap f := by
  rw [process_stages]
  dsimp only
  rw [List.filterMap_append, List.filterMap_append, inputTurn, outputTurn, filterMap_runTurn silent,
    filterMap_runTurn silent, List.nil_append, List.append_nil]

theorem collected_proceeds : host.desk.Proceeds (host.collected mediaMicros frames) :=
  (proceeds_runTurn ..).trans (Desk.proceeds_serveInlets ..)

theorem process_proceeds : host.desk.Proceeds (host.outputTurn mediaMicros frames).2.2 :=
  (((host.collected_proceeds mediaMicros frames).trans (Desk.proceeds_drain ..)).trans
    (Desk.proceeds_releaseAll ..)).trans (proceeds_runTurn ..)

end

/-- A period dispatches in order and within its bounds, and moves the host on by its frames. -/
theorem process_times [Behaviour μ] (host : Host μ) (sound : host.queue.Sound)
    (mediaMicros frames : UInt64) :
    host.queue.Takes host.pool.maxPayload (host.process mediaMicros frames).2.2.queue ∧
      (Call.times (host.process mediaMicros frames).2.1).Pairwise (· ≤ ·) ∧
      ∀ time ∈ Call.times (host.process mediaMicros frames).2.1, Within host.frame frames time := by
  have collected := (host.collected_proceeds mediaMicros frames).queue
  obtain ⟨order, bounds⟩ := Queue.drain_events _ (collected.becomes.sound sound) host.frame frames
  have times : Call.times (host.process mediaMicros frames).2.1 =
      Call.times (host.dispatchTurn mediaMicros frames).1 :=
    host.filterMap_process mediaMicros frames fun _ _ _ => rfl
  rw [times]
  refine ⟨(host.process_proceeds mediaMicros frames).queue, ?_, fun time member => ?_⟩
  · exact times_dispatchAll_ordered host.routing _ order
  · obtain ⟨event, present, rfl⟩ := mem_times_dispatchAll member
    exact bounds event present

/-! ### Runs -/

/-- The host has come to a later frame, and all that was dispatched on the way was dispatched in
order, from the frame where it was up to the one where it is. -/
structure Advances (host : Host μ) (frames : Nat) (calls : List Call) (after : Host μ) : Prop where
  becomes : host.queue.Becomes after.queue
  frame : after.frame.toNat = host.frame.toNat + frames
  order : (Call.times calls).Pairwise (· ≤ ·)
  bounds : ∀ time ∈ Call.times calls, host.frame ≤ time ∧ time ≤ after.frame

theorem Advances.refl (host : Host μ) : host.Advances 0 [] host :=
  ⟨.refl, rfl, .nil, nofun⟩

theorem Advances.trans {host between after : Host μ} {frames further : Nat} {calls more : List Call}
    (first : host.Advances frames calls between) (second : between.Advances further more after) :
    host.Advances (frames + further) (calls ++ more) after := by
  have ahead : host.frame ≤ between.frame := by
    rw [UInt64.le_iff_toNat_le, first.frame]
    exact Nat.le_add_right _ _
  have beyond : between.frame ≤ after.frame := by
    rw [UInt64.le_iff_toNat_le, second.frame]
    exact Nat.le_add_right _ _
  refine ⟨first.becomes.trans second.becomes, ?_, ?_, fun time member => ?_⟩
  · rw [second.frame, first.frame, Nat.add_assoc]
  · rw [Call.times_append]
    refine List.pairwise_append.mpr ⟨first.order, second.order, fun time member later behind => ?_⟩
    exact UInt64.le_trans (first.bounds time member).2 (second.bounds later behind).1
  · rw [Call.times_append] at member
    rcases List.mem_append.mp member with member | member
    · obtain ⟨low, high⟩ := first.bounds time member
      exact ⟨low, UInt64.le_trans high beyond⟩
    · obtain ⟨low, high⟩ := second.bounds time member
      exact ⟨UInt64.le_trans ahead low, high⟩

variable [Behaviour μ]

theorem perform_advances {host : Host μ} (sound : host.queue.Sound) (operation : Operation μ)
    (bounded : host.frame.toNat + operation.frames < UInt64.size) :
    host.Advances operation.frames (host.perform operation).1 (host.perform operation).2 := by
  by_cases idle : ∀ mediaMicros frames, operation ≠ .process mediaMicros frames
  · obtain ⟨⟨takes, frame⟩, silent⟩ := perform_rests host idle
    have still : operation.frames = 0 := by
      cases operation with
      | process mediaMicros frames => exact absurd rfl (idle mediaMicros frames)
      | _ => rfl
    rw [still]
    refine ⟨takes.becomes, congrArg UInt64.toNat frame, ?_, ?_⟩ <;> rw [silent]
    · exact .nil
    · exact nofun
  · simp only [ne_eq, not_forall, not_not] at idle
    obtain ⟨mediaMicros, frames, rfl⟩ := idle
    obtain ⟨takes, order, bounds⟩ := process_times host sound mediaMicros frames
    have moved : (host.frame + frames).toNat = host.frame.toNat + frames.toNat := by
      rw [UInt64.toNat_add]
      exact Nat.mod_eq_of_lt bounded
    refine ⟨takes.becomes, moved, order, fun time member => ?_⟩
    show host.frame ≤ time ∧ time ≤ host.frame + frames
    rw [UInt64.le_iff_toNat_le, UInt64.le_iff_toNat_le, moved]
    rcases bounds time member with rfl | ⟨ahead, before⟩
    · exact ⟨Nat.le_refl _, Nat.le_add_right _ _⟩
    · exact ⟨Nat.le_of_lt (UInt64.lt_iff_toNat_lt.mp ahead), Nat.le_of_lt before⟩

theorem run_advances {host : Host μ} (sound : host.queue.Sound) (operations : List (Operation μ))
    (bounded : host.frame.toNat + total (operations.map Operation.frames) < UInt64.size) :
    host.Advances (total (operations.map Operation.frames)) (host.run operations).1
      (host.run operations).2 := by
  induction operations generalizing host with
  | nil => exact .refl host
  | cons operation operations ih =>
    rw [List.map_cons, total] at bounded
    have first := perform_advances sound operation (by omega)
    exact first.trans (ih (first.becomes.sound sound) (by rw [first.frame]; omega))

/-- Over any run the times of dispatch and delivery never go back, and each period dispatches and
delivers in order, at its start or later but before its end. -/
theorem run_in_order (settings : Settings) (sampleRate : Float) (period : UInt64) (now : Nat)
    (reading : ClockPair) (operations : List (Operation μ))
    (bounded : total (operations.map Operation.frames) < UInt64.size) :
    let start : Host μ := initial settings sampleRate period now reading
    (Call.times (start.run operations).1).Pairwise (· ≤ ·) ∧
      ∀ before mediaMicros frames after,
        operations = before ++ .process mediaMicros frames :: after →
          let host := (start.run before).2
          let calls := (host.process mediaMicros frames).2.1
          host.frame.toNat = total (before.map Operation.frames) ∧
            (Call.times calls).Pairwise (· ≤ ·) ∧
            ∀ time ∈ Call.times calls, Within host.frame frames time := by
  intro start
  have sound : start.queue.Sound := Queue.sound_ofCapacity settings.queueCapacity
  have origin : start.frame.toNat = 0 := rfl
  refine ⟨(run_advances sound operations (by rw [origin]; omega)).order, ?_⟩
  intro before mediaMicros frames after whole host calls
  rw [whole, List.map_append, total_append] at bounded
  have reached := run_advances sound before (by rw [origin]; omega)
  obtain ⟨-, order, bounds⟩ := process_times host (reached.becomes.sound sound) mediaMicros frames
  refine ⟨?_, order, bounds⟩
  rw [reached.frame, origin, Nat.zero_add]

theorem run_in_order_mixed :
    let start : Host Sequencer :=
      initial { queueCapacity := 4, poolPreallocate := 4 } 48000 256 0 { mediaMicros := 0, wall := ⟨0⟩ }
    let echo : Sequencer := { name := "echo", outputs := [⟨.broadcast, 10, "/echo", []⟩] }
    let operations := [.addModule echo, .schedule .broadcast 300 [1],
      .schedule .broadcast immediateFrame [2], .schedule .broadcast 100 [3], .process 0 256,
      .schedule .broadcast 20 [4], .process 5333 0, .process 5333 256]
    total (operations.map Operation.frames) < UInt64.size ∧
      Call.times (start.run operations).1 =
        [0, 0, 100, 100, 256, 256, 256, 256, 266, 266, 300, 300] ∧
      (Call.times (start.run operations).1).Pairwise (· ≤ ·) :=
  ⟨by decide, by decide +kernel, (run_in_order _ 48000 256 0 _ _ (by decide)).1⟩

end Host

end OscHost
