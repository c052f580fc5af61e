import OscHost.Proofs.Host.Boarding
import OscHost.Proofs.Host.Injection
import OscHost.Proofs.Stream.Framing

/-!
# The passage of records

What becomes of the records that are written to an inlet. At its turn in a period the whole records in its
pipe board the queue up to the end of the turn (`Host.Passes`). Over a run every record that was written has
boarded, or was lost to a full queue and reported, or is still in the pipe, in the order of writing
(`Host.run_passage`).
-/

namespace OscHost

/-! ### Writing -/

namespace Pipe

/-- A pipe after it was offered records, one after the other. -/
def offer (p : Pipe) (records : List Record) : Pipe := records.foldl (fun p r => (p.produce r).2) p

/-- Those of the records that it takes. -/
def accepted (p : Pipe) : List Record → List Record
  | [] => []
  | r :: records =>
    match p.produce r with
    | (.ok (), p) => r :: p.accepted records
    | (.error _, p) => p.accepted records

/-- The bytes of a pipe are those of the records that wait in it. -/
structure Holds (p : Pipe) (waiting : List Record) : Prop where
  bytes : p.bytes = waiting.flatMap Record.encode
  limit : p.maxPayload < UInt32.size
  short : ∀ r ∈ waiting, r.payload.length < UInt32.size

variable {p q : Pipe} {r : Record} {waiting : List Record}

theorem holds_new (capacity limit : Nat) : ((ofCapacity capacity).withMaxPayload limit).Holds [] :=
  ⟨rfl, Nat.lt_of_le_of_lt (Nat.min_le_right _ _) (by decide), List.forall_mem_nil _⟩

theorem Holds.produce_ok (holds : p.Holds waiting) (stored : p.produce r = (.ok (), q)) :
    q.Holds (waiting ++ [r]) := by
  obtain ⟨bytes, limit, short⟩ := holds
  rw [produce] at stored
  split at stored
  · cases stored
  · rename_i small
    split at stored
    · cases stored
    · cases stored
      refine ⟨?_, limit, List.forall_mem_append.mpr ⟨short, List.forall_mem_singleton.mpr ?_⟩⟩
      · simp [bytes]
      · exact Nat.lt_of_le_of_lt (Nat.le_of_not_lt small) limit

theorem Holds.produce_error {error : PipeError} (holds : p.Holds waiting)
    (refused : p.produce r = (.error error, q)) : q.Holds waiting := by
  rw [produce] at refused
  split at refused
  · cases refused
    exact holds
  · split at refused
    · cases refused
      exact ⟨holds.bytes, holds.limit, holds.short⟩
    · cases refused

theorem Holds.offer (holds : p.Holds waiting) (records : List Record) :
    (p.offer records).Holds (waiting ++ p.accepted records) := by
  induction records generalizing p waiting with
  | nil =>
    rw [accepted, List.append_nil]
    exact holds
  | cons r records ih =>
    have first : p.offer (r :: records) = (p.produce r).2.offer records := rfl
    rw [first, accepted]
    rcases produced : p.produce r with ⟨_ | _, q⟩
    · exact ih (holds.produce_error produced)
    · have onwards := ih (holds.produce_ok produced)
      rwa [List.append_assoc] at onwards

end Pipe

theorem Intake.add_pipe (destination : Destination) (time : UInt64) (payload : List UInt8) (intake : Intake) :
    (add destination time payload intake).pipe = (intake.pipe.produce { destination, time, payload }).2 := by
  rw [add]
  split <;> rename_i produced <;> rw [produced]

theorem Intake.add_offer (destination : Destination) (items : List Item) (intake : Intake) :
    (items.foldl (fun intake item => add destination item.time item.bytes intake) intake).pipe =
      intake.pipe.offer (items.map (Item.record destination)) := by
  induction items generalizing intake with
  | nil => rfl
  | cons item items ih =>
    rw [List.foldl_cons, ih, add_pipe]
    rfl

namespace Inlet

/-- The records that a packet amounts to. A malformed one amounts to none. -/
def records (inlet : Inlet) (clocks : Clocks) (packet : List UInt8) : List Record :=
  (clocks.items inlet.mode packet).map (Item.record inlet.destination)

theorem inject_offer (inlet : Inlet) (clocks : Clocks) (packet : List UInt8) (channel : Channel)
    (signal : Signal) :
    ∃ malformed dropped, (inlet.inject clocks packet channel signal).2.1 =
      { inlet with pipe := inlet.pipe.offer (inlet.records clocks packet), malformed, dropped } := by
  cases parsed : Packet.parse packet with
  | error error =>
    have none : inlet.records clocks packet = [] := by
      rw [records, Clocks.items, unroll_error _ parsed]
      rfl
    rw [inject_malformed inlet clocks channel signal parsed, none]
    exact ⟨_, _, rfl⟩
  | ok p =>
    have unrolled : unroll (Intake.handler clocks inlet.destination) inlet.mode packet
        { pipe := inlet.pipe, channel } = _ :=
      unroll_each clocks
        (fun intake item => Intake.add inlet.destination item.time item.bytes intake) inlet.mode parsed _
    rw [inject, unrolled]
    dsimp only
    rw [Intake.add_offer]
    exact ⟨_, _, rfl⟩

theorem injectFrames_offer (inlet : Inlet) (clocks : Clocks) (decoder : FrameDecoder) (channel : Channel)
    (signal : Signal) :
    ∃ malformed dropped, (inlet.injectFrames clocks decoder channel signal).2.1 =
      { inlet with
        pipe := inlet.pipe.offer (decoder.drain.1.flatMap (inlet.records clocks)), malformed, dropped } := by
  fun_induction injectFrames inlet clocks decoder channel signal with
  | case1 inlet decoder channel signal error rest asked =>
    rw [FrameDecoder.drain_eq, asked]
    exact ⟨_, _, rfl⟩
  | case2 inlet decoder channel signal rest asked =>
    rw [FrameDecoder.drain_eq, asked]
    exact ⟨_, _, rfl⟩
  | case3 inlet decoder channel signal frame rest asked _ outcome after between _ injected _ total last _ _ _
      onwards ih =>
    obtain ⟨_, _, fed⟩ := inject_offer inlet clocks frame channel signal
    obtain ⟨_, _, same⟩ := ih
    rw [injected] at fed
    dsimp only at fed
    rw [onwards, fed] at same
    have offered : inlet.pipe.offer (decoder.drain.1.flatMap (inlet.records clocks)) =
        (inlet.pipe.offer (inlet.records clocks frame)).offer
          (rest.drain.1.flatMap (inlet.records clocks)) := by
      rw [FrameDecoder.drain_eq, asked]
      dsimp only
      rw [List.flatMap_cons, Pipe.offer, List.foldl_append]
      rfl
    rw [offered]
    exact ⟨_, _, same⟩

end Inlet

/-! ### Turns -/

namespace Desk

theorem serveInlets_append (desk : Desk) (front back : List Inlet) (signal : Signal) :
    desk.serveInlets (front ++ back) signal =
      ((desk.serveInlets front signal).1 ++
          ((desk.serveInlets front signal).2.2.serveInlets back (desk.serveInlets front signal).2.1).1,
        ((desk.serveInlets front signal).2.2.serveInlets back (desk.serveInlets front signal).2.1).2) := by
  induction front generalizing desk signal with
  | nil => rfl
  | cons inlet front ih =>
    rw [List.cons_append, serveInlets, serveInlets]
    dsimp only
    rw [ih]
    rfl

theorem length_serveInlets (desk : Desk) (inlets : List Inlet) (signal : Signal) :
    (desk.serveInlets inlets signal).1.length = inlets.length := by
  induction inlets generalizing desk signal with
  | nil => rfl
  | cons inlet inlets ih => exact congrArg (· + 1) (ih _ _)

end Desk

theorem Stock.Leads.sound {settings : Settings} {s t : Stock} (leads : s.Leads t)
    (sound : s.Sound settings) : t.Sound settings := by
  obtain ⟨dropped, moves⟩ := leads
  exact (moves.balance sound).1

namespace Host

variable [Behaviour μ] {host : Host μ} {settings : Settings} {number : Nat} {inlet : Inlet}

/-- The common signal and the desk of a period when an inlet has its turn. -/
def atTurn (host : Host μ) (mediaMicros frames : UInt64) (number : Nat) : Signal × Desk :=
  let timeline := { frame := host.frame, mediaMicros, sampleRate := host.sampleRate }
  let desk := (runTurn .input { host.clocks with timeline } host.frame frames 0 host.modules host.desk).2.2
  (desk.serveInlets (host.inlets.take number) host.inbound).2

theorem atTurn_sound (sound : host.stock.Sound settings) (mediaMicros frames : UInt64) (number : Nat) :
    (host.atTurn mediaMicros frames number).2.stock.Sound settings :=
  ((leads_runTurn _ _ _ _ _ _ _).trans (Desk.leads_serveInlets _ _ _)).sound sound

/-- A period gives every inlet its turn with the desk that the one before has left. -/
theorem process_turn (there : host.inlets[number]? = some inlet) (mediaMicros frames : UInt64) :
    let turn := host.atTurn mediaMicros frames number
    let transfer := turn.2.transfer inlet.pipe turn.1
    (host.process mediaMicros frames).2.2.inlets[number]? = some { inlet with pipe := transfer.2.1 } ∧
      host.atTurn mediaMicros frames (number + 1) = transfer.2.2 := by
  intro turn transfer
  obtain ⟨bound, same⟩ := List.getElem?_eq_some_iff.mp there
  have split : host.inlets = host.inlets.take number ++ inlet :: host.inlets.drop (number + 1) := by
    rw [← same, List.getElem_cons_drop, List.take_append_drop]
  have more : host.inlets.take (number + 1) = host.inlets.take number ++ [inlet] := by
    rw [← same, List.take_append_getElem]
  let desk := (host.inputTurn mediaMicros frames).2.2
  let before := desk.serveInlets (host.inlets.take number) host.inbound
  have count : before.1.length = number :=
    (Desk.length_serveInlets _ _ _).trans (List.length_take_of_le (Nat.le_of_lt bound))
  constructor
  · have served : (host.process mediaMicros frames).2.2.inlets =
        (desk.serveInlets host.inlets host.inbound).1 := rfl
    rw [served, split, Desk.serveInlets_append, List.getElem?_append_right (Nat.le_of_eq count),
      count, Nat.sub_self]
    rfl
  · have reached : host.atTurn mediaMicros frames (number + 1) =
        (desk.serveInlets (host.inlets.take (number + 1)) host.inbound).2 := rfl
    rw [reached, more, Desk.serveInlets_append]
    rfl

/-- The whole records that an inlet holds when its turn comes board in order, up to the end of the turn; and
the period goes on with what this leaves. -/
def Passes (host : Host μ) (mediaMicros frames : UInt64) (number : Nat) (inlet : Inlet) (records : List Record)
    (tail : List UInt8) : Prop :=
  let turn := host.atTurn mediaMicros frames number
  let transfer := turn.2.transfer inlet.pipe turn.1
  ∃ boarded lost left after, records = boarded ++ lost ++ left ∧ turn.2.Turn boarded lost left after ∧
    transfer.1 = boarded.length ∧
    (inlet.pipe.takeRecords Transfer.taker { queue := turn.2.queue, pool := turn.2.pool }).1 =
      boarded.length + lost.length ∧
    (host.process mediaMicros frames).2.2.inlets[number]? =
      some { inlet with pipe := { inlet.pipe with bytes := left.flatMap Record.encode ++ tail } } ∧
    (host.atTurn mediaMicros frames (number + 1)).2 = after ∧
    ∃ events : List Event, events.map Event.record = boarded.map Record.arrived ∧
      after.queue.toList = events.foldl (fun pending event => event.insertInto pending) turn.2.queue.toList

theorem passes (sound : host.stock.Sound settings) (there : host.inlets[number]? = some inlet)
    {records : List Record} {tail : List UInt8} (bytes : inlet.pipe.bytes = records.flatMap Record.encode ++ tail)
    (short : ∀ r ∈ records, r.payload.length < UInt32.size) (stuck : Record.split? tail = none)
    (mediaMicros frames : UInt64) : host.Passes mediaMicros frames number inlet records tail := by
  have kept := atTurn_sound sound mediaMicros frames number
  obtain ⟨inlets, onwards⟩ := process_turn there mediaMicros frames
  obtain ⟨boarded, lost, left, after, whole, turn, transferred, count⟩ :=
    Desk.transfer_turn kept short stuck inlet.pipe bytes (host.atTurn mediaMicros frames number).1
  rw [transferred] at inlets onwards
  refine ⟨boarded, lost, left, after, whole, turn, ?_, count, inlets, ?_, turn.pending kept.queue⟩
  · rw [transferred]
  · rw [onwards]

/-! ### Runs -/

/-- What became of a record that has left its pipe. -/
inductive Fate where
  | boarded (r : Record)
  | lost (r : Record)

def Fate.record : Fate → Record
  | boarded r => r
  | lost r => r

/-- What the periods of a run do with the records of an inlet, in order. -/
inductive Settles (number : Nat) : Host μ → List (Operation μ) → List Fate → Prop where
  | nil {host : Host μ} : Settles number host [] []
  | turn {host : Host μ} {inlet : Inlet} {mediaMicros frames : UInt64} {boarded lost left : List Record}
      {after : Desk} {operations : List (Operation μ)} {fates : List Fate}
      (there : host.inlets[number]? = some inlet)
      (bytes : inlet.pipe.bytes = (boarded ++ lost ++ left).flatMap Record.encode)
      (turn : (host.atTurn mediaMicros frames number).2.Turn boarded lost left after)
      (onwards : Settles number (host.process mediaMicros frames).2.2 operations fates) :
      Settles number host (.process mediaMicros frames :: operations)
        (boarded.map .boarded ++ lost.map .lost ++ fates)
  | other {host : Host μ} {operation : Operation μ} {operations : List (Operation μ)} {fates : List Fate}
      (idle : host.inlets[number]? = none ∨
        ∀ mediaMicros frames, operation ≠ .process mediaMicros frames)
      (onwards : Settles number (host.perform operation).2 operations fates) :
      Settles number host (operation :: operations) fates

/-- The records that an operation writes to the pipe of an inlet. -/
def written (host : Host μ) (number : Nat) : Operation μ → List Record
  | .send other packet =>
    if other = number then
      (host.inlets[number]?.map fun inlet => inlet.pipe.accepted (inlet.records host.clocks packet)).getD []
    else []
  | .sendFrames other decoder =>
    if other = number then
      (host.inlets[number]?.map fun inlet =>
        inlet.pipe.accepted (decoder.drain.1.flatMap (inlet.records host.clocks))).getD []
    else []
  | _ => []

def allWritten (host : Host μ) (number : Nat) : List (Operation μ) → List Record
  | [] => []
  | operation :: operations =>
    host.written number operation ++ (host.perform operation).2.allWritten number operations

/-- The records that wait in the pipe of an inlet. Before it is opened there are none. -/
def Waits (host : Host μ) (number : Nat) (waiting : List Record) : Prop :=
  (host.inlets[number]?).elim (waiting = []) fun inlet => inlet.pipe.Holds waiting

omit [Behaviour μ] in
theorem Waits.offer {waiting : List Record} (waits : host.Waits number waiting) (other : Nat)
    {step : Inlet → Channel → Signal → α × Inlet × Channel × Signal} (offered : Inlet → List Record)
    (fed : ∀ inlet channel signal, ∃ malformed dropped, (step inlet channel signal).2.1 =
      { inlet with pipe := inlet.pipe.offer (offered inlet), malformed, dropped }) :
    (((host.onInlet other step).map (·.2)).getD host).Waits number (waiting ++
      if other = number then
        (host.inlets[number]?.map fun inlet => inlet.pipe.accepted (offered inlet)).getD []
      else []) := by
  rw [onInlet]
  cases there : host.inlets[other]? with
  | none =>
    have nothing : (if other = number then
        (host.inlets[number]?.map fun inlet => inlet.pipe.accepted (offered inlet)).getD []
        else []) = [] := by
      split
      · rename_i same
        rw [← same, there]
        rfl
      · rfl
    rw [nothing, List.append_nil]
    exact waits
  | some inlet =>
    obtain ⟨bound, -⟩ := List.getElem?_eq_some_iff.mp there
    obtain ⟨_, _, changed⟩ := fed inlet (host.hub.channel inlet.sender) host.inbound
    show ((host.inlets.set other
      (step inlet (host.hub.channel inlet.sender) host.inbound).2.1)[number]?).elim _ _
    rw [changed]
    by_cases same : other = number
    · subst same
      rw [Waits, there] at waits
      rw [List.getElem?_set_self bound, if_pos rfl, there]
      exact Pipe.Holds.offer waits (offered inlet)
    · rw [List.getElem?_set_ne same, if_neg same, List.append_nil]
      exact waits

omit [Behaviour μ] in
theorem Waits.opened {waiting : List Record} {after : Host μ} {destination : Destination} {mode : UnrollMode}
    (waits : host.Waits number waiting)
    (opened : after.inlets = host.inlets ++ [host.nextInlet destination mode]) :
    after.Waits number waiting := by
  rw [Waits, opened]
  rw [Waits] at waits
  cases there : host.inlets[number]? with
  | some inlet =>
    obtain ⟨bound, -⟩ := List.getElem?_eq_some_iff.mp there
    rw [there] at waits
    rw [List.getElem?_append_left bound, there]
    exact waits
  | none =>
    rw [there] at waits
    rw [List.getElem?_append_right (List.getElem?_eq_none_iff.mp there)]
    rcases number - host.inlets.length with _ | beyond
    · rw [show waiting = [] from waits]
      exact Pipe.holds_new host.settings.pipeCapacity host.settings.maxPayload
    · exact waits

/-- Whether an operation has nothing to do with the records of the inlets and their signal. -/
def Operation.isQuiet : Operation μ → Bool
  | send .. | sendFrames .. | takeWake | process .. => false
  | _ => true

/-- A quiet operation opens an inlet at most. -/
theorem perform_quiet (host : Host μ) {operation : Operation μ} (quiet : operation.isQuiet = true) :
    (host.perform operation).2.inbound = host.inbound ∧
      ((host.perform operation).2.inlets = host.inlets ∨ ∃ destination mode,
        (host.perform operation).2.inlets = host.inlets ++ [host.nextInlet destination mode]) := by
  have wired {after : Host μ} (wired : host.Wired after) :
      after.inbound = host.inbound ∧ (after.inlets = host.inlets ∨ ∃ destination mode,
        after.inlets = host.inlets ++ [host.nextInlet destination mode]) := by
    obtain ⟨_, _, rfl⟩ := wired
    exact ⟨rfl, .inl rfl⟩
  have tended {after : Host μ} (tended : host.Tended after) :
      after.inbound = host.inbound ∧ (after.inlets = host.inlets ∨ ∃ destination mode,
        after.inlets = host.inlets ++ [host.nextInlet destination mode]) := by
    obtain ⟨_, _, _, _, _, _, rfl⟩ := tended
    exact ⟨rfl, .inl rfl⟩
  cases operation with
  | send | sendFrames | takeWake | process => cases quiet
  | addInlet destination mode => exact ⟨rfl, .inr ⟨destination, mode, rfl⟩⟩
  | removeModule id =>
    rw [perform, removeModule]
    split <;> exact ⟨rfl, .inl rfl⟩
  | addChild parent module => exact wired (addChild_wired host parent module)
  | connect parent child => exact wired (connect_wired host parent child)
  | upkeep now reading => exact tended (upkeepByHand_tended host now reading)
  | forceResync now => exact tended (forceResync_tended host now)
  | start => exact tended (start_tended host)
  | attend now reading => exact tended (attend_tended host now reading)
  | stop now reading => exact tended (stop_tended host now reading)
  | _ => exact ⟨rfl, .inl rfl⟩

theorem perform_waits {waiting : List Record} (waits : host.Waits number waiting) {operation : Operation μ}
    (plain : ∀ mediaMicros frames, operation ≠ .process mediaMicros frames) :
    (host.perform operation).2.Waits number (waiting ++ host.written number operation) := by
  have kept {after : Host μ} (same : after.inlets = host.inlets) : after.Waits number (waiting ++ []) := by
    rw [Waits, same, List.append_nil]
    exact waits
  have quiet {operation : Operation μ} (quiet : operation.isQuiet = true) :
      (host.perform operation).2.Waits number (waiting ++ []) := by
    obtain ⟨-, same | ⟨_, _, opened⟩⟩ := host.perform_quiet quiet
    · exact kept same
    · rw [List.append_nil]
      exact waits.opened opened
  cases operation with
  | process mediaMicros frames => exact absurd rfl (plain mediaMicros frames)
  | send other packet =>
    rw [perform, send, Option.map_map]
    exact waits.offer other (·.records host.clocks packet) fun inlet channel signal =>
      inlet.inject_offer host.clocks packet channel signal
  | sendFrames other decoder =>
    rw [perform, sendFrames, Option.map_map]
    exact waits.offer other (fun inlet => decoder.drain.1.flatMap (inlet.records host.clocks))
      fun inlet channel signal => inlet.injectFrames_offer host.clocks decoder channel signal
  | takeWake => exact kept rfl
  | _ => exact quiet rfl

theorem process_unopened (absent : host.inlets[number]? = none) (mediaMicros frames : UInt64) :
    (host.process mediaMicros frames).2.2.inlets[number]? = none := by
  have inlets : (host.process mediaMicros frames).2.2.inlets = (host.served mediaMicros frames).1 := rfl
  rw [List.getElem?_eq_none_iff] at absent ⊢
  rw [inlets, served, Desk.length_serveInlets]
  exact absent

theorem map_record (boarded lost : List Record) (fates : List Fate) :
    (boarded.map Fate.boarded ++ lost.map Fate.lost ++ fates).map Fate.record =
      boarded ++ lost ++ fates.map Fate.record := by
  have first : Fate.record ∘ Fate.boarded = id := rfl
  have second : Fate.record ∘ Fate.lost = id := rfl
  rw [List.map_append, List.map_append, List.map_map, List.map_map, first, second, List.map_id, List.map_id]

theorem run_settles (sound : host.stock.Sound settings) (operations : List (Operation μ))
    {waiting : List Record} (waits : host.Waits number waiting) :
    ∃ fates left, host.Settles number operations fates ∧
      waiting ++ host.allWritten number operations = fates.map Fate.record ++ left ∧
      (host.run operations).2.Waits number left := by
  induction operations generalizing host waiting with
  | nil => exact ⟨[], waiting, .nil, List.append_nil _, waits⟩
  | cons operation operations ih =>
    have kept := perform_sound sound operation
    by_cases idle : ∀ mediaMicros frames, operation ≠ .process mediaMicros frames
    · obtain ⟨fates, left, settles, balance, later⟩ := ih kept (perform_waits waits idle)
      refine ⟨fates, left, .other (.inr idle) settles, ?_, later⟩
      rw [← balance, allWritten, List.append_assoc]
    · simp only [ne_eq, not_forall, not_not] at idle
      obtain ⟨mediaMicros, frames, rfl⟩ := idle
      rw [Waits] at waits
      cases there : host.inlets[number]? with
      | none =>
        rw [there] at waits
        have still : (host.process mediaMicros frames).2.2.Waits number waiting := by
          rw [Waits, process_unopened there]
          exact waits
        obtain ⟨fates, left, settles, balance, later⟩ := ih kept still
        exact ⟨fates, left, .other (.inl there) settles, balance, later⟩
      | some inlet =>
        rw [there] at waits
        obtain ⟨bytes, limit, short⟩ : inlet.pipe.Holds waiting := waits
        have whole : inlet.pipe.bytes = waiting.flatMap Record.encode ++ [] := by
          rw [bytes, List.append_nil]
        obtain ⟨boarded, lost, left, after, rfl, turn, -, -, inlets, -, -⟩ :=
          passes sound there whole short rfl mediaMicros frames
        have still : (host.process mediaMicros frames).2.2.Waits number left := by
          rw [Waits, inlets]
          exact ⟨List.append_nil _, limit, fun r member => short r (List.mem_append_right _ member)⟩
        obtain ⟨fates, last, settles, balance, later⟩ := ih kept still
        refine ⟨_, last, .turn there bytes turn settles, ?_, later⟩
        rw [map_record, List.append_assoc _ _ last, ← balance, List.append_assoc _ left]
        rfl

/-- At any time in a run, whatever the inlets hold: the whole records in front of a pipe board in order when
its turn comes, until all have boarded, or the pool has no buffer, or the queue is full. So over the run every
record that was written to an inlet has boarded once, in order, or was lost to a full queue and reported, or
still waits. -/
theorem run_passage (settings : Settings) (sampleRate : Float) (period : UInt64) (now : Nat)
    (reading : ClockPair) (operations : List (Operation μ)) :
    let start : Host μ := initial settings sampleRate period now reading
    let host := (start.run operations).2
    (∀ (inlets : List Inlet) (mediaMicros frames : UInt64) (number : Nat) (inlet : Inlet)
        (records : List Record) (tail : List UInt8), inlets[number]? = some inlet →
        inlet.pipe.bytes = records.flatMap Record.encode ++ tail →
        (∀ r ∈ records, r.payload.length < UInt32.size) → Record.split? tail = none →
          { host with inlets }.Passes mediaMicros frames number inlet records tail) ∧
      ∀ number inlet, host.inlets[number]? = some inlet →
        ∃ fates waiting, start.Settles number operations fates ∧
          start.allWritten number operations = fates.map Fate.record ++ waiting ∧
          inlet.pipe.bytes = waiting.flatMap Record.encode := by
  intro start host
  have initially : start.stock.Sound settings := initial_sound settings sampleRate period now reading
  have sound : host.stock.Sound settings := run_sound initially operations
  constructor
  · intro inlets mediaMicros frames number inlet records tail there bytes short stuck
    have kept : { host with inlets }.stock.Sound settings := sound
    exact passes kept there bytes short stuck mediaMicros frames
  · intro number inlet there
    have none : start.Waits number [] := rfl
    obtain ⟨fates, waiting, settles, balance, waits⟩ := run_settles initially operations none
    rw [Waits, there] at waits
    exact ⟨fates, waiting, settles, balance, Pipe.Holds.bytes waits⟩

/-- Three records and a queue for one event: the first boards, the second is lost, the third waits. -/
theorem run_passage_full :
    let settings : Settings :=
      { queueCapacity := 1, maxPayload := 8, poolClasses := [8], poolPreallocate := 2,
        poolLowWatermark := 0 }
    let start : Host Sequencer := initial settings 48000 256 0 { mediaMicros := 0, wall := ⟨0⟩ }
    let message (letter : UInt8) := [0x2F, letter, 0, 0, 0x2C, 0, 0, 0]
    let packet := bundleTag ++ bigEndian 8 1 ++ bigEndian 4 8 ++ message 0x61 ++ bigEndian 4 8 ++
      message 0x62 ++ bigEndian 4 8 ++ message 0x63
    let operations := [.addInlet (.module ⟨3⟩) .full, .send 0 packet]
    let host := (start.run operations).2
    let record (letter : UInt8) : Record := ⟨.module ⟨3⟩, 0, message letter⟩
    let records := [record 0x61, record 0x62, record 0x63]
    let inlet := host.inlets[0]?.getD default
    host.inlets[0]? = some inlet ∧ inlet.pipe.bytes = records.flatMap Record.encode ++ [] ∧
      (∀ r ∈ records, r.payload.length < UInt32.size) ∧ Record.split? [] = none ∧
      host.Passes 0 16 0 inlet records [] ∧
      (host.process 0 16).2.2.inlets.map (·.pipe.bytes) = [(record 0x63).encode] ∧
      start.allWritten 0 operations = records ∧
      ∃ fates waiting, start.Settles 0 operations fates ∧ records = fates.map Fate.record ++ waiting := by
  intro settings start message packet operations host record records inlet
  have there : host.inlets[0]? = some inlet := by decide +kernel
  have bytes : inlet.pipe.bytes = records.flatMap Record.encode ++ [] := by decide +kernel
  have short : ∀ r ∈ records, r.payload.length < UInt32.size := by decide +kernel
  have written : start.allWritten 0 operations = records := by decide +kernel
  obtain ⟨turns, settled⟩ := run_passage settings 48000 256 0 { mediaMicros := 0, wall := ⟨0⟩ } operations
  obtain ⟨fates, waiting, settles, balance, -⟩ := settled 0 inlet there
  rw [written] at balance
  have turn := turns host.inlets 0 16 0 inlet records [] there bytes short rfl
  have same (host : Host Sequencer) {inlets : List Inlet} (kept : inlets = host.inlets) :
      { host with inlets } = host := by
    rw [kept]
  rw [same host rfl] at turn
  exact ⟨there, bytes, short, rfl, turn, by decide +kernel, written, fates, waiting, settles, balance⟩

end Host

end OscHost
