import OscHost.Host.Sequencer
import OscHost.Proofs.Host.Session
import OscHost.Proofs.Schedule.Periods
import OscHost.Proofs.Schedule.Reports

/-!
# Replaying a session

A session is replayed by a fresh host whose modules stay silent (`Host.Fresh`, `Host.Silent`). Its records,
scheduled as broadcasts, are pending in their order (`Filed.inOrder`). Whatever periods follow, what was shown
and what is still pending make up the session, nothing that is pending lies behind the frame counter, and
nothing is reported (`Host.Replaying`). So once the queue is empty the session was shown again
(`Host.run_replayed`).
-/

namespace OscHost

/-! ### Scheduling in order -/

theorem Event.insertInto_last {event : Event} {events : List Event}
    (last : ∀ other ∈ events, other.time ≤ event.time) : event.insertInto events = events ++ [event] := by
  have pass : ∀ other ∈ events, decide (other.time ≤ event.time) = true :=
    fun other member => decide_eq_true (last other member)
  rw [insertInto, List.takeWhile_eq_self_iff.mpr pass, List.dropWhile_eq_nil_iff.mpr pass]

/-- What is not behind the start of a period is dispatched as it is, and not reported. -/
theorem Event.clamped_ahead {current : UInt64} {events : List Event}
    (ahead : ∀ event ∈ events, current ≤ event.time) :
    events.map (·.clamped current) = events ∧ events.filterMap (·.report? current) = [] := by
  constructor
  · refine (List.map_congr_left fun event member => ?_).trans events.map_id
    rw [clamped]
    split
    · rename_i first
      have start := ahead event member
      have immediate := first.resolve_right (UInt64.not_lt.mpr start)
      rw [immediate] at start
      rw [UInt64.le_zero_iff.mp start, ← immediate]
      rfl
    · rfl
  · refine List.filterMap_eq_nil_iff.mpr fun event member => if_neg fun late => ?_
    exact UInt64.not_lt.mpr (ahead event member) late.2

/-- What a period leaves is not behind its end. A period that comes to the last frame of all leaves nothing. -/
theorem Event.left_ahead (current period : UInt64) {events : List Event}
    (sorted : (events.map (·.time)).Pairwise (· ≤ ·))
    (early : ∀ event ∈ events, event.time.toNat < UInt64.size - 1) :
    (∀ event ∈ events.dropWhile (isDue current period), current + period ≤ event.time) ∧
      (events.dropWhile (isDue current period) = [] ∨
        (current + period).toNat = current.toNat + period.toNat) := by
  by_cases bounded : current.toNat + period.toNat < UInt64.size
  · exact ⟨fun event member => le_of_mem_dropWhile sorted bounded member, .inr (toNat_add_of_lt bounded)⟩
  · have nothing : events.dropWhile (isDue current period) = [] := by
      refine List.dropWhile_eq_nil_iff.mpr fun event member => ?_
      have before := early event member
      rw [isDue, decide_eq_true_eq]
      omega
    rw [nothing]
    exact ⟨List.forall_mem_nil _, .inl rfl⟩

theorem Queue.Sound.size_eq {q : Queue} (sound : q.Sound) : q.size = q.toList.length := by
  obtain ⟨agenda, keeps, -⟩ := sound
  rw [keeps.count_eq, keeps.toList, List.length_map]

/-- A record as an item that is to be filed. -/
def LogRecord.item (r : LogRecord) : Item := { time := r.time, bytes := r.message }

theorem Filed.inOrder {destination : Destination} {records : List LogRecord} {queue after : Queue}
    {pool rest : Pool} (filed : Filed destination (records.map LogRecord.item) queue pool after rest)
    (sound : queue.Sound)
    (ordered : (queue.toList.map (·.time) ++ records.map (·.time)).Pairwise (· ≤ ·)) :
    after.Sound ∧ after.toList.map Event.logged = queue.toList.map Event.logged ++ records := by
  induction records generalizing queue pool with
  | nil =>
    cases filed
    exact ⟨sound, (List.append_nil _).symm⟩
  | cons r records ih =>
    cases filed with
    | @cons _ _ _ between _ _ left _ buffer handle supplied stored others =>
      have kept := (Queue.becomes_schedule stored).sound sound
      -- No pending event is due later, so the first record goes behind all of them.
      have last : ∀ other ∈ queue.toList, other.time ≤ r.time := fun other member =>
        (List.pairwise_append.mp ordered).2.2 _ (List.mem_map_of_mem member) _ List.mem_cons_self
      have pending := sound.toList_schedule stored
      rw [Event.insertInto_last last] at pending
      have carried : Event.logged ⟨destination, r.item.time, buffer.fill r.item.bytes⟩ = r := by
        rw [Event.logged, Event.bytes, Pool.bytes_filled supplied]
        rfl
      have onwards := ih others kept (by
        rw [pending, List.map_append, List.append_assoc]
        exact ordered)
      rw [pending, List.map_append, List.append_assoc] at onwards
      refine ⟨onwards.1, onwards.2.trans ?_⟩
      rw [List.map_singleton]
      exact congrArg (fun first => _ ++ ([first] ++ records)) carried

namespace Host

/-- A record is replayed as a broadcast. -/
def Operation.replay (r : LogRecord) : Operation μ := .schedule .broadcast r.time r.message

theorem run_filed [Behaviour μ] {host : Host μ} {records : List LogRecord} {after : Queue} {rest : Pool}
    (filed : Filed .broadcast (records.map LogRecord.item) host.queue host.pool after rest) :
    host.run (records.map .replay) = ([], { host with queue := after, pool := rest }) := by
  induction records generalizing host with
  | nil =>
    cases filed
    rfl
  | cons r records ih =>
    cases filed with
    | @cons _ _ _ between _ _ left _ buffer handle supplied stored others =>
      have first : (host.schedule .broadcast r.time r.message).2 =
          { host with queue := between, pool := left } := by
        have scheduled : host.desk.schedule .broadcast r.time r.message = _ :=
          Desk.schedule_filed supplied stored
        rw [schedule, onDesk, scheduled]
        dsimp only [withDesk, desk]
        rw [Hub.withChannel_channel]
      have onwards := @ih { host with queue := between, pool := left } others
      rw [List.map_cons, run, Operation.replay, perform, first]
      dsimp only
      rw [onwards]
      rfl

end Host

/-! ### Silent modules -/

/-- Modules with the property ask for nothing, and they keep it whatever happens to them. -/
structure StaysSilent [Behaviour μ] (P : μ → Prop) : Prop where
  asks : ∀ (turn : Turn) period module, P module → (turn.requests period module).1 = []
  turns : ∀ (turn : Turn) period module, P module → P (turn.requests period module).2
  deliveries : ∀ time payload module, P module → P (Behaviour.deliver time payload module)

section

variable [Behaviour μ] {P : μ → Prop}

theorem staysSilent_muted : StaysSilent fun s : Sequencer => s.muted = true := by
  refine ⟨fun turn period s muted => ?_, fun turn period s muted => ?_, fun _ _ _ muted => muted⟩
  · cases turn <;> exact if_pos muted
  · cases turn <;> exact muted

theorem StaysSilent.runTurn (stays : StaysSilent P) (turn : Turn) (clocks : Clocks) (frame frames : UInt64)
    (number : Nat) {modules : List (Option μ)} (desk : Desk)
    (silent : ∀ module, some module ∈ modules → P module) :
    ∀ module, some module ∈ (OscHost.runTurn turn clocks frame frames number modules desk).2.1 → P module := by
  induction modules generalizing number desk with
  | nil => exact silent
  | cons first modules ih =>
    have onwards := fun number desk => ih number desk fun module member =>
      silent module (List.mem_cons_of_mem _ member)
    intro module member
    cases first with
    | none =>
      rcases List.mem_cons.mp member with same | member
      · cases same
      · exact onwards _ _ module member
    | some first =>
      rcases List.mem_cons.mp member with same | member
      · cases same
        exact stays.turns turn _ first (silent first List.mem_cons_self)
      · exact onwards _ _ module member

theorem StaysSilent.deliverAll (stays : StaysSilent P) (event : Event) (targets : List ModuleId)
    {modules : List (Option μ)} (silent : ∀ module, some module ∈ modules → P module) :
    ∀ module, some module ∈ (Host.deliverAll event targets modules).2 → P module := by
  fun_induction Host.deliverAll event targets modules with
  | case1 => exact silent
  | case2 _ _ _ _ ih => exact ih silent
  | case3 id rest modules module there changed calls after delivered ih =>
    rw [delivered] at ih
    refine ih fun other member => ?_
    rcases List.mem_or_eq_of_mem_set member with member | same
    · exact silent other member
    · cases same
      have present := List.mem_of_getElem? (Option.join_eq_some_iff.mp there)
      exact stays.deliveries _ _ module (silent module present)

theorem StaysSilent.dispatchAll (stays : StaysSilent P) (routing : Routing) (events : List Event)
    {modules : List (Option μ)} (silent : ∀ module, some module ∈ modules → P module) :
    ∀ module, some module ∈ (Host.dispatchAll routing events modules).2 → P module := by
  induction events generalizing modules with
  | nil => exact silent
  | cons event events ih => exact ih (stays.deliverAll event _ silent)

end

namespace Host

variable [Behaviour μ] {host : Host μ} {records shown : List LogRecord} {hub : Hub}

/-- No module ever asks for anything. -/
def Silent (host : Host μ) : Prop :=
  ∃ P : μ → Prop, StaysSilent P ∧ ∀ module, some module ∈ host.modules → P module

/-- Where no module asks for anything and no inlet has anything to move, a period dispatches what is due and
reports what is late. -/
theorem process_silent (silent : host.Silent) (idle : ∀ inlet ∈ host.inlets, inlet.pipe.bytes = [])
    (mediaMicros frames : UInt64) :
    let drained := host.queue.drain host.frame frames
    let after := (host.process mediaMicros frames).2.2
    Call.dispatched (host.process mediaMicros frames).2.1 = drained.1.events ∧ after.queue = drained.2 ∧
      after.hub = host.hub.withChannel cycleSender
        ((host.hub.channel cycleSender).sendAll (drained.1.reports host.frame)) ∧
      after.frame = host.frame + frames ∧ after.inlets = host.inlets ∧ after.Silent := by
  intro drained after
  obtain ⟨P, stays, modules⟩ := silent
  have quiet : host.Quiet := fun module member period => stays.asks .input period module (modules module member)
  have drains : host.due mediaMicros frames = host.desk.drain host.frame frames := by
    rw [due, collected_idle quiet idle]
  have kept : ∀ module, some module ∈ (host.dispatchTurn mediaMicros frames).2 → P module :=
    stays.dispatchAll host.routing _ (stays.runTurn _ _ _ _ _ _ modules)
  have settled : (host.outputTurn mediaMicros frames).2.2 =
      (host.due mediaMicros frames).2.releaseAll (host.due mediaMicros frames).1 :=
    runTurn_quiet _ _ _ _ _ fun module member period => stays.asks .output period module (kept module member)
  have whole : after = _ := congrArg (·.2.2) (host.process_stages mediaMicros frames)
  dsimp only at whole
  rw [settled, drains] at whole
  rw [whole]
  refine ⟨?_, rfl, rfl, rfl, ?_, P, stays, ?_⟩
  · rw [process_dispatched, collected_idle quiet idle]
    rfl
  · exact Desk.inlets_serveInlets _ host.inbound idle
  · exact stays.runTurn _ _ _ _ _ _ kept

/-! ### The periods of a replay -/

/-- How far a replay has come: what was shown and what is still pending make up the records. -/
structure Replaying (records : List LogRecord) (hub : Hub) (shown : List LogRecord) (host : Host μ) : Prop where
  silent : host.Silent
  idle : ∀ inlet ∈ host.inlets, inlet.pipe.bytes = []
  sound : host.queue.Sound
  whole : shown ++ host.queue.toList.map Event.logged = records
  ahead : ∀ event ∈ host.queue.toList, host.frame ≤ event.time
  unreported : host.hub = hub

theorem Replaying.process (replaying : host.Replaying records hub shown)
    (early : ∀ r ∈ records, r.time.toNat < UInt64.size - 1) (mediaMicros frames : UInt64) :
    let period := host.process mediaMicros frames
    period.2.2.Replaying records hub (shown ++ Call.shown period.2.1) ∧
      (period.2.2.queue.toList = [] ∨ period.2.2.frame.toNat = host.frame.toNat + frames.toNat) := by
  intro period
  obtain ⟨silent, idle, sound, whole, ahead, unreported⟩ := replaying
  obtain ⟨dispatched, queue, reported, frame, inlets, stays⟩ := process_silent silent idle mediaMicros frames
  obtain ⟨events, reports, rest⟩ := sound.toList_drain host.frame frames
  have later : ∀ event ∈ host.queue.toList.takeWhile (·.isDue host.frame frames),
      host.frame ≤ event.time := fun event member =>
    ahead event ((List.takeWhile_sublist _).subset member)
  obtain ⟨asScheduled, onTime⟩ := Event.clamped_ahead later
  have pending : ∀ event ∈ host.queue.toList, event.time.toNat < UInt64.size - 1 := fun event member =>
    early event.logged (whole ▸ List.mem_append_right _ (List.mem_map_of_mem member))
  obtain ⟨onwards, moved⟩ := Event.left_ahead host.frame frames sound.sorted pending
  rw [asScheduled] at events
  rw [onTime] at reports
  rw [← queue] at rest
  rw [← rest, ← frame] at onwards moved
  refine ⟨⟨stays, ?_, ?_, ?_, onwards, ?_⟩, moved⟩
  · rw [inlets]
    exact idle
  · rw [queue]
    exact (host.queue.becomes_drain host.frame frames).sound sound
  · rw [Call.shown, dispatched, events, rest, List.append_assoc, ← List.map_append,
      List.takeWhile_append_dropWhile]
    exact whole
  · rw [reported, reports, ← unreported]
    exact host.hub.withChannel_channel cycleSender

theorem Replaying.run (replaying : host.Replaying records hub shown)
    (early : ∀ r ∈ records, r.time.toNat < UInt64.size - 1) (periods : List (UInt64 × UInt64)) :
    let after := host.run (periods.map fun period => .process period.1 period.2)
    after.2.Replaying records hub (shown ++ Call.shown after.1) ∧
      (after.2.queue.toList = [] ∨
        after.2.frame.toNat = host.frame.toNat + total (periods.map (·.2.toNat))) := by
  induction periods generalizing host shown with
  | nil =>
    refine ⟨?_, .inr rfl⟩
    rw [show Call.shown _ = [] from rfl, List.append_nil]
    exact replaying
  | cons period periods ih =>
    obtain ⟨next, moved⟩ := replaying.process early period.1 period.2
    obtain ⟨final, ahead⟩ := ih next
    have rest := final.whole
    rw [List.append_assoc, ← Call.shown_append] at final
    refine ⟨final, ?_⟩
    rcases moved with empty | moved
    · -- All was shown by then, so there is nothing left to be pending.
      have all := next.whole
      rw [empty, List.map_nil, List.append_nil] at all
      rw [all, List.append_assoc, List.append_right_eq_self, List.append_eq_nil_iff] at rest
      exact .inl (List.map_eq_nil_iff.mp rest.2)
    · refine ahead.imp_right fun ahead => ahead.trans ?_
      rw [moved, List.map_cons, total, Nat.add_assoc]

/-! ### A fresh host -/

/-- A host with valid settings that no period has run on, and with nothing in its queue and its pipes. -/
structure Fresh (host : Host μ) : Prop where
  valid : host.settings.error? = none
  frame : host.frame = 0
  queue : host.queue = .ofCapacity host.settings.queueCapacity
  pool : host.pool = .ofSettings host.settings
  idle : ∀ inlet ∈ host.inlets, inlet.pipe.bytes = []

omit [Behaviour μ] in
theorem initial_fresh {settings : Settings} (valid : settings.error? = none) (sampleRate : Float)
    (period : UInt64) (now : Nat) (reading : ClockPair) :
    (initial settings sampleRate period now reading : Host μ).Fresh :=
  ⟨valid, rfl, rfl, rfl, List.forall_mem_nil _⟩

omit [Behaviour μ] in
theorem Fresh.addModule (fresh : host.Fresh) (module : μ) : (host.addModule module).2.Fresh :=
  ⟨fresh.valid, fresh.frame, fresh.queue, fresh.pool, fresh.idle⟩

/-- Slots in the queue and buffers in the pool of a fresh host for all of the records. -/
structure Accommodates (host : Host μ) (records : List LogRecord) : Prop where
  slots : records.length ≤ host.settings.queueCapacity
  short : ∀ r ∈ records, r.message.length ≤ host.settings.maxPayload
  buffers : ∀ size ∈ host.settings.poolClasses,
    host.settings.demand (records.map LogRecord.item) size ≤ host.settings.poolPreallocate

/-- A fresh host with the records scheduled, after the first of a sequence of periods. Each period is given by
its media time and its frames. -/
def replay (host : Host μ) (records : List LogRecord) (periods : Nat → UInt64 × UInt64) (count : Nat) :
    List Call × Host μ :=
  host.run (records.map .replay ++
    (List.range count).map fun place => .process (periods place).1 (periods place).2)

/-- The periods of a replay leave the queue empty at last, and then the records were shown again. Nothing is
ever reported. -/
structure Reproduces (host : Host μ) (records : List LogRecord) (periods : Nat → UInt64 × UInt64) : Prop where
  finishes : ∃ count, (host.replay records periods count).2.pendingEvents = 0
  shown : ∀ count, (host.replay records periods count).2.pendingEvents = 0 →
    Call.shown (host.replay records periods count).1 = records
  unreported : ∀ count, (host.replay records periods count).2.hub = host.hub

theorem filled_replaying (fresh : host.Fresh) (silent : host.Silent) (room : host.Accommodates records)
    (ordered : (records.map (·.time)).Pairwise (· ≤ ·)) :
    ∃ loaded, host.run (records.map .replay) = ([], loaded) ∧ loaded.Replaying records host.hub [] := by
  obtain ⟨valid, frame, queue, pool, idle⟩ := fresh
  obtain ⟨slots, short, buffers⟩ := room
  have fits := Settings.fits_of_valid valid
  have sound : host.queue.Sound := by
    rw [queue]
    exact Queue.sound_ofCapacity _
  have conforms : host.pool.Conforms host.settings := by
    rw [pool]
    exact Pool.conforms_ofSettings _
  have none : host.queue.toList = [] := by
    rw [queue]
    exact Queue.toList_nil rfl
  have stored : ∀ size ∈ host.settings.poolClasses,
      host.settings.demand (records.map LogRecord.item) size ≤ host.pool.stored size := by
    intro size known
    rw [pool, Pool.stored_ofSettings]
    exact Nat.le_trans (buffers size known) (Nat.le_mul_of_pos_left _ (List.count_pos_iff.mpr known))
  have room : host.queue.size + (records.map LogRecord.item).length ≤ host.queue.capacity := by
    have capacity : host.queue.capacity = min host.settings.queueCapacity (UInt32.size - 2) := by
      rw [queue]
      simp [Queue.capacity, Queue.ofCapacity]
    have size : host.queue.size = 0 := by rw [queue]; rfl
    rw [capacity, size, List.length_map, Nat.min_eq_left fits.slots]
    omega
  obtain ⟨after, rest, filed⟩ := filed_of_room fits conforms sound
    (List.forall_mem_map.mpr short) stored room
  obtain ⟨kept, pending⟩ := filed.inOrder sound (by rw [none]; exact ordered)
  refine ⟨_, run_filed filed, silent, idle, kept, ?_, ?_, rfl⟩
  · rw [List.nil_append, pending, none, List.map_nil, List.nil_append]
  · intro event _
    show host.frame ≤ event.time
    rw [frame]
    exact UInt64.zero_le

omit [Behaviour μ] in
/-- A queue has too few slots for a session that lasts up to the last frame of all. -/
theorem Accommodates.early (room : host.Accommodates records) (fresh : host.Fresh)
    (near : LogRecord.Near 0 records)
    (ordered : (0 :: records.map (·.time)).Pairwise (· ≤ ·)) :
    ∀ r ∈ records, r.time.toNat < UInt64.size - 1 := by
  intro r member
  have last := UInt64.le_iff_toNat_le.mp ((LogRecord.le_lastTime ordered).2 r member)
  have reach := LogRecord.lastTime_near near
  have slots := Nat.le_trans room.slots (Settings.fits_of_valid fresh.valid).slots
  have span : records.length * (UInt32.size - 1) ≤ (UInt32.size - 2) * (UInt32.size - 1) :=
    Nat.mul_le_mul_right _ slots
  have origin : (0 : UInt64).toNat + (UInt32.size - 2) * (UInt32.size - 1) < UInt64.size - 1 := by decide
  omega

theorem Fresh.reproduces (fresh : host.Fresh) (silent : host.Silent) (room : host.Accommodates records)
    (near : LogRecord.Near 0 records) (ordered : (0 :: records.map (·.time)).Pairwise (· ≤ ·))
    {periods : Nat → UInt64 × UInt64} (positive : ∀ place, 0 < (periods place).2) :
    host.Reproduces records periods := by
  obtain ⟨loaded, filled, replaying⟩ := filled_replaying fresh silent room (List.Pairwise.of_cons ordered)
  have early := room.early fresh near ordered
  have reached (count : Nat) :
      let after := host.replay records periods count
      after.2.Replaying records host.hub (Call.shown after.1) ∧
        (after.2.queue.toList = [] ∨ count ≤ after.2.frame.toNat) := by
    obtain ⟨final, ahead⟩ := replaying.run early ((List.range count).map periods)
    have whole : host.replay records periods count =
        loaded.run (((List.range count).map periods).map fun period => .process period.1 period.2) := by
      rw [replay, run_append, filled, List.map_map]
      rfl
    have frames : count ≤ total (((List.range count).map periods).map (·.2.toNat)) := by
      refine Nat.le_trans ?_ (length_le_total fun size member => ?_)
      · rw [List.length_map, List.length_map, List.length_range]
      · obtain ⟨period, present, rfl⟩ := List.mem_map.mp member
        obtain ⟨place, -, rfl⟩ := List.mem_map.mp present
        exact UInt64.lt_iff_toNat_lt.mp (positive place)
    rw [whole]
    exact ⟨final, ahead.imp_right fun ahead => by omega⟩
  refine ⟨⟨UInt64.size, ?_⟩, fun count empty => ?_, fun count => (reached count).1.unreported⟩
  · obtain ⟨final, ahead⟩ := reached UInt64.size
    rcases ahead with empty | beyond
    · exact final.sound.size_eq.trans (congrArg List.length empty)
    · exact absurd (UInt64.toNat_lt_size _) (Nat.not_lt.mpr beyond)
  · have all := (reached count).1.whole
    rw [Queue.toList_nil empty, List.map_nil, List.append_nil] at all
    exact all

/-- A session of messages with gaps of less than 2³² frames, counted from frame 0, is recorded without a
failure and read back as it was, and a fresh host with room for it, whose modules are silent, shows it again
whatever the sizes of its periods. -/
theorem run_replayed {ν : Type} [Behaviour ν] (settings : Settings) (sampleRate : Float) (period : UInt64)
    (now : Nat) (reading : ClockPair) (valid : settings.error? = none) (operations : List (Operation μ))
    (bounded : total (operations.map Operation.frames) < UInt64.size) (logRate : UInt32) :
    let start : Host μ := initial settings sampleRate period now reading
    let session := Call.shown (start.run operations).1
    (∀ r ∈ session, ∃ m, Message.parse r.message = .ok m) → LogRecord.Near 0 session →
      ∃ writer sink after, LogWriter.create {} logRate = (.ok writer, sink) ∧
        writer.writeAll session = (session, after) ∧
        ∀ (source : Source) (limit : Nat), source.broken = false → source.content = after.sink.stored →
          (∀ r ∈ session, r.message.length ≤ limit) →
            ∃ reader, LogReader.openSource source = .ok reader ∧ reader.sampleRate = logRate ∧
              { reader with maxRecord := limit }.items = session.map .ok ∧
              ∀ (fresh : Host ν) (periods : Nat → UInt64 × UInt64), fresh.Fresh → fresh.Silent →
                fresh.Accommodates session → (∀ place, 0 < (periods place).2) →
                  fresh.Reproduces session periods := by
  intro start session parsed near
  have sound : start.stock.Sound settings := initial_sound settings sampleRate period now reading
  have nothing : start.queue.Short settings.maxPayload := fun event member => by
    rw [show start.queue.toList = [] from Queue.toList_nil rfl] at member
    cases member
  have origin : start.frame.toNat = 0 := rfl
  have order := (run_advances sound.queue operations (by rw [origin, Nat.zero_add]; exact bounded)).order
  have ordered : (0 :: session.map (·.time)).Pairwise (· ≤ ·) := by
    refine List.pairwise_cons.mpr ⟨fun _ _ => UInt64.zero_le, ?_⟩
    have times : session.map (·.time) = (Call.dispatched (start.run operations).1).map (·.time) :=
      List.map_map
    rw [times]
    exact order.sublist (Call.dispatched_times _)
  have word : ∀ r ∈ session, r.message.length < UInt32.size := by
    refine List.forall_mem_map.mpr fun event member => ?_
    exact Nat.lt_of_le_of_lt (run_short sound nothing operations event member)
      (Settings.fits_of_valid valid).payload
  have chain := LogRecord.chain_of_near near ordered parsed word
  let sink : Sink := { stored := logMagic ++ bigEndian 4 logRate.toNat }
  obtain ⟨after, written, stored⟩ := @LogWriter.writeAll_chain { sink } _ rfl chain
  refine ⟨{ sink }, sink, after, rfl, written, fun source limit unbroken content small => ?_⟩
  obtain ⟨reader, opened, rate, items⟩ :=
    LogReader.items_recording unbroken (content.trans stored) chain small
  exact ⟨reader, opened, rate, items, fun fresh periods new silent room positive =>
    new.reproduces silent room near ordered positive⟩

/-- A session in which one event was immediate and two came too late for the second period. Its host had
periods of 256 frames, the host that replays it has periods of 100. -/
theorem run_replayed_session :
    let settings : Settings :=
      { queueCapacity := 4, maxPayload := 8, poolClasses := [8], poolPreallocate := 4,
        poolLowWatermark := 0 }
    let start : Host Sequencer := initial settings 48000 256 0 { mediaMicros := 0, wall := ⟨0⟩ }
    let message (letter : UInt8) : List UInt8 := [0x2F, letter, 0, 0, 0x2C, 0, 0, 0]
    let operations := [.schedule .broadcast 300 (message 0x61),
      .schedule .broadcast immediateFrame (message 0x62), .process 0 256,
      .schedule (.module ⟨3⟩) 20 (message 0x63), .schedule .broadcast 20 (message 0x64), .process 5333 256]
    let session := Call.shown (start.run operations).1
    let muted : Sequencer :=
      { name := "muted", outputs := [⟨.broadcast, 10, "/echo", []⟩], muted := true }
    let fresh := (start.addModule muted).2
    let periods : Nat → UInt64 × UInt64 := fun _ => (0, 100)
    settings.error? = none ∧ total (operations.map Operation.frames) < UInt64.size ∧
      session = [⟨0, message 0x62⟩, ⟨256, message 0x63⟩, ⟨256, message 0x64⟩, ⟨300, message 0x61⟩] ∧
      (∀ r ∈ session, ∃ m, Message.parse r.message = .ok m) ∧ LogRecord.Near 0 session ∧
      fresh.Fresh ∧ fresh.Silent ∧ fresh.Accommodates session ∧ (∀ place, 0 < (periods place).2) ∧
      ∃ writer sink after reader, LogWriter.create {} 48000 = (.ok writer, sink) ∧
        writer.writeAll session = (session, after) ∧
        LogReader.openSource (.ofBytes after.sink.stored 5 none) = .ok reader ∧
        { reader with maxRecord := 8 }.items = session.map .ok ∧ fresh.Reproduces session periods := by
  intro settings start message operations session muted fresh periods
  have valid : settings.error? = none := by decide
  have bounded : total (operations.map Operation.frames) < UInt64.size := by decide
  have shown : session =
      [⟨0, message 0x62⟩, ⟨256, message 0x63⟩, ⟨256, message 0x64⟩, ⟨300, message 0x61⟩] := by
    decide +kernel
  have wellFormed : ∀ r ∈ session, ∃ m, Message.parse r.message = .ok m := by
    have read : ∀ r ∈ session, (Message.parse r.message).isOk = true := by
      rw [shown]
      decide +kernel
    intro r member
    have good := read r member
    cases parsed : Message.parse r.message with
    | ok m => exact ⟨m, rfl⟩
    | error error =>
      rw [parsed] at good
      cases good
  have near : LogRecord.Near 0 session := by
    rw [shown, LogRecord.Near]
    decide
  have small : ∀ r ∈ session, r.message.length ≤ 8 := by
    rw [shown]
    decide
  have new : fresh.Fresh := (initial_fresh valid 48000 256 0 _).addModule muted
  have silent : fresh.Silent := by
    refine ⟨_, staysSilent_muted, fun module member => ?_⟩
    cases List.mem_singleton.mp member
    rfl
  have room : fresh.Accommodates session := by
    rw [shown]
    exact ⟨by decide, by decide, by decide⟩
  have positive : ∀ place, 0 < (periods place).2 := fun _ => by decide
  obtain ⟨writer, sink, after, created, written, reads⟩ :=
    @run_replayed Sequencer _ Sequencer _ settings 48000 256 0 { mediaMicros := 0, wall := ⟨0⟩ } valid operations
      bounded 48000 wellFormed near
  obtain ⟨reader, opened, -, items, replays⟩ :=
    reads (.ofBytes after.sink.stored 5 none) 8 rfl (Source.content_ofBytes _ 4) small
  exact ⟨valid, bounded, shown, wellFormed, near, new, silent, room, positive, writer, sink, after, reader,
    created, written, opened, items, replays fresh periods new silent room positive⟩

end Host

end OscHost
