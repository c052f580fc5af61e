import OscHost.Proofs.Host.Filing

/-!
# Boarding

When an inlet has its turn, the records in its pipe board the queue one after the other (`Desk.Boards`),
and the turn ends in one of three ways (`Desk.Turn`): all of them have boarded; or the pool has no buffer
for the next one, which stays in the pipe with those behind it; or the queue is full, and the next one is
lost and reported, while those behind it stay. Whatever a pipe holds, its transfer is such a turn
(`Desk.transfer_turn`).
-/

namespace OscHost

namespace Desk

/-- Each record in turn is copied into a buffer of the pool and queued. -/
inductive Boards : Desk → List Record → Desk → Prop where
  | nil {desk : Desk} : Boards desk [] desk
  | cons {desk after : Desk} {r : Record} {records : List Record} {buffer : Buffer} {pool : Pool}
      {handle : Handle} {queue : Queue}
      (supplied : desk.pool.alloc r.payload.length = (some buffer, pool))
      (stored : desk.queue.schedule ⟨r.arrived.destination, r.time, buffer.fill r.payload⟩ =
        some (handle, queue))
      (onwards : Boards { desk with queue, pool } records after) : Boards desk (r :: records) after

/-- The turn of an inlet: the records that board, the one that is lost, and those that stay. What is lost and
what stays tells the three ends apart. -/
inductive Turn (desk : Desk) : List Record → List Record → List Record → Desk → Prop where
  | all {boarded : List Record} {after : Desk} (boards : desk.Boards boarded after) :
      desk.Turn boarded [] [] after
  | starved {boarded left : List Record} {r : Record} {between : Desk} {pool : Pool}
      (boards : desk.Boards boarded between)
      (starved : between.pool.alloc r.payload.length = (none, pool)) :
      desk.Turn boarded [] (r :: left) ({ between with pool }.report (.poolExhausted r.payload.length))
  | full {boarded left : List Record} {r : Record} {between : Desk} {buffer : Buffer} {pool : Pool}
      (boards : desk.Boards boarded between)
      (supplied : between.pool.alloc r.payload.length = (some buffer, pool))
      (full : between.queue.size = between.queue.capacity)
      (returned : ∀ size,
        (pool.release (buffer.fill r.payload)).stored size = between.pool.stored size) :
      desk.Turn boarded [r] left
        (({ between with pool }.report (.queueFull r.arrived.destination r.time)).release
          (buffer.fill r.payload))

variable {desk after : Desk} {r : Record} {records boarded lost left : List Record} {settings : Settings}

theorem Boards.pending (boards : desk.Boards records after) (sound : desk.queue.Sound) :
    after.queue.Sound ∧ ∃ events : List Event, events.map Event.record = records.map Record.arrived ∧
      after.queue.toList =
        events.foldl (fun pending event => event.insertInto pending) desk.queue.toList := by
  -- A new event is put behind all that are due no later, which is what the fold does with it.
  induction boards with
  | nil => exact ⟨sound, [], rfl, rfl⟩
  | @cons desk after r records buffer pool handle queue supplied stored onwards ih =>
    have inserted := sound.toList_schedule stored
    obtain ⟨kept, events, carried, pending⟩ := ih (Queue.Becomes.sound (Queue.becomes_schedule stored) sound)
    refine ⟨kept, ⟨r.arrived.destination, r.time, buffer.fill r.payload⟩ :: events, ?_, ?_⟩
    · rw [List.map_cons, List.map_cons, carried, Event.record, Event.bytes, Pool.bytes_filled supplied]
      rfl
    · rw [pending, inserted]
      rfl

theorem Turn.board {buffer : Buffer} {pool : Pool} {handle : Handle} {queue : Queue}
    (supplied : desk.pool.alloc r.payload.length = (some buffer, pool))
    (stored : desk.queue.schedule ⟨r.arrived.destination, r.time, buffer.fill r.payload⟩ =
      some (handle, queue))
    (turn : Turn { desk with queue, pool } boarded lost left after) :
    desk.Turn (r :: boarded) lost left after := by
  cases turn with
  | all boards => exact .all (.cons supplied stored boards)
  | starved boards starved => exact .starved (.cons supplied stored boards) starved
  | full boards given full returned => exact .full (.cons supplied stored boards) given full returned

theorem Turn.pending (turn : desk.Turn boarded lost left after) (sound : desk.queue.Sound) :
    ∃ events : List Event, events.map Event.record = boarded.map Record.arrived ∧
      after.queue.toList =
        events.foldl (fun pending event => event.insertInto pending) desk.queue.toList := by
  cases turn with
  | all boards => exact (boards.pending sound).2
  | starved boards => exact (boards.pending sound).2
  | full boards => exact (boards.pending sound).2

end Desk

/-! ### The transfer of a pipe -/

namespace Transfer

/-- The desk when the transfer is over: what stopped it is reported. -/
def settle (t : Transfer) (channel : Channel) : Desk :=
  let desk : Desk := { queue := t.queue, pool := t.pool, channel }
  let desk := match t.exhausted with
    | some size => desk.report (.poolExhausted size)
    | none => desk
  match t.rejected with
  | some event => (desk.report (.queueFull event.destination event.time)).release event.payload
  | none => desk

theorem takeRecords_turn {settings : Settings} {records : List Record}
    (short : ∀ r ∈ records, r.payload.length < UInt32.size) {tail : List UInt8}
    (stuck : Record.split? tail = none) (p : Pipe) (desk : Desk) (sound : desk.stock.Sound settings) :
    ∃ boarded lost left t, records = boarded ++ lost ++ left ∧
      desk.Turn boarded lost left (t.settle desk.channel) ∧ t.rejected.toList.length = lost.length ∧
      ({ p with bytes := records.flatMap Record.encode ++ tail } : Pipe).takeRecords taker
          { queue := desk.queue, pool := desk.pool } =
        (boarded.length + lost.length, { p with bytes := left.flatMap Record.encode ++ tail }, t) := by
  induction records generalizing desk with
  | nil => exact ⟨[], [], [], _, rfl, .all .nil, rfl, Pipe.takeRecords_none stuck⟩
  | cons r records ih =>
    obtain ⟨small, others⟩ := List.forall_mem_cons.mp short
    have split : Record.split? ((r :: records).flatMap Record.encode ++ tail) =
        some (r.arrived, records.flatMap Record.encode ++ tail) := by
      rw [List.flatMap_cons, List.append_assoc]
      exact Record.split?_encode small _
    obtain ⟨conforms, queued⟩ : desk.pool.Conforms settings ∧ desk.queue.Sound := ⟨sound.pool, sound.queue⟩
    let start : Transfer := { queue := desk.queue, pool := desk.pool }
    rcases supplied : desk.pool.alloc r.payload.length with ⟨_ | buffer, pool⟩
    · have refused : taker.alloc r.arrived.destination r.time r.payload.length start =
          (none, { start with pool, exhausted := some r.payload.length }) := by
        simp only [taker, start, supplied]
      exact ⟨[], [], r :: records, _, rfl, .starved .nil supplied, rfl,
        Pipe.takeRecords_refused split refused⟩
    · have given : taker.alloc r.arrived.destination r.time r.payload.length start =
          (some buffer, { start with pool }) := by
        simp only [taker, start, supplied]
      have fits : r.payload.length ≤ (PayloadBuffer.bytes buffer).length :=
        Nat.le_of_eq (supplied_fits given).symm
      let event : Event := ⟨r.arrived.destination, r.time, buffer.fill r.payload⟩
      cases stored : desk.queue.schedule event with
      | none =>
        have rejected : taker.accept r.arrived.destination r.time (PayloadBuffer.fill buffer r.payload)
            { start with pool } = (false, { start with pool, rejected := some event }) := by
          have stored : desk.queue.schedule ⟨r.arrived.destination, r.time,
              PayloadBuffer.fill buffer r.payload⟩ = none := stored
          simp only [taker, start, stored]
          rfl
        refine ⟨[], [r], records, _, rfl, .full .nil supplied (queued.full stored) fun size => ?_, rfl,
          Pipe.takeRecords_last split given fits rejected⟩
        exact conforms.alloc_release supplied rfl size
      | some scheduled =>
        obtain ⟨handle, queue⟩ := scheduled
        have accepted : taker.accept r.arrived.destination r.time (PayloadBuffer.fill buffer r.payload)
            { start with pool } = (true, { start with queue, pool }) := by
          have stored : desk.queue.schedule ⟨r.arrived.destination, r.time,
              PayloadBuffer.fill buffer r.payload⟩ = some (handle, queue) := stored
          simp only [taker, start, stored]
        have kept := (conforms.alloc r.payload.length).1
        rw [supplied] at kept
        obtain ⟨boarded, lost, left, t, whole, turn, count, taken⟩ := ih others { desk with queue, pool }
          ⟨kept, Queue.Becomes.sound (Queue.becomes_schedule stored) queued⟩
        refine ⟨r :: boarded, lost, left, t, by rw [whole]; rfl, turn.board supplied stored, count, ?_⟩
        rw [Pipe.takeRecords_handed split given fits accepted, taken, List.length_cons]
        simp only [Nat.add_right_comm]

end Transfer

namespace Desk

variable {desk : Desk} {settings : Settings} {records : List Record} {tail : List UInt8}

/-- Whatever a pipe holds when its turn comes: its whole records board in order, up to the end of the turn.
The answer counts those that have boarded, which is what the pipe has handed on less the lost one. -/
theorem transfer_turn (sound : desk.stock.Sound settings)
    (short : ∀ r ∈ records, r.payload.length < UInt32.size) (stuck : Record.split? tail = none) (p : Pipe)
    (bytes : p.bytes = records.flatMap Record.encode ++ tail) (signal : Signal) :
    ∃ boarded lost left after, records = boarded ++ lost ++ left ∧ desk.Turn boarded lost left after ∧
      desk.transfer p signal =
        (boarded.length, { p with bytes := left.flatMap Record.encode ++ tail }, signal.acknowledge, after) ∧
      (p.takeRecords Transfer.taker { queue := desk.queue, pool := desk.pool }).1 =
        boarded.length + lost.length := by
  obtain ⟨boarded, lost, left, t, whole, turn, count, taken⟩ :=
    Transfer.takeRecords_turn short stuck p desk sound
  rw [← bytes] at taken
  refine ⟨boarded, lost, left, _, whole, turn, ?_, congrArg (·.1) taken⟩
  rw [transfer, Pipe.consume, taken, ← count, Transfer.settle]
  obtain ⟨queue, pool, exhausted, rejected⟩ := t
  cases rejected <;> rfl

end Desk

end OscHost
