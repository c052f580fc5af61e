import OscHost.Proofs.Host.Traffic
import OscHost.Proofs.Schedule.Storage

/-!
# The stock of buffers

A payload buffer is in the pool, or it belongs to a pending event, or somebody has it in hand on the
way from the one to the other. `Stock.Step` says all that is done with buffers. A step keeps their
number, except that one which is given back to a full class is dropped (`Stock.Step.balance`). Each
operation of a desk is made of such steps and ends with nothing in hand.
-/

namespace OscHost

/-! ### Pending events -/

namespace Queue

variable {q r : Queue} {event : Event} {handle : Handle}

def payloads (q : Queue) : List Buffer := q.toList.map (·.payload)

theorem Sound.schedule (sound : q.Sound) (stored : q.schedule event = some (handle, r)) :
    r.Sound ∧ r.toList.Perm (event :: q.toList) := by
  obtain ⟨a, b, step, shown, showing, kept⟩ := sound.shows (.schedule event)
  rw [Queue.serve, stored] at step showing kept
  refine ⟨kept, ?_⟩
  rw [shown, showing]
  cases step with
  | scheduled room fresh split =>
    rw [Agenda.events, Agenda.events, split]
    simp only [List.map_append, List.map_cons]
    exact List.perm_middle

/-- A queue with a free slot takes an event. -/
theorem Sound.room (sound : q.Sound) (room : q.size < q.capacity) (event : Event) :
    ∃ handle r, q.schedule event = some (handle, r) ∧ r.size = q.size + 1 ∧ r.capacity = q.capacity := by
  obtain ⟨a, keeps, -⟩ := sound
  have capacity : q.capacity = a.capacity := keeps.capacity
  have count := keeps.count_eq
  obtain ⟨front, back, handle, r, split, stored, -, -, -, kept⟩ := keeps.schedule (by omega) event a.taken
  refine ⟨handle, r, stored, ?_, kept.capacity.trans capacity.symm⟩
  rw [count, kept.count_eq, split, List.length_append, List.length_append, List.length_cons, Nat.add_assoc]

/-- A queue takes an event only into a free slot. -/
theorem Sound.slot (sound : q.Sound) (stored : q.schedule event = some (handle, r)) :
    q.size < q.capacity ∧ r.size = q.size + 1 ∧ r.capacity = q.capacity := by
  by_cases room : q.size < q.capacity
  · obtain ⟨_, _, same, count, capacity⟩ := sound.room room event
    cases same.symm.trans stored
    exact ⟨room, count, capacity⟩
  · obtain ⟨a, keeps, -⟩ := sound
    have capacity : q.capacity = a.capacity := keeps.capacity
    have bound := keeps.count_le
    rw [keeps.count_eq] at room
    cases (keeps.schedule_full (by omega) event).symm.trans stored

theorem Sound.cancel (sound : q.Sound) (cancelled : q.cancel handle = some (event, r)) :
    r.Sound ∧ q.payloads.Perm (event.payload :: r.payloads) := by
  obtain ⟨a, b, step, shown, showing, kept⟩ := sound.shows (.cancel handle)
  rw [Queue.serve, cancelled] at step showing kept
  refine ⟨kept, ?_⟩
  rw [payloads, payloads, shown, showing]
  cases step with
  | cancelled split =>
    rw [Agenda.events, Agenda.events, split]
    simp only [List.map_append, List.map_cons]
    exact List.perm_middle

theorem payload_dispatched (current : UInt64) (entry : Entry) :
    (Agenda.dispatched current entry).payload = entry.event.payload := by
  rw [Agenda.dispatched]
  split <;> rfl

theorem Sound.drain (sound : q.Sound) (current period : UInt64) :
    (q.drain current period).2.Sound ∧ q.payloads =
      (q.drain current period).1.events.map (·.payload) ++ (q.drain current period).2.payloads := by
  obtain ⟨a, b, step, shown, showing, kept⟩ := sound.shows (.drain current period)
  refine ⟨kept, ?_⟩
  have answer : (q.serve (.drain current period)).1 =
      .drained (q.drain current period).1.events ((q.drain current period).1.reports current) := rfl
  have left : (q.serve (.drain current period)).2 = (q.drain current period).2 := rfl
  rw [answer] at step
  rw [left] at showing
  rw [payloads, payloads, shown, showing]
  generalize (q.drain current period).1.events = events at step ⊢
  generalize (q.drain current period).1.reports current = reports at step
  cases step with
  | drained =>
    simp only [Agenda.events, List.map_map, Function.comp_def, payload_dispatched]
    rw [← List.map_append, List.takeWhile_append_dropWhile]

theorem Sound.removeWhere (sound : q.Sound) (p : Event → Bool) :
    (q.removeWhere p).2.Sound ∧ q.payloads.Perm
      ((q.removeWhere p).1.map (·.payload) ++ (q.removeWhere p).2.payloads) := by
  obtain ⟨a, b, step, shown, showing, kept⟩ := sound.shows (.removeWhere p)
  refine ⟨kept, ?_⟩
  have answer : (q.serve (.removeWhere p)).1 = .removed (q.removeWhere p).1 := rfl
  have left : (q.serve (.removeWhere p)).2 = (q.removeWhere p).2 := rfl
  rw [answer] at step
  rw [left] at showing
  rw [payloads, payloads, shown, showing]
  generalize (q.removeWhere p).1 = events at step ⊢
  cases step with
  | removed =>
    rw [Agenda.events, Agenda.events, List.filter_map, ← List.map_append, ← List.map_append]
    exact ((List.filter_append_perm _ _).symm.map _).map _

theorem toList_nil (empty : q.size = 0) : q.toList = [] := by
  rw [toList, empty]
  rfl

theorem payloads_ofCapacity (capacity : Nat) : (ofCapacity capacity).payloads = [] := by
  rw [payloads, (keeps_ofCapacity capacity).toList]
  rfl

end Queue

namespace Buffer

theorem count_append (size : Nat) (buffers more : List Buffer) :
    count size (buffers ++ more) = count size buffers + count size more :=
  List.countP_append

theorem count_perm (size : Nat) {buffers more : List Buffer} (perm : buffers.Perm more) :
    count size buffers = count size more :=
  perm.countP_eq _

end Buffer

/-! ### Handling buffers -/

/-- Where buffers are: in a pool, with the pending events of a queue, or in hand. -/
structure Stock where
  pool : Pool
  queue : Queue
  hand : List Buffer := []

namespace Stock

/-- How many buffers of a size there are. -/
def count (s : Stock) (size : Nat) : Nat :=
  s.pool.stored size + Buffer.count size s.queue.payloads + Buffer.count size s.hand

/-- What can be done with buffers, and the sizes of those that are dropped. -/
inductive Step : Stock → List Nat → Stock → Prop where
  | alloc {pool : Pool} {queue : Queue} {hand : List Buffer} (length : Nat) :
      Step ⟨pool, queue, hand⟩ [] ⟨(pool.alloc length).2, queue, (pool.alloc length).1.toList ++ hand⟩
  | write {pool : Pool} {queue : Queue} {hand : List Buffer} {buffer written : Buffer}
      (same : written.capacity = buffer.capacity) :
      Step ⟨pool, queue, buffer :: hand⟩ [] ⟨pool, queue, written :: hand⟩
  | schedule {pool : Pool} {queue after : Queue} {hand : List Buffer} {event : Event} {handle : Handle}
      (stored : queue.schedule event = some (handle, after)) :
      Step ⟨pool, queue, event.payload :: hand⟩ [] ⟨pool, after, hand⟩
  | cancel {pool : Pool} {queue after : Queue} {hand : List Buffer} {event : Event} {handle : Handle}
      (cancelled : queue.cancel handle = some (event, after)) :
      Step ⟨pool, queue, hand⟩ [] ⟨pool, after, event.payload :: hand⟩
  | drain {pool : Pool} {queue : Queue} {hand : List Buffer} (current period : UInt64) :
      Step ⟨pool, queue, hand⟩ []
        ⟨pool, (queue.drain current period).2,
          (queue.drain current period).1.events.map (·.payload) ++ hand⟩
  | removeWhere {pool : Pool} {queue : Queue} {hand : List Buffer} (p : Event → Bool) :
      Step ⟨pool, queue, hand⟩ []
        ⟨pool, (queue.removeWhere p).2, (queue.removeWhere p).1.map (·.payload) ++ hand⟩
  | release {pool : Pool} {queue : Queue} {hand : List Buffer} {buffer : Buffer}
      (room : ¬pool.Full buffer.capacity) :
      Step ⟨pool, queue, buffer :: hand⟩ [] ⟨pool.release buffer, queue, hand⟩
  | drop {pool : Pool} {queue : Queue} {hand : List Buffer} {buffer : Buffer}
      (full : pool.Full buffer.capacity) :
      Step ⟨pool, queue, buffer :: hand⟩ [buffer.capacity] ⟨pool, queue, hand⟩

/-- A sequence of steps, and the sizes of the buffers that are dropped on the way. -/
inductive Moves : Stock → List Nat → Stock → Prop where
  | nil {s : Stock} : Moves s [] s
  | cons {s t u : Stock} {dropped more : List Nat} (step : Step s dropped t) (rest : Moves t more u) :
      Moves s (dropped ++ more) u

/-- The stock is that of a host with these settings. -/
structure Sound (settings : Settings) (s : Stock) : Prop where
  pool : s.pool.Conforms settings
  queue : s.queue.Sound

variable {settings : Settings} {s t u : Stock} {dropped more : List Nat}

/-- A step changes the number of buffers only by those that it drops. -/
theorem Step.balance (step : Step s dropped t) (sound : s.Sound settings) :
    t.Sound settings ∧
      ∀ size ∈ settings.poolClasses, t.count size + dropped.count size = s.count size := by
  obtain ⟨pool, queue⟩ := sound
  cases step with
  | alloc length =>
    obtain ⟨kept, moved⟩ := pool.alloc length
    refine ⟨⟨kept, queue⟩, fun size _ => ?_⟩
    have moved := moved size
    simp only [count, Buffer.count_append, List.count_nil] at moved ⊢
    omega
  | write same =>
    refine ⟨⟨pool, queue⟩, fun size _ => ?_⟩
    simp only [count, Buffer.count, List.countP_cons, same, List.count_nil, Nat.add_zero]
  | schedule stored =>
    obtain ⟨kept, perm⟩ := queue.schedule stored
    refine ⟨⟨pool, kept⟩, fun size _ => ?_⟩
    have moved := Buffer.count_perm size (perm.map (·.payload))
    simp only [count, Queue.payloads, Buffer.count, List.map_cons, List.countP_cons, List.count_nil] at moved ⊢
    omega
  | cancel cancelled =>
    obtain ⟨kept, perm⟩ := queue.cancel cancelled
    refine ⟨⟨pool, kept⟩, fun size _ => ?_⟩
    have moved := Buffer.count_perm size perm
    simp only [count, Buffer.count, List.countP_cons, List.count_nil] at moved ⊢
    omega
  | drain current period =>
    obtain ⟨kept, whole⟩ := queue.drain current period
    refine ⟨⟨pool, kept⟩, fun size _ => ?_⟩
    simp only [count, whole, Buffer.count_append, List.count_nil]
    omega
  | removeWhere p =>
    obtain ⟨kept, perm⟩ := queue.removeWhere p
    refine ⟨⟨pool, kept⟩, fun size _ => ?_⟩
    have moved := Buffer.count_perm size perm
    simp only [count, Buffer.count_append, List.count_nil] at moved ⊢
    omega
  | @release _ _ _ buffer room =>
    obtain ⟨kept, moved⟩ := pool.release buffer room
    refine ⟨⟨kept, queue⟩, fun size known => ?_⟩
    have moved := moved size known
    simp only [count, Buffer.count, List.countP_cons, List.countP_nil, List.count_nil] at moved ⊢
    omega
  | @drop _ _ _ buffer full =>
    refine ⟨⟨pool, queue⟩, fun size _ => ?_⟩
    simp only [count, Buffer.count, List.countP_cons, List.count_singleton]
    omega

theorem Moves.balance (moves : Moves s dropped t) (sound : s.Sound settings) :
    t.Sound settings ∧
      ∀ size ∈ settings.poolClasses, t.count size + dropped.count size = s.count size := by
  induction moves with
  | nil => exact ⟨sound, fun _ _ => rfl⟩
  | cons step rest ih =>
    obtain ⟨between, first⟩ := step.balance sound
    obtain ⟨after, second⟩ := ih between
    refine ⟨after, fun size known => ?_⟩
    rw [List.count_append, ← first size known, ← second size known]
    omega

theorem Moves.trans (moves : Moves s dropped t) (rest : Moves t more u) : Moves s (dropped ++ more) u := by
  induction moves with
  | nil => exact rest
  | cons step _ ih =>
    rw [List.append_assoc]
    exact .cons step (ih rest)

/-- The second stock comes out of the first by handling buffers. -/
def Leads (s t : Stock) : Prop := ∃ dropped, Moves s dropped t

theorem Leads.refl (s : Stock) : s.Leads s := ⟨[], .nil⟩

theorem Leads.trans (first : s.Leads t) (second : t.Leads u) : s.Leads u := by
  obtain ⟨dropped, moves⟩ := first
  obtain ⟨more, rest⟩ := second
  exact ⟨_, moves.trans rest⟩

theorem Step.leads (step : Step s dropped t) : s.Leads t := ⟨_, .cons step .nil⟩

variable {pool : Pool} {queue : Queue} {hand : List Buffer}

theorem leads_alloc (length : Nat) :
    Leads ⟨pool, queue, []⟩ ⟨(pool.alloc length).2, queue, (pool.alloc length).1.toList⟩ := by
  have step : Step ⟨pool, queue, []⟩ [] _ := .alloc length
  rw [List.append_nil] at step
  exact step.leads

theorem leads_schedule {after : Queue} {buffer : Buffer} {event : Event} {handle : Handle}
    (same : event.payload.capacity = buffer.capacity) (stored : queue.schedule event = some (handle, after)) :
    Leads ⟨pool, queue, [buffer]⟩ ⟨pool, after, []⟩ :=
  (Step.write same).leads.trans (Step.schedule stored).leads

theorem leads_release (buffer : Buffer) :
    Leads ⟨pool, queue, buffer :: hand⟩ ⟨pool.release buffer, queue, hand⟩ := by
  by_cases full : pool.Full buffer.capacity
  · rw [Pool.release_full buffer full]
    exact (Step.drop full).leads
  · exact (Step.release full).leads

theorem leads_releaseAll (buffers : List Buffer) :
    Leads ⟨pool, queue, buffers ++ hand⟩ ⟨pool.releaseAll buffers, queue, hand⟩ := by
  induction buffers generalizing pool with
  | nil => exact .refl _
  | cons buffer buffers ih => exact (leads_release buffer).trans ih

end Stock

/-! ### The desk -/

namespace Desk

/-- What a desk has in its keeping. Between operations nothing is in hand. -/
def stock (desk : Desk) : Stock := { pool := desk.pool, queue := desk.queue }

variable (desk : Desk)

theorem leads_alloc (length : Nat) :
    desk.stock.Leads
      { pool := (desk.alloc length).2.pool
        queue := (desk.alloc length).2.queue
        hand := (desk.alloc length).1.toOption.toList } := by
  have leads : desk.stock.Leads _ := Stock.leads_alloc length
  rw [alloc]
  split <;> rename_i given <;> rw [given] at leads <;> exact leads

theorem leads_scheduleBuffer {buffer : Buffer} {event : Event}
    (same : event.payload.capacity = buffer.capacity) :
    Stock.Leads ⟨desk.pool, desk.queue, [buffer]⟩ (desk.scheduleBuffer event).2.stock := by
  rw [scheduleBuffer]
  split
  · rename_i stored
    exact Stock.leads_schedule same stored
  · exact (Stock.Step.write same).leads.trans (Stock.leads_release event.payload)

theorem leads_schedule (destination : Destination) (time : UInt64) (payload : List UInt8) :
    desk.stock.Leads (desk.schedule destination time payload).2.stock := by
  have supplied := desk.leads_alloc payload.length
  rw [schedule]
  split <;> rename_i given <;> rw [given] at supplied
  · exact supplied
  · exact supplied.trans (leads_scheduleBuffer _ rfl)

theorem leads_scheduleMessage (destination : Destination) (time : UInt64) (path : String)
    (args : List Argument) :
    desk.stock.Leads (desk.scheduleMessage destination time path args).2.stock := by
  have supplied := desk.leads_alloc (messageLength path args)
  rw [scheduleMessage]
  split <;> rename_i given <;> rw [given] at supplied
  · exact supplied
  · split
    · exact supplied.trans (Stock.leads_release _)
    · exact supplied.trans (leads_scheduleBuffer _ rfl)

theorem leads_cancel (handle : Handle) : desk.stock.Leads (desk.cancel handle).2.stock := by
  rw [cancel]
  split
  · rename_i event queue cancelled
    exact (Stock.Step.cancel cancelled).leads.trans (Stock.leads_release event.payload)
  · exact .refl _

theorem leads_discard (p : Event → Bool) : desk.stock.Leads (desk.discard p).2.stock :=
  (Stock.Step.removeWhere p).leads.trans (Stock.leads_releaseAll _)

/-- The payloads of a period are in hand until its events are dispatched. -/
theorem leads_drain (current period : UInt64) :
    let drained := desk.drain current period
    desk.stock.Leads (drained.2.releaseAll drained.1).stock :=
  (Stock.Step.drain current period).leads.trans (Stock.leads_releaseAll _)

theorem leads_inject (clocks : Clocks) (destination : Destination) (mode : UnrollMode)
    (packet : List UInt8) :
    desk.stock.Leads (desk.inject clocks destination mode packet).2.stock := by
  rw [inject]
  cases parsed : Packet.parse packet with
  | error error =>
    rw [unroll_error _ parsed]
    exact .refl _
  | ok p =>
    obtain ⟨calls, after, unrolled, makes, -⟩ := unroll_unrolls
      { timestamp := fun tag state => (clocks.frameFor tag, state)
        message := injectItem destination
        bundle := injectItem destination } parsed (0, desk)
    rw [unrolled]
    have item : ∀ time bytes (state : Nat × Desk), desk.stock.Leads state.2.stock →
        desk.stock.Leads (injectItem destination time bytes state).2.stock := by
      intro time bytes state reached
      have scheduled := state.2.leads_schedule destination time bytes
      rw [injectItem]
      split <;> rename_i outcome <;> rw [outcome] at scheduled <;> exact reached.trans scheduled
    exact makes.preserves (P := fun state => desk.stock.Leads state.2.stock)
      (fun _ _ kept => kept) item item (.refl _)

end Desk

/-! ### Inlets -/

namespace Transfer

/-- What a transfer has in its keeping: an event that was rejected is still in hand. -/
def stock (t : Transfer) : Stock :=
  { pool := t.pool, queue := t.queue, hand := (t.rejected.map (·.payload)).toList }

variable {t : Transfer}

theorem leads_alloc (calm : t.rejected = none) (destination : Destination) (time : UInt64) (size : Nat) :
    let given := taker.alloc destination time size t
    given.2.rejected = none ∧
      t.stock.Leads { pool := given.2.pool, queue := given.2.queue, hand := given.1.toList } := by
  have leads : Stock.Leads ⟨t.pool, t.queue, []⟩ _ := Stock.leads_alloc size
  rw [stock, calm, taker]
  dsimp only [Option.map_none, Option.toList_none]
  split <;> rename_i given <;> rw [given] at leads <;> exact ⟨calm, leads⟩

theorem leads_accept (calm : t.rejected = none) (destination : Destination) (time : UInt64)
    (buffer : Buffer) (payload : List UInt8) :
    let answer := taker.accept destination time (PayloadBuffer.fill buffer payload) t
    (answer.1 = true → answer.2.rejected = none) ∧
      Stock.Leads ⟨t.pool, t.queue, [buffer]⟩ answer.2.stock := by
  have same : (PayloadBuffer.fill buffer payload).capacity = buffer.capacity := rfl
  rw [taker]
  dsimp only
  cases stored : t.queue.schedule ⟨destination, time, PayloadBuffer.fill buffer payload⟩ with
  | none => exact ⟨Bool.noConfusion, (Stock.Step.write same).leads⟩
  | some scheduled =>
    refine ⟨fun _ => calm, ?_⟩
    rw [stock, calm]
    exact Stock.leads_schedule same stored

/-- The buffer that a transfer supplies for a record is never too short for it. -/
theorem supplied_fits {destination : Destination} {time : UInt64} {size : Nat} {buffer : Buffer}
    {u : Transfer} (supplied : taker.alloc destination time size t = (some buffer, u)) :
    PayloadBuffer.length buffer = size := by
  rw [taker] at supplied
  dsimp only at supplied
  split at supplied <;> rename_i given <;> cases supplied
  show buffer.bytes.length = size
  rw [Pool.bytes_alloc given, length_zeros]

theorem leads_takeRecords (p : Pipe) (calm : t.rejected = none) :
    t.stock.Leads (p.takeRecords taker t).2.2.stock := by
  fun_induction Pipe.takeRecords taker p t with
  | case1 => exact .refl _
  | case2 p t r rest split _ u refused =>
    obtain ⟨calm, supplied⟩ := leads_alloc calm r.destination r.time r.payload.length
    rw [refused] at calm supplied
    dsimp only at calm
    show t.stock.Leads ⟨u.pool, u.queue, (u.rejected.map (·.payload)).toList⟩
    rw [calm]
    exact supplied
  | case3 p t r rest split _ buffer u supplied short ih =>
    rw [supplied_fits supplied] at short
    exact absurd short (Nat.lt_irrefl _)
  | case4 p t r rest split _ buffer u supplied fits filled v accepted count q w taken ih =>
    obtain ⟨calm, given⟩ := leads_alloc calm r.destination r.time r.payload.length
    rw [supplied] at calm given
    obtain ⟨on, handed⟩ := leads_accept calm r.destination r.time buffer r.payload
    rw [accepted] at on handed
    have onwards := ih (on rfl)
    rw [taken] at onwards
    exact (given.trans handed).trans onwards
  | case5 p t r rest split _ buffer u supplied fits filled v accepted =>
    obtain ⟨calm, given⟩ := leads_alloc calm r.destination r.time r.payload.length
    rw [supplied] at calm given
    obtain ⟨-, handed⟩ := leads_accept calm r.destination r.time buffer r.payload
    rw [accepted] at handed
    exact given.trans handed

end Transfer

namespace Desk

theorem leads_transfer (desk : Desk) (p : Pipe) (signal : Signal) :
    desk.stock.Leads (desk.transfer p signal).2.2.2.stock := by
  have leads := Transfer.leads_takeRecords (t := { queue := desk.queue, pool := desk.pool }) p rfl
  rw [transfer, Pipe.consume]
  generalize p.takeRecords Transfer.taker _ = taken at leads ⊢
  obtain ⟨moved, rest, queue, pool, exhausted, rejected⟩ := taken
  cases rejected with
  | none => cases exhausted <;> exact leads
  | some event => cases exhausted <;> exact leads.trans (Stock.leads_release event.payload)

theorem leads_serveInlets (desk : Desk) (inlets : List Inlet) (signal : Signal) :
    desk.stock.Leads (desk.serveInlets inlets signal).2.2.stock := by
  induction inlets generalizing desk signal with
  | nil => exact .refl _
  | cons inlet inlets ih => exact (leads_transfer desk inlet.pipe signal).trans (ih _ _)

/-! ### Modules -/

theorem leads_carryOut (desk : Desk) (clocks : Clocks) (request : Request) :
    desk.stock.Leads (desk.carryOut clocks request).2.stock := by
  cases request with
  | payload destination time bytes => exact leads_schedule desk destination time bytes
  | message destination time path args => exact leads_scheduleMessage desk destination time path args
  | packet destination mode bytes => exact leads_inject desk clocks destination mode bytes
  | cancel handle => exact leads_cancel desk handle

theorem leads_carryOutAll (desk : Desk) (clocks : Clocks) (requests : List Request) :
    desk.stock.Leads (carryOutAll clocks requests desk).2.stock := by
  induction requests generalizing desk with
  | nil => exact .refl _
  | cons request requests ih => exact (leads_carryOut desk clocks request).trans (ih _)

end Desk

theorem leads_runTurn [Behaviour μ] (turn : Turn) (clocks : Clocks) (frame frames : UInt64)
    (number : Nat) (modules : List (Option μ)) (desk : Desk) :
    desk.stock.Leads (runTurn turn clocks frame frames number modules desk).2.2.stock := by
  induction modules generalizing number desk with
  | nil => exact .refl _
  | cons module modules ih =>
    cases module with
    | none => exact ih _ _
    | some module => exact (Desk.leads_carryOutAll desk clocks _).trans (ih _ _)

end OscHost
