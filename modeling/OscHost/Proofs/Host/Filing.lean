import OscHost.Proofs.Host.Stock
import OscHost.Proofs.Packet.Items
import OscHost.Proofs.Stream.Line

/-!
# Filing items

Items of a packet are filed when each gets a buffer of a pool, is copied into it and is queued, one
after the other (`Filed`). A desk that injects a packet files its items, and so does a transfer of the
records that an intake has made of them. Both leave out the items that are too long, with the same
reports.
-/

namespace OscHost

/-! ### Items of a packet -/

def Item.record (destination : Destination) (item : Item) : Record :=
  { destination, time := item.time, payload := item.bytes }

def Item.size (item : Item) : Nat := recordHeaderLength + item.bytes.length

def Event.record (event : Event) : Record :=
  { destination := event.destination, time := event.time, payload := event.bytes }

/-- The items that are no longer than the limit for payloads. -/
def fitting (limit : Nat) (items : List Item) : List Item :=
  items.filter fun item => item.bytes.length ≤ limit

/-- The reports of the items that are longer. -/
def refusals (limit : Nat) (items : List Item) : List Diagnostic :=
  (items.filter fun item => limit < item.bytes.length).map fun item => .poolExhausted item.bytes.length

section

variable {limit : Nat} {item : Item} (items : List Item)

theorem fitting_cons_fits (fits : item.bytes.length ≤ limit) :
    fitting limit (item :: items) = item :: fitting limit items ∧
      refusals limit (item :: items) = refusals limit items := by
  simp [fitting, refusals, fits]

theorem fitting_cons_long (long : limit < item.bytes.length) :
    fitting limit (item :: items) = fitting limit items ∧
      refusals limit (item :: items) = .poolExhausted item.bytes.length :: refusals limit items := by
  simp [fitting, refusals, long]

theorem le_of_mem_fitting {items : List Item} (member : item ∈ fitting limit items) :
    item.bytes.length ≤ limit := by
  simpa using (List.mem_filter.mp member).2

end

/-- Each item in turn gets a buffer of the pool and a place in the queue. -/
inductive Filed (destination : Destination) : List Item → Queue → Pool → Queue → Pool → Prop where
  | nil {queue : Queue} {pool : Pool} : Filed destination [] queue pool queue pool
  | cons {item : Item} {items : List Item} {queue between after : Queue} {pool left rest : Pool}
      {buffer : Buffer} {handle : Handle}
      (supplied : pool.alloc item.bytes.length = (some buffer, left))
      (stored : queue.schedule ⟨destination, item.time, buffer.fill item.bytes⟩ = some (handle, between))
      (others : Filed destination items between left after rest) :
      Filed destination (item :: items) queue pool after rest

theorem Pool.bytes_filled {pool left : Pool} {payload : List UInt8} {buffer : Buffer}
    (supplied : pool.alloc payload.length = (some buffer, left)) :
    (buffer.fill payload).bytes = payload := by
  have whole := bytes_alloc supplied
  rw [Buffer.fill, Buffer.length, whole, length_zeros]
  simp

section

variable {destination : Destination} {items : List Item} {queue after : Queue} {pool rest : Pool}

theorem Filed.pending (filed : Filed destination items queue pool after rest) (sound : queue.Sound) :
    after.Sound ∧
      (after.toList.map Event.record).Perm
        (items.map (Item.record destination) ++ queue.toList.map Event.record) := by
  induction filed with
  | nil => exact ⟨sound, .refl _⟩
  | @cons item items queue between after pool left rest buffer handle supplied stored others ih =>
    obtain ⟨kept, first⟩ := sound.schedule stored
    obtain ⟨sound, perm⟩ := ih kept
    refine ⟨sound, perm.trans ?_⟩
    have same : Event.record ⟨destination, item.time, buffer.fill item.bytes⟩ = item.record destination := by
      rw [Event.record, Event.bytes, Pool.bytes_filled supplied]
      rfl
    have behind := (first.map Event.record).append_left (items.map (Item.record destination))
    rw [List.map_cons, same] at behind
    exact behind.trans List.perm_middle

/-! ### Room -/

/-- How many of the items need a buffer of a size. -/
def Settings.demand (s : Settings) (items : List Item) (size : Nat) : Nat :=
  items.countP fun item => s.sizeFor item.bytes.length == some size

variable {settings : Settings}

/-- Items for which the pool has a buffer each, and the queue a slot each, can be filed. -/
theorem filed_of_room (fits : settings.Fits) (conforms : pool.Conforms settings) (sound : queue.Sound)
    (short : ∀ item ∈ items, item.bytes.length ≤ settings.maxPayload)
    (buffers : ∀ size ∈ settings.poolClasses, settings.demand items size ≤ pool.stored size)
    (slots : queue.size + items.length ≤ queue.capacity) :
    ∃ after rest, Filed destination items queue pool after rest := by
  induction items generalizing queue pool with
  | nil => exact ⟨queue, pool, .nil⟩
  | cons item items ih =>
    obtain ⟨small, others⟩ := List.forall_mem_cons.mp short
    obtain ⟨size, chosen⟩ := fits.sizeFor small
    have known : size ∈ settings.poolClasses := List.mem_of_find?_eq_some chosen
    have needed (wanted : Nat) : settings.demand (item :: items) wanted =
        settings.demand items wanted + if size = wanted then 1 else 0 := by
      simp only [Settings.demand, List.countP_cons, chosen, beq_iff_eq, Option.some.injEq]
    have stored := buffers size known
    rw [needed, if_pos rfl] at stored
    -- The first item takes a buffer of its own size, so the others find theirs as before.
    obtain ⟨buffer, left, supplied, capacity⟩ := conforms.supplies fits small chosen (by omega)
    rw [List.length_cons] at slots
    obtain ⟨handle, between, queued, count, same⟩ := sound.room (by omega)
      ⟨destination, item.time, buffer.fill item.bytes⟩
    obtain ⟨kept, balance⟩ := conforms.alloc item.bytes.length
    rw [supplied] at kept balance
    have enough : ∀ wanted ∈ settings.poolClasses, settings.demand items wanted ≤ left.stored wanted := by
      intro wanted known
      have bound := buffers wanted known
      have taken := balance wanted
      rw [needed] at bound
      simp only [Buffer.count, Option.toList_some, List.countP_singleton, capacity, beq_iff_eq] at taken
      omega
    obtain ⟨after, rest, filed⟩ := ih kept (sound.schedule queued).1 others enough (by omega)
    exact ⟨after, rest, .cons supplied queued filed⟩

end

/-! ### By a desk -/

namespace Desk

variable {desk : Desk} {destination : Destination} {time : UInt64} {payload : List UInt8} {count : Nat}

theorem schedule_filed {left : Pool} {between : Queue} {buffer : Buffer} {handle : Handle}
    (supplied : desk.pool.alloc payload.length = (some buffer, left))
    (stored : desk.queue.schedule ⟨destination, time, buffer.fill payload⟩ = some (handle, between)) :
    desk.schedule destination time payload =
      (.ok handle, { queue := between, pool := left, channel := desk.channel }) := by
  rw [schedule, alloc, supplied]
  dsimp only
  rw [scheduleBuffer, stored]

theorem injectItem_filed {left : Pool} {between : Queue} {buffer : Buffer} {handle : Handle}
    (supplied : desk.pool.alloc payload.length = (some buffer, left))
    (stored : desk.queue.schedule ⟨destination, time, buffer.fill payload⟩ = some (handle, between)) :
    injectItem destination time payload (count, desk) =
      (count + 1, { queue := between, pool := left, channel := desk.channel }) := by
  rw [injectItem, schedule_filed supplied stored]

theorem injectItem_long (long : desk.pool.maxPayload < payload.length) :
    injectItem destination time payload (count, desk) =
      (count, desk.report (.poolExhausted payload.length)) := by
  rw [injectItem, schedule, alloc, Pool.alloc, if_pos long]

theorem injectItem_all (desk : Desk) (count : Nat) {items : List Item} {limit : Nat} {after : Queue}
    {rest : Pool} (limited : desk.pool.maxPayload = limit)
    (filed : Filed destination (fitting limit items) desk.queue desk.pool after rest) :
    items.foldl (fun state item => injectItem destination item.time item.bytes state) (count, desk) =
      (count + (fitting limit items).length,
        { queue := after, pool := rest, channel := desk.channel.sendAll (refusals limit items) }) := by
  induction items generalizing count desk with
  | nil =>
    cases filed
    rfl
  | cons item items ih =>
    rw [List.foldl_cons]
    rcases Nat.lt_or_ge limit item.bytes.length with long | fits
    · obtain ⟨same, reported⟩ := fitting_cons_long items long
      rw [same] at filed ⊢
      rw [injectItem_long (limited ▸ long), ih (desk.report _) count limited filed, reported]
      rfl
    · obtain ⟨same, reported⟩ := fitting_cons_fits items fits
      rw [same] at filed ⊢
      cases filed with
      | cons supplied stored others =>
        have kept := desk.pool.maxPayload_alloc item.bytes.length
        rw [supplied, limited] at kept
        rw [injectItem_filed supplied stored, ih _ (count + 1) kept others, reported, List.length_cons,
          Nat.add_assoc, Nat.add_comm 1]

theorem inject_filed (desk : Desk) {clocks : Clocks} {mode : UnrollMode} {packet : List UInt8} {p : Packet}
    {limit : Nat} {after : Queue} {rest : Pool}
    (parsed : Packet.parse packet = .ok p) (limited : desk.pool.maxPayload = limit)
    (filed : Filed destination (fitting limit (clocks.items mode packet)) desk.queue desk.pool after rest) :
    desk.inject clocks destination mode packet =
      (.ok (fitting limit (clocks.items mode packet)).length,
        { queue := after
          pool := rest
          channel := desk.channel.sendAll (refusals limit (clocks.items mode packet)) }) := by
  have unrolled : unroll
      { timestamp := fun tag state => (clocks.frameFor tag, state)
        message := injectItem destination
        bundle := injectItem destination } mode packet (0, desk) = _ :=
    unroll_each clocks (fun state item => injectItem destination item.time item.bytes state) mode parsed _
  rw [inject, unrolled, injectItem_all desk 0 limited filed, Nat.zero_add]

theorem inject_malformed (desk : Desk) (clocks : Clocks) (destination : Destination) (mode : UnrollMode)
    {packet : List UInt8} {error : WireError} (refused : Packet.parse packet = .error error) :
    desk.inject clocks destination mode packet =
      (.error (.wire error), desk.report (.malformedPacket error packet.length)) := by
  rw [inject, unroll_error _ refused]

end Desk

/-! ### Through a pipe -/

namespace Intake

variable {intake : Intake} {destination : Destination} {time : UInt64} {payload : List UInt8}

theorem add_fits (small : payload.length ≤ intake.pipe.maxPayload)
    (room : intake.pipe.bytes.length + recordHeaderLength + payload.length ≤ intake.pipe.capacity) :
    add destination time payload intake =
      { intake with
        pipe := intake.pipe.followedBy (Record.encode { destination, time, payload })
        written := intake.written + 1 } := by
  have room : ¬intake.pipe.freeSpace < recordHeaderLength + payload.length := by
    rw [Pipe.freeSpace]
    omega
  rw [add, Pipe.produce, if_neg (Nat.not_lt.mpr small), if_neg room]
  rfl

theorem add_long (long : intake.pipe.maxPayload < payload.length) :
    add destination time payload intake =
      { intake with
        channel := intake.channel.send (.poolExhausted payload.length)
        dropped := intake.dropped + 1 } := by
  rw [add, Pipe.produce, if_pos long]

theorem add_all (intake : Intake) {items : List Item} {limit : Nat}
    (limited : intake.pipe.maxPayload = limit)
    (room : intake.pipe.bytes.length + total ((fitting limit items).map Item.size) ≤
      intake.pipe.capacity) :
    items.foldl (fun intake item => add destination item.time item.bytes intake) intake =
      { pipe := intake.pipe.followedBy
          (((fitting limit items).map (Item.record destination)).flatMap Record.encode)
        channel := intake.channel.sendAll (refusals limit items)
        written := intake.written + (fitting limit items).length
        dropped := intake.dropped + (refusals limit items).length } := by
  induction items generalizing intake with
  | nil => simp [fitting, refusals, Channel.sendAll]
  | cons item items ih =>
    rw [List.foldl_cons]
    rcases Nat.lt_or_ge limit item.bytes.length with long | fits
    · obtain ⟨same, reported⟩ := fitting_cons_long items long
      rw [same] at room
      rw [add_long (limited ▸ long), same, reported]
      refine (ih _ ?_ ?_).trans ?_
      · exact limited
      · exact room
      · simp only [Channel.sendAll, List.foldl_cons, List.length_cons, Nat.add_assoc, Nat.add_comm 1]
    · obtain ⟨same, reported⟩ := fitting_cons_fits items fits
      rw [same, List.map_cons, total, Item.size] at room
      rw [add_fits (limited ▸ fits) (by omega), same, reported]
      refine (ih _ ?_ ?_).trans ?_
      · exact limited
      · simp only [Pipe.followedBy, List.length_append, Record.length_encode, Record.size]
        omega
      · simp only [Pipe.followedBy, Item.record, List.map_cons, List.flatMap_cons, List.length_cons,
          List.append_assoc, Nat.add_assoc, Nat.add_comm 1]

end Intake

namespace Inlet

variable {inlet : Inlet} {clocks : Clocks} {packet : List UInt8}

theorem inject_written (channel : Channel) (signal : Signal) {p : Packet} {limit : Nat}
    (parsed : Packet.parse packet = .ok p) (limited : inlet.pipe.maxPayload = limit)
    (room : inlet.pipe.bytes.length +
        total ((fitting limit (clocks.items inlet.mode packet)).map Item.size) ≤ inlet.pipe.capacity) :
    let items := clocks.items inlet.mode packet
    let records := (fitting limit items).map (Item.record inlet.destination)
    ∃ after, inlet.inject clocks packet channel signal =
      (.ok (fitting limit items).length,
        { inlet with
          pipe := inlet.pipe.followedBy (records.flatMap Record.encode)
          dropped := inlet.dropped + (refusals limit items).length },
        channel.sendAll (refusals limit items), after) := by
  have unrolled : unroll (Intake.handler clocks inlet.destination) inlet.mode packet
      { pipe := inlet.pipe, channel } = _ :=
    unroll_each clocks
      (fun intake item => Intake.add inlet.destination item.time item.bytes intake) inlet.mode parsed _
  rw [Intake.add_all _ limited room] at unrolled
  dsimp only
  rw [inject, unrolled]
  simp only [Nat.zero_add]
  exact ⟨_, rfl⟩

theorem inject_malformed (inlet : Inlet) (clocks : Clocks) (channel : Channel) (signal : Signal)
    {error : WireError} (refused : Packet.parse packet = .error error) :
    inlet.inject clocks packet channel signal =
      (.error error, { inlet with malformed := inlet.malformed + 1 },
        channel.send (.malformedPacket error packet.length), signal) := by
  rw [inject, unroll_error _ refused]
  rfl

end Inlet

namespace Transfer

/-- Records that come out of a pipe are filed under the destinations under which they arrive. -/
theorem takeRecords_filed (p : Pipe) {destination : Destination} {items : List Item} {queue after : Queue}
    {pool rest : Pool} (short : ∀ item ∈ items, item.bytes.length < UInt32.size)
    (filed : Filed (.ofWord destination.toWord) items queue pool after rest) :
    ({ p with bytes := (items.map (Item.record destination)).flatMap Record.encode } : Pipe).takeRecords
        taker { queue, pool } =
      (items.length, { p with bytes := [] }, { queue := after, pool := rest }) := by
  induction filed with
  | nil => exact Pipe.takeRecords_none rfl
  | @cons item items queue between after pool left rest buffer handle supplied stored others ih =>
    obtain ⟨small, short⟩ := List.forall_mem_cons.mp short
    have given : taker.alloc (item.record destination).arrived.destination item.time item.bytes.length
        { queue, pool } = (some buffer, { queue, pool := left }) := by
      simp only [taker, supplied]
    have taken : taker.accept (item.record destination).arrived.destination item.time
        (PayloadBuffer.fill buffer item.bytes) { queue, pool := left } =
          (true, { queue := between, pool := left }) := by
      have stored : queue.schedule ⟨(item.record destination).arrived.destination, item.time,
          PayloadBuffer.fill buffer item.bytes⟩ = some (handle, between) := stored
      simp only [taker, stored]
    have fits : item.bytes.length ≤ (PayloadBuffer.bytes buffer).length :=
      Nat.le_of_eq (supplied_fits given).symm
    have split := Record.split?_encode (r := item.record destination) small
      ((items.map (Item.record destination)).flatMap Record.encode)
    rw [List.map_cons, List.flatMap_cons, Pipe.takeRecords_handed split given fits taken, ih short]
    rfl

end Transfer

namespace Desk

variable {desk : Desk} {p : Pipe} {signal : Signal}

theorem transfer_filed {destination : Destination} {items : List Item} {after : Queue} {rest : Pool}
    (short : ∀ item ∈ items, item.bytes.length < UInt32.size)
    (filed : Filed (.ofWord destination.toWord) items desk.queue desk.pool after rest)
    (bytes : p.bytes = (items.map (Item.record destination)).flatMap Record.encode) :
    (desk.transfer p signal).2.2.2 = { queue := after, pool := rest, channel := desk.channel } := by
  have taken := Transfer.takeRecords_filed p short filed
  rw [← bytes] at taken
  rw [transfer, Pipe.consume, taken]

theorem transfer_idle (desk : Desk) (idle : p.bytes = []) (signal : Signal) :
    desk.transfer p signal = (0, p, signal.acknowledge, desk) := by
  have stuck : Record.split? p.bytes = none := by
    rw [idle]
    rfl
  have nothing : p.takeRecords Transfer.taker { queue := desk.queue, pool := desk.pool } = (0, p, _) :=
    Pipe.takeRecords_none stuck
  rw [transfer, Pipe.consume, nothing]

theorem serveInlets_idle (desk : Desk) (inlets more : List Inlet) (signal : Signal)
    (idle : ∀ inlet ∈ inlets, inlet.pipe.bytes = []) :
    ∃ later, (desk.serveInlets (inlets ++ more) signal).2.2 = (desk.serveInlets more later).2.2 := by
  induction inlets generalizing signal with
  | nil => exact ⟨signal, rfl⟩
  | cons inlet inlets ih =>
    obtain ⟨first, others⟩ := List.forall_mem_cons.mp idle
    obtain ⟨later, served⟩ := ih signal.acknowledge others
    refine ⟨later, ?_⟩
    rw [← served, List.cons_append, serveInlets, transfer_idle desk first]

theorem inlets_serveInlets (desk : Desk) {inlets : List Inlet} (signal : Signal)
    (idle : ∀ inlet ∈ inlets, inlet.pipe.bytes = []) : (desk.serveInlets inlets signal).1 = inlets := by
  induction inlets generalizing signal with
  | nil => rfl
  | cons inlet inlets ih =>
    obtain ⟨first, others⟩ := List.forall_mem_cons.mp idle
    rw [serveInlets, transfer_idle desk first]
    exact congrArg (List.cons inlet) (ih signal.acknowledge others)

end Desk

end OscHost
