import OscHost.Proofs.Host.Filing
import OscHost.Proofs.Schedule.Shelves

/-!
# Verdicts on items

The items of a packet are judged one by one. What decides is what those in front have left: blocks of the pool
and slots of the queue where a desk injects, free bytes where an intake writes to a pipe. An item that is taken
has its share; one that is passed over has none, and causes one report. Both ways of injecting do what the
verdicts say and nothing else (`inject_verdicts`).
-/

namespace OscHost

structure Verdict where
  item : Item
  /-- With what the item is passed over. There is no report of an item that is taken. -/
  report : Option Diagnostic
  deriving DecidableEq, Repr

namespace Verdict

def taken (verdicts : List Verdict) : List Item := (verdicts.filter (·.report.isNone)).map (·.item)

def reports (verdicts : List Verdict) : List Diagnostic := verdicts.filterMap (·.report)

end Verdict

/-- The verdicts on items in order, and what they leave. An item that is passed over takes nothing. -/
def judgeAll (judge : σ → Item → Except Diagnostic σ) : σ → List Item → List Verdict × σ
  | left, [] => ([], left)
  | left, item :: rest =>
    match judge left item with
    | .ok less =>
      let (verdicts, last) := judgeAll judge less rest
      (⟨item, none⟩ :: verdicts, last)
    | .error report =>
      let (verdicts, last) := judgeAll judge left rest
      (⟨item, some report⟩ :: verdicts, last)

section

variable {judge : σ → Item → Except Diagnostic σ} {left less : σ} {item : Item} {report : Diagnostic}

theorem judgeAll_taken (judged : judge left item = .ok less) (items : List Item) :
    Verdict.taken (judgeAll judge left (item :: items)).1 =
        item :: Verdict.taken (judgeAll judge less items).1 ∧
      Verdict.reports (judgeAll judge left (item :: items)).1 =
        Verdict.reports (judgeAll judge less items).1 ∧
      (judgeAll judge left (item :: items)).2 = (judgeAll judge less items).2 := by
  simp [judgeAll, judged, Verdict.taken, Verdict.reports]

theorem judgeAll_passed (judged : judge left item = .error report) (items : List Item) :
    Verdict.taken (judgeAll judge left (item :: items)).1 = Verdict.taken (judgeAll judge left items).1 ∧
      Verdict.reports (judgeAll judge left (item :: items)).1 =
        report :: Verdict.reports (judgeAll judge left items).1 ∧
      (judgeAll judge left (item :: items)).2 = (judgeAll judge left items).2 := by
  simp [judgeAll, judged, Verdict.taken, Verdict.reports]

/-- Verdicts account for items: there is one on each, and it is taken, or there is one report of it for a reason
that it gives. The items that are taken would be taken without the others, and leave as much. -/
structure Accounts (judge : σ → Item → Except Diagnostic σ) (reason : Item → Diagnostic → Prop) (left : σ)
    (items : List Item) (verdicts : List Verdict) (last : σ) : Prop where
  each : verdicts.map (·.item) = items
  count : (Verdict.taken verdicts).length + (Verdict.reports verdicts).length = items.length
  reason : ∀ verdict ∈ verdicts, ∀ report, verdict.report = some report → reason verdict.item report
  alone : judgeAll judge left (Verdict.taken verdicts) =
    ((Verdict.taken verdicts).map fun item => ⟨item, none⟩, last)

theorem judgeAll_accounts {reason : Item → Diagnostic → Prop}
    (reasons : ∀ left item report, judge left item = .error report → reason item report) (left : σ)
    (items : List Item) :
    Accounts judge reason left items (judgeAll judge left items).1 (judgeAll judge left items).2 := by
  induction items generalizing left with
  | nil => exact ⟨rfl, rfl, nofun, rfl⟩
  | cons item items ih =>
    cases judged : judge left item with
    | ok less =>
      obtain ⟨same, count, grounds, alone⟩ := ih less
      obtain ⟨taken, reports, last⟩ := judgeAll_taken judged items
      have verdicts : (judgeAll judge left (item :: items)).1 = ⟨item, none⟩ :: (judgeAll judge less items).1 := by
        rw [judgeAll, judged]
      refine ⟨?_, ?_, ?_, ?_⟩
      · rw [verdicts, List.map_cons, same]
      · rw [taken, reports, List.length_cons, List.length_cons]
        omega
      · rw [verdicts]
        exact List.forall_mem_cons.mpr ⟨nofun, grounds⟩
      · rw [taken, last, judgeAll, judged, List.map_cons]
        simp only [alone]
    | error report =>
      obtain ⟨same, count, grounds, alone⟩ := ih left
      obtain ⟨taken, reports, last⟩ := judgeAll_passed judged items
      have verdicts :
          (judgeAll judge left (item :: items)).1 = ⟨item, some report⟩ :: (judgeAll judge left items).1 := by
        rw [judgeAll, judged]
      refine ⟨?_, ?_, ?_, ?_⟩
      · rw [verdicts, List.map_cons, same]
      · rw [taken, reports, List.length_cons, List.length_cons]
        omega
      · rw [verdicts]
        refine List.forall_mem_cons.mpr ⟨?_, grounds⟩
        rintro _ ⟨⟩
        exact reasons left item report judged
      · rw [taken, last, alone]

end

/-! ### At a desk -/

/-- What a desk has for items. -/
structure Supply where
  maxPayload : Nat
  shelves : List Shelf
  /-- Free slots of the queue. -/
  slots : Nat
  deriving DecidableEq, Repr

/-- An item needs a block first, and then a slot. -/
def Supply.judge (destination : Destination) (supply : Supply) (item : Item) : Except Diagnostic Supply :=
  match takeWithin supply.maxPayload item.bytes.length supply.shelves with
  | none => .error (.poolExhausted item.bytes.length)
  | some shelves =>
    if supply.slots = 0 then .error (.queueFull destination item.time)
    else .ok { supply with shelves, slots := supply.slots - 1 }

/-- Why an item is not queued. -/
def Supply.Reason (destination : Destination) (item : Item) (report : Diagnostic) : Prop :=
  report = .poolExhausted item.bytes.length ∨ report = .queueFull destination item.time

section

variable {destination : Destination} {supply less : Supply} {item : Item} {report : Diagnostic}

theorem Supply.judge_ok (judged : supply.judge destination item = .ok less) :
    ∃ shelves, takeWithin supply.maxPayload item.bytes.length supply.shelves = some shelves ∧ supply.slots ≠ 0 ∧
      less = { supply with shelves, slots := supply.slots - 1 } := by
  unfold judge at judged
  split at judged
  · cases judged
  · rename_i shelves given
    split at judged
    · cases judged
    · rename_i slots
      cases judged
      exact ⟨shelves, given, slots, rfl⟩

theorem Supply.judge_error (judged : supply.judge destination item = .error report) :
    takeWithin supply.maxPayload item.bytes.length supply.shelves = none ∧
        report = .poolExhausted item.bytes.length ∨
      ∃ shelves, takeWithin supply.maxPayload item.bytes.length supply.shelves = some shelves ∧
        supply.slots = 0 ∧ report = .queueFull destination item.time := by
  unfold judge at judged
  split at judged
  · rename_i given
    cases judged
    exact .inl ⟨given, rfl⟩
  · rename_i shelves given
    split at judged
    · rename_i slots
      cases judged
      exact .inr ⟨shelves, given, slots, rfl⟩
    · cases judged

theorem Supply.accounts (destination : Destination) (supply : Supply) (items : List Item) :
    let judged := judgeAll (judge destination) supply items
    Accounts (judge destination) (Reason destination) supply items judged.1 judged.2 := by
  apply judgeAll_accounts
  intro left item report judged
  rcases judge_error judged with ⟨-, rfl⟩ | ⟨shelves, -, -, rfl⟩
  · exact .inl rfl
  · exact .inr rfl

end

namespace Desk

def supply (desk : Desk) : Supply :=
  { maxPayload := desk.pool.maxPayload
    shelves := desk.pool.shelves
    slots := desk.queue.capacity - desk.queue.size }

/-- What becomes of a desk when items are judged: those that are taken are queued in order, as they are, and the
others are reported. What is left is what the taken items leave. -/
structure Injected (settings : Settings) (desk : Desk) (destination : Destination) (verdicts : List Verdict)
    (left : Supply) (after : Desk) : Prop where
  pending : ∃ events : List Event,
    events.map Event.record = (Verdict.taken verdicts).map (Item.record destination) ∧
      after.queue.toList = events.foldl (fun pending event => event.insertInto pending) desk.queue.toList
  channel : after.channel = desk.channel.sendAll (Verdict.reports verdicts)
  supply : after.supply = left
  sound : after.stock.Sound settings

variable {settings : Settings} {desk : Desk} {destination : Destination} {item : Item} {less : Supply}
  {report : Diagnostic}

/-- A buffer that is taken and given back leaves what there was. -/
theorem supply_alloc_release (pool : desk.pool.Conforms settings) {length : Nat} {buffer : Buffer} {rest : Pool}
    (given : desk.pool.alloc length = (some buffer, rest)) (back : Buffer) (same : back.capacity = buffer.capacity)
    (channel : Channel) :
    supply { queue := desk.queue, pool := rest.release back, channel } = desk.supply ∧
      (rest.release back).Conforms settings := by
  have shelves := pool.release_shelves given same
  have limit := desk.pool.maxPayload_alloc length
  have kept := (pool.alloc length).1
  have room := pool.alloc_room given
  rw [given] at limit kept
  rw [← same] at room
  refine ⟨?_, (kept.release back room).1⟩
  rw [supply, supply, shelves, Pool.maxPayload_release, limit]

theorem schedule_taken (sound : desk.stock.Sound settings) (judged : desk.supply.judge destination item = .ok less) :
    ∃ (handle : Handle) (event : Event) (after : Desk),
      desk.schedule destination item.time item.bytes = (.ok handle, after) ∧
        event.record = item.record destination ∧ after.queue.toList = event.insertInto desk.queue.toList ∧
        after.channel = desk.channel ∧ after.supply = less ∧ after.stock.Sound settings := by
  obtain ⟨pool, queue⟩ : desk.pool.Conforms settings ∧ desk.queue.Sound := ⟨sound.pool, sound.queue⟩
  obtain ⟨shelves, given, slots, rfl⟩ := Supply.judge_ok judged
  obtain ⟨buffer, rest, alloc, left, limit, kept⟩ := pool.alloc_some given
  have room : desk.queue.size < desk.queue.capacity := Nat.lt_of_sub_ne_zero slots
  obtain ⟨handle, between, stored, count, capacity⟩ := queue.room room
    ⟨destination, item.time, buffer.fill item.bytes⟩
  refine ⟨handle, _, _, schedule_filed alloc stored, ?_, queue.toList_schedule stored, rfl, ?_, kept,
    (queue.schedule stored).1⟩
  · rw [Event.record, Event.bytes, Pool.bytes_filled alloc]
    rfl
  · simp only [Desk.supply, limit, left, count, capacity, Nat.sub_add_eq]

theorem schedule_passed (sound : desk.stock.Sound settings)
    (judged : desk.supply.judge destination item = .error report) :
    ∃ (error : ScheduleError) (after : Desk),
      desk.schedule destination item.time item.bytes = (.error error, after) ∧
        after.queue = desk.queue ∧ after.channel = desk.channel.send report ∧ after.supply = desk.supply ∧
        after.stock.Sound settings := by
  obtain ⟨pool, queue⟩ : desk.pool.Conforms settings ∧ desk.queue.Sound := ⟨sound.pool, sound.queue⟩
  rw [schedule, Desk.alloc]
  rcases Supply.judge_error judged with ⟨given, rfl⟩ | ⟨shelves, given, slots, rfl⟩
  · obtain ⟨rest, alloc, left, limit, kept⟩ := pool.alloc_none given
    rw [alloc]
    refine ⟨_, _, rfl, rfl, rfl, ?_, kept, queue⟩
    simp only [supply, report, left, limit]
  · obtain ⟨buffer, rest, alloc, -⟩ := pool.alloc_some given
    have full : desk.queue.schedule ⟨destination, item.time, buffer.fill item.bytes⟩ = none := by
      apply Option.eq_none_iff_forall_ne_some.mpr
      intro stored given
      have room := (queue.slot given).1
      exact Nat.sub_ne_zero_of_lt room slots
    obtain ⟨same, conforms⟩ := supply_alloc_release pool alloc (buffer.fill item.bytes) rfl
      (desk.channel.send (.queueFull destination item.time))
    rw [alloc]
    dsimp only
    rw [scheduleBuffer]
    dsimp only
    rw [full]
    exact ⟨_, _, rfl, rfl, rfl, same, conforms, queue⟩

theorem injectItem_judged (sound : desk.stock.Sound settings) (destination : Destination) (items : List Item)
    (count : Nat) :
    let judged := judgeAll (Supply.judge destination) desk.supply items
    ∃ after, items.foldl (fun state item => injectItem destination item.time item.bytes state) (count, desk) =
        (count + (Verdict.taken judged.1).length, after) ∧
      desk.Injected settings destination judged.1 judged.2 after := by
  intro judged
  induction items generalizing desk count with
  | nil => exact ⟨desk, rfl, ⟨[], rfl, rfl⟩, rfl, rfl, sound⟩
  | cons item items ih =>
    cases verdict : desk.supply.judge destination item with
    | ok less =>
      obtain ⟨handle, event, between, scheduled, record, queued, silent, supply, kept⟩ :=
        schedule_taken sound verdict
      obtain ⟨taken, reports, left⟩ := judgeAll_taken verdict items
      obtain ⟨after, folded, ⟨events, records, pending⟩, channel, rest, final⟩ := ih kept (count + 1)
      -- What the item leaves is what the desk has after it, so the others are judged by that.
      rw [supply] at folded records channel rest
      refine ⟨after, ?_, ⟨event :: events, ?_, ?_⟩, ?_, ?_, final⟩
      · rw [List.foldl_cons, injectItem, scheduled, taken, List.length_cons]
        refine folded.trans ?_
        rw [Nat.add_assoc, Nat.add_comm 1]
      · rw [taken, List.map_cons, List.map_cons, record, records]
      · rw [pending, queued, List.foldl_cons]
      · rw [channel, silent, reports]
      · rw [rest, left]
    | error report =>
      obtain ⟨error, between, scheduled, queue, sent, supply, kept⟩ := schedule_passed sound verdict
      obtain ⟨taken, reports, left⟩ := judgeAll_passed verdict items
      obtain ⟨after, folded, ⟨events, records, pending⟩, channel, rest, final⟩ := ih kept count
      rw [supply] at folded records channel rest
      refine ⟨after, ?_, ⟨events, ?_, ?_⟩, ?_, ?_, final⟩
      · rw [List.foldl_cons, injectItem, scheduled, taken]
        exact folded
      · rw [taken, records]
      · rw [pending, queue]
      · rw [channel, sent, reports]
        rfl
      · rw [rest, left]

theorem inject_judged (sound : desk.stock.Sound settings) (clocks : Clocks) (destination : Destination)
    (mode : UnrollMode) {packet : List UInt8} {p : Packet} (parsed : Packet.parse packet = .ok p) :
    let judged := judgeAll (Supply.judge destination) desk.supply (clocks.items mode packet)
    ∃ after, desk.inject clocks destination mode packet = (.ok (Verdict.taken judged.1).length, after) ∧
      desk.Injected settings destination judged.1 judged.2 after := by
  intro judged
  have unrolled : unroll
      { timestamp := fun tag state => (clocks.frameFor tag, state)
        message := injectItem destination
        bundle := injectItem destination } mode packet (0, desk) = _ :=
    unroll_each clocks (fun state item => injectItem destination item.time item.bytes state) mode parsed _
  obtain ⟨after, folded, injected⟩ := injectItem_judged sound destination (clocks.items mode packet) 0
  rw [folded, Nat.zero_add] at unrolled
  refine ⟨after, ?_, injected⟩
  rw [inject, unrolled]

end Desk

/-! ### At a pipe -/

/-- What a pipe has for items. -/
structure Space where
  maxPayload : Nat
  free : Nat
  deriving DecidableEq, Repr

/-- An item that is too long is passed over for its length, any other only for lack of space. -/
def Space.judge (space : Space) (item : Item) : Except Diagnostic Space :=
  if space.maxPayload < item.bytes.length then .error (.poolExhausted item.bytes.length)
  else if space.free < item.size then .error (.pipeOverflow item.size space.free)
  else .ok { space with free := space.free - item.size }

/-- Why an item is not written. -/
def Space.Reason (item : Item) (report : Diagnostic) : Prop :=
  report = .poolExhausted item.bytes.length ∨ ∃ free < item.size, report = .pipeOverflow item.size free

theorem Space.accounts (space : Space) (items : List Item) :
    let judged := judgeAll judge space items
    Accounts judge Reason space items judged.1 judged.2 := by
  apply judgeAll_accounts
  intro left item report judged
  unfold judge at judged
  split at judged
  · cases judged
    exact .inl rfl
  · split at judged
    · rename_i full
      cases judged
      exact .inr ⟨left.free, full, rfl⟩
    · cases judged

def Pipe.space (p : Pipe) : Space := ⟨p.maxPayload, p.freeSpace⟩

def Diagnostic.isOverflow : Diagnostic → Bool
  | .pipeOverflow .. => true
  | _ => false

namespace Intake

/-- What becomes of an intake when items are judged: those that are taken are written behind what the pipe
holds, and the others are reported and counted. -/
def judged (intake : Intake) (destination : Destination) (verdicts : List Verdict) : Intake :=
  let records := (Verdict.taken verdicts).map (Item.record destination)
  let reports := Verdict.reports verdicts
  { pipe := { intake.pipe with
      bytes := intake.pipe.bytes ++ records.flatMap Record.encode
      overflows := intake.pipe.overflows + reports.countP Diagnostic.isOverflow }
    channel := intake.channel.sendAll reports
    written := intake.written + records.length
    dropped := intake.dropped + reports.length }

variable {intake : Intake} {item : Item} {less : Space} {report : Diagnostic}

theorem add_taken (destination : Destination) (judged : intake.pipe.space.judge item = .ok less) :
    add destination item.time item.bytes intake =
        { intake with
          pipe := intake.pipe.followedBy (item.record destination).encode
          written := intake.written + 1 } ∧
      (intake.pipe.followedBy (item.record destination).encode).space = less := by
  unfold Space.judge at judged
  split at judged
  · cases judged
  · rename_i short
    split at judged
    · cases judged
    · rename_i room
      cases judged
      constructor
      · have room : ¬intake.pipe.capacity - intake.pipe.bytes.length < recordHeaderLength + item.bytes.length :=
          room
        apply add_fits (Nat.not_lt.mp short)
        unfold recordHeaderLength at room ⊢
        omega
      · simp only [Pipe.space, Pipe.freeSpace, Pipe.followedBy, List.length_append, Record.length_encode,
          Nat.sub_add_eq]
        rfl

theorem add_passed (destination : Destination) (judged : intake.pipe.space.judge item = .error report) :
    add destination item.time item.bytes intake =
      { intake with
        pipe := { intake.pipe with overflows := intake.pipe.overflows + [report].countP Diagnostic.isOverflow }
        channel := intake.channel.send report
        dropped := intake.dropped + 1 } := by
  unfold Space.judge at judged
  split at judged
  · rename_i long
    cases judged
    rw [add_long long]
    rfl
  · rename_i short
    split at judged
    · rename_i full
      cases judged
      have small : item.bytes.length ≤ intake.pipe.maxPayload := Nat.not_lt.mp short
      have full : intake.pipe.freeSpace < recordHeaderLength + item.bytes.length := full
      rw [add, Pipe.produce, if_neg (Nat.not_lt.mpr small), if_pos full]
      rfl
    · cases judged

theorem add_judged (intake : Intake) (destination : Destination) (items : List Item) :
    items.foldl (fun intake item => add destination item.time item.bytes intake) intake =
      intake.judged destination (judgeAll Space.judge intake.pipe.space items).1 := by
  induction items generalizing intake with
  | nil => simp [judged, judgeAll, Verdict.taken, Verdict.reports, Channel.sendAll]
  | cons item items ih =>
    rw [List.foldl_cons]
    cases verdict : intake.pipe.space.judge item with
    | ok less =>
      obtain ⟨added, space⟩ := add_taken destination verdict
      obtain ⟨taken, reports, -⟩ := judgeAll_taken verdict items
      rw [added, ih, judged, judged, taken, reports]
      dsimp only
      rw [space]
      simp only [Pipe.followedBy, List.map_cons, List.flatMap_cons, List.length_cons, List.append_assoc,
        Nat.add_assoc, Nat.add_comm 1]
    | error report =>
      obtain ⟨taken, reports, -⟩ := judgeAll_passed verdict items
      rw [add_passed destination verdict, ih, judged, judged, taken, reports]
      simp only [Channel.sendAll, List.foldl_cons, List.countP_cons, List.countP_nil, List.length_cons,
        Nat.add_assoc, Nat.add_comm 1, Nat.zero_add, Nat.add_comm (List.countP _ _)]
      rfl

end Intake

theorem Inlet.inject_judged (inlet : Inlet) (clocks : Clocks) (channel : Channel) (signal : Signal)
    {packet : List UInt8} {p : Packet} (parsed : Packet.parse packet = .ok p) :
    let judged := judgeAll Space.judge inlet.pipe.space (clocks.items inlet.mode packet)
    let after := Intake.judged { pipe := inlet.pipe, channel } inlet.destination judged.1
    inlet.inject clocks packet channel signal =
      (.ok after.written, { inlet with pipe := after.pipe, dropped := inlet.dropped + after.dropped },
        after.channel, if 0 < after.written then signal.notify.2 else signal) := by
  intro judged after
  have unrolled : unroll (Intake.handler clocks inlet.destination) inlet.mode packet
      { pipe := inlet.pipe, channel } = _ :=
    unroll_each clocks (fun intake item => Intake.add inlet.destination item.time item.bytes intake) inlet.mode
      parsed _
  rw [Intake.add_judged] at unrolled
  rw [inject, unrolled]

/-- A packet is injected at a desk, or fed into an inlet. If it is malformed, all that happens is that it is
refused and reported, and an inlet counts it. Otherwise its items are judged one by one, and what becomes of
the desk or the inlet is what the verdicts say: the items that are taken are queued or written in order, with
their bytes, each of the others causes one report and no change besides, and the answer counts the former. An
inlet counts the latter, and wakes the host if anything was written. The desk of a host is sound at all times. -/
theorem inject_verdicts {settings : Settings} {desk : Desk} (sound : desk.stock.Sound settings) (inlet : Inlet)
    (clocks : Clocks) (destination : Destination) (mode : UnrollMode) (packet : List UInt8) (channel : Channel)
    (signal : Signal) :
    let direct := desk.inject clocks destination mode packet
    let piped := inlet.inject clocks packet channel signal
    (∀ error, Packet.parse packet = .error error →
      let report := Diagnostic.malformedPacket error packet.length
      direct = (.error (.wire error), desk.report report) ∧
        piped =
          (.error error, { inlet with malformed := inlet.malformed + 1 }, channel.send report, signal)) ∧
      ∀ p, Packet.parse packet = .ok p →
        (let items := clocks.items mode packet
          let (verdicts, left) := judgeAll (Supply.judge destination) desk.supply items
          Accounts (Supply.judge destination) (Supply.Reason destination) desk.supply items verdicts left ∧
            ∃ after, direct = (.ok (Verdict.taken verdicts).length, after) ∧
              desk.Injected settings destination verdicts left after) ∧
          let items := clocks.items inlet.mode packet
          let (verdicts, left) := judgeAll Space.judge inlet.pipe.space items
          let records := (Verdict.taken verdicts).map (Item.record inlet.destination)
          let reports := Verdict.reports verdicts
          let pipe := { inlet.pipe with
            bytes := inlet.pipe.bytes ++ records.flatMap Record.encode
            overflows := inlet.pipe.overflows + reports.countP Diagnostic.isOverflow }
          Accounts Space.judge Space.Reason inlet.pipe.space items verdicts left ∧
            piped =
              (.ok records.length, { inlet with pipe, dropped := inlet.dropped + reports.length },
                channel.sendAll reports, if 0 < records.length then signal.notify.2 else signal) := by
  intro direct piped
  refine ⟨?malformed, ?parsed⟩
  case malformed =>
    intro error refused report
    constructor
    · exact desk.inject_malformed clocks destination mode refused
    · exact inlet.inject_malformed clocks channel signal refused
  case parsed =>
    intro p parsed
    have queued := Desk.inject_judged sound clocks destination mode parsed
    refine ⟨⟨Supply.accounts _ _ _, queued⟩, Space.accounts _ _, ?_⟩
    have written := inlet.inject_judged clocks channel signal parsed
    simp only [Intake.judged, Nat.zero_add] at written
    exact written

/-- A bundle of four messages, the second too long for a payload, into a queue of two slots and into a pipe of
sixty bytes. The first and the third are taken, and nothing has room for the fourth. -/
theorem inject_verdicts_bundle :
    let settings : Settings :=
      { queueCapacity := 2, maxPayload := 8, poolClasses := [8], poolPreallocate := 4, poolLowWatermark := 0 }
    let desk := Desk.ofSettings settings
    let inlet : Inlet := { destination := .broadcast, pipe := (Pipe.ofCapacity 60).withMaxPayload 8, sender := 1 }
    let short := [0x2F, 0x61, 0, 0, 0x2C, 0, 0, 0]
    let long := [0x2F, 0x61, 0x62, 0x63, 0x64, 0, 0, 0, 0x2C, 0, 0, 0]
    let element (bytes : List UInt8) := bigEndian 4 bytes.length ++ bytes
    let packet := bundleTag ++ bigEndian 8 1 ++ [short, long, short, short].flatMap element
    let clocks : Clocks := default
    let channel := Channel.ofCapacity 4
    desk.stock.Sound settings ∧ Packet.parse packet = .ok (.bundle ⟨packet, .immediate⟩) ∧
      clocks.items .full packet = [⟨0, short⟩, ⟨0, long⟩, ⟨0, short⟩, ⟨0, short⟩] ∧
      (∃ after, desk.inject clocks (.module ⟨3⟩) .full packet = (.ok 2, after) ∧
        after.channel = desk.channel.sendAll [.poolExhausted 12, .queueFull (.module ⟨3⟩) 0]) ∧
      let record : Record := ⟨.broadcast, 0, short⟩
      let pipe := { inlet.pipe with bytes := record.encode ++ record.encode, overflows := 1 }
      inlet.inject clocks packet channel {} =
        (.ok 2, { inlet with pipe, dropped := 2 },
          channel.sendAll [.poolExhausted 12, .pipeOverflow 24 12], (Signal.notify {}).2) := by
  intro settings desk inlet short long element packet clocks channel
  have sound : desk.stock.Sound settings := ⟨Pool.conforms_ofSettings settings, Queue.sound_ofCapacity 2⟩
  have parsed : Packet.parse packet = .ok (.bundle ⟨packet, .immediate⟩) := by decide +kernel
  have items : clocks.items .full packet = [⟨0, short⟩, ⟨0, long⟩, ⟨0, short⟩, ⟨0, short⟩] := by
    decide +kernel
  obtain ⟨-, whole⟩ := inject_verdicts sound inlet clocks (.module ⟨3⟩) .full packet channel {}
  obtain ⟨⟨-, after, direct, -, sent, -⟩, -, piped⟩ := whole _ parsed
  refine ⟨sound, parsed, items, ⟨after, ?_, ?_⟩, ?_⟩
  · refine direct.trans (congrArg (fun count => (Except.ok count, after)) ?_)
    rw [items]
    decide +kernel
  · rw [sent, items]
    decide +kernel
  · have pipe : inlet.mode = .full := rfl
    rw [piped, pipe, items]
    decide +kernel

end OscHost
