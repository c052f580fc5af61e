import OscHost.Schedule.Event

/-!
The queue of pending events, in time order and, at equal times, in the order of scheduling. Events
live in an arena of slots. A doubly linked chain runs through the occupied slots in dispatch order,
and a second chain, over the same `next` links, runs through the free ones. A handle names a slot and
the generation of its use, so that a handle whose event has left does not reach the next one.
-/

namespace OscHost

structure Slot where
  event : Option Event := none
  time : UInt64 := 0
  /-- How often the slot was vacated. -/
  generation : UInt32 := 0
  prev : Option Nat := none
  next : Option Nat := none
  deriving DecidableEq, Repr, Inhabited

structure Queue where
  slots : Array Slot
  /-- Where the chain of free slots starts. -/
  free : Option Nat
  head : Option Nat := none
  tail : Option Nat := none
  size : Nat := 0
  deriving DecidableEq, Repr, Inhabited

/-- Names a pending event. -/
structure Handle where
  index : Nat
  generation : UInt32
  deriving DecidableEq, Repr, Inhabited

/-- What a period takes out of the queue. -/
structure Drained where
  /-- The events due, in order, at the times at which they run. -/
  events : List Event := []
  /-- Of those that came too late: where they went and when they were due. -/
  late : List (Destination × UInt64) := []
  deriving DecidableEq, Repr, Inhabited

/-- The end of a period, at the latest the last frame of all. -/
def horizon (current period : UInt64) : UInt64 :=
  UInt64.ofNat (min (current.toNat + period.toNat) (UInt64.size - 1))

namespace Queue

/-- An empty queue. Indices have to stay below 2³² − 1. -/
def ofCapacity (capacity : Nat) : Queue :=
  let capacity := min capacity (UInt32.size - 2)
  let slot := fun i => { next := if i + 1 < capacity then some (i + 1) else none : Slot }
  { slots := (Array.range capacity).map slot
    free := if 0 < capacity then some 0 else none }

def capacity (q : Queue) : Nat := q.slots.size

def isEmpty (q : Queue) : Bool := q.size == 0

def slot (q : Queue) (index : Nat) : Slot := q.slots.getD index {}

def modifySlot (q : Queue) (index : Nat) (change : Slot → Slot) : Queue :=
  { q with slots := q.slots.modify index change }

def nextTime? (q : Queue) : Option UInt64 := q.head.map fun index => (q.slot index).time

/-- Let `next` follow `prev` in the chain. Where one is missing, the other is an end. -/
def link (q : Queue) (prev next : Option Nat) : Queue :=
  let q := match prev with
    | none => { q with head := next }
    | some index => q.modifySlot index fun slot => { slot with next }
  match next with
  | none => { q with tail := prev }
  | some index => q.modifySlot index fun slot => { slot with prev }

/-- The last slot that is due at `time` or before, searched backwards from `cursor` over at most
`steps` slots. -/
def lastDue (q : Queue) (time : UInt64) : (steps : Nat) → (cursor : Option Nat) → Option Nat
  | steps + 1, some index =>
    if time < (q.slot index).time then lastDue q time steps (q.slot index).prev else some index
  | _, cursor => cursor

/-- Fill a free slot, the first of them. It leaves the chain of free slots and is in none. -/
def occupy (q : Queue) (index : Nat) (event : Event) : Queue :=
  { q with free := (q.slot index).next, size := q.size + 1 }.modifySlot index fun slot =>
    { slot with event := some event, time := event.time }

/-- Fill a free slot, the first of them, and let it follow `prev` and precede `next`. -/
def insert (q : Queue) (index : Nat) (event : Event) (prev next : Option Nat) : Queue :=
  ((q.occupy index event).link prev (some index)).link (some index) next

/-- Put an event behind all that are due at its time or before. A full queue takes none. -/
def schedule (q : Queue) (event : Event) : Option (Handle × Queue) :=
  match q.free with
  | none => none
  | some index =>
    let prev := q.lastDue event.time q.size q.tail
    let next := match prev with
      | none => q.head
      | some index => (q.slot index).next
    some (⟨index, (q.slot index).generation⟩, q.insert index event prev next)

/-- Take a slot out of the chain of pending events. Its event comes with it. -/
def unlink (q : Queue) (index : Nat) : Option Event × Queue :=
  let slot := q.slot index
  let q := q.link slot.prev slot.next
  let q := q.modifySlot index fun slot =>
    { slot with
      event := none
      generation := slot.generation + 1
      prev := none
      next := q.free }
  (slot.event, { q with free := some index, size := q.size - 1 })

/-- Take out the event that the handle names, if it is still pending. -/
def cancel (q : Queue) (handle : Handle) : Option (Event × Queue) :=
  let slot := q.slot handle.index
  if slot.generation = handle.generation then
    match q.unlink handle.index with
    | (some event, q) => some (event, q)
    | (none, _) => none
  else
    none

/-- The time at which an event runs in a period that starts at `current`. -/
def runTime (current time : UInt64) : UInt64 :=
  if time = immediateFrame ∨ time < current then current else time

/-- Take out what is due before `limit`, at most `steps` events. -/
def drainTo (current limit : UInt64) : (steps : Nat) → Queue → Drained × Queue
  | 0, q => ({}, q)
  | steps + 1, q =>
    match q.head with
    | none => ({}, q)
    | some index =>
      let time := (q.slot index).time
      if limit ≤ time then ({}, q)
      else
        match q.unlink index with
        | (none, q) => ({}, q)
        | (some event, q) =>
          let (rest, q) := drainTo current limit steps q
          let isLate := time ≠ immediateFrame ∧ time < current
          ({ events := { event with time := runTime current time } :: rest.events
             late := if isLate then (event.destination, time) :: rest.late else rest.late }, q)

/-- Take out every event that is due before the end of the period. Immediate events and those that
are late run at its start. -/
def drain (q : Queue) (current period : UInt64) : Drained × Queue :=
  drainTo current (horizon current period) q.size q

/-- The pending events of at most `steps` slots from `cursor` on. -/
def eventsFrom (q : Queue) : (steps : Nat) → (cursor : Option Nat) → List Event
  | steps + 1, some index =>
    let slot := q.slot index
    match slot.event with
    | some event => event :: eventsFrom q steps slot.next
    | none => eventsFrom q steps slot.next
  | _, _ => []

def toList (q : Queue) : List Event := q.eventsFrom q.size q.head

/-- Take out the events that `p` holds of, among at most `steps` slots from `cursor` on. -/
def removeFrom (p : Event → Bool) :
    (steps : Nat) → (cursor : Option Nat) → Queue → List Event × Queue
  | steps + 1, some index, q =>
    let slot := q.slot index
    if slot.event.any p then
      let (removed, q) := q.unlink index
      let (rest, q) := removeFrom p steps slot.next q
      (removed.toList ++ rest, q)
    else
      removeFrom p steps slot.next q
  | _, _, q => ([], q)

/-- Take out every event that `p` holds of, in order. -/
def removeWhere (q : Queue) (p : Event → Bool) : List Event × Queue :=
  removeFrom p q.size q.head q

def removeDestination (q : Queue) (destination : Destination) : List Event × Queue :=
  q.removeWhere fun event => event.destination == destination

def clear (q : Queue) : List Event × Queue := q.removeWhere fun _ => true

end Queue

end OscHost
