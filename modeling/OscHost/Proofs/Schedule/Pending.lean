import OscHost.Proofs.Schedule.Agenda
import Mathlib.Data.List.TakeWhile
import Mathlib.Logic.Relation

/-!
# The pending events of a queue

A queue comes out of another by requests, and whatever a request preserves is preserved by all of them
(`Becomes`). Seen from outside a queue is the list of its pending events: an event is put into the list
behind all that are due no later, a period takes a front of the list, and the events that are removed
are filtered out of it.
-/

namespace OscHost

/-! ### Requests -/

namespace Queue

/-- The second queue comes out of the first by requests. -/
abbrev Becomes : Queue → Queue → Prop :=
  Relation.ReflTransGen fun q r => ∃ request, (q.serve request).2 = r

theorem becomes_serve (q : Queue) (request : Request) : q.Becomes (q.serve request).2 :=
  .single ⟨request, rfl⟩

theorem becomes_schedule {q r : Queue} {event : Event} {handle : Handle}
    (stored : q.schedule event = some (handle, r)) : q.Becomes r := by
  have served := becomes_serve q (.schedule event)
  rwa [serve, stored] at served

theorem becomes_drain (q : Queue) (current period : UInt64) : q.Becomes (q.drain current period).2 :=
  becomes_serve q (.drain current period)

/-- The queue keeps an agenda that is in order. -/
def Sound (q : Queue) : Prop :=
  ∃ agenda : Agenda, q.Keeps agenda.capacity agenda.entries ∧ agenda.Numbered

theorem sound_ofCapacity (capacity : Nat) : (ofCapacity capacity).Sound :=
  ⟨{ capacity := min capacity (UInt32.size - 2) }, keeps_ofCapacity capacity, .nil, by simp⟩

theorem Becomes.sound {q r : Queue} (becomes : q.Becomes r) (sound : q.Sound) : r.Sound := by
  induction becomes with
  | refl => exact sound
  | tail _ served ih =>
    obtain ⟨request, rfl⟩ := served
    obtain ⟨agenda, keeps, numbered⟩ := ih
    obtain ⟨later, step, kept⟩ := keeps.serve request
    exact ⟨later, kept, Agenda.step_numbered numbered step⟩

/-- What a queue answers to a request is what its agenda demands, whose events it shows before and
after. -/
theorem Sound.shows {q : Queue} (sound : q.Sound) (request : Request) :
    ∃ a b : Agenda, Agenda.Step a request (q.serve request).1 b ∧ q.toList = a.events ∧
      (q.serve request).2.toList = b.events ∧ (q.serve request).2.Sound := by
  obtain ⟨a, keeps, numbered⟩ := sound
  obtain ⟨b, step, kept⟩ := keeps.serve request
  exact ⟨a, b, step, keeps.toList, kept.toList, b, kept, Agenda.step_numbered numbered step⟩

/-! ### Requests with a limit on payloads -/

/-- The request schedules no event whose payload is longer than the limit. -/
def Request.Within (limit : Nat) (request : Request) : Prop :=
  ∀ event, request = .schedule event → event.bytes.length ≤ limit

/-- The second queue comes out of the first by requests within the limit. -/
abbrev Takes (limit : Nat) : Queue → Queue → Prop :=
  Relation.ReflTransGen fun q r => ∃ request, request.Within limit ∧ (q.serve request).2 = r

/-- No pending event has a longer payload. -/
def Short (limit : Nat) (q : Queue) : Prop := ∀ event ∈ q.toList, event.bytes.length ≤ limit

section

variable {q r : Queue} {limit : Nat} {event : Event} {handle : Handle}

theorem Takes.becomes (takes : q.Takes limit r) : q.Becomes r := by
  induction takes with
  | refl => exact .refl
  | tail _ served ih =>
    obtain ⟨request, -, same⟩ := served
    exact ih.tail ⟨request, same⟩

theorem takes_schedule (short : event.bytes.length ≤ limit) (stored : q.schedule event = some (handle, r)) :
    q.Takes limit r := by
  refine .single ⟨.schedule event, fun other same => ?_, ?_⟩
  · cases same
    exact short
  · rw [serve, stored]

theorem takes_cancel (limit : Nat) (cancelled : q.cancel handle = some (event, r)) : q.Takes limit r := by
  refine .single ⟨.cancel handle, fun other same => ?_, ?_⟩
  · cases same
  · rw [serve, cancelled]

theorem takes_drain (q : Queue) (limit : Nat) (current period : UInt64) :
    q.Takes limit (q.drain current period).2 := by
  refine .single ⟨.drain current period, fun other same => ?_, rfl⟩
  cases same

theorem takes_removeWhere (q : Queue) (limit : Nat) (p : Event → Bool) :
    q.Takes limit (q.removeWhere p).2 := by
  refine .single ⟨.removeWhere p, fun other same => ?_, rfl⟩
  cases same

/-- What is pending after a request was pending before, or it is what was scheduled. -/
theorem Sound.mem_serve (sound : q.Sound) {request : Request} (member : event ∈ (q.serve request).2.toList) :
    event ∈ q.toList ∨ request = .schedule event := by
  obtain ⟨a, b, step, shown, showing, -⟩ := sound.shows request
  rw [showing] at member
  rw [shown]
  generalize (q.serve request).1 = answer at step
  cases step with
  | full => exact .inl member
  | stale => exact .inl member
  | scheduled room fresh split =>
    simp only [Agenda.events, split, List.map_append, List.map_cons, List.mem_append, List.mem_cons]
      at member ⊢
    rcases member with front | rfl | back
    · exact .inl (.inl front)
    · exact .inr rfl
    · exact .inl (.inr back)
  | cancelled split =>
    simp only [Agenda.events, split, List.map_append, List.map_cons, List.mem_append, List.mem_cons]
      at member ⊢
    exact .inl (member.imp_right .inr)
  | drained => exact .inl (((List.dropWhile_sublist _).map _).subset member)
  | removed => exact .inl ((List.filter_sublist.map _).subset member)

theorem Takes.short (takes : q.Takes limit r) (sound : q.Sound) (short : q.Short limit) : r.Short limit := by
  induction takes with
  | refl => exact short
  | tail before served ih =>
    obtain ⟨request, within, rfl⟩ := served
    intro event member
    rcases ((Takes.becomes before).sound sound).mem_serve member with pending | scheduled
    · exact ih event pending
    · exact within event scheduled

end

end Queue

/-! ### Lists of events -/

namespace Event

/-- A list of events in order with one more, behind all that are due at its time or before. -/
def insertInto (event : Event) (events : List Event) : List Event :=
  events.takeWhile (·.time ≤ event.time) ++ event :: events.dropWhile (·.time ≤ event.time)

/-- Whether a period dispatches the event. The last frame of all is the end of no period. -/
def isDue (current period : UInt64) (event : Event) : Bool :=
  event.time.toNat < min (current.toNat + period.toNat) (UInt64.size - 1)

/-- The event as a period that starts at `current` dispatches it. -/
def clamped (current : UInt64) (event : Event) : Event :=
  if event.time = 0 ∨ event.time < current then { event with time := current } else event

/-- The report of the event if it is late for a period that starts at `current`. -/
def report? (current : UInt64) (event : Event) : Option Diagnostic :=
  if 0 < event.time ∧ event.time < current then
    some (.lateEvent event.destination event.time current)
  else none

@[simp] theorem payload_clamped (current : UInt64) (event : Event) :
    (event.clamped current).payload = event.payload := by
  rw [clamped]
  split <;> rfl

@[simp] theorem destination_clamped (current : UInt64) (event : Event) :
    (event.clamped current).destination = event.destination := by
  rw [clamped]
  split <;> rfl

end Event

namespace Queue

variable {q r : Queue} {event : Event} {handle : Handle}

theorem Sound.sorted (sound : q.Sound) : (q.toList.map (·.time)).Pairwise (· ≤ ·) := by
  obtain ⟨agenda, keeps, ordered, -⟩ := sound
  rw [keeps.toList, List.map_map, List.pairwise_map]
  refine ordered.imp fun {x y} order => ?_
  rcases order with earlier | ⟨same, -⟩
  · exact UInt64.le_of_lt earlier
  · exact UInt64.le_of_eq same

theorem Sound.full (sound : q.Sound) (refused : q.schedule event = none) : q.size = q.capacity := by
  obtain ⟨agenda, keeps, -⟩ := sound
  obtain ⟨later, step, -⟩ := keeps.serve (.schedule event)
  rw [Queue.serve, refused] at step
  cases step with
  | full full =>
    rw [keeps.count_eq, full]
    exact keeps.capacity.symm

theorem Sound.toList_schedule (sound : q.Sound) (stored : q.schedule event = some (handle, r)) :
    r.toList = event.insertInto q.toList := by
  obtain ⟨a, b, step, shown, showing, -⟩ := sound.shows (.schedule event)
  rw [Queue.serve, stored] at step showing
  rw [shown, showing]
  cases step with
  | scheduled room fresh split before behind =>
    rename_i front back
    have pass : ∀ other ∈ front.map (·.event), decide (other.time ≤ event.time) = true := by
      intro other member
      obtain ⟨entry, present, rfl⟩ := List.mem_map.mp member
      exact decide_eq_true (before entry present)
    have stop : (back.map (·.event)).takeWhile (·.time ≤ event.time) = [] ∧
        (back.map (·.event)).dropWhile (·.time ≤ event.time) = back.map (·.event) := by
      cases back with
      | nil => exact ⟨rfl, rfl⟩
      | cons next others =>
        have later : ¬decide (next.event.time ≤ event.time) = true := by
          simpa using behind next List.mem_cons_self
        exact ⟨List.takeWhile_cons_of_neg later, List.dropWhile_cons_of_neg later⟩
    simp only [Agenda.events, split, List.map_append, List.map_cons, Event.insertInto]
    rw [List.takeWhile_append_of_pos pass, List.dropWhile_append_of_pos pass, stop.1, stop.2,
      List.append_nil]

theorem Sound.toList_drain (sound : q.Sound) (current period : UInt64) :
    let due := q.toList.takeWhile (·.isDue current period)
    (q.drain current period).1.events = due.map (·.clamped current) ∧
      (q.drain current period).1.reports current = due.filterMap (·.report? current) ∧
      (q.drain current period).2.toList = q.toList.dropWhile (·.isDue current period) := by
  intro due
  obtain ⟨⟨_, _, entries⟩, keeps, -⟩ := sound
  have shown : due = (entries.takeWhile (Agenda.isDue current period)).map (·.event) := by
    show q.toList.takeWhile _ = _
    rw [keeps.toList, List.takeWhile_map]
    rfl
  obtain ⟨events, reports, kept⟩ := keeps.drainTo current period (Nat.le_of_eq keeps.count_eq.symm)
  have rest : (q.drain current period).2.toList = _ := kept.toList
  rw [rest, keeps.toList, drain, events, reports, shown, List.dropWhile_map, List.map_map,
    List.filterMap_map]
  exact ⟨rfl, rfl, rfl⟩

theorem Sound.toList_removeWhere (sound : q.Sound) (p : Event → Bool) :
    (q.removeWhere p).1 = q.toList.filter p ∧
      (q.removeWhere p).2.toList = q.toList.filter fun event => !p event := by
  obtain ⟨a, b, step, shown, showing, -⟩ := sound.shows (.removeWhere p)
  have answer : (q.serve (.removeWhere p)).1 = .removed (q.removeWhere p).1 := rfl
  have left : (q.serve (.removeWhere p)).2 = (q.removeWhere p).2 := rfl
  rw [answer] at step
  rw [left] at showing
  rw [shown, showing]
  generalize (q.removeWhere p).1 = events at step ⊢
  cases step with
  | removed =>
    refine ⟨rfl, ?_⟩
    rw [Agenda.events, Agenda.events, List.filter_map]
    rfl

end Queue

end OscHost
