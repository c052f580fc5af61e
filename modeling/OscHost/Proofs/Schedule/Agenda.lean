import OscHost.Proofs.Schedule.Arena
import OscHost.Schedule.Desk

/-!
# The agenda of a queue

An agenda is what a queue stands for: the pending events, sorted by time and, at equal times, by the
order of scheduling. `Agenda.Step` says what a request does to an agenda and what it is answered.
Whatever is asked of a queue, it answers as its agenda demands (`observe_agenda`).
-/

namespace OscHost

namespace Queue

inductive Request where
  | schedule (event : Event)
  | cancel (handle : Handle)
  | drain (current period : UInt64)
  | removeWhere (p : Event → Bool)

inductive Answer where
  | scheduled (handle : Handle)
  /-- The event is handed back. -/
  | full (event : Event)
  | cancelled (event : Option Event)
  /-- The events that were dispatched and the reports that were sent. -/
  | drained (events : List Event) (reports : List Diagnostic)
  | removed (events : List Event)

def serve (q : Queue) : Request → Answer × Queue
  | .schedule event =>
    match q.schedule event with
    | some (handle, q) => (.scheduled handle, q)
    | none => (.full event, q)
  | .cancel handle =>
    match q.cancel handle with
    | some (event, q) => (.cancelled (some event), q)
    | none => (.cancelled none, q)
  | .drain current period =>
    let (drained, q) := q.drain current period
    (.drained drained.events (drained.reports current), q)
  | .removeWhere p =>
    let (events, q) := q.removeWhere p
    (.removed events, q)

/-- The answers to a sequence of requests, each with the events that are pending after it. -/
def observe (q : Queue) : List Request → List (Answer × List Event)
  | [] => []
  | request :: rest =>
    let (answer, q) := q.serve request
    (answer, q.toList) :: q.observe rest

end Queue

/-- A pending event, the handle that was given for it, and its place in the order of scheduling. -/
structure Entry where
  handle : Handle
  number : Nat
  event : Event

structure Agenda where
  capacity : Nat
  /-- How many events were taken so far. -/
  taken : Nat := 0
  entries : List Entry := []

namespace Agenda

def events (a : Agenda) : List Event := a.entries.map (·.event)

/-- Sorted by time and, at equal times, by the order of scheduling. -/
def Ordered (a : Agenda) : Prop :=
  a.entries.Pairwise fun x y =>
    x.event.time < y.event.time ∨ x.event.time = y.event.time ∧ x.number < y.number

/-- Whether a period dispatches the event: it is due before the end, and the last frame of all is the
end of no period. -/
def isDue (current period : UInt64) (entry : Entry) : Bool :=
  entry.event.time.toNat < min (current.toNat + period.toNat) (UInt64.size - 1)

/-- An event as it is dispatched by a period that starts at `current`. -/
def dispatched (current : UInt64) (entry : Entry) : Event :=
  if entry.event.time = 0 ∨ entry.event.time < current then { entry.event with time := current }
  else entry.event

/-- The report of an event that is late for a period that starts at `current`. -/
def report? (current : UInt64) (entry : Entry) : Option Diagnostic :=
  if 0 < entry.event.time ∧ entry.event.time < current then
    some (.lateEvent entry.event.destination entry.event.time current)
  else none

/-- What a request does to an agenda, and what is answered. -/
inductive Step : Agenda → Queue.Request → Queue.Answer → Agenda → Prop where
  | full {a : Agenda} {event : Event} (full : a.entries.length = a.capacity) :
      Step a (.schedule event) (.full event) a
  /-- The event goes behind every one that is due at its time or before. -/
  | scheduled {a : Agenda} {event : Event} {handle : Handle} {front back : List Entry}
      (room : a.entries.length < a.capacity) (fresh : ∀ entry ∈ a.entries, entry.handle ≠ handle)
      (split : a.entries = front ++ back) (before : ∀ entry ∈ front, entry.event.time ≤ event.time)
      (behind : ∀ entry ∈ back, event.time < entry.event.time) :
      Step a (.schedule event) (.scheduled handle)
        { a with taken := a.taken + 1, entries := front ++ ⟨handle, a.taken, event⟩ :: back }
  | cancelled {a : Agenda} {entry : Entry} {front back : List Entry}
      (split : a.entries = front ++ entry :: back) :
      Step a (.cancel entry.handle) (.cancelled (some entry.event)) { a with entries := front ++ back }
  | stale {a : Agenda} {handle : Handle} (absent : ∀ entry ∈ a.entries, entry.handle ≠ handle) :
      Step a (.cancel handle) (.cancelled none) a
  | drained {a : Agenda} {current period : UInt64} :
      Step a (.drain current period)
        (.drained ((a.entries.takeWhile (isDue current period)).map (dispatched current))
          ((a.entries.takeWhile (isDue current period)).filterMap (report? current)))
        { a with entries := a.entries.dropWhile (isDue current period) }
  | removed {a : Agenda} {p : Event → Bool} :
      Step a (.removeWhere p) (.removed (a.events.filter p))
        { a with entries := a.entries.filter fun entry => !p entry.event }

/-- A sequence of requests, with the answer to each and the events pending after it. -/
inductive Run : Agenda → List Queue.Request → List (Queue.Answer × List Event) → Agenda → Prop where
  | nil {a : Agenda} : Run a [] [] a
  | cons {a b c : Agenda} {request : Queue.Request} {answer : Queue.Answer}
      {requests : List Queue.Request} {seen : List (Queue.Answer × List Event)}
      (step : Step a request answer b) (rest : Run b requests seen c) :
      Run a (request :: requests) ((answer, b.events) :: seen) c

/-! ### The order of an agenda -/

def Numbered (a : Agenda) : Prop := a.Ordered ∧ ∀ entry ∈ a.entries, entry.number < a.taken

theorem numbered_sublist {a : Agenda} {entries : List Entry} (numbered : a.Numbered)
    (kept : entries.Sublist a.entries) : Numbered { a with entries } :=
  ⟨numbered.1.sublist kept, fun entry member => numbered.2 entry (kept.subset member)⟩

theorem step_numbered {a b : Agenda} {request : Queue.Request} {answer : Queue.Answer}
    (numbered : a.Numbered) (step : Step a request answer b) : b.Numbered := by
  cases step with
  | full => exact numbered
  | stale => exact numbered
  | cancelled split =>
    refine numbered_sublist numbered ?_
    rw [split]
    exact (List.sublist_cons_self _ _).append_left _
  | drained => exact numbered_sublist numbered (List.dropWhile_sublist _)
  | removed => exact numbered_sublist numbered List.filter_sublist
  | @scheduled event handle front back room fresh split before behind =>
    obtain ⟨ordered, below⟩ := numbered
    rw [Ordered, split, List.pairwise_append] at ordered
    rw [split] at below
    constructor
    · refine List.pairwise_append.mpr ⟨ordered.1, List.pairwise_cons.mpr ⟨?_, ordered.2.1⟩, ?_⟩
      · intro entry member
        exact Or.inl (behind entry member)
      · intro x memberX y memberY
        rcases List.mem_cons.mp memberY with rfl | memberY
        · rcases UInt64.lt_or_eq_of_le (before x memberX) with earlier | same
          · exact Or.inl earlier
          · exact Or.inr ⟨same, below x (List.mem_append_left _ memberX)⟩
        · exact ordered.2.2 x memberX y memberY
    · intro entry member
      show entry.number < a.taken + 1
      rcases List.mem_append.mp member with member | member
      · exact Nat.lt_succ_of_lt (below entry (List.mem_append_left _ member))
      · rcases List.mem_cons.mp member with rfl | member
        · exact Nat.lt_succ_self _
        · exact Nat.lt_succ_of_lt (below entry (List.mem_append_right _ member))

theorem run_numbered {a b : Agenda} {requests : List Queue.Request}
    {seen : List (Queue.Answer × List Event)} (numbered : a.Numbered) (run : Run a requests seen b) :
    b.Numbered := by
  induction run with
  | nil => exact numbered
  | cons step _ ih => exact ih (step_numbered numbered step)

end Agenda

namespace Queue

/-! ### Keeping an agenda -/

/-- The slot that an entry's handle names holds the entry's event under the handle's generation. -/
def Shows (q : Queue) (entry : Entry) : Prop :=
  (q.slot entry.handle.index).held =
    (some entry.event, entry.event.time, entry.handle.generation)

/-- The chain of pending slots is that of the entries' handles. -/
structure Keeps (q : Queue) (capacity : Nat) (entries : List Entry) : Prop where
  arena : ∃ vacant, q.Arena (entries.map (·.handle.index)) vacant
  shows : ∀ entry ∈ entries, q.Shows entry
  capacity : q.slots.size = capacity

namespace Keeps

variable {q : Queue} {capacity : Nat} {entries front back : List Entry} {entry : Entry}

theorem event_eq (keeps : q.Keeps capacity entries) (member : entry ∈ entries) :
    (q.slot entry.handle.index).event = some entry.event := congrArg (·.1) (keeps.shows entry member)

theorem time_eq (keeps : q.Keeps capacity entries) (member : entry ∈ entries) :
    (q.slot entry.handle.index).time = entry.event.time := congrArg (·.2.1) (keeps.shows entry member)

theorem count_eq (keeps : q.Keeps capacity entries) : q.size = entries.length := by
  obtain ⟨vacant, arena⟩ := keeps.arena
  simpa using arena.count

theorem count_le (keeps : q.Keeps capacity entries) : entries.length ≤ capacity := by
  obtain ⟨vacant, arena⟩ := keeps.arena
  have count := arena.cover.length_eq
  rw [List.length_range, keeps.capacity, List.length_append, List.length_map] at count
  omega

theorem head_eq (keeps : q.Keeps capacity entries) : q.head = (entries.map (·.handle.index)).head? := by
  obtain ⟨vacant, arena⟩ := keeps.arena
  exact arena.head_eq

theorem next_eq (keeps : q.Keeps capacity (front ++ entry :: back)) :
    (q.slot entry.handle.index).next = (back.map (·.handle.index)).head? := by
  obtain ⟨vacant, arena⟩ := keeps.arena
  rw [List.map_append, List.map_cons] at arena
  exact arena.next_eq

theorem unlink_event (keeps : q.Keeps capacity (front ++ entry :: back)) :
    (q.unlink entry.handle.index).1 = some entry.event := keeps.event_eq (by simp)

theorem unlink (keeps : q.Keeps capacity (front ++ entry :: back)) :
    (q.unlink entry.handle.index).2.Keeps capacity (front ++ back) := by
  obtain ⟨vacant, arena⟩ := keeps.arena
  rw [List.map_append, List.map_cons] at arena
  have distinct := arena.nodup
  refine ⟨⟨entry.handle.index :: vacant, ?_⟩, fun other member => ?_, ?_⟩
  · rw [List.map_append]
    exact arena.unlink
  · have apart : other.handle.index ≠ entry.handle.index := by grind
    exact (held_unlink q apart).trans (keeps.shows other (by grind))
  · exact (size_unlink q _).trans keeps.capacity

/-! ### Walks over the pending slots -/

theorem eventsFrom (keeps : q.Keeps capacity (front ++ back)) {steps : Nat} (enough : back.length ≤ steps) :
    q.eventsFrom steps (back.map (·.handle.index)).head? = back.map (·.event) := by
  induction back generalizing front steps with
  | nil => cases steps <;> rfl
  | cons entry back ih =>
    obtain ⟨steps, rfl⟩ : ∃ n, steps = n + 1 := ⟨steps - 1, by simp at enough; omega⟩
    have next := keeps.next_eq
    have event := keeps.event_eq (show entry ∈ front ++ entry :: back by simp)
    rw [List.append_cons] at keeps
    have rest := ih keeps (by simpa using enough)
    simp only [List.map_cons, List.head?_cons, Queue.eventsFrom, event, next, rest]

theorem toList (keeps : q.Keeps capacity entries) : q.toList = entries.map (·.event) := by
  rw [Queue.toList, keeps.head_eq]
  rw [← List.nil_append entries] at keeps
  exact keeps.eventsFrom (Nat.le_of_eq keeps.count_eq.symm)

theorem removeFrom (keeps : q.Keeps capacity (front ++ back)) (p : Event → Bool) {steps : Nat}
    (enough : back.length ≤ steps) :
    (removeFrom p steps (back.map (·.handle.index)).head? q).1 = (back.map (·.event)).filter p ∧
      (removeFrom p steps (back.map (·.handle.index)).head? q).2.Keeps capacity
        (front ++ back.filter fun entry => !p entry.event) := by
  induction back generalizing q front steps with
  | nil => cases steps <;> exact ⟨rfl, keeps⟩
  | cons entry back ih =>
    obtain ⟨steps, rfl⟩ : ∃ n, steps = n + 1 := ⟨steps - 1, by simp at enough; omega⟩
    have next := keeps.next_eq
    have event := keeps.event_eq (show entry ∈ front ++ entry :: back by simp)
    have fewer : back.length ≤ steps := by simpa using enough
    simp only [List.map_cons, List.head?_cons, Queue.removeFrom, event, next, Option.any_some]
    by_cases matching : p entry.event = true
    · obtain ⟨events, kept⟩ := ih keeps.unlink fewer
      have taken := keeps.unlink_event
      simp only [matching, ↓reduceIte, taken, Option.toList_some, List.singleton_append,
        List.filter_cons_of_pos, events, true_and]
      simpa [matching] using kept
    · rw [List.append_cons] at keeps
      obtain ⟨events, kept⟩ := ih keeps fewer
      simp only [matching, Bool.false_eq_true, ↓reduceIte, List.filter_cons_of_neg, not_false_eq_true,
        events, true_and]
      simpa [matching] using kept

theorem horizon_le_iff (current period : UInt64) (entry : Entry) :
    horizon current period ≤ entry.event.time ↔ Agenda.isDue current period entry = false := by
  have small : min (current.toNat + period.toNat) (UInt64.size - 1) < UInt64.size :=
    Nat.lt_of_le_of_lt (Nat.min_le_right ..) (by decide)
  rw [horizon, UInt64.le_iff_toNat_le, UInt64.toNat_ofNat_of_lt' small, Agenda.isDue,
    decide_eq_false_iff_not, Nat.not_lt]

theorem dispatched_eq (current : UInt64) (entry : Entry) :
    { entry.event with time := runTime current entry.event.time } = Agenda.dispatched current entry := by
  rw [runTime, Agenda.dispatched, immediateFrame]
  split <;> rfl

/-- What is late is reported in front of what follows it. -/
theorem reports_cons (current : UInt64) (entry : Entry) (events : List Event)
    (late : List (Destination × UInt64)) :
    Drained.reports
        { events
          late := if entry.event.time ≠ immediateFrame ∧ entry.event.time < current then
            (entry.event.destination, entry.event.time) :: late else late } current =
      [entry].filterMap (Agenda.report? current) ++ Drained.reports { events, late } current := by
  have positive : 0 < entry.event.time ↔ entry.event.time ≠ immediateFrame := UInt64.pos_iff_ne_zero
  by_cases isLate : entry.event.time ≠ immediateFrame ∧ entry.event.time < current
  · simp [Drained.reports, Agenda.report?, positive, isLate]
  · simp [Drained.reports, Agenda.report?, positive, isLate]

theorem drainTo (keeps : q.Keeps capacity entries) (current period : UInt64) {steps : Nat}
    (enough : entries.length ≤ steps) :
    let due := entries.takeWhile (Agenda.isDue current period)
    let drained := drainTo current (horizon current period) steps q
    drained.1.events = due.map (Agenda.dispatched current) ∧
      drained.1.reports current = due.filterMap (Agenda.report? current) ∧
      drained.2.Keeps capacity (entries.dropWhile (Agenda.isDue current period)) := by
  induction entries generalizing q steps with
  | nil =>
    have empty := keeps.head_eq
    cases steps with
    | zero => exact ⟨rfl, rfl, keeps⟩
    | succ steps =>
      rw [Queue.drainTo, empty]
      exact ⟨rfl, rfl, keeps⟩
  | cons entry entries ih =>
    obtain ⟨steps, rfl⟩ : ∃ n, steps = n + 1 := ⟨steps - 1, by simp at enough; omega⟩
    have first := keeps.head_eq
    have time := keeps.time_eq List.mem_cons_self
    rw [← List.nil_append (entry :: entries)] at keeps
    have taken := keeps.unlink_event
    have fewer : entries.length ≤ steps := by simpa using enough
    obtain ⟨events, reports, kept⟩ := ih keeps.unlink fewer
    rw [Queue.drainTo, first]
    simp only [List.map_cons, List.head?_cons, time, horizon_le_iff]
    by_cases due : Agenda.isDue current period entry = true
    · rw [if_neg (by simp [due]), List.takeWhile_cons_of_pos due, List.dropWhile_cons_of_pos due]
      generalize q.unlink entry.handle.index = unlinked at taken events reports kept ⊢
      obtain ⟨_, rest⟩ := unlinked
      cases taken
      refine ⟨?_, ?_, kept⟩
      · exact congrArg₂ List.cons (dispatched_eq current entry) events
      · rw [← List.singleton_append, List.filterMap_append, ← reports]
        exact reports_cons current entry _ _
    · rw [if_pos (by simpa using due), List.takeWhile_cons_of_neg due, List.dropWhile_cons_of_neg due]
      exact ⟨rfl, rfl, keeps⟩

/-! ### One request -/

theorem schedule_full (keeps : q.Keeps capacity entries) (full : entries.length = capacity)
    (event : Event) : q.schedule event = none := by
  obtain ⟨vacant, arena⟩ := keeps.arena
  have count := arena.cover.length_eq
  rw [List.length_range, keeps.capacity, List.length_append, List.length_map] at count
  have none : vacant = [] := List.length_eq_zero_iff.mp (by omega)
  subst none
  exact arena.schedule_full event

theorem schedule (keeps : q.Keeps capacity entries) (room : entries.length < capacity) (event : Event)
    (number : Nat) :
    ∃ front back handle r, entries = front ++ back ∧ q.schedule event = some (handle, r) ∧
      (∀ entry ∈ entries, entry.handle ≠ handle) ∧
      (∀ entry ∈ front, entry.event.time ≤ event.time) ∧
      (∀ entry ∈ back, event.time < entry.event.time) ∧
      r.Keeps capacity (front ++ ⟨handle, number, event⟩ :: back) := by
  obtain ⟨vacant, arena⟩ := keeps.arena
  have distinct := arena.nodup
  have count := arena.cover.length_eq
  rw [List.length_range, keeps.capacity, List.length_append, List.length_map] at count
  obtain ⟨index, vacant, rfl⟩ := List.exists_cons_of_length_pos (l := vacant) (by omega)
  have inside := arena.inside (show index ∈ _ by simp)
  have unused : ∀ entry ∈ entries, entry.handle.index ≠ index := by
    intro entry member
    grind
  obtain ⟨front, back, x, y, split, stored, inserted, due, late⟩ := arena.schedule event
  obtain ⟨front, back, rfl, rfl, rfl⟩ := List.map_eq_append_iff.mp split
  refine ⟨front, back, _, _, rfl, stored, fun entry member same => ?_, fun entry member => ?_,
    fun entry member => ?_, ⟨vacant, ?_⟩, fun entry member => ?_, ?_⟩
  · exact unused entry member (congrArg Handle.index same)
  · rw [← keeps.time_eq (List.mem_append_left _ member)]
    exact due _ (List.mem_map_of_mem member)
  · rw [← keeps.time_eq (List.mem_append_right _ member)]
    exact late _ (List.mem_map_of_mem member)
  · rw [List.map_append, List.map_cons]
    exact inserted
  · by_cases same : entry.handle.index = index
    · have new : entry = ⟨⟨index, (q.slot index).generation⟩, number, event⟩ := by grind
      rw [new]
      exact held_insert_same q event x y inside
    · exact (held_insert_other q event x y same).trans (keeps.shows entry (by grind))
  · exact (size_insert q index event x y).trans keeps.capacity

theorem cancel_present (keeps : q.Keeps capacity (front ++ entry :: back)) :
    ∃ r, q.cancel entry.handle = some (entry.event, r) ∧ r.Keeps capacity (front ++ back) := by
  have current : (q.slot entry.handle.index).generation = entry.handle.generation :=
    congrArg (·.2.2) (keeps.shows entry (by simp))
  have taken := keeps.unlink_event
  refine ⟨_, ?_, keeps.unlink⟩
  rw [Queue.cancel]
  simp only [current, ↓reduceIte]
  generalize q.unlink entry.handle.index = unlinked at taken ⊢
  obtain ⟨_, rest⟩ := unlinked
  cases taken
  rfl

theorem cancel_absent (keeps : q.Keeps capacity entries) {handle : Handle}
    (absent : ∀ entry ∈ entries, entry.handle ≠ handle) : q.cancel handle = none := by
  obtain ⟨vacant, arena⟩ := keeps.arena
  rw [Queue.cancel]
  by_cases current : (q.slot handle.index).generation = handle.generation
  · simp only [current, ↓reduceIte]
    cases held : (q.slot handle.index).event with
    | none =>
      have taken : (q.unlink handle.index).1 = none := held
      generalize q.unlink handle.index = unlinked at taken ⊢
      obtain ⟨_, rest⟩ := unlinked
      cases taken
      rfl
    | some event =>
      -- The slot is pending, so the entry that shows it has this very handle.
      obtain ⟨entry, member, index⟩ := List.mem_map.mp (arena.mem_of_event held)
      have generation : (q.slot entry.handle.index).generation = entry.handle.generation :=
        congrArg (·.2.2) (keeps.shows entry member)
      rw [index, current] at generation
      exact absurd (congrArg₂ Handle.mk index generation.symm) (absent entry member)
  · simp only [current, ↓reduceIte]

/-- What a queue answers is what its agenda demands, and it keeps the agenda that results. -/
theorem serve {a : Agenda} (keeps : q.Keeps a.capacity a.entries) (request : Request) :
    ∃ b, Agenda.Step a request (q.serve request).1 b ∧
      (q.serve request).2.Keeps b.capacity b.entries := by
  cases request with
  | schedule event =>
    rcases Nat.lt_or_eq_of_le keeps.count_le with room | full
    · obtain ⟨front, back, handle, r, split, stored, fresh, before, behind, kept⟩ :=
        keeps.schedule room event a.taken
      refine ⟨{ a with taken := a.taken + 1, entries := front ++ ⟨handle, a.taken, event⟩ :: back },
        ?_, ?_⟩ <;> rw [Queue.serve, stored]
      · exact .scheduled room fresh split before behind
      · exact kept
    · refine ⟨a, ?_, ?_⟩ <;> rw [Queue.serve, keeps.schedule_full full event]
      · exact .full full
      · exact keeps
  | cancel handle =>
    by_cases present : ∃ entry ∈ a.entries, entry.handle = handle
    · obtain ⟨entry, member, rfl⟩ := present
      obtain ⟨front, back, split⟩ := List.append_of_mem member
      rw [split] at keeps
      obtain ⟨r, cancelled, kept⟩ := keeps.cancel_present
      refine ⟨{ a with entries := front ++ back }, ?_, ?_⟩ <;> rw [Queue.serve, cancelled]
      · exact .cancelled split
      · exact kept
    · have absent : ∀ entry ∈ a.entries, entry.handle ≠ handle :=
        fun entry member same => present ⟨entry, member, same⟩
      refine ⟨a, ?_, ?_⟩ <;> rw [Queue.serve, keeps.cancel_absent absent]
      · exact .stale absent
      · exact keeps
  | drain current period =>
    obtain ⟨events, reports, kept⟩ := keeps.drainTo current period (Nat.le_of_eq keeps.count_eq.symm)
    refine ⟨{ a with entries := a.entries.dropWhile (Agenda.isDue current period) }, ?_, kept⟩
    rw [Queue.serve, Queue.drain]
    dsimp only
    rw [events, reports]
    exact .drained
  | removeWhere p =>
    have start := keeps.head_eq
    rw [← List.nil_append a.entries] at keeps
    obtain ⟨events, kept⟩ := keeps.removeFrom p (Nat.le_of_eq keeps.count_eq.symm)
    rw [List.nil_append, ← start] at *
    refine ⟨{ a with entries := a.entries.filter fun entry => !p entry.event }, ?_, kept⟩
    rw [Queue.serve, Queue.removeWhere]
    dsimp only
    rw [events]
    exact .removed

end Keeps

theorem keeps_ofCapacity (capacity : Nat) :
    (ofCapacity capacity).Keeps (min capacity (UInt32.size - 2)) [] :=
  ⟨⟨_, arena_ofCapacity capacity⟩, by simp, by simp [ofCapacity]⟩

theorem observe_run {q : Queue} {a : Agenda} (keeps : q.Keeps a.capacity a.entries)
    (requests : List Request) : ∃ b, Agenda.Run a requests (q.observe requests) b := by
  induction requests generalizing q a with
  | nil => exact ⟨a, .nil⟩
  | cons request requests ih =>
    obtain ⟨b, step, kept⟩ := keeps.serve request
    obtain ⟨c, rest⟩ := ih kept
    refine ⟨c, ?_⟩
    rw [observe]
    dsimp only
    rw [kept.toList]
    exact .cons step rest

/-- Whatever is asked of a new queue, its answers and what it shows as pending are those of an agenda
that starts empty, and the agenda that results is sorted. -/
theorem observe_agenda (capacity : Nat) (requests : List Request) :
    ∃ agenda : Agenda, Agenda.Run { capacity := min capacity (UInt32.size - 2) } requests
      ((ofCapacity capacity).observe requests) agenda ∧ agenda.Ordered := by
  let start : Agenda := { capacity := min capacity (UInt32.size - 2) }
  have keeps : (ofCapacity capacity).Keeps start.capacity start.entries := keeps_ofCapacity capacity
  have numbered : start.Numbered := ⟨List.Pairwise.nil, by simp [start]⟩
  obtain ⟨agenda, run⟩ := observe_run keeps requests
  exact ⟨agenda, run, (Agenda.run_numbered numbered run).1⟩

end Queue

end OscHost
