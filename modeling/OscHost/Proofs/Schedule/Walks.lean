import OscHost.Proofs.Schedule.Handles

/-!
# Walks through the slots

From the head, `next` leads through the pending slots in order and ends at the tail, `prev` leads back the same
way, and from the first free slot `next` leads through all the others (`Woven`). So the loops over the slots
need no bound on their steps: left to themselves they stay among the slots and end, with what the bounded
loops of the queue compute (`after_woven`).
-/

namespace OscHost

namespace Queue

/-- From `start`, `step` leads to the slots of `chain` one after the other, and no further. -/
inductive Visits (step : Nat → Option Nat) : Option Nat → List Nat → Prop where
  | nil : Visits step none []
  | cons {index : Nat} {rest : List Nat} (onwards : Visits step (step index) rest) :
      Visits step (some index) (index :: rest)

def nextOf (q : Queue) (index : Nat) : Option Nat := (q.slot index).next

def prevOf (q : Queue) (index : Nat) : Option Nat := (q.slot index).prev

/-- A slot of the arena with a slot of the arena, or none, on either side. -/
structure Encloses (q : Queue) (index : Nat) : Prop where
  inside : index < q.slots.size
  prev : ∀ i ∈ q.prevOf index, i < q.slots.size
  next : ∀ i ∈ q.nextOf index, i < q.slots.size

/-- The pending slots are those of `chain`, in order, and the free ones those of `vacant`. No link leads out of
the arena. -/
structure Woven (q : Queue) (chain vacant : List Nat) : Prop where
  forward : Visits q.nextOf q.head chain
  tail : q.tail = chain.getLast?
  backward : Visits q.prevOf q.tail chain.reverse
  free : Visits q.nextOf q.free vacant
  once : (chain ++ vacant).Nodup
  cover : ∀ index, index ∈ chain ++ vacant ↔ index < q.slots.size
  occupied : ∀ index ∈ chain, ∃ event,
    (q.slot index).event = some event ∧ (q.slot index).time = event.time
  ordered : (chain.map fun index => (q.slot index).time).Pairwise (· ≤ ·)
  empty : ∀ index ∈ vacant, (q.slot index).event = none
  count : q.size = chain.length
  starts : ∀ i, q.head = some i ∨ q.tail = some i ∨ q.free = some i → i < q.slots.size
  linked : ∀ index ∈ chain, q.Encloses index
  vacated : ∀ index ∈ vacant, ∀ i ∈ q.nextOf index, i < q.slots.size

/-! ### Loops without a bound -/

/-- The search of `schedule` from a slot backwards, and where it ends. -/
inductive Searches (q : Queue) (time : UInt64) : Option Nat → Option Nat → Prop where
  | front : Searches q time none none
  | due {index : Nat} (inside : index < q.slots.size) (due : (q.slot index).time ≤ time) :
      Searches q time (some index) (some index)
  | later {index : Nat} {found : Option Nat} (inside : index < q.slots.size)
      (later : time < (q.slot index).time) (onwards : Searches q time (q.prevOf index) found) :
      Searches q time (some index) found

/-- The loop of `toList`, which finds an event in every slot. -/
inductive Lists (q : Queue) : Option Nat → List Event → Prop where
  | nil : Lists q none []
  | cons {index : Nat} {event : Event} {events : List Event} (inside : index < q.slots.size)
      (holds : (q.slot index).event = some event) (onwards : Lists q (q.nextOf index) events) :
      Lists q (some index) (event :: events)

/-- The loop of `drain`, which finds an event in every slot. -/
inductive Drains (current limit : UInt64) : Queue → Drained → Queue → Prop where
  | empty {q : Queue} (none : q.head = none) : Drains current limit q {} q
  | ahead {q : Queue} {index : Nat} (first : q.head = some index) (inside : index < q.slots.size)
      (ahead : limit ≤ (q.slot index).time) : Drains current limit q {} q
  | due {q after : Queue} {index : Nat} {event : Event} {rest : Drained} (first : q.head = some index)
      (encloses : q.Encloses index) (due : (q.slot index).time < limit)
      (holds : (q.slot index).event = some event)
      (onwards : Drains current limit (q.unlink index).2 rest after) :
      Drains current limit q
        { events := { event with time := runTime current (q.slot index).time } :: rest.events
          late := if (q.slot index).time ≠ immediateFrame ∧ (q.slot index).time < current then
            (event.destination, (q.slot index).time) :: rest.late else rest.late } after

/-- The loop of `removeWhere`, which finds an event in every slot. -/
inductive Removes (p : Event → Bool) : Option Nat → Queue → List Event → Queue → Prop where
  | nil {q : Queue} : Removes p none q [] q
  | kept {q after : Queue} {index : Nat} {event : Event} {events : List Event}
      (inside : index < q.slots.size) (holds : (q.slot index).event = some event)
      (kept : p event = false) (onwards : Removes p (q.nextOf index) q events after) :
      Removes p (some index) q events after
  | removed {q after : Queue} {index : Nat} {event : Event} {events : List Event}
      (encloses : q.Encloses index) (holds : (q.slot index).event = some event)
      (matching : p event = true)
      (onwards : Removes p (q.nextOf index) (q.unlink index).2 events after) :
      Removes p (some index) q (event :: events) after

/-! ### Both directions -/

theorem Visits.start_mem {step : Nat → Option Nat} {start : Option Nat} {chain : List Nat}
    (visits : Visits step start chain) : ∀ i ∈ start, i ∈ chain := by
  cases visits with
  | nil => exact nofun
  | cons => simp

theorem Visits.step_mem {step : Nat → Option Nat} {start : Option Nat} {chain : List Nat}
    (visits : Visits step start chain) : ∀ index ∈ chain, ∀ i ∈ step index, i ∈ chain := by
  induction visits with
  | nil => exact nofun
  | @cons first rest onwards ih =>
    intro index member i leads
    rcases List.mem_cons.mp member with rfl | member
    · exact List.mem_cons_of_mem _ (onwards.start_mem i leads)
    · exact List.mem_cons_of_mem _ (ih index member i leads)

theorem visits_of_leads {q : Queue} {start : Option Nat} {chain : List Nat} (leads : q.Leads start chain) :
    Visits q.nextOf start chain := by
  induction chain generalizing start with
  | nil =>
    unfold Leads at leads
    rw [leads]
    exact .nil
  | cons index rest ih =>
    obtain ⟨rfl, onwards⟩ := leads
    exact .cons (ih onwards)

namespace Arena

variable {q : Queue} {chain front back vacant : List Nat} {index : Nat}

theorem forward (h : q.Arena (front ++ back) vacant) : Visits q.nextOf back.head? back := by
  induction back generalizing front with
  | nil => exact .nil
  | cons index back ih =>
    have next := h.next_eq
    rw [List.append_cons] at h
    refine .cons ?_
    unfold nextOf
    rw [next]
    exact ih h

theorem backward (h : q.Arena (front ++ back) vacant) : Visits q.prevOf front.getLast? front.reverse := by
  induction front using List.reverseRecOn generalizing back with
  | nil => exact .nil
  | append_singleton front index ih =>
    rw [List.append_assoc, List.singleton_append] at h
    have prev := h.prev_eq
    rw [List.getLast?_concat, List.reverse_append, List.reverse_singleton, List.singleton_append]
    refine .cons ?_
    unfold prevOf
    rw [prev]
    exact ih h

theorem encloses (h : q.Arena (front ++ index :: back) vacant) : q.Encloses index := by
  refine ⟨h.inside (by simp), ?_, ?_⟩
  · intro i before
    unfold prevOf at before
    rw [h.prev_eq] at before
    have member := List.mem_of_getLast? before
    exact h.inside (by simp [member])
  · intro i behind
    unfold nextOf at behind
    rw [h.next_eq] at behind
    have member := List.mem_of_head? behind
    exact h.inside (by simp [member])

theorem woven (h : q.Arena chain vacant) : q.Woven chain vacant := by
  have forward : Visits q.nextOf q.head chain := by
    rw [h.head_eq]
    rw [← List.nil_append chain] at h
    exact h.forward
  have backward : Visits q.prevOf q.tail chain.reverse := by
    rw [h.tail_eq]
    rw [← List.append_nil chain] at h
    exact h.backward
  have free := visits_of_leads h.free
  refine ⟨forward, h.tail_eq, backward, free, h.nodup, ?_, h.occupied, List.pairwise_map.mpr h.ordered, h.empty,
    h.count, ?_, ?_, ?_⟩
  · intro index
    exact h.cover.mem_iff.trans List.mem_range
  · rintro i (first | last | next)
    · exact h.inside (List.mem_append_left _ (forward.start_mem i first))
    · have member := backward.start_mem i last
      exact h.inside (List.mem_append_left _ (List.mem_reverse.mp member))
    · exact h.inside (List.mem_append_right _ (free.start_mem i next))
  · intro index member
    obtain ⟨front, back, rfl⟩ := List.append_of_mem member
    exact h.encloses
  · intro index member i leads
    exact h.inside (List.mem_append_right _ (free.step_mem index member i leads))

/-! ### Loops -/

theorem searches (h : q.Arena (front ++ back) vacant) (time : UInt64) {steps : Nat}
    (enough : front.length ≤ steps) :
    q.Searches time front.getLast? (q.lastDue time steps front.getLast?) := by
  induction front using List.reverseRecOn generalizing back steps with
  | nil =>
    have stops : q.lastDue time steps none = none := by cases steps <;> rfl
    rw [List.getLast?_nil, stops]
    exact .front
  | append_singleton front index ih =>
    rw [List.append_assoc, List.singleton_append] at h
    obtain ⟨steps, rfl⟩ : ∃ n, steps = n + 1 := ⟨steps - 1, by simp at enough; omega⟩
    have inside := h.encloses.inside
    rw [List.getLast?_concat, lastDue]
    split
    · rename_i later
      have onwards := ih h (by simpa using enough)
      rw [← h.prev_eq] at onwards
      exact .later inside later onwards
    · rename_i due
      exact .due inside (UInt64.not_lt.mp due)

theorem lists (h : q.Arena (front ++ back) vacant) {steps : Nat} (enough : back.length ≤ steps) :
    q.Lists back.head? (q.eventsFrom steps back.head?) := by
  induction back generalizing front steps with
  | nil =>
    have stops : q.eventsFrom steps none = [] := by cases steps <;> rfl
    rw [List.head?_nil, stops]
    exact .nil
  | cons index back ih =>
    obtain ⟨steps, rfl⟩ : ∃ n, steps = n + 1 := ⟨steps - 1, by simp at enough; omega⟩
    have inside := h.encloses.inside
    have next := h.next_eq
    obtain ⟨event, holds, -⟩ := h.occupied index (by simp)
    rw [List.append_cons] at h
    have onwards := ih h (by simpa using enough)
    rw [← next] at onwards
    simp only [List.head?_cons, eventsFrom, holds]
    exact .cons inside holds onwards

theorem drains (h : q.Arena chain vacant) (current limit : UInt64) {steps : Nat}
    (enough : chain.length ≤ steps) :
    Drains current limit q (drainTo current limit steps q).1 (drainTo current limit steps q).2 := by
  induction chain generalizing q vacant steps with
  | nil =>
    have none := h.head_eq
    rw [List.head?_nil] at none
    cases steps with
    | zero => exact .empty none
    | succ steps =>
      rw [drainTo, none]
      exact .empty none
  | cons index chain ih =>
    obtain ⟨steps, rfl⟩ : ∃ n, steps = n + 1 := ⟨steps - 1, by simp at enough; omega⟩
    have first := h.head_eq
    obtain ⟨event, holds, -⟩ := h.occupied index List.mem_cons_self
    rw [← List.nil_append (index :: chain)] at h
    have encloses := h.encloses
    have onwards := ih h.unlink (by simpa using enough)
    have taken : (q.unlink index).1 = some event := holds
    rw [List.head?_cons] at first
    rw [drainTo, first]
    dsimp only
    split
    · rename_i ahead
      exact .ahead first encloses.inside ahead
    · rename_i due
      have step := Drains.due first encloses (UInt64.not_le.mp due) holds onwards
      generalize q.unlink index = unlinked at taken step ⊢
      obtain ⟨_, rest⟩ := unlinked
      cases taken
      exact step

theorem removes (h : q.Arena (front ++ back) vacant) (p : Event → Bool) {steps : Nat}
    (enough : back.length ≤ steps) :
    Removes p back.head? q (removeFrom p steps back.head? q).1 (removeFrom p steps back.head? q).2 := by
  induction back generalizing q front vacant steps with
  | nil =>
    have stops : removeFrom p steps none q = ([], q) := by cases steps <;> rfl
    rw [List.head?_nil, stops]
    exact .nil
  | cons index back ih =>
    obtain ⟨steps, rfl⟩ : ∃ n, steps = n + 1 := ⟨steps - 1, by simp at enough; omega⟩
    have fewer : back.length ≤ steps := by simpa using enough
    have encloses := h.encloses
    have next := h.next_eq
    obtain ⟨event, holds, -⟩ := h.occupied index (by simp)
    simp only [List.head?_cons, removeFrom, holds, Option.any_some]
    by_cases matching : p event = true
    · have onwards := ih h.unlink fewer
      rw [← next] at onwards
      have taken : (q.unlink index).1 = some event := holds
      rw [if_pos matching, taken]
      exact .removed encloses holds matching onwards
    · rw [List.append_cons] at h
      have onwards := ih h fewer
      rw [← next] at onwards
      rw [if_neg matching]
      exact .kept encloses.inside holds (Bool.eq_false_iff.mpr matching) onwards

end Arena

/-! ### Runs -/

theorem step_capacity {a b : Agenda} {request : Request} {answer : Answer}
    (step : Agenda.Step a request answer b) : b.capacity = a.capacity := by
  cases step <;> rfl

theorem Keeps.after {q : Queue} {capacity : Nat} {entries : List Entry} (keeps : q.Keeps capacity entries)
    (requests : List Request) : ∃ later, (q.after requests).Keeps capacity later := by
  induction requests generalizing q entries with
  | nil => exact ⟨entries, keeps⟩
  | cons request requests ih =>
    let agenda : Agenda := { capacity, entries }
    have keeps : q.Keeps agenda.capacity agenda.entries := keeps
    obtain ⟨b, step, kept⟩ := keeps.serve request
    rw [step_capacity step] at kept
    exact ih kept

/-- Whatever was asked of a new queue, two chains run through its slots. The loops over them end without a
bound on their steps: the search for the place of an event, the drain of any period, the removal of any events
and the list of those that are pending. -/
theorem after_woven (capacity : Nat) (requests : List Request) :
    let q := (ofCapacity capacity).after requests
    q.slots.size = min capacity (UInt32.size - 2) ∧
      (∃ chain vacant, q.Woven chain vacant) ∧
      (∀ time, q.Searches time q.tail (q.lastDue time q.size q.tail)) ∧
      (∀ current period, Drains current (horizon current period) q (q.drain current period).1
        (q.drain current period).2) ∧
      (∀ p, Removes p q.head q (q.removeWhere p).1 (q.removeWhere p).2) ∧
      q.Lists q.head q.toList := by
  intro q
  obtain ⟨entries, keeps⟩ : ∃ entries, q.Keeps _ entries := (keeps_ofCapacity capacity).after requests
  obtain ⟨vacant, arena⟩ := keeps.arena
  generalize entries.map (·.handle.index) = chain at arena
  have enough : chain.length ≤ q.size := Nat.le_of_eq arena.count.symm
  refine ⟨keeps.capacity, ⟨chain, vacant, arena.woven⟩, ?_, ?_, ?_, ?_⟩
  · intro time
    rw [arena.tail_eq]
    rw [← List.append_nil chain] at arena
    exact arena.searches time enough
  · intro current period
    exact arena.drains current _ enough
  · intro p
    unfold removeWhere
    rw [arena.head_eq]
    rw [← List.nil_append chain] at arena
    exact arena.removes p enough
  · unfold toList
    rw [arena.head_eq]
    rw [← List.nil_append chain] at arena
    exact arena.lists enough

end Queue

end OscHost
